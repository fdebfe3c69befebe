import Reflow.Check.Directive
import Reflow.Proofs.Layout
import Reflow.Proofs.Program.SideBySide
import Reflow.Proofs.Program.Spelling

namespace Reflow.Check

open Program (skip skipFrom skipInLine Gap IsSolid)

def ScriptLine.isProgram : ScriptLine → Bool
  | program _ => true
  | run _ | directive _ => false

def isKept (line : List Char) : Bool :=
  (ScriptLine.ofLine line).isProgram

variable {line : List Char}

theorem exists_cons_of_directive? {d : Directive} (found : directive? line = some d) :
    ∃ rest, line = ';' :: rest := by
  obtain ⟨entry, mem, made⟩ := List.exists_of_findSome?_eq_some found
  obtain ⟨pattern, after, -⟩ := Option.map_eq_some_iff.1 made
  have marks : ∀ entry ∈ patternMarks, entry.1.toList.head? = some ';' := by decide
  obtain ⟨rest, mark⟩ := List.head?_eq_some_iff.1 (marks entry mem)
  exact ⟨rest ++ pattern, by rw [Text.eq_append_of_after? after, mark, List.cons_append]⟩

theorem ofLine_cases (line : List Char) : ScriptLine.ofLine line = .program (String.ofList line) ∨
    (isKept line = false ∧ ∃ rest, Text.trim line = ';' :: rest) := by
  unfold isKept ScriptLine.ofLine
  dsimp only
  split
  · rename_i command after
    exact .inr ⟨rfl, _, Text.eq_append_of_after? after⟩
  · split
    · exact .inr ⟨rfl, exists_cons_of_directive? ‹_›⟩
    · exact .inl rfl

theorem ofLine_of_isKept (kept : isKept line = true) :
    ScriptLine.ofLine line = .program (String.ofList line) := by
  rcases ofLine_cases line with same | ⟨other, -⟩
  · exact same
  · exact absurd kept (by simp [other])

theorem exists_comment_of_not_isKept (dropped : isKept line = false) :
    ∃ gap text, (∀ c ∈ gap, Text.isBlank c = true) ∧ line = gap ++ ';' :: text := by
  rcases ofLine_cases line with same | ⟨-, rest, trimmed⟩
  · exact absurd dropped (by simp [isKept, same, ScriptLine.isProgram])
  · obtain ⟨behind, split⟩ := Text.exists_trimEnd_append (line.dropWhile Text.isBlank)
    refine ⟨line.takeWhile Text.isBlank, rest ++ behind, fun c mem => List.mem_takeWhile_imp mem, ?_⟩
    rw [← List.cons_append, ← trimmed, Text.trim, ← split, List.takeWhile_append_dropWhile]

theorem program_foldr (lines : List (List Char)) :
    (lines.foldr (fun line => Script.addLine (.ofLine line)) {}).program = (lines.filter isKept).map String.ofList := by
  induction lines with
  | nil => rfl
  | cons line _ ih =>
    rw [List.foldr_cons]
    by_cases kept : isKept line = true
    · rw [List.filter_cons_of_pos kept, ofLine_of_isKept kept, List.map_cons, ← ih]
      rfl
    · rw [List.filter_cons_of_neg kept, ← ih]
      unfold isKept at kept
      cases found : ScriptLine.ofLine line with
      | program => exact absurd (by rw [found]; rfl) kept
      | run => rfl
      | directive d => rfl

def withoutDirectives (cs : List Char) : List Char :=
  (Text.lines cs).headD [] ++ ((Text.lines cs).tail.filter isKept).flatMap ('\n' :: ·)

theorem withoutDirectives_cons {c : Char} {cs : List Char} (plain : c ≠ '\n')
    (single : ∀ after, c = '\r' → cs ≠ '\n' :: after) : withoutDirectives (c :: cs) = c :: withoutDirectives cs := by
  rw [withoutDirectives, Text.lines_cons plain single]
  rfl

theorem withoutDirectives_cons_cases (c : Char) (cs : List Char) : c = '\n' ∨ (c = '\r' ∧ ∃ after, cs = '\n' :: after) ∨
    (c ≠ '\n' ∧ withoutDirectives (c :: cs) = c :: withoutDirectives cs) := by
  by_cases line : c = '\n'
  · exact .inl line
  · by_cases ends : c = '\r' ∧ ∃ after, cs = '\n' :: after
    · exact .inr (.inl ends)
    · exact .inr (.inr ⟨line, withoutDirectives_cons line fun after back same => ends ⟨back, after, same⟩⟩)

theorem withoutDirectives_solid {c : Char} (solid : IsSolid c) (cs : List Char) :
    withoutDirectives (c :: cs) = c :: withoutDirectives cs := by
  refine withoutDirectives_cons solid.ne_lineFeed ?_
  rintro after rfl
  exact absurd solid.1 (by decide)

theorem withoutDirectives_lineFeed (cs : List Char) :
    withoutDirectives ('\n' :: cs) = ((Text.lines cs).filter isKept).flatMap ('\n' :: ·) := by
  rw [withoutDirectives, Text.lines]
  rfl

theorem withoutDirectives_return (cs : List Char) :
    withoutDirectives ('\r' :: '\n' :: cs) = withoutDirectives ('\n' :: cs) := by
  rw [withoutDirectives_lineFeed, withoutDirectives, Text.lines]
  rfl

theorem withoutDirectives_lineFeed_cases (cs : List Char) :
    withoutDirectives ('\n' :: cs) = [] ∨ ∃ rest, withoutDirectives ('\n' :: cs) = '\n' :: rest := by
  rw [withoutDirectives_lineFeed]
  cases (Text.lines cs).filter isKept with
  | nil => exact .inl rfl
  | cons => exact .inr ⟨_, rfl⟩

theorem skip_directive (inner : '\n' ∉ line) (dropped : isKept line = false) (rest : List Char) :
    skip (line ++ rest) = skipFrom true true rest := by
  obtain ⟨gap, text, blanks, rfl⟩ := exists_comment_of_not_isKept dropped
  have isGap : Gap gap := by
    clear inner dropped
    induction gap with
    | nil => exact .nil
    | cons c gap ih =>
      exact .blank (blanks c (.head _)) (ih fun c mem => blanks c (.tail _ mem))
  rw [List.append_assoc, isGap.skip_append, List.cons_append, skip, Program.skipFrom_semicolon,
    Program.skipFrom_comment true fun mem => inner (by simp [mem])]

theorem skip_withoutDirectives_lineFeed (cs : List Char)
    (shorter : ∀ rest, rest.length ≤ cs.length → skip (withoutDirectives rest) = withoutDirectives (skip rest)) :
    skip (withoutDirectives ('\n' :: cs)) = withoutDirectives (skip cs) := by
  cases found : Text.lines cs with
  | nil =>
    obtain rfl := Text.eq_nil_of_lines found
    rfl
  | cons line others =>
    by_cases kept : isKept line = true
    · have same : withoutDirectives ('\n' :: cs) = '\n' :: withoutDirectives cs := by
        rw [withoutDirectives_lineFeed, withoutDirectives, found, List.filter_cons_of_pos kept]
        rfl
      rw [← shorter cs le_rfl, same]
      rfl
    · have inner := Text.lineFeed_not_mem_lines (found ▸ (.head _) : line ∈ Text.lines cs)
      have dropped : isKept line = false := Bool.eq_false_iff.2 kept
      have same : withoutDirectives ('\n' :: cs) = (others.filter isKept).flatMap ('\n' :: ·) := by
        rw [withoutDirectives_lineFeed, found, List.filter_cons_of_neg kept]
      rw [same]
      rcases Text.lines_eq_cons found with ⟨rest, split, rfl⟩ | ⟨rfl, rfl⟩
      · have skipped : skip cs = skip rest := by
          rcases split with rfl | rfl <;> exact skip_directive inner dropped _
        have less : ('\n' :: rest).length ≤ cs.length := by
          rcases split with rfl | rfl <;> grind
        rw [skipped, ← withoutDirectives_lineFeed, shorter _ less]
        rfl
      · have skipped := skip_directive inner dropped []
        rw [List.append_nil] at skipped
        rw [skipped]
        rfl

theorem skipFrom_lineFeed_withoutDirectives (newlines comment : Bool) (cs : List Char)
    (shorter : ∀ rest, rest.length ≤ cs.length → skip (withoutDirectives rest) = withoutDirectives (skip rest)) :
    skipFrom newlines comment (withoutDirectives ('\n' :: cs)) =
      withoutDirectives (skipFrom newlines comment ('\n' :: cs)) := by
  have asSkip : skipFrom true comment (withoutDirectives ('\n' :: cs)) = skip (withoutDirectives ('\n' :: cs)) := by
    rcases withoutDirectives_lineFeed_cases cs with same | ⟨after, same⟩ <;> rw [same] <;> rfl
  cases newlines with
  | false =>
    change _ = withoutDirectives ('\n' :: cs)
    rcases withoutDirectives_lineFeed_cases cs with same | ⟨after, same⟩ <;> rw [same] <;> rfl
  | true => exact asSkip.trans (skip_withoutDirectives_lineFeed cs shorter)

/-- Skipping does not see directives. The induction is on the length, since a directive is passed over as a whole
line. -/
theorem skipFrom_withoutDirectives (newlines comment : Bool) (cs : List Char) :
    skipFrom newlines comment (withoutDirectives cs) = withoutDirectives (skipFrom newlines comment cs) := by
  induction length : cs.length using Nat.strong_induction_on generalizing newlines comment cs with
  | _ n ih =>
    subst length
    have shorter (rest : List Char) (less : rest.length < cs.length) (newlines comment : Bool) :=
      ih rest.length less newlines comment rest rfl
    clear ih
    cases cs with
    | nil => rfl
    | cons c rest =>
      have next := shorter rest (Nat.lt_succ_self _)
      rcases withoutDirectives_cons_cases c rest with rfl | ⟨rfl, after, rfl⟩ | ⟨line, same⟩
      · exact skipFrom_lineFeed_withoutDirectives newlines comment rest fun after less =>
          shorter after (Nat.lt_succ_of_le less) true false
      · have passes : skipFrom newlines comment ('\r' :: '\n' :: after) =
            skipFrom newlines comment ('\n' :: after) := by
          cases comment <;> rfl
        rw [withoutDirectives_return, passes]
        exact next newlines comment
      · rw [same, skipFrom, skipFrom, if_neg line, if_neg line]
        split
        · exact next newlines true
        · split
          · exact next newlines false
          · exact same.symm

def directiveless : Program.Pairing where
  same cs cs' := cs' = withoutDirectives cs
  live _ := True
  closed := True
  next := by
    rintro c cs _ solid rfl
    exact ⟨_, withoutDirectives_solid solid cs, rfl⟩
  quiet := by
    rintro c cs _ rfl quiet head solid
    cases cs with
    | nil => cases head
    | cons d rest =>
      have feed (rest : List Char) (head : (withoutDirectives ('\n' :: rest)).head? = some c) : c = '\n' := by
        rcases withoutDirectives_lineFeed_cases rest with same | ⟨after, same⟩ <;> rw [same] at head
        · cases head
        · exact (Option.some.inj head).symm
      rcases withoutDirectives_cons_cases d rest with rfl | ⟨rfl, after, rfl⟩ | ⟨-, same⟩
      · exact solid.ne_lineFeed (feed rest head)
      · rw [withoutDirectives_return] at head
        exact solid.ne_lineFeed (feed after head)
      · rw [same] at head
        exact quiet d rfl (Option.some.inj head ▸ solid)
  skips := by
    rintro newlines cs _ - rfl
    refine ⟨skipFrom_withoutDirectives newlines false cs, ?_⟩
    rw [skipFrom_withoutDirectives]
    cases found : skipFrom newlines false cs with
    | nil => cases newlines <;> rfl
    | cons c rest =>
      rcases Program.isSolid_of_skipFrom found with solid | ⟨rfl, rfl⟩
      · rw [withoutDirectives_solid solid]
        cases newlines <;> rfl
      · rcases withoutDirectives_lineFeed_cases rest with same | ⟨after, same⟩ <;> rw [same] <;> rfl
  live_cons _ := id
  live_close := id
  live_skipFrom := id

theorem cons_intercalate {α : Type} (a : α) {lines : List (List α)} (some : lines ≠ []) :
    a :: [a].intercalate lines = lines.flatMap (a :: ·) := by
  induction lines with
  | nil => exact absurd rfl some
  | cons line lines ih =>
    cases lines with
    | nil => simp
    | cons => rw [List.intercalate_cons_cons, List.flatMap_cons, ← ih (by simp)]; simp

theorem skip_programText (text : String) :
    skip (Script.parse text).programText.toList = withoutDirectives (skip text.toList) := by
  have program : (Script.parse text).programText.toList =
      ['\n'].intercalate ((Text.lines text.toList).filter isKept) := by
    rw [Script.programText, String.toList_intercalate, Script.parse, program_foldr, List.map_map]
    simp [Function.comp_def]
  have passed : skip (withoutDirectives ('\n' :: text.toList)) = withoutDirectives (skip text.toList) :=
    skipFrom_withoutDirectives true false ('\n' :: text.toList)
  rw [program, ← passed, withoutDirectives_lineFeed]
  by_cases none : (Text.lines text.toList).filter isKept = []
  · rw [none]
    rfl
  · rw [← cons_intercalate '\n' none]
    rfl

/-- A program text is read like the script it comes from: with the same result, or with an error that has the same
cause. -/
theorem parse_programText (text : String) :
    (Program.parse (Script.parse text).programText).mapError (·.cause) = (Program.parse text).mapError (·.cause) := by
  have run (text : String) : (Program.bounded fun fuel => Program.readFunctions fuel []).run text.toList =
      (Program.readFunctions (text.toList.length + 1) []).run (skip text.toList) := by
    rw [Program.run_readFunctions, Program.skip_skip]
    rfl
  have shorter (cs : List Char) : (skip cs).length < cs.length + 1 :=
    Nat.lt_succ_of_le (Program.length_skipFrom_le true false cs)
  obtain ⟨-, matched⟩ := directiveless.readFunctions_keeps (fun _ => trivial) _ _ []
    (skip text.toList) (skip (Script.parse text).programText.toList) trivial (skip_programText text) (shorter _)
    (shorter _)
  rw [Program.parse, Program.parse, run, run]
  cases result : (Program.readFunctions (text.toList.length + 1) []).run (skip text.toList) with
  | error =>
    rw [result] at matched
    obtain ⟨fault', failed, cause⟩ := matched
    rw [failed]
    exact congrArg Except.error cause
  | ok =>
    rw [result] at matched
    obtain ⟨rest', read', -⟩ := matched
    rw [read']

end Reflow.Check
