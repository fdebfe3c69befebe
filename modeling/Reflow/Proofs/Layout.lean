import Mathlib.Tactic
import Reflow.Layout

namespace Reflow

namespace Text

variable {cs : List Char}
  {line : List Char}

structure Trimmed (cs : List Char) : Prop where
  head : ∀ c ∈ cs.head?, isBlank c = false
  last : ∀ c ∈ cs.getLast?, isBlank c = false

theorem head_dropWhile_isBlank : ∀ c ∈ (cs.dropWhile isBlank).head?, isBlank c = false := by
  intro c head
  have := List.head?_dropWhile_not isBlank cs
  simpa [Option.mem_def.1 head] using this

theorem exists_trimEnd_append (cs : List Char) : ∃ dropped, cs = trimEnd cs ++ dropped := by
  obtain ⟨dropped, split⟩ := List.dropWhile_suffix (l := cs.reverse) isBlank
  refine ⟨dropped.reverse, ?_⟩
  rw [trimEnd, ← List.reverse_append, split, List.reverse_reverse]

theorem trim_trimmed (cs : List Char) : Trimmed (trim cs) := by
  set kept := cs.dropWhile isBlank with keptEq
  have last : ∀ c ∈ (trimEnd kept).getLast?, isBlank c = false := by
    intro c found
    rw [trimEnd, List.getLast?_reverse] at found
    exact head_dropWhile_isBlank c found
  refine ⟨?_, last⟩
  intro c found
  obtain ⟨dropped, split⟩ := exists_trimEnd_append kept
  have same : kept.head? = some c := by
    have kept : (trimEnd kept).head? = some c := found
    rw [split, List.head?_append, kept]
    rfl
  exact head_dropWhile_isBlank c same

theorem Trimmed.trim_append_left (trimmed : Trimmed cs) (blanks : List Char)
    (blank : ∀ c ∈ blanks, isBlank c) : trim (blanks ++ cs) = cs := by
  have dropped : (blanks ++ cs).dropWhile isBlank = cs := by
    rw [List.dropWhile_append_of_pos blank]
    cases cs with
    | nil => rfl
    | cons c cs => exact List.dropWhile_cons_of_neg (by simp [trimmed.head c rfl])
  have kept : cs.reverse.dropWhile isBlank = cs.reverse := by
    cases reversed : cs.reverse with
    | nil => rfl
    | cons c =>
      have found : cs.getLast? = some c := by
        rw [List.getLast?_eq_head?_reverse, reversed]
        rfl
      exact List.dropWhile_cons_of_neg (by simp [trimmed.last c found])
  rw [trim, dropped, trimEnd, kept, List.reverse_reverse]

theorem Trimmed.trim_eq (trimmed : Trimmed cs) : trim cs = cs :=
  trimmed.trim_append_left [] (by simp)

theorem mem_of_mem_trim {c : Char} (mem : c ∈ trim cs) : c ∈ cs := by
  rw [trim, trimEnd, List.mem_reverse] at mem
  exact List.dropWhile_subset _ (List.mem_reverse.1 (List.dropWhile_subset _ mem))

theorem eq_append_of_after? {head rest : List Char} (found : after? head cs = some rest) : cs = head ++ rest := by
  induction head generalizing cs with
  | nil => exact Option.some.inj found
  | cons h head ih =>
    cases cs with
    | nil => simp [after?] at found
    | cons c cs =>
      rw [after?] at found
      split at found
      · rename_i same
        rw [same, List.cons_append, ← ih found]
      · simp at found

theorem lines_cons {c : Char} (plain : c ≠ '\n') (single : ∀ after, c = '\r' → cs ≠ '\n' :: after) :
    lines (c :: cs) = (c :: (lines cs).headD []) :: (lines cs).tail := by
  rw [lines.eq_4 c cs single plain]
  cases lines cs <;> rfl

theorem lines_append_lineFeed (rest : List Char) (inner : '\n' ∉ cs) (last : cs.getLast? ≠ some '\r') :
    lines (cs ++ '\n' :: rest) = cs :: lines rest := by
  induction cs with
  | nil => simp [lines]
  | cons c cs ih =>
    simp only [List.mem_cons, not_or] at inner
    have tail : cs.getLast? ≠ some '\r' := by
      cases cs with
      | nil => simp
      | cons => simpa [List.getLast?_cons_cons] using last
    have next : c = '\r' → ∀ after, cs ++ '\n' :: rest ≠ '\n' :: after := by
      rintro rfl after same
      cases cs with
      | nil => simp at last
      | cons =>
        simp only [List.cons_append, List.cons.injEq] at same
        exact inner.2 (by simp [same.1])
    rw [List.cons_append, lines.eq_4 c _ (fun after first => next first after) (Ne.symm inner.1), ih inner.2 tail]

theorem lines_eq_singleton (some : cs ≠ []) (inner : '\n' ∉ cs) : lines cs = [cs] := by
  induction cs with
  | nil => exact absurd rfl some
  | cons c cs ih =>
    simp only [List.mem_cons, not_or] at inner
    have next : c = '\r' → ∀ after, cs ≠ '\n' :: after := by
      rintro - after rfl
      exact inner.2 (.head _)
    rw [lines.eq_4 c _ (fun after first => next first after) (Ne.symm inner.1)]
    cases cs with
    | nil => rfl
    | cons => rw [ih (by simp) inner.2]

theorem lineFeed_not_mem_lines (mem : line ∈ lines cs) : '\n' ∉ line := by
  fun_induction lines cs generalizing line with
  | case1 => simp at mem
  | case2 cs ih | case3 cs ih =>
    rcases List.mem_cons.1 mem with rfl | later
    · simp
    · exact ih later
  | case4 _ _ _ ne =>
    rw [List.mem_singleton.1 mem]
    simpa using Ne.symm ne
  | case5 _ _ _ ne first _ found ih =>
    rcases List.mem_cons.1 mem with rfl | later
    · have inner : '\n' ∉ first := ih (by simp [found])
      simp only [List.mem_cons, not_or]
      exact ⟨Ne.symm ne, inner⟩
    · exact ih (by simp [found, later])

theorem eq_nil_of_lines (none : lines cs = []) : cs = [] := by
  revert none
  fun_cases lines cs with
  | case1 => exact fun _ => rfl
  | _ => simp

theorem lines_eq_cons {others : List (List Char)} (found : lines cs = line :: others) :
    (∃ rest, (cs = line ++ '\n' :: rest ∨ cs = line ++ '\r' :: '\n' :: rest) ∧ others = lines rest) ∨
      (cs = line ∧ others = []) := by
  fun_induction lines cs generalizing line with
  | case1 => cases found
  | case2 cs ih =>
    cases found
    exact .inl ⟨cs, .inr rfl, rfl⟩
  | case3 cs ih =>
    cases found
    exact .inl ⟨cs, .inl rfl, rfl⟩
  | case4 _ _ _ _ nil =>
    cases found
    exact .inr ⟨by rw [eq_nil_of_lines nil], rfl⟩
  | case5 c _ _ _ _ _ there ih =>
    cases found
    rcases ih there with ⟨after, split, rfl⟩ | ⟨rfl, rfl⟩
    · exact .inl ⟨after, split.imp (congrArg (c :: ·)) (congrArg (c :: ·)), rfl⟩
    · exact .inr ⟨rfl, rfl⟩

theorem lines_concat_lineFeed (some : cs ≠ []) (noFeed : cs.getLast? ≠ Option.some '\n')
    (noReturn : cs.getLast? ≠ Option.some '\r') : lines (cs ++ ['\n']) = lines cs := by
  have behind {first : List Char} {rest : List Char} (nonempty : rest ≠ []) :
      (first ++ rest).getLast? = rest.getLast? := List.getLast?_append_of_ne_nil _ nonempty
  fun_induction lines cs with
  | case1 => exact absurd rfl some
  | case2 cs ih =>
    by_cases empty : cs = []
    · simp [empty] at noFeed
    · rw [show '\r' :: '\n' :: cs = ['\r', '\n'] ++ cs from rfl, behind empty] at noFeed noReturn
      rw [List.cons_append, List.cons_append, lines.eq_2, ih empty noFeed noReturn]
  | case3 cs ih =>
    by_cases empty : cs = []
    · simp [empty] at noFeed
    · rw [show '\n' :: cs = ['\n'] ++ cs from rfl, behind empty] at noFeed noReturn
      rw [List.cons_append, lines.eq_3, ih empty noFeed noReturn]
  | case4 c _ _ ne nil =>
    obtain rfl := eq_nil_of_lines nil
    have apart : c ≠ '\r' := by simpa using noReturn
    rw [List.cons_append, List.nil_append, lines.eq_4 c _ (fun _ same => absurd same apart) ne]
    rfl
  | case5 c cs single ne _ _ found ih =>
    have empty : cs ≠ [] := by
      rintro rfl
      simp [lines] at found
    rw [show c :: cs = [c] ++ cs from rfl, behind empty] at noFeed noReturn
    have next : ∀ after, c = '\r' → cs ++ ['\n'] ≠ '\n' :: after := by
      intro after same starts
      cases cs with
      | nil => exact empty rfl
      | cons d ds =>
        obtain ⟨rfl, -⟩ := List.cons.inj starts
        exact single ds same rfl
    rw [List.cons_append, lines.eq_4 c _ next ne, ih empty noFeed noReturn, found]

structure OneLine (cs : List Char) : Prop extends Trimmed cs where
  some : cs ≠ []
  inner : '\n' ∉ cs

theorem OneLine.lines_eq (single : OneLine cs) : (lines cs).map trim = [cs] := by
  rw [lines_eq_singleton single.some single.inner, List.map_singleton, single.trim_eq]

theorem OneLine.lines_lineFeed_eq (single : OneLine cs) : (lines (cs ++ ['\n'])).map trim = [cs] := by
  have last : cs.getLast? ≠ Option.some '\r' := by
    intro found
    exact absurd (single.last _ found) (by decide)
  rw [lines_append_lineFeed [] single.inner last]
  simp [lines, single.trim_eq]

end Text

namespace Layout

theorem lines_layLines (width extra level : Nat) (lines : List (List Char)) (rest : List Char)
    (single : ∀ line ∈ lines, '\n' ∉ line) (trimmed : ∀ line ∈ lines, Text.Trimmed line) :
    (Text.lines (layLines width extra level lines ++ rest)).map Text.trim =
      lines ++ (Text.lines rest).map Text.trim := by
  induction lines generalizing level with
  | nil => rfl
  | cons line _ ih =>
    have tail := ih (levelAfter level line) (fun line mem => single line (.tail _ mem))
      (fun line mem => trimmed line (.tail _ mem))
    obtain ⟨blanks, blank, text⟩ : ∃ blanks : List Char, (∀ c ∈ blanks, c = ' ') ∧
        placed width level extra line = blanks ++ line ++ ['\n'] := by
      by_cases none : line = []
      · exact ⟨[], by simp, by simp [placed, none]⟩
      · exact ⟨List.replicate ((levelOf level line + extra) * width) ' ',
          fun c mem => List.eq_of_mem_replicate mem, by simp [placed, none]⟩
    have here := trimmed line (.head _)
    have inner : '\n' ∉ blanks ++ line := by
      intro mem
      rcases List.mem_append.1 mem with left | right
      · exact absurd (blank _ left) (by decide)
      · exact single line (.head _) right
    have last : (blanks ++ line).getLast? ≠ some '\r' := by
      intro found
      cases lineEq : line.getLast? with
      | none =>
        rw [List.getLast?_append, lineEq, Option.none_or] at found
        exact absurd (blank _ (List.mem_of_getLast? found)) (by decide)
      | some c =>
        rw [List.getLast?_append, lineEq, Option.some_or, Option.some_inj] at found
        have := here.last c lineEq
        rw [found] at this
        exact absurd this (by decide)
    rw [layLines, text, List.append_assoc, List.append_assoc, List.singleton_append,
      Text.lines_append_lineFeed _ inner last, List.map_cons, tail,
      here.trim_append_left, List.cons_append]
    intro c mem
    rw [blank c mem]
    decide

theorem lines_layOut (width : Nat) (pieces : List Piece) :
    (Text.lines (layOut width pieces).toList).map Text.trim = pieces.flatMap Piece.lines := by
  have general (level : Nat) : (Text.lines (layPieces width level pieces).flatten).map Text.trim =
      pieces.flatMap Piece.lines := by
    induction pieces generalizing level with
    | nil => rfl
    | cons piece _ ih =>
      have trimmed : ∀ line ∈ piece.lines, '\n' ∉ line ∧ Text.Trimmed line := by
        intro line mem
        obtain ⟨whole, listed, rfl⟩ := List.mem_map.1 mem
        exact ⟨fun inside => Text.lineFeed_not_mem_lines listed (Text.mem_of_mem_trim inside), Text.trim_trimmed whole⟩
      rw [layPieces, List.flatten_cons, lines_layLines _ _ _ _ _
        (fun line mem => (trimmed line mem).1) (fun line mem => (trimmed line mem).2), ih,
        List.flatMap_cons]
  simpa [layOut] using general 0

theorem layLines_append (width extra level : Nat) (lines more : List (List Char)) :
    layLines width extra level (lines ++ more) =
      layLines width extra level lines ++ layLines width extra (lines.foldl levelAfter level) more := by
  induction lines generalizing level with
  | nil => rfl
  | cons _ _ ih => simp only [List.cons_append, layLines, ih, List.foldl_cons, List.append_assoc]

theorem flatten_layPieces (width level : Nat) {pieces : List Piece} (flat : ∀ piece ∈ pieces, piece.extra = 0) :
    (layPieces width level pieces).flatten = layLines width 0 level (pieces.flatMap Piece.lines) := by
  induction pieces generalizing level with
  | nil => rfl
  | cons piece _ ih =>
    rw [layPieces, List.flatten_cons, List.flatMap_cons, layLines_append, flat piece (.head _),
      ih _ fun piece mem => flat piece (.tail _ mem)]
    rfl

theorem layOut_congr (width : Nat) {pieces others : List Piece} (flat : ∀ piece ∈ pieces, piece.extra = 0)
    (flat' : ∀ piece ∈ others, piece.extra = 0) (same : pieces.flatMap Piece.lines = others.flatMap Piece.lines) :
    layOut width pieces = layOut width others := by
  rw [layOut, layOut, flatten_layPieces width 0 flat, flatten_layPieces width 0 flat', same]

/-- A text that is laid out already gives the same layout as the texts it comes from, with its own and with any other
width. -/
theorem layOut_layOut (width other : Nat) (texts : List String) :
    layOut other [{ text := layOut width (texts.map fun text => { text }) }] =
      layOut other (texts.map fun text => { text }) := by
  refine layOut_congr other (by simp) (by simp) ?_
  rw [List.flatMap_singleton, Piece.lines, lines_layOut]

end Layout

end Reflow
