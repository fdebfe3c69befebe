import Reflow.Proofs.Trace.Grammar

namespace Reflow

open Program (Function IsWord)

namespace Line

def startsComment (row : List Char) : Bool :=
  row.take 2 = ['/', '/']

theorem startsComment_of_ofRow {reserved : List String} {row : List Char} {mark : Mark}
    (marked : Mark.ofRow reserved row = some mark) : startsComment row = false := by
  cases row with
  | nil => rfl
  | cons c cs =>
    by_contra comment
    obtain rfl : c = '/' := by
      simp only [startsComment, Bool.not_eq_false, decide_eq_true_eq] at comment
      exact (List.cons.inj comment).1
    rw [Emitter.ofRow_comment] at marked
    simp at marked

end Line

namespace Emitter

open Line

variable {e : Emitter} {named : String → Prop} {reserved : List String} {lines : List Line} {line : Line}

theorem levelAfter_blockComment (n level : Nat) :
    Layout.levelAfter level ("//" ++ ("Basic block " ++ toString n)).toList = level := by
  have chars : ("//" ++ ("Basic block " ++ toString n)).toList =
      "//Basic block ".toList ++ (toString n).toList := by simp
  have digits : (toString n).toList ≠ [] := by simp [toString, Nat.repr, Nat.toDigits_ne_nil]
  have back : ("//" ++ ("Basic block " ++ toString n)).toList.getLast? ≠ some '\x7b' := by
    rw [chars, List.getLast?_append_of_ne_nil _ digits]
    intro brace
    exact absurd (Program.FunctionOf.continuesName_toString n _ (List.mem_of_getLast? brace)) (by decide)
  rw [Layout.levelAfter, if_neg back, chars]
  rfl

theorem IsLine.levelAfter_of_isComment (isLine : e.IsLine line) (comment : line.isComment = true) (level : Nat) :
    line.piece.levelAfter level = level := by
  cases isLine with
  | @mark b =>
    have single := (Program.FunctionOf.oneLine_blockComment (e.procedure.number b)).lines_eq
    have rows : (Line.comment s!"Basic block {e.procedure.number b}").piece.lines =
        [("//" ++ ("Basic block " ++ toString (e.procedure.number b))).toList] := single
    rw [Layout.Piece.levelAfter, rows]
    exact levelAfter_blockComment _ level
  | removed => rfl
  | _ => simp [Line.isComment] at comment

section Rows

variable (legible : e.Legible named) (isName : ∀ {name}, named name → Mark.isName reserved name = true)

include legible isName

theorem filter_rows (isLine : ∀ line ∈ lines, e.IsLine line) :
    (lines.flatMap fun line => Line.rows line.text).filter (fun row => !startsComment row) =
      (seen lines).map Line.row := by
  induction lines with
  | nil => rfl
  | cons line lines ih =>
    have later := ih fun line mem => isLine line (.tail _ mem)
    rw [List.flatMap_cons, List.filter_append, later]
    cases comment : line.isComment with
    | true =>
      obtain ⟨cs, rows⟩ := (isLine line (.head _)).exists_row_of_isComment comment
      have hidden : seen (line :: lines) = seen lines := by simp [seen, comment]
      rw [rows, hidden]
      rfl
    | false =>
      obtain ⟨mark, marked⟩ := (isLine line (.head _)).exists_mark legible isName comment
      have shown : seen (line :: lines) = line :: seen lines := by simp [seen, comment]
      rw [marked.single, shown]
      simp [startsComment_of_ofRow marked.mark]

theorem foldl_levelAfter (isLine : ∀ line ∈ lines, e.IsLine line) (level : Nat) :
    (lines.map Line.piece).foldl Layout.Piece.levelAfter level =
      ((seen lines).map Line.row).foldl Layout.levelAfter level := by
  induction lines generalizing level with
  | nil => rfl
  | cons line lines ih =>
    have later := ih fun line mem => isLine line (.tail _ mem)
    rw [List.map_cons, List.foldl_cons, later]
    cases comment : line.isComment with
    | true =>
      have hidden : seen (line :: lines) = seen lines := by simp [seen, comment]
      rw [hidden, (isLine line (.head _)).levelAfter_of_isComment comment]
    | false =>
      obtain ⟨mark, marked⟩ := (isLine line (.head _)).exists_mark legible isName comment
      have shown : seen (line :: lines) = line :: seen lines := by simp [seen, comment]
      have rows : line.piece.lines = [line.row] := marked.single
      rw [shown, Layout.Piece.levelAfter, rows]
      rfl

end Rows

end Emitter

namespace Program.FunctionOf

variable {f : Function}

theorem not_mem_of_take {name : String} {words : List String} (n : Nat)
    (other : ∀ word ∈ words, word.toList.take n ≠ name.toList.take n) : name ∉ words :=
  fun mem => other name mem rfl

theorem temporaryName_not_mem_keywords (n k : Nat) : temporaryName n k ∉ Mark.keywords := by
  refine not_mem_of_take 2 ?_
  have start : (temporaryName n k).toList.take 2 = ['_', '_'] := by simp [temporaryName, toString]
  rw [start]
  decide

theorem numbered_not_mem_keywords (n pass : Nat) :
    ("BB_LABEL_" ++ toString n ++ if pass > 1 then "_" ++ toString pass else "") ∉ Mark.keywords := by
  refine not_mem_of_take 1 ?_
  have start : ("BB_LABEL_" ++ toString n ++ if pass > 1 then "_" ++ toString pass else "").toList.take 1 = ['B'] := by
    simp
  rw [start]
  decide

/-- The rows of a body that are no comments are those of a phrase: a list of statements. -/
theorem IsRead.emitBody_parses (read : f.IsRead) (free : ∀ name ∈ f.spoken, name ∉ Mark.keywords) {session : Session}
    {config : Config} {base : Nat} {facts : Facts} {body : Body}
    (emitted : (session.emitBody config (f.procedure base) facts f.render).1 = .ok body) :
    ∃ lines, ∃ phrase : Phrase Line .list, session.Prints config (f.procedure base) facts f.render body lines ∧
      phrase.rows = Line.seen lines ∧
      (Line.rows body.text).filter (fun row => !Line.startsComment row) = (phrase.map Line.row).rows ∧
      (phrase.map Line.row).Fits (Mark.ofRow Mark.keywords) ∧
      Phrase.read? (Mark.ofRow Mark.keywords) ((Line.rows body.text).filter fun row => !Line.startsComment row) =
        some (phrase.map Line.row) ∧
      (∀ branch ∈ phrase.branches, Line.Attached branch) ∧
      (lines.map Line.piece).foldl Layout.Piece.levelAfter 0 = 0 := by
  obtain ⟨lines, prints⟩ := Session.exists_prints emitted
  have shows := read.showsOnly (· ∉ Mark.keywords) free temporaryName_not_mem_keywords numbered_not_mem_keywords
  obtain ⟨e, t, legible, -, writes⟩ := read.exists_writes shows prints
  have isName {name : String} (here : IsWord name ∧ name ∉ Mark.keywords) : Mark.isName Mark.keywords name = true :=
    Mark.isName_iff.2 here
  obtain ⟨phrase, holds, rows⟩ := writes.isList legible isName
  obtain ⟨labels, copies, progress, -, -, -, text⟩ := id prints
  have whole : (Line.rows body.text).filter (fun row => !Line.startsComment row) = (phrase.map Line.row).rows := by
    rw [text, rows_layOut, Emitter.filter_rows legible isName writes.isLine, Phrase.rows_map, rows]
  have fits : (phrase.map Line.row).Fits (Mark.ofRow Mark.keywords) := (Phrase.fits_map phrase).2 holds.fits
  refine ⟨lines, phrase, prints, rows, whole, fits, ?_, holds.attached, ?_⟩
  · rw [whole, Phrase.read?_rows fits]
  · rw [Emitter.foldl_levelAfter legible isName writes.isLine, ← rows, ← Phrase.rows_map]
    exact Phrase.foldl_levelAfter fits 0

def weave : Function where
  name := "weave"
  args := ["c", "v"]
  blocks :=
    [⟨"entry", [], [⟨none, .multiif 0 1 [(1, 3)] (some 4)⟩]⟩,
     ⟨"head", [], [⟨none, .call "read" []⟩, ⟨none, .loop 1 2 4⟩]⟩,
     ⟨"body", [], [⟨none, .condbr 0 1 3⟩]⟩,
     ⟨"pick", [], [⟨none, .switch 1 [(.value 1, 4), (.value 2, 2), (.otherwise, 1)]⟩]⟩,
     ⟨"exit", [], [⟨none, .vuse 0⟩, ⟨none, .ret (some 1)⟩]⟩]

theorem weave_isRead : weave.IsRead :=
  .of_pieces ["weave(%c, %v) \x7b\n", "entry:\n multiif [%c, ^head], [%v, ^pick], [^exit]\n",
      "head:\n call @read\n loop %v, ^body, ^exit\n", "body:\n condbr %c, ^head, ^pick\n",
      "pick:\n switch %v, [1, ^exit], [2, ^body], [default, ^head]\n",
      "exit:\n vuse %c\n ret %v\n\x7d\n"] (by decide +kernel)

theorem weave_emitBody_parses : ∃ body lines, ∃ phrase : Phrase Line .list,
    (Session.emitBody {} { verbose := true } (weave.procedure 0) (weave.procedure 0).analysis.toFacts weave.render).1 =
      .ok body ∧
    Session.Prints {} { verbose := true } (weave.procedure 0) (weave.procedure 0).analysis.toFacts weave.render body
      lines ∧
    phrase.rows = Line.seen lines ∧
    (Line.rows body.text).filter (fun row => !Line.startsComment row) = (phrase.map Line.row).rows ∧
    Phrase.read? (Mark.ofRow Mark.keywords) ((Line.rows body.text).filter fun row => !Line.startsComment row) =
      some (phrase.map Line.row) ∧
    (∀ branch ∈ phrase.branches, Line.Attached branch) ∧
    (lines.map Line.piece).foldl Layout.Piece.levelAfter 0 = 0 := by
  have printed : (Session.emitBody {} { verbose := true } (weave.procedure 0) (weave.procedure 0).analysis.toFacts
      weave.render).1.isOk = true := by decide +kernel
  obtain ⟨body, emitted⟩ := exists_eq_ok_of_isOk printed
  have free : ∀ name ∈ weave.spoken, name ∉ Mark.keywords := by decide
  obtain ⟨lines, phrase, prints, rows, whole, -, parsed, attached, level⟩ := weave_isRead.emitBody_parses free emitted
  exact ⟨body, lines, phrase, emitted, prints, rows, whole, parsed, attached, level⟩

end Program.FunctionOf

end Reflow
