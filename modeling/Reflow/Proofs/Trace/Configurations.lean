import Reflow.Proofs.Trace.Parses

namespace Reflow

def Layout.spread (width : Nat) (rows : List (Nat × List Char)) : String :=
  String.ofList (rows.flatMap fun row => List.replicate (row.1 * width) ' ' ++ row.2 ++ ['\n'])

namespace Line

def isNote (row : List Char) : Bool :=
  row = "//(removed virtual statement)".toList ||
    (Text.after? "//Basic block ".toList row).any fun number => !number.isEmpty && number.all Char.isDigit

def bare (text : String) : List (List Char) :=
  ((Text.lines text.toList).map fun line => line.dropWhile (· = ' ')).filter fun row => !isNote row

def atDepth (depth : Nat) (line : Line) : Nat × List Char :=
  (if line.isNested then depth + 1 else depth, line.row)

/-- The rows of lines with their depths: the number of braces that are open around them. -/
def nest : Nat → List Line → List (Nat × List Char)
  | _, [] => []
  | depth, line :: rest =>
    let own := if line.row = ['\x7d'] then depth - 1 else depth
    line.atDepth own :: nest (if line.row = ['\x7b'] then own + 1 else own) rest

end Line

def Phrase.nest {part : Part} (depth : Nat) : Phrase Line part → List (Nat × List Char)
  | plain row => [row.atDepth depth]
  | braces opening body closing => opening.atDepth depth :: (body.nest (depth + 1) ++ [closing.atDepth depth])
  | test head body chain => head.atDepth depth :: (body.nest depth ++ chain.nest depth)
  | loop head body => head.atDepth depth :: body.nest depth
  | switch head opening groups closing =>
    head.atDepth depth :: opening.atDepth depth :: (groups.nest (depth + 1) ++ [closing.atDepth depth])
  | nil | done | noGroup => []
  | cons first rest => first.nest depth ++ rest.nest depth
  | otherwise head body => head.atDepth depth :: body.nest depth
  | orTest head body chain => head.atDepth depth :: (body.nest depth ++ chain.nest depth)
  | group label labels first rest groups =>
    (label :: labels).map (Line.atDepth depth) ++ (first.nest depth ++ (rest.nest depth ++ groups.nest depth))

namespace Mark

variable {reserved : List String} {row : List Char} {mark : Mark}

section

variable (found : ofRow reserved row = some mark)
include found

theorem eq_opening_iff : row = ['\x7b'] ↔ mark = .opening := by
  constructor
  · rintro rfl
    exact (Option.some.inj found).symm
  · rintro rfl
    rcases cases_of_ofRow found with ⟨word, rest, -, -, -, follows⟩ | ⟨same, -⟩ | ⟨-, other⟩ | ⟨-, other⟩
    · cases follows with
      | other unnamed => exact absurd unnamed (by decide)
    · exact same
    · simp at other
    · simp at other

theorem eq_closing_iff : row = ['\x7d'] ↔ mark = .closing := by
  constructor
  · rintro rfl
    exact (Option.some.inj found).symm
  · rintro rfl
    rcases cases_of_ofRow found with ⟨word, rest, -, -, -, follows⟩ | ⟨-, other⟩ | ⟨same, -⟩ | ⟨-, other⟩
    · cases follows with
      | other unnamed => exact absurd unnamed (by decide)
    · simp at other
    · exact same
    · simp at other

theorem levelOf_of_ofRow (level : Nat) : Layout.levelOf level row = if row = ['\x7d'] then level - 1 else level := by
  rcases cases_of_ofRow found with ⟨word, rest, -, starts, -, -⟩ | ⟨rfl, -⟩ | ⟨rfl, -⟩ | ⟨rfl | rfl, -⟩
  · have front : row.head? ≠ some '\x7d' := by
      intro brace
      rw [brace] at starts
      exact absurd starts (by decide)
    have other : row ≠ ['\x7d'] := by
      rintro rfl
      exact front rfl
    rw [Layout.levelOf, if_neg front, if_neg other]
  all_goals rfl

theorem levelAfter_eq_ite (level : Nat) : Layout.levelAfter level row =
      if row = ['\x7b'] then Layout.levelOf level row + 1 else Layout.levelOf level row := by
  rw [levelAfter_of_ofRow found, levelOf_of_ofRow found]
  simp only [eq_opening_iff found, eq_closing_iff found]
  cases mark <;> rfl

end

end Mark

namespace Line

variable {reserved : List String} {mark : Mark} {line : Line} {depth : Nat} {rest : List Line}

theorem nest_opening (opens : mark? reserved line = some .opening) :
    nest depth (line :: rest) = line.atDepth depth :: nest (depth + 1) rest := by
  have brace : line.row = ['\x7b'] := (Mark.eq_opening_iff opens).2 rfl
  simp [nest, brace]

theorem nest_closing (closes : mark? reserved line = some .closing) :
    nest (depth + 1) (line :: rest) = line.atDepth depth :: nest depth rest := by
  have brace : line.row = ['\x7d'] := (Mark.eq_closing_iff closes).2 rfl
  simp [nest, brace]

theorem nest_cons (found : mark? reserved line = some mark) (open? : mark ≠ .opening) (close? : mark ≠ .closing) :
    nest depth (line :: rest) = line.atDepth depth :: nest depth rest := by
  have plain : line.row ≠ ['\x7b'] ∧ line.row ≠ ['\x7d'] :=
    ⟨fun brace => open? ((Mark.eq_opening_iff found).1 brace),
      fun brace => close? ((Mark.eq_closing_iff found).1 brace)⟩
  simp [nest, plain.1, plain.2]

theorem nest_append_cases {labels : List Line} (cases : ∀ line ∈ labels, mark? reserved line = some .case) :
    nest depth (labels ++ rest) = labels.map (atDepth depth) ++ nest depth rest := by
  induction labels with
  | nil => rfl
  | cons line _ ih =>
    rw [List.cons_append, nest_cons (cases line (.head _)) (by decide) (by decide),
      ih fun line mem => cases line (.tail _ mem)]
    rfl

end Line

theorem Phrase.nest_rows {reserved : List String} {part : Part} {phrase : Phrase Line part}
    (fits : phrase.Fits (Line.mark? reserved)) (depth : Nat) (rest : List Line) :
    Line.nest depth (phrase.rows ++ rest) = phrase.nest depth ++ Line.nest depth rest := by
  induction phrase generalizing depth rest with
  | plain =>
    obtain ⟨mark, found, isPlain⟩ := (Option.any_eq_true _ _).1 fits
    refine Line.nest_cons found ?_ ?_
    all_goals
      rintro rfl
      simp [Mark.isPlain] at isPlain
  | nil | done | noGroup => rfl
  | braces _ _ _ ih =>
    obtain ⟨opens, inner, closes⟩ := fits
    simp [rows, nest, Line.nest_opening opens, ih inner, Line.nest_closing closes]
  | switch _ _ _ _ ih =>
    obtain ⟨switches, opens, inner, closes⟩ := fits
    simp [rows, nest, Line.nest_cons switches, Line.nest_opening opens, ih inner, Line.nest_closing closes]
  | loop head body ih | otherwise head body ih =>
    simp [rows, nest, Line.nest_cons fits.1, ih fits.2]
  | test head body chain ihBody ihChain | orTest head body chain ihBody ihChain =>
    obtain ⟨tests, inner, later, -⟩ := fits
    simp [rows, nest, Line.nest_cons tests, ihBody inner, ihChain later]
  | cons _ _ ihFirst ihRest => simp [rows, nest, ihFirst fits.1, ihRest fits.2]
  | group _ _ _ _ _ ihFirst ihRest ihGroups =>
    obtain ⟨cases, here, later, others⟩ := fits
    rw [rows, ← List.cons_append, List.append_assoc, Line.nest_append_cases cases, List.append_assoc, ihFirst here,
      List.append_assoc, ihRest later, ihGroups others, nest]
    simp only [List.append_assoc]

namespace Layout

theorem lines_spread {width : Nat} {rows : List (Nat × List Char)} (single : ∀ row ∈ rows, Text.OneLine row.2) :
    Text.lines (spread width rows).toList = rows.map fun row => List.replicate (row.1 * width) ' ' ++ row.2 := by
  rw [spread, String.toList_ofList]
  induction rows with
  | nil => rfl
  | cons row rows ih =>
    have here := single row (.head _)
    have inner : '\n' ∉ List.replicate (row.1 * width) ' ' ++ row.2 := by
      intro mem
      rcases List.mem_append.1 mem with spaces | text
      · exact absurd (List.eq_of_mem_replicate spaces) (by decide)
      · exact here.inner text
    have last : (List.replicate (row.1 * width) ' ' ++ row.2).getLast? ≠ some '\r' := by
      rw [List.getLast?_append_of_ne_nil _ here.some]
      intro found
      exact absurd (here.last _ found) (by decide)
    rw [List.flatMap_cons, List.append_assoc, List.singleton_append, Text.lines_append_lineFeed _ inner last,
      ih fun row mem => single row (.tail _ mem), List.map_cons]

end Layout

theorem Line.bare_spread {width : Nat} {rows : List (Nat × List Char)} (single : ∀ row ∈ rows, Text.OneLine row.2) :
    bare (Layout.spread width rows) = (rows.map (·.2)).filter fun row => !isNote row := by
  rw [bare, Layout.lines_spread single, List.map_map]
  congr 1
  refine List.map_congr_left fun row mem => ?_
  have solid : row.2.dropWhile (· = ' ') = row.2 := by
    obtain ⟨c, cs, chars⟩ := List.exists_cons_of_ne_nil (single row mem).some
    have head := (single row mem).head c (by simp [chars])
    rw [chars]
    refine List.dropWhile_cons_of_neg ?_
    simp only [decide_eq_true_eq]
    rintro rfl
    exact absurd head (by decide)
  rw [Function.comp_apply, List.dropWhile_append_of_pos (by simp), solid]

namespace Line

variable {line : Line} {lines : List Line}

structure IsRow (line : Line) : Prop where
  single : rows line.text = [line.row]
  oneLine : Text.OneLine line.row
  level : ∀ level, Layout.levelOf level line.row = if line.row = ['\x7d'] then level - 1 else level
  after : ∀ level, Layout.levelAfter level line.row =
    if line.row = ['\x7b'] then Layout.levelOf level line.row + 1 else Layout.levelOf level line.row
  note : isNote line.row = line.isComment

theorem oneLine_of_mem_rows {text : String} {row : List Char} (mem : row ∈ rows text) (some : row ≠ []) :
    Text.OneLine row := by
  obtain ⟨whole, listed, rfl⟩ := List.mem_map.1 mem
  exact ⟨Text.trim_trimmed whole, some, fun inside => Text.lineFeed_not_mem_lines listed (Text.mem_of_mem_trim inside)⟩

theorem isNote_eq_false {row : List Char} (plain : startsComment row = false) : isNote row = false := by
  by_contra note
  rw [Bool.not_eq_false, isNote, Bool.or_eq_true, decide_eq_true_eq] at note
  rcases note with rfl | marks
  · simp [startsComment] at plain
  · obtain ⟨number, found, -⟩ := (Option.any_eq_true _ _).1 marks
    rw [Text.eq_append_of_after? found] at plain
    simp [startsComment] at plain

theorem IsMarked.isRow {reserved : List String} {mark : Mark} (marked : line.IsMarked reserved mark)
    (real : line.isComment = false) : line.IsRow where
  single := marked.single
  oneLine := by
    refine oneLine_of_mem_rows (show line.row ∈ rows line.text by simp [marked.single]) ?_
    intro empty
    have found := marked.mark
    simp [empty, Mark.ofRow, Mark.ofPunctuation] at found
  level := Mark.levelOf_of_ofRow marked.mark
  after := Mark.levelAfter_eq_ite marked.mark
  note := by rw [isNote_eq_false (startsComment_of_ofRow marked.mark), real]

theorem isRow_comment {text : String} (single : rows (Line.comment text).text = [("//" ++ text).toList])
    (note : isNote ("//" ++ text).toList = true) (closed : text.toList.getLast? ≠ some '\x7b') :
    (Line.comment text).IsRow := by
  have chars : ("//" ++ text).toList = '/' :: '/' :: text.toList := by simp
  have row : (Line.comment text).row = ("//" ++ text).toList := by rw [row, single]; rfl
  have oneLine : Text.OneLine ("//" ++ text).toList := by
    refine oneLine_of_mem_rows (show _ ∈ rows (Line.comment text).text by simp [single]) ?_
    rw [chars]
    simp
  have level (level : Nat) : Layout.levelOf level (Line.comment text).row = level := by
    rw [row, chars]
    rfl
  have open? : (Line.comment text).row.getLast? ≠ some '\x7b' := by
    rw [row, chars]
    cases last : text.toList with
    | nil => simp
    | cons =>
      rw [List.getLast?_cons_cons, List.getLast?_cons_cons, ← last]
      exact closed
  refine ⟨by rw [row, single], by rwa [row], ?_, ?_, by rw [row, note]; rfl⟩
  · intro depth
    rw [level, if_neg]
    rw [row, chars]
    simp
  · intro depth
    rw [Layout.levelAfter, if_neg open?, if_neg]
    rw [row, chars]
    simp

section

variable (isRow : ∀ line ∈ lines, line.IsRow)
include isRow

theorem filter_nest (depth : Nat) : (nest depth lines).filter (fun row => !isNote row.2) = nest depth (seen lines) := by
  induction lines generalizing depth with
  | nil => rfl
  | cons line lines ih =>
    have here := isRow line (.head _)
    have later := ih fun line mem => isRow line (.tail _ mem)
    cases comment : line.isComment with
    | true =>
      have note : isNote line.row = true := by rw [here.note, comment]
      have plain : line.row ≠ ['\x7b'] ∧ line.row ≠ ['\x7d'] := by
        constructor
        all_goals
          intro brace
          rw [brace] at note
          exact absurd note (by decide)
      have hidden : seen (line :: lines) = seen lines := by simp [seen, comment]
      rw [hidden, nest, if_neg plain.1, if_neg plain.2, List.filter_cons_of_neg (by simp [atDepth, note]), later]
    | false =>
      have shown : seen (line :: lines) = line :: seen lines := by simp [seen, comment]
      have real : isNote line.row = false := by rw [here.note, comment]
      rw [shown, nest, nest, List.filter_cons_of_pos (by simp [atDepth, real]), later]

theorem oneLine_of_mem_nest {depth : Nat} : ∀ row ∈ nest depth lines, Text.OneLine row.2 := by
  induction lines generalizing depth with
  | nil => simp [nest]
  | cons line _ ih =>
    intro row mem
    rcases List.mem_cons.1 mem with rfl | later
    · exact (isRow line (.head _)).oneLine
    · exact ih (fun line mem => isRow line (.tail _ mem)) row later

theorem layOut_eq_spread (width : Nat) : layOut width lines = Layout.spread width (nest 0 lines) := by
  have general (level : Nat) : (Layout.layPieces width level (lines.map piece)).flatten =
      (nest level lines).flatMap fun row => List.replicate (row.1 * width) ' ' ++ row.2 ++ ['\n'] := by
    induction lines generalizing level with
    | nil => rfl
    | cons line lines ih =>
      have here := isRow line (.head _)
      have rows : line.piece.lines = [line.row] := here.single
      have after : line.piece.levelAfter level = Layout.levelAfter level line.row := by
        rw [Layout.Piece.levelAfter, rows]
        rfl
      have deep : Layout.levelOf level line.row + line.piece.extra =
          (line.atDepth (if line.row = ['\x7d'] then level - 1 else level)).1 := by
        rw [here.level]
        cases nested : line.isNested <;> simp [piece, atDepth, nested]
      have some : line.row.isEmpty = false := by simpa using here.oneLine.some
      rw [List.map_cons, Layout.layPieces, List.flatten_cons, after, ih fun line mem => isRow line (.tail _ mem),
        here.after, here.level, nest, List.flatMap_cons, rows, Layout.layLines, Layout.layLines, List.append_nil,
        Layout.placed, some, deep]
      rfl
  rw [layOut, Layout.layOut, general 0, Layout.spread]

end

structure LaidOut (width : Nat) (phrase : Phrase Line .list) (lines : List Line) (text : String) : Prop where
  rows : text = Layout.spread width (nest 0 lines)
  single : ∀ row ∈ nest 0 lines, Text.OneLine row.2
  depths : (nest 0 lines).filter (fun row => !isNote row.2) = phrase.nest 0

variable {phrase : Phrase Line .list}

theorem laidOut {reserved : List String} (fits : phrase.Fits (mark? reserved))
    (isRow : ∀ line ∈ lines, line.IsRow) (rows : phrase.rows = seen lines) (width : Nat) :
    LaidOut width phrase lines (layOut width lines) where
  rows := layOut_eq_spread isRow width
  single := oneLine_of_mem_nest isRow
  depths := by
    have whole := Phrase.nest_rows fits 0 []
    rw [List.append_nil] at whole
    rw [filter_nest isRow, ← rows, whole]
    exact List.append_nil _

theorem LaidOut.bare_eq {width width' : Nat} {lines lines' : List Line}
    {text text' : String} (first : LaidOut width phrase lines text) (second : LaidOut width' phrase lines' text') :
    bare text' = bare text := by
  have shown (rows : List (Nat × List Char)) : (rows.map (·.2)).filter (fun row => !isNote row) =
      (rows.filter fun row => !isNote row.2).map (·.2) := by
    rw [List.filter_map]
    rfl
  rw [first.rows, second.rows, bare_spread first.single, bare_spread second.single, shown, shown, first.depths,
    second.depths]

end Line

namespace Emitter

variable {e : Emitter} {named : String → Prop} {reserved : List String} {line : Line}

theorem isRow_blockComment (n : Nat) : (Line.comment ("Basic block " ++ toString n)).IsRow := by
  have digits : (toString n).toList ≠ [] := by simp [toString, Nat.repr, Nat.toDigits_ne_nil]
  refine Line.isRow_comment (Program.FunctionOf.oneLine_blockComment n).lines_eq ?_ ?_
  · have chars : ("//" ++ ("Basic block " ++ toString n)).toList =
        "//Basic block ".toList ++ (toString n).toList := by simp
    have isDigit (c : Char) (mem : c ∈ (toString n).toList) : c.isDigit :=
      Nat.isDigit_of_mem_toDigits (by decide) (by decide)
        (show c ∈ Nat.toDigits 10 n by simpa [toString, Nat.repr] using mem)
    rw [Line.isNote, chars, Token.after?_append, Option.any_some, Bool.or_eq_true]
    refine .inr ?_
    simpa [digits] using isDigit
  · rw [String.toList_append, List.getLast?_append_of_ne_nil _ digits]
    intro brace
    exact absurd (Program.FunctionOf.continuesName_toString n _ (List.mem_of_getLast? brace)) (by decide)

theorem IsLine.isRow (legible : e.Legible named) (isName : ∀ {name}, named name → Mark.isName reserved name = true)
    (isLine : e.IsLine line) : line.IsRow := by
  cases comment : line.isComment with
  | false =>
    obtain ⟨mark, marked⟩ := isLine.exists_mark legible isName comment
    exact marked.isRow comment
  | true =>
    cases isLine with
    | @mark b => exact isRow_blockComment _
    | removed => exact Line.isRow_comment (by decide) (by decide) (by decide)
    | _ => simp [Line.isComment] at comment

end Emitter

namespace Program.FunctionOf

variable {f : Function}

theorem IsRead.isRow_of_prints (read : f.IsRead) {session : Session} {config : Config} {base : Nat} {facts : Facts}
    {body : Body} {lines : List Line}
    (prints : session.Prints config (f.procedure base) facts f.render body lines) :
    (∀ line ∈ lines, line.IsRow) ∧ Line.IsList [] lines := by
  obtain ⟨e, t, legible, -, writes⟩ := read.exists_writes read.showsWords prints
  exact ⟨fun line mem => (writes.isLine line mem).isRow legible Mark.isName_nil,
    writes.isList legible Mark.isName_nil⟩

/-- Two configurations give the body of one phrase, or one error. The spaces in front of a row are as many levels as the
phrase nests it, and the rows differ only in the comments that an emission adds, if one configuration asks for them. -/
theorem IsRead.emitBody_configured (read : f.IsRead) (base : Nat) (facts : Facts) (session : Session)
    (config config' : Config) :
    let p := f.procedure base
    match (session.emitBody config p facts f.render).1, (session.emitBody config' p facts f.render).1 with
    | .ok body, .ok body' => body'.temporaries = body.temporaries ∧ Line.bare body'.text = Line.bare body.text ∧
        ∃ phrase : Phrase Line .list, ∃ lines lines', phrase.Fits (Line.mark? []) ∧
          session.Prints config p facts f.render body lines ∧ Line.LaidOut config.indent phrase lines body.text ∧
          session.Prints config' p facts f.render body' lines' ∧ Line.LaidOut config'.indent phrase lines' body'.text ∧
          (config'.verbose = config.verbose → lines' = lines)
    | .error cause, .error cause' => cause' = cause
    | _, _ => False := by
  intro p
  cases assigned : p.assignLabels (session.passesOf p.name + 1) with
  | error =>
    rw [Session.emitBody_fst, Session.emitBody_fst, assigned]
    exact rfl
  | ok labels =>
    cases copied : p.copies facts with
    | error =>
      rw [Session.emitBody_fst, Session.emitBody_fst, assigned, copied]
      exact rfl
    | ok copies =>
      let e : Emitter := { procedure := p, facts, render := f.render, labels, copies, verbose := config.verbose }
      rcases (e.twins_verbose config'.verbose (.inr fun _ => rfl) Line.tells_visible?).emit.outcome {} with
        ⟨cause, cause', progress, failed, failed', alike⟩ | ⟨lines, lines', progress, emitted, emitted', alike⟩
      · rw [Session.emitBody_eq_error assigned copied failed, Session.emitBody_eq_error assigned copied failed']
        exact alike.symm
      · rw [Session.emitBody_eq_ok assigned copied emitted, Session.emitBody_eq_ok assigned copied emitted']
        rw [Line.Alike, Line.filterMap_visible?, Line.filterMap_visible?] at alike
        have prints : session.Prints config p facts f.render ⟨copies.temporaries, layOut config.indent lines⟩ lines :=
          ⟨labels, copies, progress, assigned, copied, emitted, rfl⟩
        have prints' : session.Prints config' p facts f.render
            ⟨copies.temporaries, layOut config'.indent lines'⟩ lines' :=
          ⟨labels, copies, progress, assigned, copied, emitted', rfl⟩
        obtain ⟨isRow, phrase, holds, rows⟩ := read.isRow_of_prints prints
        have first := Line.laidOut holds.fits isRow rows config.indent
        have second := Line.laidOut holds.fits (read.isRow_of_prints prints').1 (rows.trans alike) config'.indent
        refine ⟨rfl, first.bare_eq second, phrase, lines, lines', holds.fits, prints, first, prints', second, ?_⟩
        intro same
        rw [same] at emitted'
        exact (EStateM.Result.ok.inj (emitted'.symm.trans emitted)).1

def guarded : Function where
  name := "guarded"
  args := ["c"]
  blocks :=
    [⟨"entry", [], [⟨none, .condbr 0 1 2⟩]⟩,
     ⟨"body", [], [⟨none, .vuse 0⟩, ⟨none, .call "work" []⟩, ⟨none, .condbr 0 1 2⟩]⟩,
     ⟨"exit", [], [⟨none, .ret none⟩]⟩]

theorem guarded_isRead : guarded.IsRead :=
  .of_pieces ["guarded(%c) \x7b\n", "entry:\n condbr %c, ^body, ^exit\n",
      "body:\n vuse %c\n call @work\n condbr %c, ^body, ^exit\n", "exit:\n ret\n\x7d\n"] (by decide)

theorem guarded_configured : ∃ phrase : Phrase Line .list, ∃ lines lines', Line.LaidOut 3 phrase lines (
      "if (c)\n\x7b\n   BB_LABEL_1:;\n   work();\n   if (c)\n      goto BB_LABEL_1;\n\x7d\nreturn;\n") ∧
    Line.LaidOut 1 phrase lines' (
      "//Basic block 0\nif (c)\n//Basic block 1\n\x7b\n BB_LABEL_1:;\n //(removed virtual statement)\n work();\n" ++
      " if (c)\n  goto BB_LABEL_1;\n\x7d\n//Basic block 2\nreturn;\n") := by
  have plain : (Session.emitBody {} {} (guarded.procedure 0) (guarded.procedure 0).analysis.toFacts guarded.render).1 =
      .ok { temporaries := [], text :=
        "if (c)\n\x7b\n   BB_LABEL_1:;\n   work();\n   if (c)\n      goto BB_LABEL_1;\n\x7d\nreturn;\n" } := by
    decide +kernel
  have marked : (Session.emitBody {} { verbose := true, indent := 1 } (guarded.procedure 0)
      (guarded.procedure 0).analysis.toFacts guarded.render).1 = .ok { temporaries := [], text :=
        "//Basic block 0\nif (c)\n//Basic block 1\n\x7b\n BB_LABEL_1:;\n //(removed virtual statement)\n work();\n" ++
        " if (c)\n  goto BB_LABEL_1;\n\x7d\n//Basic block 2\nreturn;\n" } := by
    decide +kernel
  generalize (guarded.procedure 0).analysis.toFacts = facts at plain marked
  have bodies := guarded_isRead.emitBody_configured 0 facts {} {} { verbose := true, indent := 1 }
  simp only [plain, marked] at bodies
  obtain ⟨-, -, phrase, lines, lines', -, -, first, -, second, -⟩ := bodies
  exact ⟨phrase, lines, lines', first, second⟩

end Program.FunctionOf

end Reflow
