import Reflow.Proofs.Trace.Jumps

namespace Reflow

open Program (Function IsWord)

namespace Line

def isJumpRow (row : List Char) : Bool :=
  match Mark.ofRow [] row with
  | some (.goto _) => true
  | _ => false

def isLabelRow (row : List Char) : Bool :=
  match Mark.ofRow [] row with
  | some (.label _) => true
  | _ => false

variable {row : List Char}

theorem isJumpRow_iff :
    isJumpRow row = true ↔ ∃ name, IsWord name ∧ row = ("goto " ++ name ++ ";").toList := by
  constructor
  · intro jump
    unfold isJumpRow at jump
    split at jump
    · rename_i name marked
      obtain ⟨same, isName⟩ := Mark.eq_of_ofRow_goto marked
      exact ⟨name, (Mark.isName_iff.1 isName).1, same⟩
    · simp at jump
  · rintro ⟨name, isWord, rfl⟩
    rw [isJumpRow, Mark.ofRow_goto (Mark.isName_nil isWord)]

theorem isLabelRow_iff :
    isLabelRow row = true ↔ ∃ name, IsWord name ∧ row = (name ++ ":;").toList := by
  constructor
  · intro label
    unfold isLabelRow at label
    split at label
    · rename_i name marked
      obtain ⟨same, isName⟩ := Mark.eq_of_ofRow_label marked
      exact ⟨name, (Mark.isName_iff.1 isName).1, same⟩
    · simp at label
  · rintro ⟨name, isWord, rfl⟩
    rw [isLabelRow, Mark.ofRow_label (Mark.isName_nil isWord)]

end Line

namespace Emitter

variable {e : Emitter} {f : Function} {named : String → Prop} {x : BlockId}
  {line : Line} {lines : List Line}

def Suits (e : Emitter) (f : Function) (line : Line) : Mark → Prop
  | .goto name => f.labelOf? line = none ∧ ∃ x, f.jumpOf? line = some x ∧ e.labels.label x = .ok name
  | .label name => f.jumpOf? line = none ∧ ∃ x, f.labelOf? line = some x ∧
      ∀ other, e.labels.label x = .ok other → other = name
  | _ => f.labelOf? line = none ∧ f.jumpOf? line = none

theorem IsLine.exists_suits (isOf : e.IsOf f) (legible : e.Legible named) (isLine : e.IsLine line)
    (real : line.isComment = false) : ∃ mark, line.IsMarked [] mark ∧ e.Suits f line mark := by
  have isName {name : String} (here : named name) := Mark.isName_nil (legible.isWord here)
  have passing {b : BlockId} {stmts : List (Stmt × Kind)} {stmt : Stmt × Kind} {text : String}
      (ok : e.procedure.classified b = .ok stmts) (listed : stmt ∈ stmts) (other : stmt.2 ≠ .label)
      (passes : ∀ x, stmt.2 ≠ .jump [x]) : f.labelOf? (.stmt b stmt.1.id text) = none ∧
        f.jumpOf? (.stmt b stmt.1.id text) = none := by
    refine ⟨by rw [isOf.labelOf?_eq ok listed, if_neg other], ?_⟩
    rw [Option.eq_none_iff_forall_ne_some]
    exact fun x jump => passes x ((isOf.jumpOf?_eq_some_iff ok listed).1 jump)
  cases isLine with
  | mark | removed => simp [Line.isComment] at real
  | @label b name labelled =>
    refine ⟨_, Line.isMarked_label (isName (legible.label labelled).1), rfl, b, rfl, ?_⟩
    intro other same
    rw [labelled] at same
    exact (Except.ok.inj same).symm
  | @stmt b _ stmt _ ok listed rendered =>
    have shown := legible.shows isName ok listed rendered
    cases kind : stmt.2 with
    | label =>
      rw [kind] at shown
      obtain ⟨name, own, marked⟩ := shown
      refine ⟨_, marked, ?_, b, by rw [isOf.labelOf?_eq ok listed, if_pos kind], ?_⟩
      · rw [Option.eq_none_iff_forall_ne_some]
        intro x jump
        rw [isOf.jumpOf?_eq_some_iff ok listed, kind] at jump
        exact Kind.noConfusion jump
      · exact fun other labelled => ((legible.label labelled).2 name own).symm
    | jump =>
      rw [kind] at shown
      obtain ⟨x, name, rfl, labelled, marked⟩ := shown
      refine ⟨_, marked, by rw [isOf.labelOf?_eq ok listed, if_neg (by simp [kind])], x, ?_, labelled⟩
      exact (isOf.jumpOf?_eq_some_iff ok listed).2 kind
    | virtual =>
      rw [kind] at shown
      exact shown.elim
    | plain | init | conditional | loop | multiway | switch =>
      rw [kind] at shown
      exact ⟨_, shown, passing ok listed (by simp [kind]) (by simp [kind])⟩
  | again ok listed rendered =>
    have passes := legible.passing_of_repeated ok listed
    refine ⟨_, Line.isMarked_again isName (legible.isPassing_of_repeated ok listed rendered), ?_⟩
    rcases passes.2 with plain | init
    · exact passing ok passes.1 (by simp [plain]) (by simp [plain])
    · exact passing ok passes.1 (by simp [init]) (by simp [init])
  | copy listed =>
    refine ⟨_, Line.isMarked_copy isName ?_, rfl, rfl⟩
    rcases listed with save | tail
    · exact legible.copies.mem_saved save
    · exact legible.copies.mem_tail tail
  | @jump x _ _ labelled =>
    exact ⟨_, Line.isMarked_jump (isName (legible.label labelled).1) _, rfl, x, rfl, labelled⟩
  | openBrace => exact ⟨_, Line.isMarked_openBrace, rfl, rfl⟩
  | closeBrace => exact ⟨_, Line.isMarked_closeBrace, rfl, rfl⟩
  | emptyBraces => exact ⟨_, Line.isMarked_emptyBraces, rfl, rfl⟩
  | emptyStmt => exact ⟨_, Line.isMarked_emptyStmt, rfl, rfl⟩
  | leaveSwitch => exact ⟨_, Line.isMarked_leaveSwitch, rfl, rfl⟩
  | elseBranch => exact ⟨_, Line.isMarked_elseBranch, rfl, rfl⟩
  | elseIf ok listed tested =>
    exact ⟨_, Line.isMarked_elseIf (isName ((legible.arms ok listed).2 _ tested _ rfl)), rfl, rfl⟩
  | caseLabel => exact ⟨_, Line.isMarked_caseLabel _, rfl, rfl⟩

theorem IsLine.suits_of_mem_rows (isOf : e.IsOf f) (legible : e.Legible named) (isLine : e.IsLine line)
    {row : List Char} (mem : row ∈ Line.rows line.text) {mark : Mark} (marked : Mark.ofRow [] row = some mark) :
    e.Suits f line mark := by
  cases comment : line.isComment with
  | true =>
    obtain ⟨cs, rows⟩ := isLine.exists_row_of_isComment comment
    rw [rows, List.mem_singleton] at mem
    rw [mem, ofRow_comment] at marked
    simp at marked
  | false =>
    obtain ⟨mark', single, suits⟩ := isLine.exists_suits isOf legible comment
    rw [single.single, List.mem_singleton] at mem
    rw [mem, single.mark] at marked
    exact Option.some.inj marked ▸ suits

theorem IsLine.isMarked_of_labelOf? (isOf : e.IsOf f) (legible : e.Legible named) (isLine : e.IsLine line)
    (label : f.labelOf? line = some x) {name : String} (labelled : e.labels.label x = .ok name) :
    line.IsMarked [] (.label name) := by
  have real : line.isComment = false := by
    cases line <;> first | rfl | simp [Program.FunctionOf.labelOf?] at label
  obtain ⟨mark, marked, suits⟩ := isLine.exists_suits isOf legible real
  cases mark with
  | label =>
    obtain ⟨-, y, same, named⟩ := suits
    rw [label] at same
    obtain rfl := Option.some.inj same
    rwa [named name labelled]
  | _ => exact absurd (label.symm.trans suits.1) (by simp)

theorem IsLine.isMarked_of_jumpOf? (isOf : e.IsOf f) (legible : e.Legible named) (isLine : e.IsLine line)
    (jump : f.jumpOf? line = some x) : ∃ name, line.IsMarked [] (.goto name) := by
  have real : line.isComment = false := by
    cases line <;> first | rfl | simp [Program.FunctionOf.jumpOf?] at jump
  obtain ⟨mark, marked, suits⟩ := isLine.exists_suits isOf legible real
  cases mark with
  | goto name => exact ⟨name, marked⟩
  | label => exact absurd (jump.symm.trans suits.1) (by simp)
  | _ => exact absurd (jump.symm.trans suits.2) (by simp)

theorem IsLine.countP_rows (isOf : e.IsOf f) (legible : e.Legible named) (isLine : e.IsLine line) :
    (Line.rows line.text).countP Line.isJumpRow = (f.jumpOf? line).toList.length ∧
      (Line.rows line.text).countP Line.isLabelRow = (f.labelOf? line).toList.length := by
  cases comment : line.isComment with
  | true =>
    obtain ⟨cs, rows⟩ := isLine.exists_row_of_isComment comment
    have silent : f.jumpOf? line = none ∧ f.labelOf? line = none := by
      cases line <;> first | exact ⟨rfl, rfl⟩ | simp [Line.isComment] at comment
    simp [rows, Line.isJumpRow, Line.isLabelRow, ofRow_comment, silent]
  | false =>
    obtain ⟨mark, marked, suits⟩ := isLine.exists_suits isOf legible comment
    rw [marked.single, List.countP_singleton, List.countP_singleton, Line.isJumpRow, Line.isLabelRow, marked.mark]
    cases mark with
    | goto =>
      obtain ⟨none, x, jump, -⟩ := suits
      simp [none, jump]
    | label =>
      obtain ⟨none, x, label, -⟩ := suits
      simp [none, label]
    | _ => simp [suits.1, suits.2]

theorem countP_rows_layOut (isOf : e.IsOf f) (legible : e.Legible named) (isLine : ∀ line ∈ lines, e.IsLine line)
    (indent : Nat) :
    (Line.rows (layOut indent lines)).countP Line.isJumpRow = (lines.filterMap f.jumpOf?).length ∧
      (Line.rows (layOut indent lines)).countP Line.isLabelRow = (lines.filterMap f.labelOf?).length := by
  rw [rows_layOut]
  induction lines with
  | nil => exact ⟨rfl, rfl⟩
  | cons line lines ih =>
    obtain ⟨jumps, labels⟩ := (isLine line (.head _)).countP_rows isOf legible
    obtain ⟨jumps', labels'⟩ := ih fun line mem => isLine line (.tail _ mem)
    have head {g : Line → Option BlockId} : ((line :: lines).filterMap g).length =
        (g line).toList.length + (lines.filterMap g).length := by
      cases here : g line <;> simp [here, Nat.add_comm]
    rw [List.flatMap_cons, List.countP_append, List.countP_append, jumps, jumps', labels, labels', head, head]
    exact ⟨rfl, rfl⟩

end Emitter

namespace Program.FunctionOf

variable {f : Function}

/-- Where a row of a body is a jump, the text holds a row with the label that it names. The jump is printed for a block,
that row for the same block, and no block has two of them. -/
theorem IsRead.emitBody_jumps (read : f.IsRead) {session : Session} {config : Config} {base : Nat} {facts : Facts}
    {body : Body} (emitted : (session.emitBody config (f.procedure base) facts f.render).1 = .ok body) :
    ∃ lines, session.Prints config (f.procedure base) facts f.render body lines ∧
      Line.rows body.text = lines.flatMap (fun line => Line.rows line.text) ∧
      (∀ name, IsWord name → ("goto " ++ name ++ ";").toList ∈ Line.rows body.text →
        (name ++ ":;").toList ∈ Line.rows body.text) ∧
      (∀ line ∈ lines, ∀ name, IsWord name → ("goto " ++ name ++ ";").toList ∈ Line.rows line.text →
        ∃ x, f.jumpOf? line = some x ∧ ∃ line' ∈ lines, f.labelOf? line' = some x ∧
          Line.rows line'.text = [(name ++ ":;").toList]) ∧
      (∀ line ∈ lines, ∀ x, f.jumpOf? line = some x →
        ∃ name, IsWord name ∧ Line.rows line.text = [("goto " ++ name ++ ";").toList]) ∧
      (∀ line ∈ lines, ∀ name, IsWord name → (name ++ ":;").toList ∈ Line.rows line.text →
        ∃ x, f.labelOf? line = some x) ∧
      (Line.rows body.text).countP Line.isJumpRow = (lines.filterMap f.jumpOf?).length ∧
      (Line.rows body.text).countP Line.isLabelRow = (lines.filterMap f.labelOf?).length ∧
      (lines.filterMap f.labelOf?).Nodup := by
  obtain ⟨lines, prints⟩ := Session.exists_prints emitted
  have shows := read.showsWords
  obtain ⟨e, t, legible, isOf, writes⟩ := read.exists_writes shows prints
  have isLine := writes.isLine
  obtain ⟨once, reached⟩ := writes.jumps isOf legible
  obtain ⟨-, -, -, -, -, -, text⟩ := id prints
  have rows : Line.rows body.text = lines.flatMap fun line => Line.rows line.text := by
    rw [text, rows_layOut]
  have targets : ∀ line ∈ lines, ∀ name, IsWord name → ("goto " ++ name ++ ";").toList ∈ Line.rows line.text →
      ∃ x, f.jumpOf? line = some x ∧ ∃ line' ∈ lines, f.labelOf? line' = some x ∧
        Line.rows line'.text = [(name ++ ":;").toList] := by
    intro line mem name isWord row
    obtain ⟨-, x, jump, labelled⟩ :=
      (isLine line mem).suits_of_mem_rows isOf legible row (Mark.ofRow_goto (Mark.isName_nil isWord))
    obtain ⟨line', mem', label⟩ := reached line mem x jump
    have marked := (isLine line' mem').isMarked_of_labelOf? isOf legible label labelled
    refine ⟨x, jump, line', mem', label, ?_⟩
    rw [marked.single, (Mark.eq_of_ofRow_label marked.mark).1]
  have counts := Emitter.countP_rows_layOut isOf legible isLine config.indent
  rw [← text] at counts
  refine ⟨lines, prints, rows, ?_, targets, ?_, ?_, counts.1, counts.2, once⟩
  · intro name isWord row
    rw [rows] at row ⊢
    obtain ⟨line, mem, inLine⟩ := List.mem_flatMap.1 row
    obtain ⟨-, -, line', mem', -, label⟩ := targets line mem name isWord inLine
    exact List.mem_flatMap.2 ⟨line', mem', label ▸ .head _⟩
  · intro line mem x jump
    obtain ⟨name, marked⟩ := (isLine line mem).isMarked_of_jumpOf? isOf legible jump
    obtain ⟨row, isName⟩ := Mark.eq_of_ofRow_goto marked.mark
    refine ⟨name, (Mark.isName_iff.1 isName).1, ?_⟩
    rw [marked.single, row]
  · intro line mem name isWord row
    obtain ⟨-, x, label, -⟩ :=
      (isLine line mem).suits_of_mem_rows isOf legible row (Mark.ofRow_label (Mark.isName_nil isWord))
    exact ⟨x, label⟩

def hop : Function where
  name := "hop"
  args := ["c", "goto"]
  blocks :=
    [⟨"entry", [], [⟨none, .condbr 0 1 2⟩]⟩,
     ⟨"left", [], [⟨none, .label "here"⟩, ⟨none, .call "go" []⟩, ⟨none, .condbr 1 2 3⟩]⟩,
     ⟨"right", [⟨"x", false, [(0, 0), (1, 1)]⟩], [⟨some "y", .binary .add 6 1⟩, ⟨none, .goto 1⟩]⟩,
     ⟨"last", [], [⟨none, .ret (some 0)⟩]⟩]

theorem hop_isRead : hop.IsRead :=
  .of_pieces ["hop(%c, %goto) \x7b\n", "entry:\n condbr %c, ^left, ^right\n",
      "left:\n label here\n call @go\n condbr %goto, ^right, ^last\n",
      "right:\n %x = phi [^entry, %c], [^left, %goto]\n %y = add %x, %goto\n goto ^left\n",
      "last:\n ret %c\n\x7d\n"] (by decide +kernel)

def hopText : String :=
  "x = c;\nif (c)\n\x7b\x7d\nelse\n\x7b\n   BB_LABEL_2_2:;\n   y = x + goto;\n   goto here;\n\x7d\n" ++
    "here:;\ngo();\nx = goto;\nif (goto)\n   goto BB_LABEL_2_2;\nreturn c;\n"

theorem hop_emitBody_jumps : ∃ body lines,
    (Session.emitBody { passes := [("hop", 1)] } {} (hop.procedure 0) (hop.procedure 0).analysis.toFacts hop.render).1 =
      .ok body ∧
    Session.Prints { passes := [("hop", 1)] } {} (hop.procedure 0) (hop.procedure 0).analysis.toFacts hop.render body
      lines ∧
    (lines.filterMap hop.labelOf?).Nodup ∧
    (Line.rows body.text).countP Line.isLabelRow = (lines.filterMap hop.labelOf?).length ∧
    (∀ name ∈ ["here", "BB_LABEL_2_2"], (name ++ ":;").toList ∈ Line.rows body.text) ∧
    ∀ name ∈ ["here", "BB_LABEL_2_2"], ∃ line ∈ lines, ("goto " ++ name ++ ";").toList ∈ Line.rows line.text ∧
      ∃ x, hop.jumpOf? line = some x ∧ ∃ line' ∈ lines, hop.labelOf? line' = some x ∧
        Line.rows line'.text = [(name ++ ":;").toList] := by
  have emitted : (Session.emitBody { passes := [("hop", 1)] } {} (hop.procedure 0)
      (hop.procedure 0).analysis.toFacts hop.render).1 = .ok { temporaries := [], text := hopText } := by decide +kernel
  obtain ⟨lines, prints, rows, labels, jumps, -, -, -, count, once⟩ := hop_isRead.emitBody_jumps emitted
  have isWord : ∀ name ∈ ["here", "BB_LABEL_2_2"], IsWord name := by
    intro name listed
    rcases List.mem_pair.1 listed with rfl | rfl
    · exact Token.isWord_of_all (c := 'h') rfl rfl rfl
    · exact Token.isWord_of_all (c := 'B') rfl rfl rfl
  have found : ∀ name ∈ ["here", "BB_LABEL_2_2"], ("goto " ++ name ++ ";").toList ∈ Line.rows hopText := by
    intro name listed
    rcases List.mem_pair.1 listed with rfl | rfl
    · decide +kernel
    · decide +kernel
  refine ⟨_, lines, emitted, prints, once, count, fun name listed => ?_, fun name listed => ?_⟩
  · exact labels name (isWord name listed) (found name listed)
  · obtain ⟨line, mem, row⟩ := List.mem_flatMap.1 (rows ▸ found name listed)
    exact ⟨line, mem, row, jumps line mem name (isWord name listed) row⟩

end Program.FunctionOf

end Reflow
