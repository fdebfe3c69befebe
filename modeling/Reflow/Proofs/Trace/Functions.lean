import Reflow.Proofs.Total.Functions
import Reflow.Proofs.Trace.Parses

namespace Reflow

namespace Line

def isMark : Line → Bool
  | .comment text => text != "(removed virtual statement)"
  | _ => false

def isMarkRow (row : List Char) : Bool :=
  startsComment row && row != "//(removed virtual statement)".toList

end Line

namespace Emitter

open Emission Traversal

variable {e : Emitter} {task : Task} {t t' : Traversal} {b : BlockId} {lines : List Line}

theorem isMark_blockComment (n : Nat) : (Line.comment s!"Basic block {n}").isMark = true := by
  rw [Line.isMark, bne_iff_ne]
  intro same
  have heads := congrArg (fun text : String => text.toList.head?) same
  simp [toString] at heads

theorem filter_mark (e : Emitter) (b : BlockId) : (e.mark b).filter Line.isMark = e.mark b := by
  unfold mark
  split
  · rw [List.filter_cons_of_pos (isMark_blockComment _), List.filter_nil]
  · rfl

theorem filter_isMark_copies (b : BlockId) (copies : List Copy) :
    (copies.map (Line.copy b)).filter Line.isMark = [] := by
  simp [List.filter_eq_nil_iff, Line.isMark]

theorem BodyLines.filter_isMark {stmts : List (Stmt × Kind)} (printed : e.BodyLines b stmts lines) :
    lines.filter Line.isMark = [] := by
  rw [List.filter_eq_nil_iff]
  intro line mem
  rcases printed.cases mem with ⟨stmt, -, -, text, -, rfl⟩ | rfl | tail
  · simp [Line.isMark]
  · simp [Line.isMark]
  · obtain ⟨copy, -, rfl⟩ := List.mem_map.1 tail
    simp [Line.isMark]

theorem HeaderLines.filter_isMark (printed : e.HeaderLines b lines) : lines.filter Line.isMark = [] := by
  rw [List.filter_eq_nil_iff]
  intro line mem
  rcases printed.cases mem with ⟨stmts, -, stmt, -, text, -, rfl⟩ | ⟨copy, rfl⟩
  · simp [Line.isMark]
  · simp [Line.isMark]

theorem Puts.marks (puts : e.Puts t lines t') :
    t'.rendered.reverse.flatMap e.mark = t.rendered.reverse.flatMap e.mark ++ lines.filter Line.isMark := by
  induction puts with
  | keeps rendered => rw [rendered, List.filter_nil, List.append_nil]
  | @layout _ line _ isLayout =>
    have none : line.isMark = false := by
      cases line <;> first | rfl | simp [Line.isLayout] at isLayout
    simp [none]
  | jump => simp [Line.isMark, Traversal.jumpTo]
  | again test header => rw [header.filter_isMark, List.append_nil]
  | @block t _ b opened needed stmts label _ _ fresh _ _ _ printed _ _ ih =>
    have label : (if needed then [Line.label b label] else []).filter Line.isMark = [] := by
      split <;> rfl
    have opening : (if opened then [Line.openBrace] else []).filter Line.isMark = [] := by
      split <;> rfl
    have begun : (e.started t b needed (upToLastReal stmts)).rendered = b :: t.rendered := by
      rw [started_rendered]
      change addNew _ _ = _
      rw [addNew, if_neg fresh]
    rw [ih, begun]
    simp [filter_mark, label, opening, printed.filter_isMark, saveLines, filter_isMark_copies]
  | append _ _ ihFirst ihSecond => rw [ihSecond, ihFirst, List.filter_append, List.append_assoc]

section Rows

variable {named : String → Prop} (legible : e.Legible named)
include legible

theorem IsLine.filter_isMarkRow {line : Line} (isLine : e.IsLine line) :
    (Line.rows line.text).filter Line.isMarkRow = if line.isMark then [line.text.toList] else [] := by
  cases comment : line.isComment with
  | true =>
    cases isLine with
    | @mark b =>
      have row : Line.rows ("//" ++ ("Basic block " ++ toString (e.procedure.number b))) = [_] :=
        (Program.FunctionOf.oneLine_blockComment (e.procedure.number b)).lines_eq
      change (Line.rows ("//" ++ ("Basic block " ++ toString (e.procedure.number b)))).filter _ = _
      rw [row, if_pos (isMark_blockComment _)]
      simp [Line.isMarkRow, Line.startsComment, Line.text, toString]
    | removed => decide
    | _ => simp [Line.isComment] at comment
  | false =>
    have plain : line.isMark = false := by
      cases line <;> first | rfl | simp [Line.isComment] at comment
    obtain ⟨mark, marked⟩ := isLine.exists_mark legible
      (fun word => Mark.isName_nil (legible.isWord word)) comment
    rw [marked.single, plain]
    simp [Line.isMarkRow, Line.startsComment_of_ofRow marked.mark]

theorem filter_isMarkRow (isLine : ∀ line ∈ lines, e.IsLine line) :
    (lines.flatMap fun line => Line.rows line.text).filter Line.isMarkRow =
      (lines.filter Line.isMark).map fun line => line.text.toList := by
  induction lines with
  | nil => rfl
  | cons line _ ih =>
    rw [List.flatMap_cons, List.filter_append, (isLine line (.head _)).filter_isMarkRow legible,
      ih fun line mem => isLine line (.tail _ mem)]
    cases mark : line.isMark <;> simp [mark]

end Rows

theorem Writes.marks (writes : e.Writes lines t) : lines.filter Line.isMark = t.rendered.reverse.flatMap e.mark := by
  simpa using writes.puts.marks.symm

end Emitter

namespace Program

variable {f : Function} {base : Nat} {b x : BlockId} {block : Block Nat Nat}

namespace FunctionOf

theorem WellFormed.linked (wf : f.WellFormed) (base : Nat) : (f.procedure base).Linked := by
  intro b stmts kind ok ending branches x
  cases found : f.blocks[b]? with
  | none =>
    rw [classified_of_none found] at ok
    obtain rfl := Except.ok.inj ok
    simp [Emitter.endOf, upToLastReal] at ending
  | some =>
    rw [classified_of_get found (plain_of_classified found ok)] at ok
    obtain rfl := Except.ok.inj ok
    obtain ⟨⟨stmt, kind'⟩, last, rfl⟩ := Option.map_eq_some_iff.1 ending
    obtain ⟨view, listed, same⟩ := List.mem_filterMap.1 (upToLastReal_subset _ (List.mem_of_getLast? last))
    obtain ⟨known, -⟩ := classify?_eq_some_iff.1 same
    rw [← wf.eraseDups_targets_of_kind found (mem_stmts_of_view listed) known branches, List.mem_eraseDups]

/-- The body of a function is made of the blocks that can be reached from its entry, each rendered once. With marks, the
text has the same rows and a comment for each block, in the order in which they were rendered. -/
theorem WellFormed.emitBody_covers (wf : f.WellFormed) {session : Session} {config : Config} {base : Nat}
    {body : Body} (emitted : (session.emitBody config (f.procedure base)
      (f.procedure base).analysis.toFacts f.render).1 = .ok body) :
    ∃ labels copies lines progress marked,
      let p := f.procedure base
      let e (verbose : Bool) : Emitter :=
        { procedure := p, facts := p.analysis.toFacts, render := f.render, labels, copies, verbose }
      p.assignLabels (session.passesOf f.name + 1) = .ok labels ∧ p.copies p.analysis.toFacts = .ok copies ∧
      (e config.verbose).emit {} = .ok lines progress ∧ body.text = layOut config.indent lines ∧
      progress.traversal.rendered.Nodup ∧ (∀ b, b ∈ progress.traversal.rendered ↔ p.Reachable b) ∧
      (session.emitBody config p p.analysis.toFacts f.render).2.stats.blocks =
        session.stats.blocks + p.analysis.order.length ∧
      (e true).emit {} = .ok marked progress ∧
      marked.filter (!·.isComment) = lines.filter (!·.isComment) ∧
      marked.filter (·.isMark) = progress.traversal.rendered.reverse.map (fun b => .comment s!"Basic block {b}") ∧
      (f.IsRead → ∃ body',
        (session.emitBody { config with verbose := true } p p.analysis.toFacts f.render).1 = .ok body' ∧
        (Line.rows body'.text).filter (fun row => !Line.startsComment row) =
          (Line.rows body.text).filter (fun row => !Line.startsComment row) ∧
        (Line.rows body'.text).filter Line.isMarkRow =
          progress.traversal.rendered.reverse.map fun b => s!"//Basic block {b}".toList) := by
  obtain ⟨labels, copies, lines, progress, assigned, copied, printed, rfl, blocks⟩ := Session.exists_of_emitBody emitted
  obtain ⟨marked, printed', same⟩ := Emitter.exists_emit_verbose true printed
  obtain ⟨reached, perm⟩ := Emitter.rendered_of_emit (wf.linked base) rfl printed
  have writes := Emitter.writes_of_emit rfl printed
  have writes' := Emitter.writes_of_emit rfl printed'
  have marks : marked.filter (·.isMark) =
      progress.traversal.rendered.reverse.map fun b => .comment s!"Basic block {b}" := by
    rw [writes'.marks, List.map_eq_flatMap]
    congr 1
    funext b
    simp [Emitter.mark, number_eq]
  refine ⟨labels, copies, lines, progress, marked, assigned, copied, printed, rfl,
    perm.nodup_iff.2 Procedure.order_nodup, reached, ?_, printed', same, marks, fun read => ?_⟩
  · rw [blocks, perm.length_eq]
  · have shows := read.showsWords
    refine ⟨_, Session.emitBody_eq_ok assigned copied printed', ?_, ?_⟩
    · rw [rows_layOut, rows_layOut,
        Emitter.filter_rows (read.legible shows assigned copied) Mark.isName_nil writes'.isLine,
        Emitter.filter_rows (read.legible shows assigned copied) Mark.isName_nil writes.isLine]
      exact congrArg (List.map Line.row) same
    · rw [rows_layOut, Emitter.filter_isMarkRow (read.legible shows assigned copied) writes'.isLine, marks,
        List.map_map]
      rfl

def tour : Function where
  name := "tour"
  args := ["c", "v"]
  blocks :=
    [⟨"entry", [], [⟨none, .condbr 0 1 4⟩]⟩,
     ⟨"pick", [], [⟨none, .switch 1 [(.value 1, 2), (.value 2, 7), (.otherwise, 3)]⟩]⟩,
     ⟨"one", [], [⟨none, .call "one" []⟩, ⟨none, .br 3⟩]⟩,
     ⟨"meet", [], [⟨none, .condbr 0 4 7⟩]⟩,
     ⟨"head", [⟨"x", false, [(0, 1), (3, 0), (5, 9)]⟩], [⟨none, .loop 0 5 7⟩]⟩,
     ⟨"body", [], [⟨some "y", .binary .add 7 1⟩, ⟨none, .br 4⟩]⟩,
     ⟨"dead", [], [⟨none, .br 7⟩]⟩,
     ⟨"exit", [], [⟨none, .vuse 0⟩, ⟨none, .ret none⟩]⟩]

theorem tour_isRead : tour.IsRead :=
  .of_pieces
    ["tour(%c, %v) \x7b\n", "entry:\n condbr %c, ^pick, ^head\n",
      "pick:\n switch %v, [1, ^one], [2, ^exit], [default, ^meet]\n", "one:\n call @one\n br ^meet\n",
      "meet:\n condbr %c, ^head, ^exit\n",
      "head:\n %x = phi [^entry, %v], [^meet, %c], [^body, %y]\n loop %c, ^body, ^exit\n",
      "body:\n %y = add %x, %v\n br ^head\n", "dead:\n br ^exit\n",
      "exit:\n vuse %c\n ret\n\x7d\n"] (by decide +kernel)

theorem tour_emitBody_covers : ∃ body body' labels copies lines progress,
    (Session.emitBody {} {} (tour.procedure 0) (tour.procedure 0).analysis.toFacts tour.render).1 = .ok body ∧
    Emitter.emit {
      procedure := tour.procedure 0, facts := (tour.procedure 0).analysis.toFacts
      render := tour.render, labels, copies, verbose := false } {} = .ok lines progress ∧
    body.text = layOut 3 lines ∧
    (∀ b, b ∈ progress.traversal.rendered ↔ (tour.procedure 0).Reachable b) ∧
    (Session.emitBody {} {} (tour.procedure 0) (tour.procedure 0).analysis.toFacts
      tour.render).2.stats.blocks = 7 ∧
    (Session.emitBody {} { verbose := true } (tour.procedure 0) (tour.procedure 0).analysis.toFacts tour.render).1 =
      .ok body' ∧
    (Line.rows body'.text).filter (fun row => !Line.startsComment row) =
      (Line.rows body.text).filter (fun row => !Line.startsComment row) ∧
    (Line.rows body'.text).filter Line.isMarkRow =
      progress.traversal.rendered.reverse.map fun b => s!"//Basic block {b}".toList := by
  have works : (Session.emitBody {} {} (tour.procedure 0) (tour.procedure 0).analysis.toFacts tour.render).1.isOk =
      true := by decide +kernel
  obtain ⟨body, emitted⟩ := exists_eq_ok_of_isOk works
  obtain ⟨labels, copies, lines, progress, -, -, -, printed, text, -, reached, blocks, -, -, -, rows⟩ :=
    tour_isRead.wellFormed.emitBody_covers emitted
  obtain ⟨body', emitted', same, marks⟩ := rows tour_isRead
  have order : (tour.procedure 0).analysis.order.length = 7 := by decide +kernel
  exact ⟨body, body', labels, copies, lines, progress, emitted, printed, text, reached, blocks.trans (by rw [order]),
    emitted', same, marks⟩

end FunctionOf

end Program

end Reflow
