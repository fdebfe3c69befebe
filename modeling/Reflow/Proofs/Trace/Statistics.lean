import Reflow.Proofs.Copies.Blocks
import Reflow.Proofs.Trace.Counts
import Reflow.Proofs.Trace.OwnLines
import Reflow.Proofs.Trace.Targets

namespace Reflow

open Program (Function IsWord)

namespace Emitter

variable {e : Emitter} {f : Function} {named : String → Prop} {b : BlockId} {line : Line} {lines : List Line}
  {t : Traversal} {text : String}
  {own : List Line}

theorem OwnLines.label?_eq_none (shown : e.OwnLines b own) (mem : line ∈ own)
    (isLabel : line.isLabel = true) : e.procedure.label? b = none := by
  cases shown with
  | @intro _ needed _ _ _ unlabelled printed =>
    rcases List.mem_append.1 mem with front | inBody
    · rcases List.mem_append.1 front with made | save
      · cases needed with
        | true => exact unlabelled rfl
        | false => exact absurd made List.not_mem_nil
      · obtain ⟨copy, -, rfl⟩ := List.mem_map.1 save
        simp [Line.isLabel] at isLabel
    · rcases printed.cases (List.mem_filter.1 inBody).1 with ⟨stmt, -, -, text, -, rfl⟩ | rfl | tail
      · simp [Line.isLabel] at isLabel
      · simp [Line.isLabel] at isLabel
      · obtain ⟨copy, -, rfl⟩ := List.mem_map.1 tail
        simp [Line.isLabel] at isLabel

theorem OwnLines.exists_label (isOf : e.IsOf f) (shown : e.OwnLines b own)
    (source : ∀ stmts, e.procedure.classified b = .ok stmts → ∃ stmt ∈ stmts, stmt.2 = .label) :
    ∃ line ∈ own, f.labelOf? line = some b := by
  cases shown with
  | @intro stmts _ _ body ok _ printed =>
    obtain ⟨stmt, listed, isLabel⟩ := source stmts ok
    have kept := mem_upToLastReal listed (by rw [isLabel]; rfl)
    have inBody : b ∈ body.filterMap f.labelOf? := by
      rw [printed.labels isOf ok (upToLastReal_subset stmts)]
      exact List.mem_map.2 ⟨stmt, List.mem_filter.2 ⟨kept, by simpa using isLabel⟩, rfl⟩
    obtain ⟨line, mem, here⟩ := List.mem_filterMap.1 inBody
    exact ⟨line, List.mem_append_right _ (List.mem_filter.2 ⟨mem, isOf_of_labelOf? here⟩), here⟩

theorem Writes.isLabel_eq (isOf : e.IsOf f) (legible : e.Legible named) (writes : e.Writes lines t)
    (mem : line ∈ lines) (label : f.labelOf? line = some b) : line.isLabel = (e.procedure.label? b).isNone := by
  cases isLabel : line.isLabel with
  | true =>
    have rendered := ((writes.puts.printsLabels isOf legible).fresh b (List.mem_filterMap.2 ⟨line, mem, label⟩)).2
    obtain ⟨before, own, after, split, earlier, shown, later⟩ := writes.places rendered
    have listed : line ∈ before ++ own ++ after := by
      rw [← split]
      exact List.mem_filter.2 ⟨mem, isOf_of_labelOf? label⟩
    rcases List.mem_append.1 listed with front | echo
    · rcases List.mem_append.1 front with echo | inOwn
      · simp [earlier.labelOf?_eq_none isOf echo] at label
      · rw [shown.label?_eq_none inOwn isLabel]
        rfl
    · simp [later.labelOf?_eq_none isOf echo] at label
  | false =>
    cases writes.isLine line mem with
    | label => simp [Line.isLabel] at isLabel
    | stmt ok listed rendered =>
      rw [isOf.labelOf?_eq ok listed] at label
      split at label
      · rename_i kind
        obtain rfl := Option.some.inj label
        have own := legible.own ok _ listed kind
        rw [Option.isNone_eq_false_iff.2 own]
      · simp at label
    | again ok listed rendered =>
      obtain ⟨listed, passes⟩ := legible.passing_of_repeated ok listed
      rw [isOf.labelOf?_eq ok listed] at label
      split at label
      · rename_i kind
        simp [kind] at passes
      · simp at label
    | _ => simp [Program.FunctionOf.labelOf?] at label

theorem Writes.length_labels (isOf : e.IsOf f) (legible : e.Legible named)
    (source : ∀ b, (e.procedure.label? b).isSome → ∀ stmts, e.procedure.classified b = .ok stmts →
      ∃ stmt ∈ stmts, stmt.2 = .label)
    (writes : e.Writes lines t) (nodup : t.rendered.Nodup) :
    (lines.filterMap f.labelOf?).length =
      lines.countP Line.isLabel + t.rendered.countP fun b => (e.procedure.label? b).isSome := by
  have prints := writes.puts.printsLabels isOf legible
  have made : (lines.filterMap f.labelOf?).countP (fun b => ¬ (e.procedure.label? b).isSome) =
      lines.countP Line.isLabel := by
    rw [List.countP_filterMap]
    refine List.countP_congr fun line mem => ?_
    cases label : f.labelOf? line with
    | none => cases line <;> simp_all [Program.FunctionOf.labelOf?, Line.isLabel]
    | some b => simp [writes.isLabel_eq isOf legible mem label]
  have own : (lines.filterMap f.labelOf?).countP (fun b => (e.procedure.label? b).isSome) =
      t.rendered.countP fun b => (e.procedure.label? b).isSome := by
    rw [List.countP_eq_length_filter, List.countP_eq_length_filter]
    refine ((List.perm_ext_iff_of_nodup (prints.once.filter _) (nodup.filter _)).2 fun b => ?_).length_eq
    rw [List.mem_filter, List.mem_filter, and_congr_left_iff]
    intro labelled
    constructor
    · exact fun mem => (prints.fresh b mem).2
    · intro rendered
      obtain ⟨before, own, after, split, -, shown, -⟩ := writes.places rendered
      obtain ⟨line, inOwn, label⟩ := shown.exists_label isOf (source b labelled)
      have listed : line ∈ lines.filter (·.isOf b) := by
        rw [split]
        exact List.mem_append_left _ (List.mem_append_right _ inOwn)
      exact List.mem_filterMap.2 ⟨line, (List.mem_filter.1 listed).1, label⟩
  rw [List.length_eq_countP_add_countP fun b => (e.procedure.label? b).isSome, own, made, Nat.add_comm]

end Emitter

def Stats.addFunctions (stats : Stats) (calls : List (String × Nat × Nat)) : Stats :=
  calls.foldl (fun stats (name, blocks, size) => stats.addFunction name blocks size) stats

theorem Stats.largest_addFunctions (calls : List (String × Nat × Nat)) :
    let stats := Stats.addFunctions {} calls
    (∀ call ∈ calls, call.2.2 ≤ stats.largestSize) ∧
      (stats.largestSize = 0 ∧ stats.largestName = "" ∨
        0 < stats.largestSize ∧ ∃ before blocks after,
          calls = before ++ (stats.largestName, blocks, stats.largestSize) :: after ∧
          ∀ call ∈ before, call.2.2 < stats.largestSize) := by
  induction calls using List.reverseRecOn with
  | nil => exact ⟨by simp, .inl ⟨rfl, rfl⟩⟩
  | append_singleton calls call ih =>
    obtain ⟨name, blocks, size⟩ := call
    obtain ⟨bound, first⟩ := ih
    have last : Stats.addFunctions {} (calls ++ [(name, blocks, size)]) =
        (Stats.addFunctions {} calls).addFunction name blocks size := by
      simp [addFunctions]
    rw [last, addFunction]
    dsimp only
    split
    · rename_i larger
      refine ⟨?_, .inr ⟨Nat.zero_lt_of_lt larger, calls, blocks, [], rfl, fun call mem => ?_⟩⟩
      · intro call mem
        rcases List.mem_append.1 mem with old | new
        · exact ((bound call old).trans_lt larger).le
        · rw [List.mem_singleton.1 new]
      · exact (bound call mem).trans_lt larger
    · rename_i smaller
      refine ⟨?_, ?_⟩
      · intro call mem
        rcases List.mem_append.1 mem with old | new
        · exact bound call old
        · rw [List.mem_singleton.1 new]
          exact Nat.le_of_not_lt smaller
      · rcases first with empty | ⟨positive, before, blocks', after, split, less⟩
        · exact .inl empty
        · refine .inr ⟨positive, before, blocks', after ++ [(name, blocks, size)], ?_, less⟩
          calc calls ++ [(name, blocks, size)]
            _ = before ++ (_, blocks', _) :: after ++ [(name, blocks, size)] := congrArg (· ++ _) split
            _ = before ++ (_, blocks', _) :: (after ++ [(name, blocks, size)]) := by simp

theorem Stats.addFunction_eq (stats : Stats) (name : String) (blocks size : Nat) :
    stats.addFunction name blocks size =
      { stats with
        functions := stats.functions + 1
        blocks := stats.blocks + blocks
        textSize := stats.textSize + size
        largestSize := if stats.largestSize < size then size else stats.largestSize
        largestName := if stats.largestSize < size then name else stats.largestName } := by
  unfold addFunction
  split <;> rfl

theorem Session.stats_emitBody {session : Session} {config : Config} {p : Procedure} {facts : Facts} {render : Renderer}
    {labels : Labels} {copies : Copies} {lines : List Line} {progress : Progress}
    (assigned : p.assignLabels (session.passesOf p.name + 1) = .ok labels) (copied : p.copies facts = .ok copies)
    (emitted : Emitter.emit { procedure := p, facts, render, labels, copies, verbose := config.verbose } {} =
      .ok lines progress) :
    (session.emitBody config p facts render).2.stats =
      (((session.stats.addCopies copies.count copies.temporaries.length).addJumps progress.jumps).addLabels
        progress.labels).addFunction p.name progress.traversal.rendered.length
          (layOut config.indent lines).utf8ByteSize := by
  have pass : (session.begin p.name).1 = session.passesOf p.name + 1 := rfl
  rw [emitBody]
  simp only [pass, assigned, copied, emitLines, emitted]
  rfl

namespace Program.FunctionOf

variable {f : Function} {session : Session} {config : Config} {base : Nat} {body : Body}

theorem exists_label_of_isSome {b : BlockId} {stmts : List (Stmt × Kind)}
    (labelled : ((f.procedure base).label? b).isSome)
    (ok : (f.procedure base).classified b = .ok stmts) : ∃ stmt ∈ stmts, stmt.2 = .label := by
  rw [label?_procedure, sourceLabel?] at labelled
  cases found : f.blocks[b]? with
  | none => simp [found] at labelled
  | some block =>
    rw [classified_of_get found (plain_of_classified found ok)] at ok
    obtain rfl := Except.ok.inj ok
    rw [found, Option.bind_some, Block.label?] at labelled
    split at labelled
    · rename_i result name rest stmts
      refine ⟨_, List.mem_filterMap.2 ⟨(f.blockStart b + block.phis.length, ⟨result, .label name⟩), ?_, rfl⟩, rfl⟩
      rw [views, stmts]
      exact .head _
    · simp at labelled

/-- What a body adds to the statistics of its session stands in the body. Its rows that are jumps are those counted, and
its rows that are labels are the labels counted and those of the source. -/
theorem IsRead.emitBody_statistics (read : f.IsRead)
    (emitted : (session.emitBody config (f.procedure base) (f.procedure base).analysis.toFacts f.render).1 =
      .ok body) :
    (∃ copies lines,
      let p := f.procedure base
      let before := session.stats
      let after := (session.emitBody config p p.analysis.toFacts f.render).2.stats
      p.copies p.analysis.toFacts = .ok copies ∧ session.Prints config p p.analysis.toFacts f.render body lines ∧
      after.functions = before.functions + 1 ∧
      after.jumps = before.jumps + (Line.rows body.text).countP Line.isJumpRow ∧
      after.labels = before.labels + lines.countP Line.isLabel ∧
      (Line.rows body.text).countP Line.isLabelRow =
        lines.countP Line.isLabel + p.analysis.order.countP (fun b => (f.sourceLabel? b).isSome) ∧
      after.blocks = before.blocks + p.analysis.order.length ∧
      after.textSize = before.textSize + body.text.utf8ByteSize ∧
      after.copies = before.copies +
        (p.analysis.order.map fun b => (copies.saved b).length + (copies.tail b).length).sum ∧
      after.temporaries = before.temporaries + body.temporaries.length ∧
      (after.largestSize, after.largestName) =
        if before.largestSize < body.text.utf8ByteSize then (body.text.utf8ByteSize, f.name)
        else (before.largestSize, before.largestName)) ∧
    ∀ calls : List (String × Nat × Nat),
      let stats := Stats.addFunctions {} calls
      (∀ call ∈ calls, call.2.2 ≤ stats.largestSize) ∧
        (stats.largestSize = 0 ∧ stats.largestName = "" ∨
          0 < stats.largestSize ∧ ∃ before blocks after,
            calls = before ++ (stats.largestName, blocks, stats.largestSize) :: after ∧
            ∀ call ∈ before, call.2.2 < stats.largestSize) := by
  refine ⟨?_, Stats.largest_addFunctions⟩
  obtain ⟨labels, copies, lines, progress, assigned, copied, printed, rfl, -⟩ := Session.exists_of_emitBody emitted
  have shows := read.showsWords
  have writes := Emitter.writes_of_emit rfl printed
  obtain ⟨legible, isOf⟩ :
      Emitter.Legible (⟨f.procedure base, (f.procedure base).analysis.toFacts, f.render, labels, copies,
        config.verbose⟩ : Emitter) _ ∧ Emitter.IsOf f _ :=
    ⟨read.legible shows assigned copied, isOf_of_assignLabels assigned⟩
  obtain ⟨-, perm⟩ := Emitter.rendered_of_emit (read.wellFormed.linked base) rfl printed
  have nodup := perm.nodup_iff.2 Procedure.order_nodup
  have counted : (progress.jumps, progress.labels) = Emitter.tally f lines :=
    Emitter.counted_of_emit isOf legible printed
  obtain ⟨jumps, labelled⟩ := Prod.mk.inj counted
  obtain ⟨jumpRows, labelRows⟩ := Emitter.countP_rows_layOut isOf legible writes.isLine config.indent
  have labelLines := writes.length_labels isOf legible (fun b labelled stmts => exists_label_of_isSome labelled) nodup
  have stats := Session.stats_emitBody assigned copied printed
  refine ⟨copies, lines, copied, ⟨labels, copies, progress, assigned, copied, printed, rfl⟩, ?_⟩
  rw [stats, Stats.addFunction_eq]
  refine ⟨rfl, ?_, ?_, ?_, ?_, rfl, ?_, rfl, ?_⟩
  · rw [jumpRows]
    exact congrArg _ jumps
  · exact congrArg _ labelled
  · rw [labelRows, labelLines, perm.countP_eq]
    simp only [label?_procedure]
  · exact congrArg _ perm.length_eq
  · exact congrArg _ (Procedure.count_copies copied)
  · by_cases larger : session.stats.largestSize < (layOut config.indent lines).utf8ByteSize
    · simp [Stats.addLabels, Stats.addJumps, Stats.addCopies, larger, procedure]
    · simp [Stats.addLabels, Stats.addJumps, Stats.addCopies, larger]

def churn : Function where
  name := "churn"
  args := ["a", "b"]
  blocks :=
    [⟨"entry", [], [⟨none, .br 1⟩]⟩,
      { name := "head"
        phis := [⟨"x", false, [(0, 0), (2, 4)]⟩, ⟨"y", false, [(0, 1), (2, 3)]⟩]
        stmts := [⟨none, .label "again"⟩, ⟨none, .condbr 3 2 3⟩] },
     ⟨"turn", [], [⟨none, .call "turn" [3]⟩, ⟨none, .goto 1⟩]⟩,
     ⟨"leave", [], [⟨none, .goto 4⟩]⟩,
     ⟨"exit", [], [⟨none, .ret (some 4)⟩]⟩]

theorem churn_isRead : churn.IsRead :=
  .of_pieces
    ["churn(%a, %b) \x7b\n", "entry:\n br ^head\n",
      "head:\n %x = phi [^entry, %a], [^turn, %y]\n %y = phi [^entry, %b], [^turn, %x]\n",
      " label again\n condbr %x, ^turn, ^leave\n", "turn:\n call @turn, %x\n goto ^head\n",
      "leave:\n goto ^exit\n", "exit:\n ret %y\n\x7d\n"] (by decide +kernel)

def churnText : String :=
  "x = a;\ny = b;\nagain:;\nif (x)\n\x7b\n   turn(x);\n   __t__0_0 = x;\n   x = y;\n   y = __t__0_0;\n" ++
  "   goto again;\n\x7d\ngoto BB_LABEL_4;\nBB_LABEL_4:;\nreturn y;\n"

theorem churn_emitBody_statistics : ∃ stats, ∃ lines : List Line,
    (Session.emitBody { stats := { textSize := 200, largestSize := 200, largestName := "big" } } {} (churn.procedure 0)
      (churn.procedure 0).analysis.toFacts churn.render).1 =
        .ok { temporaries := [⟨"__t__0_0", 3⟩], text := churnText } ∧
    (Session.emitBody { stats := { textSize := 200, largestSize := 200, largestName := "big" } } {} (churn.procedure 0)
      (churn.procedure 0).analysis.toFacts churn.render).2.stats = stats ∧
    Session.Prints { stats := { textSize := 200, largestSize := 200, largestName := "big" } } {} (churn.procedure 0)
      (churn.procedure 0).analysis.toFacts churn.render { temporaries := [⟨"__t__0_0", 3⟩], text := churnText } lines ∧
    lines.countP Line.isLabel = 1 ∧ stats.jumps = 2 ∧ stats.labels = 1 ∧ stats.blocks = 5 ∧ stats.textSize = 344 ∧
    stats.temporaries = 1 ∧ (stats.largestSize, stats.largestName) = (200, "big") := by
  have printed : (Session.emitBody { stats := { textSize := 200, largestSize := 200, largestName := "big" } } {}
      (churn.procedure 0) (churn.procedure 0).analysis.toFacts churn.render).1 =
        .ok { temporaries := [⟨"__t__0_0", 3⟩], text := churnText } := by decide +kernel
  obtain ⟨⟨copies, lines, -, prints, -, jumps, labels, rows, blocks, size, -, temporaries, largest⟩, -⟩ :=
    churn_isRead.emitBody_statistics printed
  dsimp only at jumps labels rows blocks size temporaries largest
  have jumpRows : (Line.rows churnText).countP Line.isJumpRow = 2 := by decide +kernel
  have labelRows : (Line.rows churnText).countP Line.isLabelRow = 2 := by decide +kernel
  have bytes : churnText.utf8ByteSize = 144 := by decide +kernel
  have order : (churn.procedure 0).analysis.order.length = 5 := by decide +kernel
  have own : (churn.procedure 0).analysis.order.countP (fun b => (churn.sourceLabel? b).isSome) = 1 := by
    decide +kernel
  have made : lines.countP Line.isLabel = 1 := by
    rw [labelRows, own] at rows
    omega
  rw [jumpRows] at jumps
  rw [made] at labels
  rw [order] at blocks
  rw [bytes] at size
  rw [bytes] at largest
  exact ⟨_, lines, printed, rfl, prints, made, jumps, labels, blocks, size, temporaries, largest⟩

end Program.FunctionOf

end Reflow
