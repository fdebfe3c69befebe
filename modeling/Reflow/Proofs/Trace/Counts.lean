import Reflow.Proofs.Trace.Jumps

namespace Reflow

def Line.isLabel : Line → Bool
  | .label .. => true
  | _ => false

theorem Kind.jumps_eq_zero {kind : Kind} (passes : kind.isBranching = false) : kind.jumps = 0 := by
  cases kind <;> first | rfl | simp [Kind.isBranching] at passes

theorem Program.FunctionOf.length_jumpOf?_stmt {f : Function} {b : BlockId} {id : StmtId} {text : String}
    {source : Statement Nat Nat} {n : Nat} {kind : Kind} (value : f.values[id]? = some (.statement source))
    (ok : source.instr.kind n = .ok kind) : (f.jumpOf? (.stmt b id text)).toList.length = kind.jumps := by
  obtain ⟨result, instr⟩ := source
  cases instr with
  | asm | br => simp [Instr.kind] at ok
  | _ =>
    obtain rfl := Except.ok.inj ok
    simp [jumpOf?, value, Kind.jumps]

open Program (Function)

namespace Emitter

open Emission

variable {e : Emitter} {f : Function} {named : String → Prop} {b : BlockId}
  {stmts : List (Stmt × Kind)} {lines more : List Line} {line : Line}

def tally (f : Function) (lines : List Line) : Nat × Nat :=
  ((lines.filterMap f.jumpOf?).length, lines.countP Line.isLabel)

@[simp] theorem tally_append : tally f (lines ++ more) = tally f lines + tally f more := by
  simp [tally]

def IsQuiet (f : Function) (line : Line) : Prop :=
  f.jumpOf? line = none ∧ line.isLabel = false

theorem tally_of_isQuiet (quiet : ∀ line ∈ lines, IsQuiet f line) : tally f lines = 0 := by
  have jumps : lines.filterMap f.jumpOf? = [] := List.filterMap_eq_nil_iff.2 fun line mem => (quiet line mem).1
  have labels : lines.countP Line.isLabel = 0 :=
    List.countP_eq_zero.2 fun line mem => by simp [(quiet line mem).2]
  rw [tally, jumps, labels]
  rfl

@[simp] theorem tally_copies (b : BlockId) (copies : List Copy) : tally f (copies.map (Line.copy b)) = 0 := by
  refine tally_of_isQuiet fun line mem => ?_
  obtain ⟨copy, -, rfl⟩ := List.mem_map.1 mem
  exact ⟨rfl, rfl⟩

theorem HeaderLines.tally_eq (isOf : e.IsOf f) (legible : e.Legible named) (printed : e.HeaderLines b lines) :
    tally f lines = 0 := by
  refine tally_of_isQuiet fun line mem => ?_
  have noJump : f.jumpOf? line = none := by
    rw [Option.eq_none_iff_forall_ne_some]
    intro x jump
    exact absurd (printed.notesJumps (t := {}) isOf legible line mem x jump) List.not_mem_nil
  rcases printed.cases mem with ⟨-, -, stmt, -, text, -, rfl⟩ | ⟨copy, rfl⟩
  · exact ⟨noJump, rfl⟩
  · exact ⟨noJump, rfl⟩

theorem StmtLine.tally_eq {stmt : Stmt × Kind} (isOf : e.IsOf f) (ok : e.procedure.classified b = .ok stmts)
    (mem : stmt ∈ stmts) (printed : e.StmtLine b stmt lines) : tally f lines = (stmt.2.jumps, 0) := by
  rw [StmtLine] at printed
  split at printed
  · rename_i virtual
    subst printed
    rw [virtual]
    cases e.verbose <;> rfl
  · obtain ⟨text, -, rfl⟩ := printed
    obtain ⟨source, n, value, kind⟩ := isOf b stmts ok stmt mem
    have jumps : (f.jumpOf? (.stmt b stmt.1.id text)).toList.length = stmt.2.jumps :=
      Program.FunctionOf.length_jumpOf?_stmt value kind
    rw [← jumps, tally]
    cases jump : f.jumpOf? (.stmt b stmt.1.id text) <;> simp [jump, Line.isLabel]

theorem StmtLines.tally_eq (isOf : e.IsOf f) (ok : e.procedure.classified b = .ok stmts)
    {some : List (Stmt × Kind)} (among : some ⊆ stmts) (passes : ∀ stmt ∈ some, stmt.2.isBranching = false)
    (printed : e.StmtLines b some lines) : tally f lines = 0 := by
  obtain ⟨parts, each, rfl⟩ := printed
  induction each with
  | nil => rfl
  | @cons stmt _ _ _ here _ ih =>
    have first := here.tally_eq isOf ok (among (.head _))
    rw [Kind.jumps_eq_zero (passes stmt (.head _))] at first
    have rest := ih (List.subset_of_cons_subset among) fun stmt mem => passes stmt (.tail _ mem)
    rw [List.flatten_cons, tally_append, first, rest]
    rfl

theorem BodyLines.tally_eq (isOf : e.IsOf f) (legible : e.Legible named)
    (ok : e.procedure.classified b = .ok stmts) (printed : e.BodyLines b (upToLastReal stmts) lines) :
    tally f lines = (((endOf stmts).map Kind.jumps).getD 0, 0) := by
  have all := upToLastReal_subset stmts
  have before := dropLast_upToLastReal_subset stmts
  unfold endOf
  generalize upToLastReal stmts = kept at printed all before
  cases printed with
  | empty => exact tally_copies b _
  | branching _ printed here | passing _ printed here =>
    rw [List.dropLast_concat] at before
    have front := printed.tally_eq isOf ok (fun stmt mem => all (List.mem_append_left _ mem))
      fun stmt mem => legible.last ok stmt (before mem)
    have final := here.tally_eq isOf ok (all (by simp))
    simp [front, final, tailLines]

theorem counts_tally (isOf : e.IsOf f) (legible : e.Legible named) : e.Counts (tally f) where
  append _ _ := tally_append
  quiet lines quiet := by
    refine tally_of_isQuiet fun line mem => ?_
    have here := List.all_eq_true.1 quiet line mem
    cases line <;> first | exact ⟨rfl, rfl⟩ | cases here
  jump _ _ _ := rfl
  label _ _ := rfl
  header _ _ printed := printed.tally_eq isOf legible
  body _ _ _ ok printed := printed.tally_eq isOf legible ok

theorem counted_of_emit (isOf : e.IsOf f) (legible : e.Legible named) {progress : Progress}
    (printed : e.emit {} = .ok lines progress) : progress.counted = tally f lines :=
  (e.emit_follows.of_ok printed).2 _ (counts_tally isOf legible)

end Emitter

end Reflow
