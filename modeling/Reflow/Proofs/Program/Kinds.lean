import Reflow.Proofs.Failing
import Reflow.Proofs.Procedure
import Reflow.Proofs.Program.View

namespace Reflow

variable {instr : Instr Nat Nat}

theorem Instr.isTerminator_of_kind {n : Nat} {kind : Kind}
    (ok : instr.kind n = .ok kind) (branches : kind.isBranching = true) : instr.op.isTerminator = true := by
  cases instr with
  | condbr | loop | goto | multiif | switch => rfl
  | asm | br => simp [Instr.kind] at ok
  | _ =>
    obtain rfl := Except.ok.inj ok
    simp [Kind.isBranching] at branches

theorem eraseDups_concat {α : Type} [DecidableEq α] (as : List α) (a : α) :
    (as ++ [a]).eraseDups = if a ∈ as then as.eraseDups else as.eraseDups ++ [a] := by
  rw [List.eraseDups_append]
  split <;> rename_i mem
  · simp [List.removeAll, mem]
  · have single : [a].removeAll as = [a] := by simp [List.removeAll, mem]
    rw [single, eraseDups_of_nodup (List.nodup_singleton a)]

def armTo (cases : List (CaseLabel × BlockId)) (target : BlockId) : SwitchArm where
  labels := (cases.filter (·.2 = target)).map (·.1)
  target := target

theorem armTo_concat_of_ne {target : BlockId} (cases : List (CaseLabel × BlockId)) {case : CaseLabel × BlockId}
    (other : case.2 ≠ target) : armTo (cases ++ [case]) target = armTo cases target := by
  simp [armTo, List.filter_append, other]

theorem addCase_map_armTo (cases : List (CaseLabel × BlockId)) (case : CaseLabel × BlockId) {targets : List BlockId}
    (nodup : targets.Nodup) (new : case.2 ∉ targets → ∀ other ∈ cases, other.2 ≠ case.2) :
    addCase case (targets.map (armTo cases)) =
      (if case.2 ∈ targets then targets else targets ++ [case.2]).map (armTo (cases ++ [case])) := by
  induction targets with
  | nil =>
    have none : cases.filter (·.2 = case.2) = [] := by simpa using new (by simp)
    simp [addCase, armTo, List.filter_append, none]
  | cons target targets ih =>
    obtain ⟨absent, rest⟩ := List.nodup_cons.1 nodup
    by_cases same : target = case.2
    · have others : targets.map (armTo (cases ++ [case])) = targets.map (armTo cases) :=
        List.map_congr_left fun b mem => armTo_concat_of_ne cases fun eq => absent (same ▸ eq ▸ mem)
      have first : armTo (cases ++ [case]) target = { armTo cases target with
          labels := (armTo cases target).labels ++ [case.1] } := by
        simp [armTo, List.filter_append, same]
      have found : (armTo cases target).target = case.2 := same
      rw [if_pos (by simp [same]), List.map_cons, List.map_cons, addCase, if_pos found, others, first]
    · have kept := armTo_concat_of_ne cases (Ne.symm same)
      have later := ih rest fun missing => new (by simp [missing, Ne.symm same])
      have onward : (armTo cases target).target ≠ case.2 := same
      rw [List.map_cons, addCase, if_neg onward, later, ← kept]
      by_cases mem : case.2 ∈ targets <;> simp [mem, Ne.symm same]

theorem groupArms_eq (cases : List (CaseLabel × BlockId)) :
    groupArms cases = (cases.map (·.2)).eraseDups.map (armTo cases) := by
  induction cases using List.reverseRecOn with
  | nil => rfl
  | append_singleton cases case ih =>
    have step := addCase_map_armTo cases case (eraseDups_nodup (cases.map (·.2))) fun missing other mem same =>
      missing (List.mem_eraseDups.2 (List.mem_map.2 ⟨other, mem, same⟩))
    have grown : groupArms (cases ++ [case]) = addCase case (groupArms cases) := by simp [groupArms]
    rw [grown, ih, step, List.map_append, List.map_singleton, eraseDups_concat]
    simp only [List.mem_eraseDups]

theorem targets_groupArms (cases : List (CaseLabel × BlockId)) :
    (groupArms cases).map (·.target) = (cases.map (·.2)).eraseDups := by
  rw [groupArms_eq, List.map_map]
  exact List.map_id _

theorem Instr.eraseDups_targets_of_kind {n : Nat} {kind : Kind}
    (ok : instr.kind n = .ok kind) (branches : kind.isBranching = true) :
    kind.targets.eraseDups = instr.targets.eraseDups := by
  cases instr with
  | condbr | loop | goto =>
    obtain rfl := Except.ok.inj ok
    rfl
  | multiif =>
    obtain rfl := Except.ok.inj ok
    simp [Kind.targets, targets, Function.comp_def]
  | switch =>
    obtain rfl := Except.ok.inj ok
    rw [Kind.targets, targets_groupArms, eraseDups_of_nodup (eraseDups_nodup _)]
    rfl
  | asm | br => simp [Instr.kind] at ok
  | _ =>
    obtain rfl := Except.ok.inj ok
    simp [Kind.isBranching] at branches

namespace Program

variable {f : Function} {base : Nat} {b x : BlockId} {block : Block Nat Nat}

def classify? (base : Nat) (view : Nat × Statement Nat Nat) : Option (Stmt × Kind) :=
  match view.2.instr.kind (base + view.1) with
  | .ok kind => some (view.2.view base view.1, kind)
  | .error _ => none

theorem classify?_eq_some_iff {view : Nat × Statement Nat Nat} {stmt : Stmt} {kind : Kind} :
    classify? base view = some (stmt, kind) ↔
      view.2.instr.kind (base + view.1) = .ok kind ∧ stmt = view.2.view base view.1 := by
  unfold classify?
  split <;> rename_i result found
  · simp only [Option.some.injEq, Prod.mk.injEq, found, Except.ok.injEq]
    exact ⟨fun same => ⟨same.2, same.1.symm⟩, fun same => ⟨same.2.symm, same.1⟩⟩
  · simp [found]

theorem exists_kind {instr : Instr Nat Nat} (branch : instr.op ≠ .br) (assembly : instr.op ≠ .asm) :
    ∃ kind, ∀ n, instr.kind n = .ok kind := by
  cases instr with
  | br => exact absurd rfl branch
  | asm => exact absurd rfl assembly
  | _ => exact ⟨_, fun _ => rfl⟩

def FunctionOf.views (f : Function) (b : BlockId) (block : Block Nat Nat) : List (Nat × Statement Nat Nat) :=
  numberFrom (f.blockStart b + block.phis.length) block.stmts

namespace FunctionOf

theorem mem_stmts_of_view {view : Nat × Statement Nat Nat} (mem : view ∈ f.views b block) : view.2 ∈ block.stmts := by
  obtain ⟨i, listed, -⟩ := mem_numberFrom_iff.1 (show (view.1, view.2) ∈ _ from mem)
  exact List.mem_of_getElem? listed

theorem exists_view_of_mem (f : Function) (b : BlockId) {stmt : Statement Nat Nat} (mem : stmt ∈ block.stmts) :
    ∃ id, (id, stmt) ∈ f.views b block := by
  obtain ⟨i, listed⟩ := List.mem_iff_getElem?.1 mem
  exact ⟨_, mem_numberFrom_iff.2 ⟨i, listed, rfl⟩⟩

section

variable (found : f.blocks[b]? = some block)
include found

theorem value_of_view {view : Nat × Statement Nat Nat} (mem : view ∈ f.views b block) :
    f.values[view.1]? = some (.statement view.2) := by
  obtain ⟨id, stmt⟩ := view
  obtain ⟨i, listed, rfl⟩ := mem_numberFrom_iff.1 mem
  have lt : i < block.stmts.length := (List.getElem?_eq_some_iff.1 listed).1
  have here : block.values[block.phis.length + i]? = some (.statement stmt) := by
    rw [Block.values, List.getElem?_append_right (by simp)]
    simp [listed]
  rw [add_assoc, getElem?_values found (by simpa [Block.values] using lt), here]

theorem stmts_of_get :
    (f.procedure base).stmts b = ((f.views b block).filter fun view => view.2.instr.op != .br).map
      fun view => view.2.view base view.1 := by
  simp [Procedure.stmts, block?_of_get found, Block.view, views]

theorem mem_stmts_iff {stmt : Stmt} : stmt ∈ (f.procedure base).stmts b ↔
      ∃ view ∈ f.views b block, view.2.instr.op ≠ .br ∧ view.2.view base view.1 = stmt := by
  rw [stmts_of_get found, List.mem_map]
  simp only [List.mem_filter, bne_iff_ne, and_assoc]

theorem classified_of_get (plain : ∀ stmt ∈ block.stmts, stmt.instr.op ≠ .asm) :
    (f.procedure base).classified b = .ok ((f.views b block).filterMap (classify? base)) := by
  have branchless : ((f.views b block).filter fun view => view.2.instr.op != .br).filterMap
      (classify? base) = (f.views b block).filterMap (classify? base) := by
    rw [List.filterMap_filter]
    apply List.filterMap_congr
    intro view _
    by_cases same : view.2.instr.op = .br
    · obtain ⟨target, instr⟩ : ∃ target, view.2.instr = .br target := by
        cases instr : view.2.instr <;> simp [instr, Instr.op] at same
        exact ⟨_, rfl⟩
      simp [classify?, instr, Instr.op, Instr.kind]
    · simp [same]
  rw [Procedure.classified, stmts_of_get found, List.mapM_map, ← branchless]
  apply mapM_eq_ok
  intro view mem
  obtain ⟨mem, real⟩ := List.mem_filter.1 mem
  obtain ⟨kind, same⟩ := exists_kind (by simpa using real) (plain _ (mem_stmts_of_view mem))
  exact ⟨(view.2.view base view.1, kind), by simp [Statement.view, same, Except.map], by simp [classify?, same]⟩

theorem plain_of_classified {stmts : List (Stmt × Kind)}
    (ok : (f.procedure base).classified b = .ok stmts) : ∀ stmt ∈ block.stmts, stmt.instr.op ≠ .asm := by
  intro stmt mem assembly
  obtain ⟨id, listed⟩ := exists_view_of_mem f b mem
  have viewed : stmt.view base id ∈ (f.procedure base).stmts b :=
    (mem_stmts_iff found).2 ⟨_, listed, by simp [assembly], rfl⟩
  obtain ⟨kind, known⟩ := exists_of_mapM_eq_ok ok _ viewed
  cases instr : stmt.instr <;> simp [instr, Instr.op] at assembly
  simp [Statement.view, instr, Instr.kind, Except.map] at known

end

theorem classified_of_none (found : f.blocks[b]? = none) : (f.procedure base).classified b = .ok [] := by
  rw [Procedure.classified, Procedure.stmts, block?_procedure, found]
  rfl

theorem classified_kinds (plain : ∀ block ∈ f.blocks, ∀ stmt ∈ block.stmts, stmt.instr.op ≠ .asm)
    (b : BlockId) : (f.procedure base).classified b = .ok ((f.procedure base).kinds b) := by
  cases found : f.blocks[b]? with
  | none =>
    rw [Procedure.kinds, classified_of_none found]
    rfl
  | some block =>
    rw [Procedure.kinds, classified_of_get found (plain block (List.mem_of_getElem? found))]
    rfl

theorem kinds_of_get (found : f.blocks[b]? = some block) (plain : ∀ stmt ∈ block.stmts, stmt.instr.op ≠ .asm) :
    (f.procedure base).kinds b = (f.views b block).filterMap (classify? base) := by
  rw [Procedure.kinds, classified_of_get found plain]
  rfl

theorem exists_view_of_kind (plain : ∀ block ∈ f.blocks, ∀ stmt ∈ block.stmts, stmt.instr.op ≠ .asm)
    {stmt : Stmt} {kind : Kind} (mem : (stmt, kind) ∈ (f.procedure base).kinds b) :
    ∃ block, f.blocks[b]? = some block ∧ ∃ view ∈ f.views b block, view.2 ∈ block.stmts ∧
      stmt = view.2.view base view.1 ∧ view.2.instr.kind (base + view.1) = .ok kind := by
  cases found : f.blocks[b]? with
  | none =>
    rw [Procedure.kinds, classified_of_none found] at mem
    exact absurd mem List.not_mem_nil
  | some block =>
    rw [kinds_of_get found (plain block (List.mem_of_getElem? found))] at mem
    obtain ⟨view, listed, ok⟩ := List.mem_filterMap.1 mem
    obtain ⟨kind, same⟩ := classify?_eq_some_iff.1 ok
    exact ⟨block, rfl, view, listed, mem_stmts_of_view listed, same, kind⟩

theorem WellFormed.eraseDups_targets_of_kind (wf : f.WellFormed) (found : f.blocks[b]? = some block)
    {stmt : Statement Nat Nat} (mem : stmt ∈ block.stmts) {n : Nat} {kind : Kind}
    (ok : stmt.instr.kind n = .ok kind) (branches : kind.isBranching = true) :
    kind.targets.eraseDups = (f.procedure base).succs b := by
  have shaped := wf.blocks block (List.mem_of_getElem? found)
  rw [Instr.eraseDups_targets_of_kind ok branches, succs_of_get found, Block.succs,
    shaped.targets_of_isTerminator mem (Instr.isTerminator_of_kind ok branches)]

end FunctionOf

end Program

end Reflow
