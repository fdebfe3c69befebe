import Reflow.Proofs.Copies.Execution
import Reflow.Proofs.Program.Kinds
import Reflow.Proofs.Program.Queries

namespace Reflow

section Grouping

variable {α β : Type} [DecidableEq α]

theorem eraseDups_pairwise_idxOf (as : List α) : as.eraseDups.Pairwise fun a b => as.idxOf a < as.idxOf b := by
  induction as using List.reverseRecOn with
  | nil => exact .nil
  | append_singleton as a ih =>
    have kept : as.eraseDups.Pairwise fun b c => (as ++ [a]).idxOf b < (as ++ [a]).idxOf c := by
      refine ih.imp_of_mem fun first second less => ?_
      rwa [List.idxOf_append_of_mem (List.mem_eraseDups.1 first),
        List.idxOf_append_of_mem (List.mem_eraseDups.1 second)]
    rw [eraseDups_concat]
    split <;> rename_i mem
    · exact kept
    · refine List.pairwise_append.2 ⟨kept, List.pairwise_singleton _ _, fun b listed c last => ?_⟩
      obtain rfl := List.mem_singleton.1 last
      have earlier := List.mem_eraseDups.1 listed
      rw [List.idxOf_append_of_mem earlier, List.idxOf_append_of_notMem mem]
      exact (List.idxOf_lt_length_iff.2 earlier).trans_le (Nat.le_add_right _ _)

theorem find?_eraseDups (wanted : α → Bool) (as : List α) : as.eraseDups.find? wanted = as.find? wanted := by
  induction as using List.reverseRecOn with
  | nil => rfl
  | append_singleton as a ih =>
    rw [eraseDups_concat, List.find?_append]
    split <;> rename_i mem
    · rw [ih]
      cases found : as.find? wanted with
      | none => simp [List.find?_eq_none.1 found a mem]
      | some b => rfl
    · rw [List.find?_append, ih]

theorem flatMap_filter_perm (key : β → α) {keys : List α} (nodup : keys.Nodup) {bs : List β}
    (covered : ∀ b ∈ bs, key b ∈ keys) : (keys.flatMap fun a => bs.filter fun b => key b = a).Perm bs := by
  induction keys generalizing bs with
  | nil =>
    obtain rfl := List.eq_nil_iff_forall_not_mem.2 fun b mem => List.not_mem_nil (covered b mem)
    exact .nil
  | cons a keys ih =>
    obtain ⟨absent, rest⟩ := List.nodup_cons.1 nodup
    -- The groups of the other keys are those of the elements without the key `a`.
    have others : (keys.flatMap fun c => bs.filter fun b => key b = c) =
        keys.flatMap fun c => (bs.filter fun b => !decide (key b = a)).filter fun b => key b = c := by
      refine List.flatMap_congr fun c listed => ?_
      rw [List.filter_filter]
      refine List.filter_congr fun b _ => ?_
      by_cases same : key b = c
      · have apart : c ≠ a := fun eq => absent (eq ▸ listed)
        simp [same, apart]
      · simp [same]
    have remaining : (keys.flatMap fun c => (bs.filter fun b => !decide (key b = a)).filter fun b => key b = c).Perm
        (bs.filter fun b => !decide (key b = a)) := by
      refine ih rest fun b mem => ?_
      obtain ⟨listed, apart⟩ := List.mem_filter.1 mem
      exact (List.mem_cons.1 (covered b listed)).resolve_left (by simpa using apart)
    rw [List.flatMap_cons, others]
    exact (remaining.append_left _).trans (List.filter_append_perm _ bs)

end Grouping

def SwitchArm.cases (arm : SwitchArm) : List (CaseLabel × BlockId) :=
  arm.labels.map fun label => (label, arm.target)

def SwitchArm.select? (arms : List SwitchArm) (label : CaseLabel) : Option BlockId :=
  (arms.find? fun arm => label ∈ arm.labels).map (·.target)

/-- Arms that hold the cases of a switch, one arm for each target. -/
structure Groups (cases : List (CaseLabel × BlockId)) (arms : List SwitchArm) : Prop where
  distinct : (arms.map (·.target)).Nodup
  targets : ∀ b, b ∈ arms.map (·.target) ↔ b ∈ cases.map (·.2)
  ordered : (arms.map (·.target)).Pairwise fun b c => (cases.map (·.2)).idxOf b < (cases.map (·.2)).idxOf c
  labels : ∀ arm ∈ arms, arm.labels = (cases.filter fun case => case.2 = arm.target).map (·.1)
  perm : (arms.flatMap SwitchArm.cases).Perm cases
  listed : ∀ label b, (∃ arm ∈ arms, label ∈ arm.labels ∧ arm.target = b) ↔ (label, b) ∈ cases
  /-- Of the targets that a label is given to, it selects the one that the cases name first. -/
  selects : ∀ label, SwitchArm.select? arms label = (cases.map (·.2)).find? fun b => (label, b) ∈ cases
  /-- A label that is not given to two targets selects the one it is given to. -/
  selectsOnly : ∀ label, (∀ b c, (label, b) ∈ cases → (label, c) ∈ cases → b = c) →
    SwitchArm.select? arms label = cases.lookup label

variable {cases : List (CaseLabel × BlockId)} {arms : List SwitchArm}

theorem labels_groupArms {arm : SwitchArm} (mem : arm ∈ groupArms cases) :
    arm.labels = (cases.filter fun case => case.2 = arm.target).map (·.1) := by
  rw [groupArms_eq] at mem
  obtain ⟨b, -, rfl⟩ := List.mem_map.1 mem
  rfl

theorem cases_groupArms_perm (cases : List (CaseLabel × BlockId)) :
    ((groupArms cases).flatMap SwitchArm.cases).Perm cases := by
  have groups : (groupArms cases).flatMap SwitchArm.cases =
      (cases.map (·.2)).eraseDups.flatMap fun b => cases.filter fun case => case.2 = b := by
    rw [groupArms_eq, List.flatMap_map]
    refine List.flatMap_congr fun b _ => ?_
    rw [SwitchArm.cases, armTo, List.map_map]
    refine (List.map_congr_left fun case mem => ?_).trans (List.map_id _)
    have same : case.2 = b := by simpa using (List.mem_filter.1 mem).2
    exact Prod.ext rfl same.symm
  rw [groups]
  refine flatMap_filter_perm _ (eraseDups_nodup _) fun case mem => ?_
  exact List.mem_eraseDups.2 (List.mem_map_of_mem mem)

theorem exists_arm_iff_of_perm (perm : (arms.flatMap SwitchArm.cases).Perm cases) {label : CaseLabel} {b : BlockId} :
    (∃ arm ∈ arms, label ∈ arm.labels ∧ arm.target = b) ↔ (label, b) ∈ cases := by
  rw [← perm.mem_iff, List.mem_flatMap]
  simp [SwitchArm.cases]

theorem select?_groupArms (cases : List (CaseLabel × BlockId)) (label : CaseLabel) :
    SwitchArm.select? (groupArms cases) label = (cases.map (·.2)).find? fun b => (label, b) ∈ cases := by
  have has : (fun arm : SwitchArm => decide (label ∈ arm.labels)) ∘ armTo cases =
      fun b => decide ((label, b) ∈ cases) := by
    funext b
    simp [armTo]
  rw [SwitchArm.select?, groupArms_eq, List.find?_map, has, Option.map_map, find?_eraseDups]
  exact Option.map_id'

theorem find?_target_eq_lookup {label : CaseLabel}
    (single : ∀ b c, (label, b) ∈ cases → (label, c) ∈ cases → b = c) :
    ((cases.map (·.2)).find? fun b => (label, b) ∈ cases) = cases.lookup label := by
  cases first : cases.lookup label with
  | none =>
    refine List.find?_eq_none.2 fun b _ mem => ?_
    simpa using List.lookup_eq_none_iff.1 first (label, b) (by simpa using mem)
  | some b =>
    have given := mem_of_lookup first
    cases found : (cases.map (·.2)).find? fun b => (label, b) ∈ cases with
    | none => simpa [given] using List.find?_eq_none.1 found b (List.mem_map_of_mem given)
    | some c => rw [single c b (by simpa using List.find?_some found) given]

theorem groups_groupArms (cases : List (CaseLabel × BlockId)) : Groups cases (groupArms cases) where
  distinct := targets_groupArms cases ▸ eraseDups_nodup _
  targets b := by rw [targets_groupArms, List.mem_eraseDups]
  ordered := targets_groupArms cases ▸ eraseDups_pairwise_idxOf _
  labels _ := labels_groupArms
  perm := cases_groupArms_perm cases
  listed _ _ := exists_arm_iff_of_perm (cases_groupArms_perm cases)
  selects := select?_groupArms cases
  selectsOnly label single := (select?_groupArms cases label).trans (find?_target_eq_lookup single)

namespace Program

variable {f : Function} {b : BlockId} {block : Block Nat Nat}

/-- The switches of a program that is read. The arms of each group the cases that its source gives, which are also the
cases of its row in the tables, and name the successors of the block in order. -/
theorem parse_groups {text : String} {program : Program} (parsed : parse text = .ok program) {index : Nat}
    (here : program.functions[index]? = some f) (found : f.blocks[b]? = some block) :
    ∃ t row p, parseTables text = .ok t ∧ t.functions[index]? = some row ∧ t.procedure? row = some p ∧
    (∀ stmt ∈ block.stmts, ∀ selector cases, stmt.instr = .switch selector cases →
      ∃ view ∈ p.stmts b, ∃ arms value, t.values[view.id]? = some value ∧ value.cases = cases.map (·.1) ∧
        t.targets? value = some (cases.map fun case => row.blocks.1 + case.2) ∧
        view.kind = .ok (.switch (row.args.1 + selector) arms) ∧ Groups cases arms ∧
        arms.map (·.target) = p.succs b) ∧
    ∀ view ∈ p.stmts b, ∀ kind, view.kind = .ok kind → kind.isBranching = true →
      kind.targets.eraseDups = p.succs b := by
  have wf := ((parse_written parsed).functions f (List.mem_of_getElem? here)).toWellFormed
  have holds := holds_tables here
  refine ⟨_, _, _, parseTables_eq_ok parsed, holds.function, holds.procedure?_eq wf, ?_, ?_⟩
  · rintro stmt mem selector cases switches
    obtain ⟨id, listed⟩ := f.exists_view_of_mem b mem
    have ok : stmt.instr.kind (0 + id) = .ok (.switch selector (groupArms cases)) := by
      rw [switches]
      rfl
    obtain ⟨row, place, records⟩ := holds.values id (.statement stmt) (FunctionOf.value_of_view found listed)
    refine ⟨(stmt.view 0 id).shift (program.base index), ?_, groupArms cases, row, place, ?_, ?_, ?_,
      groups_groupArms cases, ?_⟩
    · rw [Procedure.stmts_shift]
      exact List.mem_map_of_mem ((FunctionOf.mem_stmts_iff found).2 ⟨_, listed, by simp [switches, Instr.op], rfl⟩)
    · simp [records.cases, Value.cases, switches, Instr.cases]
    · rw [records.targets?]
      simp [Value.targets, switches, Instr.targets, FunctionOf.row]
    · rw [Stmt.shift, Statement.view, ok]
      rfl
    · rw [Procedure.succs_shift, ← wf.eraseDups_targets_of_kind found mem ok rfl, Kind.targets,
        eraseDups_of_nodup (groups_groupArms cases).distinct]
  · intro view listed kind ok branches
    rw [Procedure.stmts_shift] at listed
    obtain ⟨own, mem, rfl⟩ := List.mem_map.1 listed
    obtain ⟨source, inBlock, -, rfl⟩ := (FunctionOf.mem_stmts_iff found).1 mem
    rw [Stmt.shift, Statement.view] at ok
    dsimp only at ok
    cases known : source.2.instr.kind (0 + source.1) with
    | error =>
      rw [known] at ok
      cases ok
    | ok =>
      rw [known] at ok
      obtain rfl := Except.ok.inj ok
      rw [Kind.isBranching_shift] at branches
      rw [Procedure.succs_shift, Kind.targets_shift]
      exact wf.eraseDups_targets_of_kind found (FunctionOf.mem_stmts_of_view inBlock) known branches

def turns : Function where
  name := "turns"
  args := ["v"]
  blocks :=
    [⟨"entry", [], [⟨none, .br 1⟩]⟩,
      { name := "pick", phis := []
        stmts :=
          [ ⟨some "w", .binary .add 0 0⟩,
            ⟨none, .switch 2 [(.value 1, 3), (.value (-2), 2), (.value 3, 3), (.otherwise, 2)]⟩ ] },
     ⟨"b", [], [⟨none, .ret none⟩]⟩,
     ⟨"c", [], [⟨none, .ret none⟩]⟩]

theorem parse_turns : ∃ text, parse text = .ok ⟨[turns]⟩ :=
  ⟨_, parse_join
    ["turns(%v) \x7b\n", "entry:\n br ^pick\n", "pick:\n %w = add %v, %v\n",
      " switch %w, [1, ^c], [-2, ^b], [3, ^c], [default, ^b]\n", "b:\n ret\n", "c:\n ret\n\x7d\n"]
    (by decide +kernel)⟩

theorem turns_groups : ∃ arms, Groups [(.value 1, 3), (.value (-2), 2), (.value 3, 3), (.otherwise, 2)] arms ∧
    arms.map (·.target) = [3, 2] ∧ SwitchArm.select? arms (.value 3) = some 3 := by
  obtain ⟨text, parsed⟩ := parse_turns
  have here : (⟨[turns]⟩ : Program).functions[0]? = some turns := rfl
  obtain ⟨t, row, p, read, place, given, switches, -⟩ :=
    parse_groups parsed here (show turns.blocks[1]? = some _ from rfl)
  have wf := ((parse_written parsed).functions turns (List.mem_of_getElem? here)).toWellFormed
  obtain rfl := Except.ok.inj ((parseTables_eq_ok parsed).symm.trans read)
  obtain rfl := Option.some.inj ((holds_tables here).function.symm.trans place)
  obtain rfl := Option.some.inj (((holds_tables here).procedure?_eq wf).symm.trans given)
  obtain ⟨view, -, arms, value, -, -, -, -, groups, succs⟩ := switches _ (List.mem_of_getLast? rfl) 2 _ rfl
  exact ⟨arms, groups, succs.trans (by decide), (groups.selects (.value 3)).trans (by decide)⟩

def repeatedLabel : Function where
  name := "f"
  args := ["v"]
  blocks :=
    [⟨"entry", [], [⟨none, .switch 0 [(.value 2, 2), (.value 1, 1), (.value 1, 2)]⟩]⟩,
     ⟨"b", [], [⟨none, .ret none⟩]⟩,
     ⟨"c", [], [⟨none, .ret none⟩]⟩]

/-- A label may be given to two targets. It selects the one whose arm comes first, here `c`, and not the one that its
first case names, which is `b`. -/
theorem repeatedLabel_selects_other : ∃ text, parse text = .ok ⟨[repeatedLabel]⟩ ∧
    ∃ view ∈ (repeatedLabel.procedure 0).stmts 0, ∃ arms, view.kind = .ok (.switch 0 arms) ∧
      SwitchArm.select? arms (.value 1) = some 2 ∧
      [(CaseLabel.value 2, 2), (.value 1, 1), (.value 1, 2)].lookup (CaseLabel.value 1) = some 1 :=
  ⟨_, parse_join
    ["f(%v) \x7b\n", "entry:\n switch %v, [2, ^c], [1, ^b], [1, ^c]\n", "b:\n ret\n", "c:\n ret\n\x7d\n"]
    (by decide +kernel), _, .head _, _, rfl, by decide, by decide⟩

end Program

end Reflow
