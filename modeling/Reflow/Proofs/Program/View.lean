import Reflow.Program.View
import Reflow.Proofs.Analysis
import Reflow.Proofs.Program.WellFormed

namespace Reflow.Program

section NumberFrom

variable {α : Type}

theorem getElem?_numberFrom (start i : Nat) (as : List α) :
    (numberFrom start as)[i]? = as[i]?.map fun a => (start + i, a) := by
  induction as generalizing start i with
  | nil => simp [numberFrom]
  | cons a as ih =>
    cases i with
    | zero => simp [numberFrom]
    | succ i =>
      simp only [numberFrom, List.getElem?_cons_succ, ih]
      congr! 3
      omega

theorem mem_numberFrom_iff {start n : Nat} {a : α} {as : List α} :
    (n, a) ∈ numberFrom start as ↔ ∃ i, as[i]? = some a ∧ n = start + i := by
  simp only [List.mem_iff_getElem?, getElem?_numberFrom, Option.map_eq_some_iff, Prod.mk.injEq]
  constructor
  · rintro ⟨i, a', found, rfl, rfl⟩
    exact ⟨i, found, rfl⟩
  · rintro ⟨i, found, rfl⟩
    exact ⟨i, a, found, rfl, rfl⟩

theorem numberFrom_concat (start : Nat) (as : List α) (a : α) :
    numberFrom start (as ++ [a]) = numberFrom start as ++ [(start + as.length, a)] := by
  induction as generalizing start with
  | nil => rfl
  | cons b as ih =>
    simp only [List.cons_append, numberFrom, ih, List.length_cons]
    rw [Nat.add_right_comm, Nat.add_assoc]

theorem map_snd_numberFrom (start : Nat) (as : List α) : (numberFrom start as).map (·.2) = as := by
  induction as generalizing start with
  | nil => rfl
  | cons a as ih => rw [numberFrom, List.map_cons, ih]

theorem numberFrom_pairwise (start : Nat) (as : List α) : ((numberFrom start as).map (·.1)).Pairwise (· < ·) := by
  induction as generalizing start with
  | nil => simp [numberFrom]
  | cons a as ih =>
    simp only [numberFrom, List.map_cons, List.pairwise_cons]
    refine ⟨?_, ih (start + 1)⟩
    intro n mem
    obtain ⟨⟨n, b⟩, listed, rfl⟩ := List.mem_map.1 mem
    obtain ⟨i, -, rfl⟩ := mem_numberFrom_iff.1 listed
    dsimp only
    omega

end NumberFrom

namespace Block

variable {block : Block Nat Nat}

theorem Shaped.targets_eq (shaped : block.Shaped) :
    block.targets = (block.stmts.getLast?.map fun stmt => stmt.instr.targets).getD [] := by
  rw [targets]
  rcases List.eq_nil_or_concat' block.stmts with empty | ⟨front, last, stmts⟩
  · simp [empty]
  · have quiet : front.flatMap (fun stmt => stmt.instr.targets) = [] := by
      rw [List.flatMap_eq_nil_iff]
      intro stmt mem
      exact Instr.targets_eq_nil (shaped.terminated stmt (by simpa [stmts] using mem))
    rw [stmts, List.flatMap_append, quiet, List.nil_append, List.flatMap_singleton, List.getLast?_concat]
    rfl

theorem Shaped.targets_of_isTerminator (shaped : block.Shaped) {stmt : Statement Nat Nat} (mem : stmt ∈ block.stmts)
    (terminates : stmt.instr.op.isTerminator = true) : block.targets = stmt.instr.targets := by
  rw [shaped.targets_eq]
  rcases List.eq_nil_or_concat' block.stmts with empty | ⟨front, last, stmts⟩
  · simp [empty] at mem
  · rw [stmts] at mem
    rcases List.mem_append.1 mem with inFront | isLast
    · have passes := shaped.terminated stmt (by simpa [stmts] using inFront)
      simp [terminates] at passes
    · rw [stmts, List.getLast?_concat, List.mem_singleton.1 isLast]
      rfl

end Block

namespace FunctionOf

variable {f : Function} {base : Nat} {b : BlockId} {block : Block Nat Nat}
  {a : BlockId}

def blockStart (f : Function) (b : BlockId) : Nat :=
  f.args.length + ((f.blocks.take b).map fun block => block.values.length).sum

theorem length_viewBlocks (id start : Nat) (blocks : List (Block Nat Nat)) :
    (f.viewBlocks base id start blocks).length = blocks.length := by
  induction blocks generalizing id start with
  | nil => rfl
  | cons _ _ ih => simp [viewBlocks, ih]

theorem block?_viewBlocks (id start : Nat) (blocks : List (Block Nat Nat)) (b : Nat) (le : id ≤ b) :
    (f.viewBlocks base id start blocks).find? (fun block => block.id = b) =
      blocks[b - id]?.map fun block => block.view base b
        (start + ((blocks.take (b - id)).map fun block => block.values.length).sum) (f.preds b) := by
  induction blocks generalizing id start with
  | nil => simp [viewBlocks]
  | cons _ _ ih =>
    rw [viewBlocks]
    by_cases here : id = b
    · subst here
      simp [Block.view]
    · have later : b - id = (b - (id + 1)) + 1 := by omega
      rw [List.find?_cons_of_neg (by simp [Block.view, here]), ih _ _ (by omega), later]
      simp [add_assoc]

theorem block?_procedure (b : BlockId) : (f.procedure base).block? b = f.blocks[b]?.map fun block =>
      block.view base b (f.blockStart b) (f.preds b) :=
  block?_viewBlocks 0 f.args.length f.blocks b (Nat.zero_le b)

theorem block?_of_get (found : f.blocks[b]? = some block) :
    (f.procedure base).block? b = some (block.view base b (f.blockStart b) (f.preds b)) := by
  simp [block?_procedure, found]

theorem succs_of_get (found : f.blocks[b]? = some block) : (f.procedure base).succs b = block.succs := by
  simp [Procedure.succs, block?_of_get found, Block.view]

theorem succs_nodup (f : Function) (base : Nat) (b : BlockId) : ((f.procedure base).succs b).Nodup := by
  rw [Procedure.succs, block?_procedure]
  cases f.blocks[b]? with
  | none => exact List.nodup_nil
  | some block => exact eraseDups_nodup block.targets

theorem exists_block_of_edge (edge : b ∈ (f.procedure base).succs a) :
    ∃ block, f.blocks[a]? = some block ∧ b ∈ block.succs := by
  rw [Procedure.succs, block?_procedure] at edge
  cases found : f.blocks[a]? with
  | none => simp [found] at edge
  | some block => exact ⟨block, rfl, by simpa [found, Block.view] using edge⟩

theorem mem_preds_iff : a ∈ f.preds b ↔ b ∈ (f.procedure base).succs a := by
  simp only [preds, List.mem_map, List.mem_filter, decide_eq_true_eq]
  constructor
  · rintro ⟨⟨a, block⟩, ⟨mem, edge⟩, rfl⟩
    obtain ⟨i, found, rfl⟩ := mem_numberFrom_iff.1 mem
    rw [Nat.zero_add]
    simpa [succs_of_get found] using edge
  · intro edge
    obtain ⟨block, found, edge⟩ := exists_block_of_edge edge
    exact ⟨(a, block), ⟨mem_numberFrom_iff.2 ⟨a, found, by simp⟩, edge⟩, rfl⟩

theorem preds_nodup (b : BlockId) : (f.preds b).Nodup := by
  have ascending : (f.preds b).Pairwise (· < ·) :=
    (numberFrom_pairwise 0 f.blocks).sublist (List.filter_sublist.map _)
  exact ascending.imp Nat.ne_of_lt

theorem mem_blockIds_iff : b ∈ (f.procedure base).blockIds ↔ ∃ block, f.blocks[b]? = some block := by
  have found : b ∈ (f.procedure base).blockIds ↔ ((f.procedure base).block? b).isSome := by
    simp [Procedure.blockIds, Procedure.block?]
  rw [found, block?_procedure, Option.isSome_map, Option.isSome_iff_exists]

theorem mem_procedure_preds (known : b ∈ (f.procedure base).blockIds) :
    a ∈ (f.procedure base).preds b ↔ b ∈ (f.procedure base).succs a := by
  obtain ⟨block, found⟩ := mem_blockIds_iff.1 known
  rw [Procedure.preds, block?_of_get found, Option.elim_some]
  exact mem_preds_iff

theorem getElem?_flatMap_values (blocks : List (Block Nat Nat)) (b i : Nat)
    (found : blocks[b]? = some block) (lt : i < block.values.length) :
    (blocks.flatMap (·.values))[((blocks.take b).map fun block => block.values.length).sum + i]? =
      block.values[i]? := by
  induction blocks generalizing b with
  | nil => simp at found
  | cons first _ ih =>
    cases b with
    | zero =>
      obtain rfl : first = block := by simpa using found
      simp [List.getElem?_append_left lt]
    | succ b =>
      rw [List.take_succ_cons, List.map_cons, List.sum_cons, List.flatMap_cons, add_assoc,
        List.getElem?_append_right (Nat.le_add_right _ _), Nat.add_sub_cancel_left]
      exact ih b (by simpa using found)

section

variable (found : f.blocks[b]? = some block)
include found

theorem getElem?_values {i : Nat} (lt : i < block.values.length) :
    f.values[f.blockStart b + i]? = block.values[i]? := by
  have flat := getElem?_flatMap_values f.blocks b i found lt
  rw [values, blockStart, add_assoc, List.getElem?_append_right (by simp)]
  simpa using flat

theorem blockStart_add_le {c : BlockId} (lt : b < c) : f.blockStart b + block.values.length ≤ f.blockStart c := by
  have next : f.blocks.take (b + 1) = f.blocks.take b ++ [block] := by
    rw [List.take_add_one, found]
    rfl
  have longer : (((f.blocks.take (b + 1)).map fun block => block.values.length).sum) ≤
      ((f.blocks.take c).map fun block => block.values.length).sum :=
    List.Sublist.sum_le_sum (((List.take_prefix_take_left lt).sublist).map _) (by simp)
  simp only [next, List.map_append, List.map_singleton, List.sum_append, List.sum_singleton] at longer
  simp only [blockStart]
  omega

theorem place_unique {b' : BlockId} {block' : Block Nat Nat} {i i' : Nat} (found' : f.blocks[b']? = some block')
    (lt : i < block.values.length) (lt' : i' < block'.values.length)
    (same : f.blockStart b + i = f.blockStart b' + i') :
    b = b' ∧ i = i' := by
  have blocks : b = b' := by
    rcases Nat.lt_trichotomy b b' with before | rfl | after
    · have := blockStart_add_le found before
      omega
    · rfl
    · have := blockStart_add_le found' after
      omega
  subst blocks
  exact ⟨rfl, by omega⟩

end

def IsNamed (f : Function) (v : Var) (name : String) : Prop :=
  ∃ value, f.values[v]? = some value ∧ value.name? = some name

variable {name : String} {v : Var}

theorem IsNamed.valueName_eq (named : f.IsNamed v name) : f.valueName v = name := by
  obtain ⟨value, found, named⟩ := named
  simp [valueName, found, named]

theorem IsNamed.mem_identifiers (named : f.IsNamed v name) :
    name ∈ (f.procedure base).identifiers := by
  obtain ⟨value, found, named⟩ := named
  refine List.mem_append_left _ (List.mem_filterMap.2 ⟨value, ?_, named⟩)
  exact List.mem_of_getElem? found

theorem IsNamed.valueName_mem (named : f.IsNamed v name) :
    f.valueName v ∈ (f.procedure base).identifiers := by
  rw [named.valueName_eq]
  exact named.mem_identifiers

theorem index_eq_of_filterMap_nodup {α β : Type} {g : α → Option β} {as : List α}
    (nodup : (as.filterMap g).Nodup) {i j : Nat} {a a' : α} {b : β} (found : as[i]? = some a)
    (found' : as[j]? = some a') (value : g a = some b) (value' : g a' = some b) : i = j := by
  induction as generalizing i j with
  | nil => simp at found
  | cons first as ih =>
    have tail : (as.filterMap g).Nodup := by
      refine nodup.sublist ?_
      rw [List.filterMap_cons]
      split
      · exact List.Sublist.refl _
      · exact List.sublist_cons_self _ _
    have head {k : Nat} {c : α} (value : g first = some b) (found : as[k]? = some c) : g c ≠ some b := by
      intro same
      rw [List.filterMap_cons_some value, List.nodup_cons] at nodup
      exact nodup.1 (List.mem_filterMap.2 ⟨c, List.mem_of_getElem? found, same⟩)
    cases i with
    | zero =>
      obtain rfl : first = a := by simpa using found
      cases j with
      | zero => rfl
      | succ j => exact absurd value' (head value found')
    | succ i =>
      cases j with
      | zero =>
        obtain rfl : first = a' := by simpa using found'
        exact absurd value (head value' found)
      | succ j =>
        have same : i = j := ih tail (by simpa using found) (by simpa using found')
        rw [same]

theorem IsNamed.unique {v w : Var} (wf : f.WellFormed)
    (first : f.IsNamed v name) (second : f.IsNamed w name) : v = w := by
  obtain ⟨value, found, named⟩ := first
  obtain ⟨value', found', named'⟩ := second
  exact index_eq_of_filterMap_nodup wf.names found found' named named'

theorem mem_values_of_block {value : Value Nat Nat} (found : f.blocks[b]? = some block)
    (mem : value ∈ block.values) : value ∈ f.values :=
  List.mem_append_right _ (List.mem_flatMap.2 ⟨block, List.mem_of_getElem? found, mem⟩)

theorem WellFormed.mem_blockIds_of_edge (wf : f.WellFormed) {a : BlockId}
    (edge : b ∈ (f.procedure base).succs a) : b ∈ (f.procedure base).blockIds := by
  obtain ⟨block, found, target⟩ := exists_block_of_edge edge
  rw [Block.succs, List.mem_eraseDups, Block.targets, List.mem_flatMap] at target
  obtain ⟨stmt, inBlock, target⟩ := target
  have value : Value.statement stmt ∈ f.values :=
    mem_values_of_block found (List.mem_append_right _ (List.mem_map_of_mem inBlock))
  have inside : b < f.blocks.length := wf.targets _ value b target
  exact mem_blockIds_iff.2 ⟨f.blocks[b], List.getElem?_eq_getElem inside⟩

theorem phis_of_get (found : f.blocks[b]? = some block) :
    (f.procedure base).phis b = (numberFrom (f.blockStart b) block.phis).map fun (var, phi) => phi.view var := by
  simp [Procedure.phis, block?_of_get found, Block.view]

theorem exists_phi_of_mem {phi : Reflow.Phi} (mem : phi ∈ (f.procedure base).phis b) :
    ∃ (block : Block Nat Nat) (i : Nat) (source : Phi Nat Nat),
      f.blocks[b]? = some block ∧ block.phis[i]? = some source ∧
      phi = source.view (f.blockStart b + i) ∧ f.IsNamed phi.var source.name := by
  cases found : f.blocks[b]? with
  | none => simp [Procedure.phis, block?_procedure, found] at mem
  | some block =>
    rw [phis_of_get found] at mem
    obtain ⟨⟨var, source⟩, listed, rfl⟩ := List.mem_map.1 mem
    obtain ⟨i, here, rfl⟩ := mem_numberFrom_iff.1 listed
    obtain ⟨lt, -⟩ := List.getElem?_eq_some_iff.1 here
    refine ⟨block, i, source, rfl, here, rfl, .phi source, ?_, rfl⟩
    have value : block.values[i]? = some (.phi source) := by
      rw [Block.values, List.getElem?_append_left (by simpa using lt), List.getElem?_map, here]
      rfl
    obtain ⟨inBlock, -⟩ := List.getElem?_eq_some_iff.1 value
    exact (getElem?_values found inBlock).trans value

end FunctionOf

end Reflow.Program
