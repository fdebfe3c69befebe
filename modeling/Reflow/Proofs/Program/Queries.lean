import Reflow.Proofs.Emit.Shifted
import Reflow.Proofs.Program.Building
import Reflow.Proofs.Program.Consistent

namespace Reflow

namespace Program

/-! ## Lists -/

variable {α β : Type} {as : List α} {g : Nat → Option β}

theorem mapM_range'_eq_some (first start : Nat) (h : Nat × α → β)
    (each : ∀ i a, as[i]? = some a → g (first + (start + i)) = some (h (start + i, a))) :
    (List.range' (first + start) as.length).mapM g = some ((numberFrom start as).map h) := by
  induction as generalizing start with
  | nil => rfl
  | cons a as ih =>
    have here : g (first + start) = some (h (start, a)) := each 0 a rfl
    have rest := ih (start + 1) fun i b found => by
      have next := each (i + 1) b (by simpa using found)
      rwa [show start + (i + 1) = start + 1 + i by omega] at next
    rw [List.length_cons, List.range'_succ, List.mapM_cons, here, Nat.add_assoc, rest]
    rfl

theorem mapM_range'_eq_some_map {first : Nat} (h : α → β)
    (each : ∀ i a, as[i]? = some a → g (first + i) = some (h a)) :
    (List.range' first as.length).mapM g = some (as.map h) := by
  have all := mapM_range'_eq_some first 0 (fun entry => h entry.2) fun i a found => by
    rw [Nat.zero_add]
    exact each i a found
  rw [Nat.add_zero] at all
  rw [all]
  exact congrArg (some ·) ((List.map_map ..).symm.trans (congrArg (List.map h) (map_snd_numberFrom 0 as)))

theorem mapM_range_eq_some (h : α → β)
    (each : ∀ i a, as[i]? = some a → g i = some (h a)) : (List.range as.length).mapM g = some (as.map h) := by
  rw [List.range_eq_range']
  refine mapM_range'_eq_some_map h fun i a found => ?_
  rw [Nat.zero_add]
  exact each i a found

theorem filterMap_map_ite (dropped : α → Prop) [DecidablePred dropped] (h : α → β) (as : List α) :
    (as.map fun a => if dropped a then none else some (h a)).filterMap id = (as.filter fun a => ¬dropped a).map h := by
  induction as with
  | nil => rfl
  | cons a as ih =>
    by_cases here : dropped a
    · simpa [here] using ih
    · simpa [here] using ih

theorem mapM_local? (f : FunctionRow) (bs : List BlockId) : (bs.map (f.blocks.1 + ·)).mapM f.local? = some bs := by
  induction bs with
  | nil => rfl
  | cons b bs ih =>
    have first : f.local? (f.blocks.1 + b) = some b := by simp [FunctionRow.local?]
    rw [List.map_cons, List.mapM_cons, first, ih]
    rfl

/-! ## Statements -/

theorem mapIdx_arms (first : Nat) (arms : List (Var × BlockId)) (rest : List BlockId) :
    ((arms.map (·.2) ++ rest).mapIdx fun i target => (((arms.map (·.1)).map (first + ·))[i]?, target)) =
      (arms.map fun (v, b) => (some (first + v), b)) ++ rest.map fun b => (none, b) := by
  induction arms with
  | nil => exact List.ext_getElem? (by simp)
  | cons _ _ ih => simpa using ih

namespace Tables.Records

variable {t : Tables} {base firstBlock : Nat} {row : ValueRow} {stmt : Statement Nat Nat}

theorem kind?_eq (records : t.Records base firstBlock (.statement stmt) row) (number : Nat) :
    row.kind? (base + number) (stmt.instr.reads.map (base + ·)) stmt.instr.targets =
      some (shiftResult base (Kind.shift base) (stmt.instr.kind number)) := by
  have op : row.op = stmt.instr.op := records.op
  have cases : row.cases = stmt.instr.cases := records.cases
  obtain ⟨result, instr⟩ := stmt
  rw [ValueRow.kind?, op, cases]
  cases instr with
  | multiif _ _ arms otherwise =>
    have more := mapIdx_arms base arms otherwise.toList
    simp only [Instr.op, Instr.reads, Instr.targets, Instr.kind, shiftResult, Kind.shift, List.map_cons,
      List.map_append, List.cons_append, List.mapIdx_cons]
    simpa [Function.comp_def, shiftArm] using more
  | switch _ arms =>
    have paired : (arms.map (·.1)).zip (arms.map (·.2)) = arms := by
      rw [List.zip_map', List.map_id']
    simp only [Instr.op, Instr.reads, Instr.targets, Instr.cases, paired]
    rfl
  | _ => rfl

theorem text?_eq (records : t.Records base firstBlock (.statement stmt) row) {names names' : Names}
    (vars : ∀ v, names'.var (base + v) = names.var v)
    (labels : ∀ b, names'.label b = shiftResult base (fun text => text) (names.label b)) :
    row.text? names' (stmt.instr.reads.map (base + ·)) stmt.instr.targets =
      some (shiftResult base (fun text => text)
        (FunctionOf.renderInstr names (stmt.result.getD "") stmt.instr)) := by
  have op : row.op = stmt.instr.op := records.op
  have name : row.name = stmt.result.getD "" := records.name
  have symbol : row.symbol = stmt.instr.symbol := records.symbol
  have immediates : row.immediates = stmt.instr.immediates := records.immediates
  have list (operands : List Var) : FunctionOf.operandList names' (operands.map (base + ·)) =
      FunctionOf.operandList names operands := by
    rw [FunctionOf.operandList, List.map_map]
    exact congrArg (String.intercalate ", ") (List.map_congr_left fun v _ => vars v)
  obtain ⟨result, instr⟩ := stmt
  simp only [ValueRow.text?, op, name, symbol, immediates, list]
  cases instr with
  | ret value =>
    cases value with
    | none => rfl
    | some v => simp [Instr.op, Instr.reads, FunctionOf.renderInstr, shiftResult, vars]
  | goto target =>
    have label := labels target
    simp only [Instr.op, Instr.targets, FunctionOf.renderInstr, List.getElem?_cons_zero, Option.bind_eq_bind,
      Option.bind_some, label]
    cases names.label target <;> rfl
  | vuse | asm | br => rfl
  | _ =>
    simp [Instr.op, Instr.reads, Instr.symbol, Instr.immediates, FunctionOf.renderInstr, shiftResult, vars]

theorem stmt?_eq (records : t.Records base firstBlock (.statement stmt) row) (shaped : stmt.Shaped) (f : Function)
    {v : Nat} (here : t.values[base + v]? = some row) :
    t.stmt? (f.row base firstBlock) (base + v) =
      some (if stmt.instr.op = .br then none else some ((stmt.view 0 v).shift base)) := by
  have op : row.op = stmt.instr.op := records.op
  have name : row.name = stmt.result.getD "" := records.name
  have locals : (stmt.instr.targets.map (firstBlock + ·)).mapM (f.row base firstBlock).local? =
      some stmt.instr.targets := mapM_local? _ _
  have defs : (if row.op.isDef && row.name ≠ "" then [base + v] else []) =
      (if stmt.result.isSome then [v] else []).map (base + ·) := by
    cases result : stmt.result with
    | none => simp [name, result]
    | some given =>
      have isDef := shaped.isDef (by simp [result])
      have named := (shaped.result given (by simp [result])).ne_empty
      simp [op, name, result, isDef, named]
  simp only [stmt?, here, op, Option.bind_eq_bind, Option.bind_some]
  split
  · rfl
  · have reads : t.reads? row = some (stmt.instr.reads.map (base + ·)) := records.reads?
    have targets : t.targets? row = some (stmt.instr.targets.map (firstBlock + ·)) := records.targets?
    rw [op] at defs
    rw [reads, targets, Option.bind_some, Option.bind_some, locals, Option.bind_some, records.kind?_eq,
      Option.bind_some, defs]
    simp only [Statement.view, Stmt.shift, Nat.zero_add]
    rfl

theorem phi?_eq {phi : Phi Nat Nat} (records : t.Records base firstBlock (.phi phi) row) (f : Function) {v : Nat}
    (here : t.values[base + v]? = some row) :
    t.phi? (f.row base firstBlock) (base + v) = some ((phi.view v).shift base) := by
  have cls : row.cls = .phi := records.cls
  have count : row.opCount = phi.incoming.length := by simp [records.opCount, Value.reads]
  have reads : slice? t.operands (row.operands.1, row.operands.1 + row.opCount) =
      some ((phi.incoming.map (·.2)).map (base + ·)) := records.reads?
  have targets : slice? t.operands (row.operands.1 + row.opCount, row.operands.2) =
      some ((phi.incoming.map (·.1)).map (firstBlock + ·)) := records.targets?
  have isVirtual : decide (row.op = .vphi) = phi.isVirtual := by
    rw [records.op, Value.op, Phi.op]
    cases phi.isVirtual <;> rfl
  have incoming : (List.range row.opCount).mapM (t.slot? (f.row base firstBlock) row) =
      some (phi.incoming.map fun pair => (pair.1, base + pair.2)) := by
    rw [count]
    refine mapM_range_eq_some _ fun i slot found => ?_
    have lt := (List.getElem?_eq_some_iff.1 found).1
    have value : t.operands[row.operands.1 + i]? = some (base + slot.2) := by
      rw [getElem?_of_slice? reads (by simpa using lt)]
      simp [found]
    have block : t.operands[row.operands.1 + row.opCount + i]? = some (firstBlock + slot.1) := by
      rw [getElem?_of_slice? targets (by simpa using lt)]
      simp [found]
    simp [slot?, value, block, FunctionRow.local?, FunctionOf.row]
  simp only [phi?, here, cls, if_pos, incoming, isVirtual, Option.bind_eq_bind, Option.bind_some]
  rfl

end Tables.Records

namespace Tables.Holds

variable {t : Tables} {index base firstBlock : Nat} {f : Function} (holds : t.Holds index f base firstBlock)
  {b : BlockId} {block : Block Nat Nat}

include holds

theorem succs?_eq (found : f.blocks[b]? = some block) :
    t.succs? (f.row base firstBlock) b = some block.succs := by
  obtain ⟨row, here, records⟩ := holds.blocks b block found
  have locals : (block.targets.map (firstBlock + ·)).mapM (f.row base firstBlock).local? = some block.targets :=
    mapM_local? _ _
  have place : t.blocks[(f.row base firstBlock).blocks.1 + b]? = some row := here
  simp only [succs?, place, records.succs, locals, Option.bind_eq_bind, Option.bind_some]
  rfl

theorem label?_eq {row : BlockRow} (found : f.blocks[b]? = some block) (here : t.blocks[firstBlock + b]? = some row) :
    t.label? row = some block.label? := by
  have records := holds.recordsBlock found here
  have count := block.length_values
  rw [label?, records.phiEnd, records.last]
  cases stmts : block.stmts with
  | nil =>
    rw [if_pos (by simp [stmts] at count; omega), Block.label?, stmts]
  | cons stmt =>
    have inside : block.values[block.phis.length]? = some (.statement stmt) := by
      rw [Block.getElem?_values_statement (Nat.le_refl _), stmts]
      simp
    obtain ⟨r, place, same⟩ := holds.recordsAt found inside
    rw [if_neg (by simp [stmts] at count; omega), place, Option.map_some, same.op, same.symbol, Block.label?, stmts]
    obtain ⟨result, instr⟩ := stmt
    cases instr <;> rfl

end Tables.Holds

/-! ## Predecessors -/

section Predecessors

variable {n : Nat} {p b : BlockId} {lists : BlockId → List BlockId}

theorem addPred?_map (lt : b < n) (new : p ∉ lists b) :
    addPred? p ((List.range n).map lists) b = some ((List.range n).map (Function.update lists b (lists b ++ [p]))) := by
  have known : ((List.range n).map lists)[b]? = some (lists b) := by simp [lt]
  simp only [addPred?, known, Option.bind_eq_bind, Option.bind_some, if_neg new, Option.pure_def, Option.some.injEq]
  refine List.ext_getElem (by simp) fun c lt' lt'' => ?_
  by_cases same : c = b
  · subst same
    simp
  · simp [same, Ne.symm same]

theorem foldlM_addPred? (p : BlockId) (lists : BlockId → List BlockId) {succs : List BlockId} (nodup : succs.Nodup)
    (inside : ∀ b ∈ succs, b < n) (new : ∀ b ∈ succs, p ∉ lists b) :
    succs.foldlM (addPred? p) ((List.range n).map lists) =
      some ((List.range n).map fun b => if b ∈ succs then lists b ++ [p] else lists b) := by
  induction succs generalizing lists with
  | nil => simp
  | cons b succs ih =>
    obtain ⟨absent, nodup⟩ := List.nodup_cons.1 nodup
    have other {c : BlockId} (mem : c ∈ succs) : c ≠ b := fun same => absent (same ▸ mem)
    rw [List.foldlM_cons, addPred?_map (inside b (.head _)) (new b (.head _)), Option.bind_eq_bind,
      Option.bind_some, ih _ nodup fun c mem => inside c (.tail _ mem)]
    · congr 2
      funext c
      by_cases same : c = b
      · subst same
        simp [absent]
      · simp [same]
    · intro c mem
      rw [Function.update_of_ne (other mem)]
      exact new c (.tail _ mem)

end Predecessors

namespace FunctionOf

theorem getElem?_viewBlocks {f : Function} {base : Nat} (id start i : Nat) (blocks : List (Block Nat Nat)) :
    (f.viewBlocks base id start blocks)[i]? = blocks[i]?.map fun block => block.view base (id + i)
      (start + ((blocks.take i).map fun block => block.values.length).sum) (f.preds (id + i)) := by
  induction blocks generalizing id start i with
  | nil => simp [viewBlocks]
  | cons _ _ ih =>
    cases i with
    | zero => simp [viewBlocks]
    | succ i =>
      have next : id + 1 + i = id + (i + 1) := by omega
      rw [viewBlocks, List.getElem?_cons_succ, ih, next]
      simp [Nat.add_assoc]

theorem mem_blocks_procedure_iff {f : Function} {base : Nat} {view : Reflow.Block} :
    view ∈ (f.procedure base).blocks ↔ ∃ (b : BlockId) (block : Block Nat Nat), f.blocks[b]? = some block ∧
      view = block.view base b (f.blockStart b) (f.preds b) := by
  rw [List.mem_iff_getElem?]
  refine exists_congr fun b => ?_
  rw [procedure, getElem?_viewBlocks, Nat.zero_add, Option.map_eq_some_iff]
  exact exists_congr fun block => and_congr_right fun _ => eq_comm

theorem ids_procedure (f : Function) (base : Nat) :
    (f.procedure base).blocks.map (·.id) = List.range f.blocks.length := by
  refine List.ext_getElem? fun i => ?_
  rw [List.getElem?_map, procedure, getElem?_viewBlocks, Option.map_map]
  rcases Nat.lt_or_ge i f.blocks.length with lt | ge
  · simp [lt, Block.view]
  · simp [ge]

theorem WellFormed.lt_of_mem_succs {f : Function} (wf : f.WellFormed) {a b : BlockId} {block : Block Nat Nat}
    (found : f.blocks[a]? = some block) (mem : b ∈ block.succs) : b < f.blocks.length := by
  have edge : b ∈ (f.procedure 0).succs a := by rwa [succs_of_get found]
  obtain ⟨target, there⟩ := mem_blockIds_iff.1 (wf.mem_blockIds_of_edge edge)
  exact (List.getElem?_eq_some_iff.1 there).1

def predsUpTo (f : Function) (k : Nat) (b : BlockId) : List BlockId :=
  ((numberFrom 0 (f.blocks.take k)).filter fun (_, block) => b ∈ block.succs).map (·.1)

variable {f : Function} {k : Nat} {block : Block Nat Nat}

theorem not_mem_predsUpTo (b : BlockId) : k ∉ f.predsUpTo k b := by
  intro mem
  obtain ⟨⟨c, other⟩, listed, rfl⟩ := List.mem_map.1 mem
  obtain ⟨i, there, same⟩ := mem_numberFrom_iff.1 (List.mem_filter.1 listed).1
  have lt := (List.getElem?_eq_some_iff.1 there).1
  rw [List.length_take] at lt
  omega

theorem predsUpTo_succ (found : f.blocks[k]? = some block) (b : BlockId) :
    f.predsUpTo (k + 1) b = if b ∈ block.succs then f.predsUpTo k b ++ [k] else f.predsUpTo k b := by
  have next : f.blocks.take (k + 1) = f.blocks.take k ++ [block] := by
    rw [List.take_add_one, found]
    rfl
  have length : (f.blocks.take k).length = k := by
    have lt := (List.getElem?_eq_some_iff.1 found).1
    rw [List.length_take]
    omega
  rw [predsUpTo, next, numberFrom_concat, List.filter_append, List.map_append, length, Nat.zero_add]
  split
  · rename_i mem
    simp [mem, predsUpTo]
  · rename_i absent
    simp [absent, predsUpTo]

end FunctionOf

namespace Tables.Holds

variable {t : Tables} {index base firstBlock : Nat} {f : Function} (holds : t.Holds index f base firstBlock)
  {b : BlockId} {block : Block Nat Nat}

include holds

theorem preds?_eq (wf : f.WellFormed) :
    t.preds? (f.row base firstBlock) = some ((List.range f.blocks.length).map f.preds) := by
  have count : (f.row base firstBlock).blocks.2 - (f.row base firstBlock).blocks.1 = f.blocks.length :=
    Nat.add_sub_cancel_left ..
  have upTo (k : Nat) (le : k ≤ f.blocks.length) : (List.range k).foldlM
      (fun lists p => do (← t.succs? (f.row base firstBlock) p).foldlM (addPred? p) lists)
      (List.replicate f.blocks.length []) = some ((List.range f.blocks.length).map (f.predsUpTo k)) := by
    induction k with
    | zero =>
      have none : f.predsUpTo 0 = fun _ => [] := rfl
      simp [none]
    | succ k ih =>
      have found := List.getElem?_eq_getElem (show k < f.blocks.length by omega)
      generalize f.blocks[k] = block at found
      have step := foldlM_addPred? k (f.predsUpTo k) (eraseDups_nodup block.targets)
        (fun b mem => wf.lt_of_mem_succs found mem) fun b _ => FunctionOf.not_mem_predsUpTo b
      have all : f.predsUpTo (k + 1) = fun b => if b ∈ block.succs then f.predsUpTo k b ++ [k] else f.predsUpTo k b :=
        funext (FunctionOf.predsUpTo_succ found)
      rw [List.range_succ, List.foldlM_append, ih (by omega), all]
      simp only [Option.bind_eq_bind, Option.bind_some, List.foldlM_cons, List.foldlM_nil, holds.succs?_eq found]
      rw [Block.succs, step]
      rfl
  have all : f.predsUpTo f.blocks.length = f.preds := by
    funext b
    rw [FunctionOf.predsUpTo, List.take_length]
    rfl
  rw [preds?, count, upTo _ (Nat.le_refl _), all]

theorem block?_eq (wf : f.WellFormed) (found : f.blocks[b]? = some block) :
    t.block? (f.row base firstBlock) b =
      some ((block.view 0 b (f.blockStart b) (f.preds b)).shift base) := by
  obtain ⟨row, here, -⟩ := holds.blocks b block found
  have place : t.blocks[(f.row base firstBlock).blocks.1 + b]? = some row := here
  have records := holds.recordsBlock found here
  have lt := (List.getElem?_eq_some_iff.1 found).1
  have shaped := wf.blocks block (List.mem_of_getElem? found)
  have preds : ((List.range f.blocks.length).map f.preds)[b]? = some (f.preds b) := by simp [lt]
  have stmts : (List.range' row.phiEnd (row.last - row.phiEnd)).mapM (t.stmt? (f.row base firstBlock)) =
      some ((numberFrom (f.blockStart b + block.phis.length) block.stmts).map fun entry =>
        if entry.2.instr.op = .br then none else some ((entry.2.view 0 entry.1).shift base)) := by
    have count : row.last - row.phiEnd = block.stmts.length := by
      rw [records.last, records.phiEnd, block.length_values]
      omega
    rw [count, records.phiEnd, Nat.add_assoc]
    refine mapM_range'_eq_some _ _ _ fun i stmt inside => ?_
    have value : block.values[block.phis.length + i]? = some (.statement stmt) := by
      rw [Block.getElem?_values_statement (Nat.le_add_right _ _), Nat.add_sub_cancel_left, inside]
      rfl
    obtain ⟨r, there, same⟩ := holds.recordsAt found value
    rw [Nat.add_assoc, ← Nat.add_assoc (f.blockStart b)] at there
    exact same.stmt?_eq (shaped.stmts stmt (List.mem_of_getElem? inside)) f there
  have phis : (List.range' row.first (row.phiEnd - row.first)).mapM (t.phi? (f.row base firstBlock)) =
      some ((numberFrom (f.blockStart b) block.phis).map fun entry => (entry.2.view entry.1).shift base) := by
    have count : row.phiEnd - row.first = block.phis.length := by
      rw [records.phiEnd, records.first]
      omega
    rw [count, records.first]
    refine mapM_range'_eq_some _ _ _ fun i phi inside => ?_
    have lt := (List.getElem?_eq_some_iff.1 inside).1
    have value : block.values[i]? = some (.phi phi) := by
      rw [Block.getElem?_values_phi lt, inside]
      rfl
    obtain ⟨r, there, same⟩ := holds.recordsAt found value
    rw [Nat.add_assoc] at there
    exact same.phi?_eq f there
  simp only [block?, place, holds.label?_eq found here, stmts, phis, holds.preds?_eq wf, preds,
    holds.succs?_eq found, Option.bind_eq_bind, Option.bind_some, filterMap_map_ite]
  simp [Block.view, Reflow.Block.shift, Function.comp_def, bne, beq_eq_decide]

theorem blocks?_eq (wf : f.WellFormed) : t.blocks? (f.row base firstBlock) =
      some ((f.procedure 0).blocks.map (Reflow.Block.shift base)) := by
  have count : (f.row base firstBlock).blocks.2 - (f.row base firstBlock).blocks.1 = f.blocks.length :=
    Nat.add_sub_cancel_left ..
  have length : (f.procedure 0).blocks.length = f.blocks.length := FunctionOf.length_viewBlocks ..
  rw [blocks?, count, ← length]
  refine mapM_range_eq_some _ fun b view here => ?_
  rw [FunctionOf.procedure, FunctionOf.getElem?_viewBlocks, Nat.zero_add] at here
  obtain ⟨block, found, rfl⟩ := Option.map_eq_some_iff.1 here
  exact holds.block?_eq wf found

/-! ### Names -/

theorem names?_eq : t.names? base (base + f.values.length) =
    some (f.values.map fun value => value.name?.getD "") := by
  rw [names?, Nat.add_sub_cancel_left]
  refine mapM_range'_eq_some_map _ fun v value found => ?_
  obtain ⟨row, here, records⟩ := holds.values v value found
  rw [here, Option.map_some, records.name]

theorem blockNames?_eq : t.blockNames? (f.row base firstBlock) = some (f.blocks.map (·.name)) := by
  have count : (f.row base firstBlock).blocks.2 - (f.row base firstBlock).blocks.1 = f.blocks.length :=
    Nat.add_sub_cancel_left ..
  rw [blockNames?, count]
  refine mapM_range'_eq_some_map _ fun b block found => ?_
  obtain ⟨row, here, records⟩ := holds.blocks b block found
  have place : t.blocks[(f.row base firstBlock).blocks.1 + b]? = some row := here
  rw [place, Option.map_some, records.name]

theorem value?_eq_none (nonempty : f.blocks ≠ []) {v : Nat} (absent : f.values[v]? = none) :
    t.value? (f.row base firstBlock) (base + v) = none := by
  have late := List.getElem?_eq_none_iff.1 absent
  rw [value?, holds.valueEnd_eq nonempty, if_neg (by omega)]

theorem exists_value? (nonempty : f.blocks ≠ []) {v : Nat} {value : Value Nat Nat} (found : f.values[v]? = some value) :
    ∃ row, t.value? (f.row base firstBlock) (base + v) = some row ∧
      t.Records base firstBlock value row := by
  have lt := (List.getElem?_eq_some_iff.1 found).1
  obtain ⟨row, here, records⟩ := holds.values v value found
  refine ⟨row, ?_, records⟩
  rw [value?, holds.valueEnd_eq nonempty, if_pos ⟨Nat.le_add_right .., by omega⟩, here]

theorem varName_eq (nonempty : f.blocks ≠ []) (v : Var) :
    ((t.value? (f.row base firstBlock) v).map (·.name)).getD "" =
      ((f.procedure 0).shift base).varName v := by
  rw [Procedure.shift]
  dsimp only
  split
  · rename_i own
    obtain ⟨w, rfl⟩ := Nat.exists_eq_add_of_le own
    rw [Nat.add_sub_cancel_left, FunctionOf.procedure]
    dsimp only [FunctionOf.valueName]
    cases found : f.values[w]? with
    | none => rw [holds.value?_eq_none nonempty found]; rfl
    | some =>
      obtain ⟨row, here, records⟩ := holds.exists_value? nonempty found
      rw [here, Option.map_some, records.name]
      rfl
  · rename_i other
    rw [value?, if_neg fun inside => other inside.1]
    rfl

theorem procedure?_eq (wf : f.WellFormed) :
    t.procedure? (f.row base firstBlock) = some ((f.procedure 0).shift base) := by
  have nonempty := wf.nonempty
  have names : t.names? (f.row base firstBlock).args.1 (t.valueEnd (f.row base firstBlock)) =
      some (f.values.map fun value => value.name?.getD "") := by
    rw [holds.valueEnd_eq nonempty]
    exact holds.names?_eq
  have given : (f.values.map fun value => value.name?.getD "").filter (· ≠ "") = f.values.filterMap (·.name?) := by
    have word : ∀ value ∈ f.values, ∀ name, value.name? = some name → IsWord name := fun _ mem _ =>
      wf.toShaped.isWord_name mem
    generalize f.values = values at word
    induction values with
    | nil => rfl
    | cons value _ ih =>
      have rest := ih fun other mem => word other (.tail _ mem)
      cases named : value.name? with
      | none => simpa [named] using rest
      | some name => simpa [named, (word value (.head _) name named).ne_empty] using rest
  simp only [procedure?, names, holds.blocks?_eq wf, holds.blockNames?_eq, Option.bind_eq_bind,
    Option.bind_some, given, holds.varName_eq nonempty]
  rfl

theorem render_shifts (nonempty : f.blocks ≠ []) :
    Renderer.Shifts base f.render (t.render (f.row base firstBlock)) := by
  intro id names names' vars labels
  rw [render, text?, FunctionOf.render]
  cases found : f.values[id]? with
  | none =>
    rw [holds.value?_eq_none nonempty found]
    rfl
  | some value =>
    obtain ⟨row, here, records⟩ := holds.exists_value? nonempty found
    have locals : (value.targets.map (firstBlock + ·)).mapM (f.row base firstBlock).local? =
        some value.targets := mapM_local? _ _
    simp only [here, records.reads?, records.targets?, locals, Option.bind_eq_bind, Option.bind_some]
    cases value with
    | statement => exact congrArg (Option.getD · _) (records.text?_eq vars labels)
    | argument =>
      simp only [ValueRow.text?, records.op]
      rfl
    | phi phi =>
      simp only [ValueRow.text?, records.op, Value.op, Phi.op]
      cases phi.isVirtual <;> rfl

theorem emitPasses?_eq (wf : f.WellFormed) (session : Session) (config : Config) (passes : Nat) :
    t.emitPasses? (f.row base firstBlock) session config passes = some (Prod.map
      (List.map (shiftResult base (Body.shift base))) id
      (session.emitPasses config (f.procedure 0) (f.procedure 0).analysis.toFacts f.render passes)) := by
  rw [emitPasses?, holds.procedure?_eq wf, Option.bind_eq_bind, Option.bind_some,
    Procedure.analysis_shift, Session.emitPasses_shift (holds.render_shifts wf.nonempty)]
  rfl

end Tables.Holds

/-- The tables that a text is read into are consistent. The queries on each function of them succeed, give the procedure
of the function with values numbered through the program, and name a block among the predecessors of another exactly if
that is among its successors. -/
theorem parse_consistent {text : String} {t : Tables} (parsed : parseTables text = .ok t) :
    t.Consistent ∧ ∃ program, parse text = .ok program ∧
    ∀ (index : Nat) (row : FunctionRow), t.functions[index]? = some row → ∃ (f : Function) (p : Procedure),
      program.functions[index]? = some f ∧ t.procedure? row = some p ∧ p = (f.procedure 0).shift row.args.1 ∧
      p.blocks.map (·.id) = List.range (row.blocks.2 - row.blocks.1) ∧
      (∀ block ∈ p.blocks, block.succs.Nodup ∧ block.preds.Nodup) ∧
      (∀ block ∈ p.blocks, ∀ succ ∈ block.succs, succ < row.blocks.2 - row.blocks.1) ∧
      ∀ block ∈ p.blocks, ∀ b, b ∈ block.preds ↔ ∃ pred ∈ p.blocks, pred.id = b ∧ block.id ∈ pred.succs := by
  obtain ⟨program, read, rfl⟩ := exists_of_parseTables parsed
  have written := parse_written read
  refine ⟨written.consistent, program, read, fun index row place => ?_⟩
  obtain ⟨f, found, rfl⟩ := exists_function_of_row place
  have wf := (written.functions f (List.mem_of_getElem? found)).toWellFormed
  have count : (f.row (program.base index) (program.firstBlock index)).blocks.2 -
      (f.row (program.base index) (program.firstBlock index)).blocks.1 = f.blocks.length :=
    Nat.add_sub_cancel_left ..
  refine ⟨f, _, found, (holds_tables found).procedure?_eq wf, rfl, ?_, ?_, ?_, ?_⟩
  · rw [Procedure.shift, List.map_map, count]
    exact f.ids_procedure _
  · intro block mem
    obtain ⟨view, listed, rfl⟩ := List.mem_map.1 mem
    obtain ⟨b, source, -, rfl⟩ := FunctionOf.mem_blocks_procedure_iff.1 listed
    exact ⟨eraseDups_nodup source.targets, FunctionOf.preds_nodup b⟩
  · intro block mem succ edge
    obtain ⟨view, listed, rfl⟩ := List.mem_map.1 mem
    obtain ⟨b, source, here, rfl⟩ := FunctionOf.mem_blocks_procedure_iff.1 listed
    rw [count]
    exact wf.lt_of_mem_succs here edge
  · intro block mem a
    obtain ⟨view, listed, rfl⟩ := List.mem_map.1 mem
    obtain ⟨b, source, -, rfl⟩ := FunctionOf.mem_blocks_procedure_iff.1 listed
    have edges : a ∈ f.preds b ↔ b ∈ (f.procedure 0).succs a := FunctionOf.mem_preds_iff
    refine edges.trans ⟨fun edge => ?_, ?_⟩
    · obtain ⟨pred, here, edge⟩ := FunctionOf.exists_block_of_edge edge
      exact ⟨_, List.mem_map_of_mem (FunctionOf.mem_blocks_procedure_iff.2 ⟨a, pred, here, rfl⟩), rfl, edge⟩
    · rintro ⟨pred, mem, rfl, edge⟩
      obtain ⟨view, listed, rfl⟩ := List.mem_map.1 mem
      obtain ⟨a, source, here, rfl⟩ := FunctionOf.mem_blocks_procedure_iff.1 listed
      exact (FunctionOf.succs_of_get here).symm ▸ edge

def twoFunctions : Program where
  functions :=
    [ { name := "first", args := ["c"]
        blocks :=
          [⟨"entry", [], [⟨none, .condbr 0 1 1⟩]⟩,
            ⟨"a", [], [⟨none, .ret none⟩]⟩ ] },
      { name := "second", args := ["x"]
        blocks :=
          [⟨"start", [], [⟨none, .br 1⟩]⟩,
            ⟨"next", [⟨"y", false, [(0, 0), (1, 2)]⟩],
              [⟨some "t", .binary .lt 2 0⟩, ⟨none, .condbr 3 1 2⟩]⟩,
            ⟨"done", [], [⟨none, .ret (some 2)⟩]⟩ ] } ]

theorem parse_twoFunctions : ∃ text, parse text = .ok twoFunctions :=
  ⟨_, parse_join ["first(%c) \x7b\n", "entry:\n condbr %c, ^a, ^a\n", "a:\n ret\n\x7d\n\n", "second(%x) \x7b\n",
      "start:\n br ^next\n", "next:\n %y = phi [^start, %x], [^next, %y]\n %t = lt %y, %x\n",
      " condbr %t, ^next, ^done\n", "done:\n ret %y\n\x7d\n"] (by decide +kernel)⟩

theorem twoFunctions_consistent : twoFunctions.tables.Consistent ∧ ∃ p,
    twoFunctions.tables.procedure? { name := "second", blocks := (2, 5), args := (3, 4) } = some p ∧
    p.blocks.map (·.succs) = [[1], [1, 2], []] ∧ p.blocks.map (·.preds) = [[], [0, 1], [1]] ∧
    p.blocks.map (fun block => block.stmts.map (·.id)) = [[], [6, 7], [8]] := by
  obtain ⟨text, parsed⟩ := parse_twoFunctions
  obtain ⟨consistent, program, read, queries⟩ := parse_consistent (parseTables_eq_ok parsed)
  obtain rfl : twoFunctions = program := Except.ok.inj (parsed.symm.trans read)
  obtain ⟨f, p, found, here, rfl, -⟩ :=
    queries 1 { name := "second", blocks := (2, 5), args := (3, 4) } (by decide +kernel)
  obtain rfl := Option.some.inj found
  exact ⟨consistent, _, here, by decide, by decide, by decide⟩

end Program

end Reflow
