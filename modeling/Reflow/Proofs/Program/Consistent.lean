import Reflow.Proofs.Program.Tables

namespace Reflow

def Op.cls : Op → Program.ValueClass
  | argument => .argument
  | phi | vphi => .phi
  | op => if op.isTerminator then .terminator else .normal

namespace Program

def Tile : Nat → List (Nat × Nat) → Nat → Prop
  | start, [], stop => start = stop
  | start, range :: ranges, stop => range.1 = start ∧ range.1 ≤ range.2 ∧ Tile range.2 ranges stop

namespace Tables

variable (t : Tables)

def valueRanges (f : FunctionRow) : List (Nat × Nat) :=
  f.args :: ((slice? t.blocks f.blocks).getD []).map fun b => (b.first, b.last)

def exits (b : BlockRow) : List Nat :=
  if b.first < b.last then
    ((t.values[b.last - 1]?).bind fun row => if row.cls = .terminator then t.targets? row else none).getD []
  else []

structure KeepsValue (f : FunctionRow) (row : ValueRow) : Prop where
  cls : row.cls = row.op.cls
  count : ∀ n ∈ row.op.info.operands, row.opCount = n
  reads : ∃ reads, t.reads? row = some reads ∧
    ∀ v ∈ reads, f.args.1 ≤ v ∧ v < t.valueEnd f ∧ ∃ read, t.values[v]? = some read ∧ read.name ≠ ""
  targets : ∃ targets, t.targets? row = some targets ∧ ∀ b ∈ targets, f.blocks.1 ≤ b ∧ b < f.blocks.2

/-- A block with phis up to their end and nowhere else, a label only behind them and a terminator only at the end. -/
structure KeepsBlock (b : BlockRow) : Prop where
  order : b.first ≤ b.phiEnd ∧ b.phiEnd ≤ b.last
  values : ∀ v row, b.first ≤ v → v < b.last → t.values[v]? = some row → (row.cls = .phi ↔ v < b.phiEnd) ∧
    (row.op = .label → v = b.phiEnd) ∧ (row.cls = .terminator → v + 1 = b.last)
  succs : slice? t.operands b.succs = some (t.exits b)

structure KeepsFunction (f : FunctionRow) : Prop where
  nonempty : f.blocks.1 < f.blocks.2
  values : ∀ v row, f.args.1 ≤ v → v < t.valueEnd f → t.values[v]? = some row →
    t.KeepsValue f row ∧ (row.cls = .argument ↔ v < f.args.2)
  blocks : ∀ b row, f.blocks.1 ≤ b → b < f.blocks.2 → t.blocks[b]? = some row → t.KeepsBlock row
  valueNames : ∀ v w row row', f.args.1 ≤ v → v < t.valueEnd f → f.args.1 ≤ w → w < t.valueEnd f →
    t.values[v]? = some row → t.values[w]? = some row' → row.name = row'.name → row.name ≠ "" → v = w
  blockNames : ∀ a b row row', f.blocks.1 ≤ a → a < f.blocks.2 → f.blocks.1 ≤ b → b < f.blocks.2 →
    t.blocks[a]? = some row → t.blocks[b]? = some row' → row.name = row'.name → a = b

structure Consistent : Prop where
  blocks : Tile 0 (t.functions.map (·.blocks)) t.blocks.length
  values : Tile 0 (t.functions.flatMap t.valueRanges) t.values.length
  functions : ∀ f ∈ t.functions, t.KeepsFunction f
  names : (t.functions.map (·.name)).Nodup

end Tables

theorem Tile.append {start between stop : Nat} {ranges more : List (Nat × Nat)} (first : Tile start ranges between)
    (rest : Tile between more stop) : Tile start (ranges ++ more) stop := by
  induction ranges generalizing start with
  | nil =>
    obtain rfl : start = between := first
    exact rest
  | cons _ _ ih =>
    obtain ⟨here, order, later⟩ := first
    exact ⟨here, order, ih later⟩

theorem tile_flatMap {α : Type} (as : List α) (ranges : α → List (Nat × Nat)) (bound : Nat → Nat)
    (each : ∀ i a, as[i]? = some a → Tile (bound i) (ranges a) (bound (i + 1))) :
    Tile (bound 0) (as.flatMap ranges) (bound as.length) := by
  induction as generalizing bound with
  | nil => rfl
  | cons a as ih =>
    rw [List.flatMap_cons]
    refine (each 0 a rfl).append ?_
    exact ih (fun i => bound (i + 1)) fun i b found => each (i + 1) b (by simpa using found)

section Places

variable {program : Program} {index : Nat} {f : Function}

theorem base_succ (found : program.functions[index]? = some f) :
    program.base (index + 1) = program.base index + f.values.length := by
  simp [base, List.take_add_one, found]

theorem firstBlock_succ (found : program.functions[index]? = some f) :
    program.firstBlock (index + 1) = program.firstBlock index + f.blocks.length := by
  simp [firstBlock, List.take_add_one, found]

theorem FunctionOf.blockStart_succ {b : Nat} {block : Block Nat Nat} (found : f.blocks[b]? = some block) :
    f.blockStart (b + 1) = f.blockStart b + block.values.length := by
  simp [blockStart, List.take_add_one, found, Nat.add_assoc]

theorem FunctionOf.blockStart_length (f : Function) : f.blockStart f.blocks.length = f.values.length := by
  simp [blockStart, values, List.length_flatMap]

end Places

namespace FunctionOf

variable {f : Function}

theorem cls_eq_argument_iff {v : Nat} {value : Value Nat Nat} (found : f.values[v]? = some value) :
    value.cls = .argument ↔ v < f.args.length := by
  rcases Nat.lt_or_ge v f.args.length with early | late
  · rw [values, List.getElem?_append_left (by simpa using early), List.getElem?_map] at found
    obtain ⟨arg, -, rfl⟩ := Option.map_eq_some_iff.1 found
    simp [Value.cls, early]
  · rw [values, List.getElem?_append_right (by simpa using late)] at found
    obtain ⟨block, -, mem⟩ := List.mem_flatMap.1 (List.mem_of_getElem? found)
    have other : value.cls ≠ .argument := by
      rcases List.mem_append.1 mem with among | among
      · obtain ⟨phi, -, rfl⟩ := List.mem_map.1 among
        simp [Value.cls]
      · obtain ⟨stmt, -, rfl⟩ := List.mem_map.1 among
        rw [Value.cls]
        split <;> simp
    exact ⟨fun same => absurd same other, fun early => absurd late (by omega)⟩

end FunctionOf

namespace Tables.Holds

variable {t : Tables} {index base firstBlock : Nat} {f : Function} (holds : t.Holds index f base firstBlock)

include holds

variable {value : Value Nat Nat}

theorem records {v : Nat} {row : ValueRow} (found : f.values[v]? = some value)
    (here : t.values[base + v]? = some row) : t.Records base firstBlock value row := by
  obtain ⟨row', here', records⟩ := holds.values v value found
  rw [here] at here'
  exact Option.some.inj here' ▸ records

theorem recordsBlock {b : Nat} {block : Block Nat Nat} {row : BlockRow} (found : f.blocks[b]? = some block)
    (here : t.blocks[firstBlock + b]? = some row) :
    t.RecordsBlock firstBlock (base + f.blockStart b) block row := by
  obtain ⟨row', here', records⟩ := holds.blocks b block found
  rw [here] at here'
  rw [FunctionOf.blockStart, ← Nat.add_assoc]
  exact Option.some.inj here' ▸ records

theorem valueEnd_eq (nonempty : f.blocks ≠ []) :
    t.valueEnd (f.row base firstBlock) = base + f.values.length := by
  have last : f.blocks.length - 1 < f.blocks.length := Nat.sub_lt (List.length_pos_iff.2 nonempty) Nat.one_pos
  have found := List.getElem?_eq_getElem last
  obtain ⟨row, here, -⟩ := holds.blocks _ _ found
  have records := holds.recordsBlock found here
  have place : firstBlock + f.blocks.length - 1 = firstBlock + (f.blocks.length - 1) := by omega
  rw [valueEnd, FunctionOf.row, place, here, Option.map_some, Option.getD_some, records.last, Nat.add_assoc,
    ← FunctionOf.blockStart_succ found, Nat.sub_add_cancel (by omega), f.blockStart_length]

theorem keepsValue (wf : f.WellFormed) {v : Nat} {row : ValueRow}
    (found : f.values[v]? = some value) (here : t.values[base + v]? = some row) :
    t.KeepsValue (f.row base firstBlock) row := by
  have records := holds.records found here
  have mem := List.mem_of_getElem? found
  refine ⟨?_, ?_, ⟨_, records.reads?, ?_⟩, ⟨_, records.targets?, ?_⟩⟩
  · rw [records.cls, records.op]
    cases value with
    | argument => rfl
    | phi =>
      simp only [Value.cls, Value.op, Phi.op]
      split <;> rfl
    | statement stmt =>
      obtain ⟨result, instr⟩ := stmt
      cases instr <;> rfl
  · intro n count
    rw [records.op] at count
    rw [records.opCount]
    cases value with
    | argument => simpa [Value.op, Op.info, Value.reads] using count
    | phi =>
      simp only [Value.op, Phi.op] at count
      split at count <;> simp [Op.info] at count
    | statement stmt =>
      obtain ⟨result, instr⟩ := stmt
      cases instr <;> simp_all [Value.op, Instr.op, Op.info, Value.reads, Instr.reads]
  · intro global listed
    obtain ⟨v, reads, rfl⟩ := List.mem_map.1 listed
    obtain ⟨read, name, place, named⟩ := wf.reads value mem v reads
    obtain ⟨row', place', records'⟩ := holds.values v read place
    have lt := (List.getElem?_eq_some_iff.1 place).1
    refine ⟨Nat.le_add_right _ _, ?_, row', place', ?_⟩
    · rw [holds.valueEnd_eq wf.nonempty]
      omega
    · rw [records'.name, named]
      exact (wf.isWord_name (List.mem_of_getElem? place) named).ne_empty
  · intro global listed
    obtain ⟨b, names, rfl⟩ := List.mem_map.1 listed
    have lt := wf.targets value mem b names
    exact ⟨Nat.le_add_right _ _, Nat.add_lt_add_left lt _⟩

end Tables.Holds

namespace Block

variable {block : Block Nat Nat}

theorem getElem?_values_phi {i : Nat} (lt : i < block.phis.length) :
    block.values[i]? = (block.phis[i]?).map Value.phi := by
  rw [values, List.getElem?_append_left (by simpa using lt), List.getElem?_map]

theorem getElem?_values_statement {i : Nat} (le : block.phis.length ≤ i) :
    block.values[i]? = (block.stmts[i - block.phis.length]?).map Value.statement := by
  rw [values, List.getElem?_append_right (by simpa using le), List.getElem?_map, List.length_map]

theorem length_values : block.values.length = block.phis.length + block.stmts.length := by
  simp [values]

end Block

namespace Tables.Holds

variable {t : Tables} {index base firstBlock : Nat} {f : Function} (holds : t.Holds index f base firstBlock)

include holds

theorem recordsAt {b i : Nat} {block : Block Nat Nat} {value : Value Nat Nat} (found : f.blocks[b]? = some block)
    (inside : block.values[i]? = some value) :
    ∃ row, t.values[base + f.blockStart b + i]? = some row ∧ t.Records base firstBlock value row := by
  have lt := (List.getElem?_eq_some_iff.1 inside).1
  rw [Nat.add_assoc]
  exact holds.values (f.blockStart b + i) value (by rw [FunctionOf.getElem?_values found lt, inside])

theorem exits_eq (written : f.Written) {b : Nat} {block : Block Nat Nat} {row : BlockRow}
    (found : f.blocks[b]? = some block) (here : t.blocks[firstBlock + b]? = some row) :
    t.exits row = block.targets.map (firstBlock + ·) := by
  have records := holds.recordsBlock found here
  have count := block.length_values
  rw [(written.blocks block (List.mem_of_getElem? found)).targets_eq, exits, records.first, records.last]
  rcases List.eq_nil_or_concat' block.values with empty | ⟨front, last, values⟩
  · have none : block.stmts = [] := by
      rw [empty] at count
      exact List.length_eq_zero_iff.1 (by simp at count; omega)
    simp [empty, none]
  · have length : block.values.length = front.length + 1 := by simp [values]
    have inside : block.values[front.length]? = some last := by simp [values]
    obtain ⟨r, place, records⟩ := holds.recordsAt found inside
    have before : base + f.blockStart b + block.values.length - 1 =
        base + f.blockStart b + front.length := by
      omega
    rw [if_pos (by omega), before, place, Option.bind_some, records.cls, records.targets?]
    rcases List.eq_nil_or_concat' block.stmts with none | ⟨others, stmt, stmts⟩
    · rw [Block.getElem?_values_phi (by simp [none] at count; omega)] at inside
      obtain ⟨phi, -, rfl⟩ := Option.map_eq_some_iff.1 inside
      simp [none, Value.cls]
    · rw [Block.getElem?_values_statement (by simp [stmts] at count; omega)] at inside
      obtain ⟨other, at', rfl⟩ := Option.map_eq_some_iff.1 inside
      obtain rfl : stmt = other := by
        have index : front.length - block.phis.length = others.length := by
          simp [stmts] at count
          omega
        rw [index, stmts] at at'
        simpa using at'
      rw [stmts, List.getLast?_concat, Option.map_some, Option.getD_some, Value.cls]
      cases terminates : stmt.instr.op.isTerminator with
      | true => rfl
      | false => simp [Instr.targets_eq_nil terminates]

theorem keepsBlock (written : f.Written) {b : Nat} {block : Block Nat Nat} {row : BlockRow}
    (found : f.blocks[b]? = some block) (here : t.blocks[firstBlock + b]? = some row) : t.KeepsBlock row := by
  have records := holds.recordsBlock found here
  have mem := List.mem_of_getElem? found
  have count := block.length_values
  refine ⟨?_, ?_, ?_⟩
  · rw [records.first, records.phiEnd, records.last]
    omega
  · intro v r after before place
    rw [records.first] at after
    rw [records.last] at before
    rw [records.phiEnd, records.last]
    obtain ⟨i, rfl⟩ := Nat.exists_eq_add_of_le after
    have lt : i < block.values.length := by omega
    obtain ⟨r', place', same⟩ := holds.recordsAt found (List.getElem?_eq_getElem lt)
    obtain rfl := Option.some.inj (place.symm.trans place')
    have inside := List.getElem?_eq_getElem lt
    generalize block.values[i] = value at inside same
    rcases Nat.lt_or_ge i block.phis.length with early | late
    · rw [Block.getElem?_values_phi early] at inside
      obtain ⟨phi, -, rfl⟩ := Option.map_eq_some_iff.1 inside
      refine ⟨by simp [same.cls, Value.cls, early], ?_, by simp [same.cls, Value.cls]⟩
      rw [same.op, Value.op, Phi.op]
      split <;> simp
    · rw [Block.getElem?_values_statement late] at inside
      obtain ⟨stmt, at', rfl⟩ := Option.map_eq_some_iff.1 inside
      have inTime := (List.getElem?_eq_some_iff.1 at').1
      refine ⟨?_, ?_, ?_⟩
      · rw [same.cls, Value.cls]
        split <;> simp [late]
      · intro label
        rw [same.op] at label
        by_contra other
        obtain ⟨k, next⟩ : ∃ k, i - block.phis.length = k + 1 := ⟨i - block.phis.length - 1, by omega⟩
        refine (written.labelled block mem).first stmt ?_ label
        rw [next, ← List.getElem?_tail] at at'
        exact List.mem_of_getElem? at'
      · intro terminator
        rw [same.cls, Value.cls] at terminator
        by_contra other
        have early : i - block.phis.length < block.stmts.length - 1 := by omega
        have listed : block.stmts.dropLast[i - block.phis.length]? = some stmt := by
          rw [List.getElem?_dropLast, if_pos early, at']
        have passes := (written.blocks block mem).terminated stmt (List.mem_of_getElem? listed)
        simp [passes] at terminator
  · rw [holds.exits_eq written found here]
    exact records.succs

theorem keepsFunction (written : f.Written) : t.KeepsFunction (f.row base firstBlock) := by
  have nonempty := written.nonempty
  have stop := holds.valueEnd_eq nonempty
  have valueAt {v : Nat} (after : base ≤ v) (before : v < t.valueEnd (f.row base firstBlock)) :
      ∃ i value, v = base + i ∧ f.values[i]? = some value := by
    obtain ⟨i, rfl⟩ := Nat.exists_eq_add_of_le after
    exact ⟨i, _, rfl, List.getElem?_eq_getElem (by omega)⟩
  have blockAt {b : Nat} (after : firstBlock ≤ b) (before : b < firstBlock + f.blocks.length) :
      ∃ j block, b = firstBlock + j ∧ f.blocks[j]? = some block := by
    obtain ⟨j, rfl⟩ := Nat.exists_eq_add_of_le after
    exact ⟨j, _, rfl, List.getElem?_eq_getElem (by omega)⟩
  refine ⟨?_, ?_, ?_, ?_, ?_⟩
  · have some := List.length_pos_iff.2 nonempty
    simp only [FunctionOf.row]
    omega
  · intro v row after before place
    obtain ⟨i, value, rfl, found⟩ := valueAt after before
    refine ⟨holds.keepsValue written.toWellFormed found place, ?_⟩
    rw [(holds.records found place).cls, FunctionOf.row]
    exact (FunctionOf.cls_eq_argument_iff found).trans (Nat.add_lt_add_iff_left).symm
  · intro b row after before place
    obtain ⟨j, block, rfl, found⟩ := blockAt after before
    exact holds.keepsBlock written found place
  · intro v w row row' after before after' before' place place' same some
    obtain ⟨i, value, rfl, found⟩ := valueAt after before
    obtain ⟨i', value', rfl, found'⟩ := valueAt after' before'
    have name := (holds.records found place).name
    have name' := (holds.records found' place').name
    cases named : value.name? with
    | none => simp [name, named] at some
    | some given =>
      have named' : value'.name? = Option.some given := by
        rw [name, name', named, Option.getD_some] at same
        cases other : value'.name? with
        | none =>
          rw [other] at same
          rw [name, named] at some
          exact absurd same some
        | some => simp [other] at same; rw [same]
      rw [FunctionOf.index_eq_of_filterMap_nodup written.names found found' named named']
  · intro a b row row' after before after' before' place place' same
    obtain ⟨j, block, rfl, found⟩ := blockAt after before
    obtain ⟨j', block', rfl, found'⟩ := blockAt after' before'
    rw [(holds.recordsBlock found place).name, (holds.recordsBlock found' place').name] at same
    have lt := (List.getElem?_eq_some_iff.1 found).1
    have index := (List.getElem?_inj (i := j) (j := j') (by simpa using lt) written.blockNames).1
    rw [index (by simp [found, found', same])]

end Tables.Holds

theorem Tables.Holds.tile_valueRanges {t : Tables} {index base firstBlock : Nat} {f : Function}
    (holds : t.Holds index f base firstBlock) (nonempty : f.blocks ≠ []) :
    Tile base (t.valueRanges (f.row base firstBlock)) (base + f.values.length) := by
  have inside : firstBlock + f.blocks.length ≤ t.blocks.length := by
    have some := List.length_pos_iff.2 nonempty
    obtain ⟨row, here, -⟩ := holds.blocks _ _ (List.getElem?_eq_getElem (Nat.sub_lt some Nat.one_pos))
    have lt := (List.getElem?_eq_some_iff.1 here).1
    omega
  obtain ⟨rows, sliced⟩ : ∃ rows, slice? t.blocks (firstBlock, firstBlock + f.blocks.length) = some rows :=
    ⟨_, if_pos ⟨Nat.le_add_right _ _, inside⟩⟩
  have length : rows.length = f.blocks.length := by
    obtain ⟨-, -, -, -, stop⟩ := slice?_eq_some_iff.1 sliced
    omega
  have each (j : Nat) (row : BlockRow) (found : rows[j]? = some row) :
      Tile (base + f.blockStart j) [(row.first, row.last)] (base + f.blockStart (j + 1)) := by
    have lt := (List.getElem?_eq_some_iff.1 found).1
    have source := List.getElem?_eq_getElem (length ▸ lt)
    have records := holds.recordsBlock source ((getElem?_of_slice? sliced lt).trans found)
    refine ⟨records.first, by rw [records.first, records.last]; omega, ?_⟩
    rw [FunctionOf.blockStart_succ source, Tile, records.last, Nat.add_assoc]
  have tiles := tile_flatMap rows (fun row => [(row.first, row.last)]) _ each
  rw [length, f.blockStart_length, ← List.map_eq_flatMap] at tiles
  rw [valueRanges, FunctionOf.row, sliced, Option.getD_some]
  exact ⟨rfl, Nat.le_add_right _ _, tiles⟩

theorem length_functions_tables (program : Program) : program.tables.functions.length = program.functions.length := by
  simpa using congrArg List.length program.names_tables

theorem exists_function_of_row {program : Program} {index : Nat} {row : FunctionRow}
    (place : program.tables.functions[index]? = some row) : ∃ f, program.functions[index]? = some f ∧
      row = f.row (program.base index) (program.firstBlock index) := by
  have lt := (List.getElem?_eq_some_iff.1 place).1
  have found := List.getElem?_eq_getElem (program.length_functions_tables ▸ lt)
  exact ⟨_, found, Option.some.inj (place.symm.trans (holds_tables found).function)⟩

theorem Written.consistent {program : Program} (written : program.Written) : program.tables.Consistent := by
  have adds := program.addsFunctions_tables
  have count := program.length_functions_tables
  refine ⟨?_, ?_, ?_, ?_⟩
  · have tiles := tile_flatMap program.tables.functions (fun row => [row.blocks]) program.firstBlock
    rw [← List.map_eq_flatMap, count] at tiles
    have all : program.tables.blocks.length = program.firstBlock program.functions.length := by
      simpa [firstBlock] using adds.blockCount
    rw [all]
    refine tiles fun i row place => ?_
    obtain ⟨f, found, rfl⟩ := exists_function_of_row place
    exact ⟨rfl, Nat.le_add_right _ _, (firstBlock_succ found).symm⟩
  · have tiles := tile_flatMap program.tables.functions program.tables.valueRanges program.base
    rw [count] at tiles
    have all : program.tables.values.length = program.base program.functions.length := by
      simpa [base] using adds.valueCount
    rw [all]
    refine tiles fun i row place => ?_
    obtain ⟨f, found, rfl⟩ := exists_function_of_row place
    rw [base_succ found]
    exact (holds_tables found).tile_valueRanges (written.functions f (List.mem_of_getElem? found)).nonempty
  · intro row mem
    obtain ⟨i, place⟩ := List.mem_iff_getElem?.1 mem
    obtain ⟨f, found, rfl⟩ := exists_function_of_row place
    exact (holds_tables found).keepsFunction (written.functions f (List.mem_of_getElem? found))
  · rw [names_tables]
    exact written.names

end Program

end Reflow
