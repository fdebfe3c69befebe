import Reflow.Program.Query
import Reflow.Proofs.Program.View

namespace Reflow.Program

namespace Value

variable {V B : Type}

def cls : Value V B → ValueClass
  | argument _ => .argument
  | phi _ => .phi
  | statement stmt => if stmt.instr.op.isTerminator then .terminator else .normal

def symbol : Value V B → String
  | statement stmt => stmt.instr.symbol
  | _ => ""

def immediates : Value V B → List Int
  | statement stmt => stmt.instr.immediates
  | _ => []

def cases : Value V B → List CaseLabel
  | statement stmt => stmt.instr.cases
  | _ => []

def row (start : Nat) (value : Value V B) : ValueRow where
  name := value.name?.getD ""
  cls := value.cls
  op := value.op
  opCount := value.reads.length
  operands := match value with
    | .argument _ => (0, 0)
    | _ => (start, start + value.reads.length + value.targets.length)
  symbol := value.symbol
  immediates := value.immediates
  cases := value.cases

end Value

namespace Tables

/-- Adds a value whose references are counted from the first value and block of its function on. -/
def addValue (base firstBlock : Nat) (t : Tables) (value : Value Nat Nat) : Tables :=
  { t with
    values := t.values ++ [value.row t.operands.length]
    operands := t.operands ++ value.reads.map (base + ·) ++ value.targets.map (firstBlock + ·) }

def addBlock (base firstBlock : Nat) (t : Tables) (block : Block Nat Nat) : Tables :=
  let filled := block.values.foldl (addValue base firstBlock) t
  let succs := block.targets.map (firstBlock + ·)
  { filled with
    blocks := filled.blocks ++
      [{ name := block.name
         succs := (filled.operands.length, filled.operands.length + succs.length)
         first := t.values.length
         phiEnd := t.values.length + block.phis.length
         last := filled.values.length }]
    operands := filled.operands ++ succs }

def addFunction (t : Tables) (f : Function) : Tables :=
  let base := t.values.length
  let firstBlock := t.blocks.length
  let withArgs := (f.args.map Value.argument).foldl (addValue base firstBlock) t
  let filled := f.blocks.foldl (addBlock base firstBlock) withArgs
  { filled with
    functions := filled.functions ++
      [{ name := f.name
         blocks := (firstBlock, filled.blocks.length)
         args := (base, withArgs.values.length) }] }

end Tables

def tables (program : Program) : Tables :=
  program.functions.foldl Tables.addFunction {}

section Slices

variable {α : Type} {as bs xs ys : List α} {range : Nat × Nat} {first last : Nat}

theorem slice?_eq_some_iff : slice? as (first, last) = some xs ↔
    ∃ before after, as = before ++ (xs ++ after) ∧ first = before.length ∧ last = first + xs.length := by
  constructor
  · intro found
    simp only [slice?] at found
    split at found
    · rename_i inside
      obtain rfl := Option.some.inj found
      refine ⟨as.take first, as.drop last, ?_, by simp; omega, by simp; omega⟩
      have front : as.take first = (as.take last).take first := by
        rw [List.take_take, Nat.min_eq_left inside.1]
      rw [← List.append_assoc, front, List.take_append_drop, List.take_append_drop]
    · simp at found
  · rintro ⟨before, after, rfl, rfl, rfl⟩
    have inside : before.length ≤ before.length + xs.length ∧
        before.length + xs.length ≤ (before ++ (xs ++ after)).length := by
      simp only [List.length_append]
      omega
    rw [slice?, if_pos inside, List.take_length_add_append, List.take_left' rfl, List.drop_left' rfl]

theorem slice?_of_prefix (found : slice? as range = some xs) (before : as <+: bs) : slice? bs range = some xs := by
  obtain ⟨more, rfl⟩ := before
  obtain ⟨front, after, rfl, first, last⟩ := slice?_eq_some_iff.1 found
  exact slice?_eq_some_iff.2 ⟨front, after ++ more, by simp, first, last⟩

theorem slice?_append (as xs : List α) : slice? (as ++ xs) (as.length, as.length + xs.length) = some xs :=
  slice?_eq_some_iff.2 ⟨as, [], by simp, rfl, rfl⟩

theorem slice?_left (found : slice? as (first, last) = some (xs ++ ys)) :
    slice? as (first, first + xs.length) = some xs := by
  obtain ⟨before, after, rfl, start, -⟩ := slice?_eq_some_iff.1 found
  exact slice?_eq_some_iff.2 ⟨before, ys ++ after, by simp, start, rfl⟩

theorem slice?_right (found : slice? as (first, last) = some (xs ++ ys)) :
    slice? as (first + xs.length, last) = some ys := by
  obtain ⟨before, after, rfl, start, stop⟩ := slice?_eq_some_iff.1 found
  refine slice?_eq_some_iff.2 ⟨before ++ xs, after, by simp, by simp [start], ?_⟩
  rw [stop, List.length_append, Nat.add_assoc]

theorem getElem?_of_slice? (found : slice? as (first, last) = some xs) {i : Nat} (lt : i < xs.length) :
    as[first + i]? = xs[i]? := by
  obtain ⟨before, after, rfl, rfl, -⟩ := slice?_eq_some_iff.1 found
  rw [List.getElem?_append_right (Nat.le_add_right _ _), Nat.add_sub_cancel_left, List.getElem?_append_left lt]

end Slices

def FunctionOf.row (f : Function) (base firstBlock : Nat) : FunctionRow where
  name := f.name
  blocks := (firstBlock, firstBlock + f.blocks.length)
  args := (base, base + f.args.length)

namespace Tables

variable {t t' t'' : Tables} {base firstBlock : Nat}
  {value : Value Nat Nat} {row : ValueRow} {start : Nat}

structure Extends (t t' : Tables) : Prop where
  functions : t.functions <+: t'.functions
  blocks : t.blocks <+: t'.blocks
  values : t.values <+: t'.values
  operands : t.operands <+: t'.operands

theorem Extends.refl (t : Tables) : t.Extends t :=
  ⟨List.prefix_rfl, List.prefix_rfl, List.prefix_rfl, List.prefix_rfl⟩

theorem Extends.trans (first : t.Extends t') (second : t'.Extends t'') : t.Extends t'' :=
  ⟨first.functions.trans second.functions, first.blocks.trans second.blocks, first.values.trans second.values,
    first.operands.trans second.operands⟩

theorem getElem?_of_prefix {α : Type} {as bs : List α} {i : Nat} {a : α} (before : as <+: bs)
    (found : as[i]? = some a) : bs[i]? = some a := by
  obtain ⟨more, rfl⟩ := before
  rw [List.getElem?_append_left (List.getElem?_eq_some_iff.1 found).1, found]

/-- A row of a value, with references from the first value and block of the function on, whose range of operands holds
them. -/
structure Records (t : Tables) (base firstBlock : Nat) (value : Value Nat Nat) (row : ValueRow) : Prop where
  name : row.name = value.name?.getD ""
  cls : row.cls = value.cls
  op : row.op = value.op
  opCount : row.opCount = value.reads.length
  symbol : row.symbol = value.symbol
  immediates : row.immediates = value.immediates
  cases : row.cases = value.cases
  operands : slice? t.operands row.operands =
    some (value.reads.map (base + ·) ++ value.targets.map (firstBlock + ·))

theorem Records.of_extends
    (records : t.Records base firstBlock value row)
    (before : t.Extends t') : t'.Records base firstBlock value row :=
  { records with operands := slice?_of_prefix records.operands before.operands }

theorem Records.reads? (records : t.Records base firstBlock value row) :
    t.reads? row = some (value.reads.map (base + ·)) := by
  have front := slice?_left records.operands
  rwa [List.length_map, ← records.opCount] at front

theorem Records.targets?
    (records : t.Records base firstBlock value row) :
    t.targets? row = some (value.targets.map (firstBlock + ·)) := by
  have back := slice?_right records.operands
  rwa [List.length_map, ← records.opCount] at back

structure RecordsBlock (t : Tables) (firstBlock start : Nat) (block : Block Nat Nat) (row : BlockRow) : Prop where
  name : row.name = block.name
  first : row.first = start
  phiEnd : row.phiEnd = start + block.phis.length
  last : row.last = start + block.values.length
  succs : slice? t.operands row.succs = some (block.targets.map (firstBlock + ·))

theorem RecordsBlock.of_extends {block : Block Nat Nat} {row : BlockRow}
    (records : t.RecordsBlock firstBlock start block row) (before : t.Extends t') :
    t'.RecordsBlock firstBlock start block row :=
  { records with succs := slice?_of_prefix records.succs before.operands }

def HasValues (t : Tables) (base firstBlock start : Nat) (values : List (Value Nat Nat)) : Prop :=
  ∀ i value, values[i]? = some value →
    ∃ row, t.values[start + i]? = some row ∧ t.Records base firstBlock value row

theorem HasValues.of_extends {values : List (Value Nat Nat)}
    (has : t.HasValues base firstBlock start values) (before : t.Extends t') :
    t'.HasValues base firstBlock start values := by
  intro i value found
  obtain ⟨row, here, records⟩ := has i value found
  exact ⟨row, getElem?_of_prefix before.values here, records.of_extends before⟩

theorem HasValues.append {values more : List (Value Nat Nat)}
    (has : t.HasValues base firstBlock start values)
    (later : t.HasValues base firstBlock (start + values.length) more) :
    t.HasValues base firstBlock start (values ++ more) := by
  intro i value found
  rcases Nat.lt_or_ge i values.length with inside | behind
  · rw [List.getElem?_append_left inside] at found
    exact has i value found
  · rw [List.getElem?_append_right behind] at found
    obtain ⟨row, here, records⟩ := later _ value found
    refine ⟨row, ?_, records⟩
    rw [← here]
    congr 1
    omega

def HasBlocks (t : Tables) (firstBlock place start : Nat) (blocks : List (Block Nat Nat)) : Prop :=
  ∀ j block, blocks[j]? = some block → ∃ row, t.blocks[place + j]? = some row ∧
    t.RecordsBlock firstBlock (start + ((blocks.take j).map fun block => block.values.length).sum) block row

structure Holds (t : Tables) (index : Nat) (f : Function) (base firstBlock : Nat) : Prop where
  function : t.functions[index]? = some (f.row base firstBlock)
  values : t.HasValues base firstBlock base f.values
  blocks : t.HasBlocks firstBlock firstBlock (base + f.args.length) f.blocks

theorem Holds.of_extends {index : Nat} {f : Function} (holds : t.Holds index f base firstBlock)
    (before : t.Extends t') : t'.Holds index f base firstBlock where
  function := getElem?_of_prefix before.functions holds.function
  values := holds.values.of_extends before
  blocks := by
    intro j block found
    obtain ⟨row, here, records⟩ := holds.blocks j block found
    exact ⟨row, getElem?_of_prefix before.blocks here, records.of_extends before⟩

structure AddsValues (t : Tables) (base firstBlock : Nat) (values : List (Value Nat Nat)) (t' : Tables) :
    Prop where
  before : t.Extends t'
  functions : t'.functions = t.functions
  blocks : t'.blocks = t.blocks
  count : t'.values.length = t.values.length + values.length
  values : t'.HasValues base firstBlock t.values.length values

theorem addsValues_addValue (t : Tables) (base firstBlock : Nat) (value : Value Nat Nat) :
    t.AddsValues base firstBlock [value] (t.addValue base firstBlock value) where
  before := ⟨List.prefix_rfl, List.prefix_rfl, List.prefix_append _ _, by simp [addValue]⟩
  functions := rfl
  blocks := rfl
  count := by simp [addValue]
  values := by
    intro i other found
    obtain ⟨rfl, rfl⟩ : i = 0 ∧ value = other := by
      cases i with
      | zero => simpa using found
      | succ i => simp at found
    refine ⟨_, by simp [addValue]; rfl, ?_⟩
    refine ⟨rfl, rfl, rfl, rfl, rfl, rfl, rfl, ?_⟩
    have whole := slice?_append t.operands (value.reads.map (base + ·) ++ value.targets.map (firstBlock + ·))
    rw [List.length_append, ← Nat.add_assoc, ← List.append_assoc] at whole
    cases value with
    | argument => exact slice?_eq_some_iff.2 ⟨[], _, rfl, rfl, rfl⟩
    | phi => simpa [addValue, Value.row] using whole
    | statement => simpa [addValue, Value.row] using whole

theorem addsValues_foldl (t : Tables) (base firstBlock : Nat) (values : List (Value Nat Nat)) :
    t.AddsValues base firstBlock values (values.foldl (addValue base firstBlock) t) := by
  induction values generalizing t with
  | nil => exact ⟨.refl t, rfl, rfl, rfl, by simp [HasValues]⟩
  | cons value values ih =>
    have here := t.addsValues_addValue base firstBlock value
    have later := ih (t.addValue base firstBlock value)
    refine ⟨here.before.trans later.before, later.functions, later.blocks, ?_, ?_⟩
    · rw [List.foldl_cons, later.count, here.count]
      simp only [List.length_cons, List.length_nil]
      omega
    · have rest := later.values
      rw [here.count] at rest
      exact (here.values.of_extends later.before).append rest

structure AddsBlocks (t : Tables) (base firstBlock : Nat) (blocks : List (Block Nat Nat)) (t' : Tables) :
    Prop where
  before : t.Extends t'
  functions : t'.functions = t.functions
  blockCount : t'.blocks.length = t.blocks.length + blocks.length
  valueCount : t'.values.length = t.values.length + (blocks.flatMap (·.values)).length
  values : t'.HasValues base firstBlock t.values.length (blocks.flatMap (·.values))
  blocks : t'.HasBlocks firstBlock t.blocks.length t.values.length blocks

theorem addsBlocks_addBlock (t : Tables) (base firstBlock : Nat) (block : Block Nat Nat) :
    t.AddsBlocks base firstBlock [block] (t.addBlock base firstBlock block) := by
  have filled := t.addsValues_foldl base firstBlock block.values
  have after : (block.values.foldl (addValue base firstBlock) t).Extends
      (t.addBlock base firstBlock block) :=
    ⟨List.prefix_rfl, List.prefix_append _ _, List.prefix_rfl, List.prefix_append _ _⟩
  refine ⟨filled.before.trans after, filled.functions, ?_, ?_, ?_, ?_⟩
  · simp [addBlock, filled.blocks]
  · simpa [addBlock] using filled.count
  · simpa using filled.values.of_extends after
  · intro j other found
    obtain ⟨rfl, rfl⟩ : j = 0 ∧ block = other := by
      cases j with
      | zero => simpa using found
      | succ j => simp at found
    refine ⟨_, by simp [addBlock, filled.blocks]; rfl, ?_⟩
    refine ⟨rfl, rfl, rfl, ?_, ?_⟩
    · simpa using filled.count
    · have whole := slice?_append (block.values.foldl (addValue base firstBlock) t).operands
        (block.targets.map (firstBlock + ·))
      simpa [addBlock] using whole

theorem addsBlocks_foldl (t : Tables) (base firstBlock : Nat) (blocks : List (Block Nat Nat)) :
    t.AddsBlocks base firstBlock blocks (blocks.foldl (addBlock base firstBlock) t) := by
  induction blocks generalizing t with
  | nil => exact ⟨.refl t, rfl, rfl, rfl, by simp [HasValues], by simp [HasBlocks]⟩
  | cons block blocks ih =>
    have here := t.addsBlocks_addBlock base firstBlock block
    have later := ih (t.addBlock base firstBlock block)
    have values : (t.addBlock base firstBlock block).values.length = t.values.length + block.values.length := by
      simpa using here.valueCount
    refine ⟨here.before.trans later.before, later.functions.trans here.functions, ?_, ?_, ?_, ?_⟩
    · rw [List.foldl_cons, later.blockCount, here.blockCount]
      simp only [List.length_cons, List.length_nil]
      omega
    · rw [List.foldl_cons, later.valueCount, values, List.flatMap_cons, List.length_append]
      omega
    · have first := here.values.of_extends later.before
      have rest := later.values
      rw [values] at rest
      rw [List.flatMap_singleton] at first
      exact first.append rest
    · intro j other found
      cases j with
      | zero =>
        obtain rfl : block = other := by simpa using found
        obtain ⟨row, place, records⟩ := here.blocks 0 block rfl
        exact ⟨row, getElem?_of_prefix later.before.blocks place, records.of_extends later.before⟩
      | succ j =>
        obtain ⟨row, place, records⟩ := later.blocks j other (by simpa using found)
        rw [here.blockCount, List.length_singleton] at place
        rw [values] at records
        refine ⟨row, ?_, ?_⟩
        · rw [← place]
          congr 1
          omega
        · simpa [Nat.add_assoc] using records

structure AddsFunction (t : Tables) (f : Function) (t' : Tables) : Prop where
  before : t.Extends t'
  functions : t'.functions = t.functions ++ [f.row t.values.length t.blocks.length]
  blockCount : t'.blocks.length = t.blocks.length + f.blocks.length
  valueCount : t'.values.length = t.values.length + f.values.length
  holds : t'.Holds t.functions.length f t.values.length t.blocks.length

theorem addsFunction (t : Tables) (f : Function) : t.AddsFunction f (t.addFunction f) := by
  have args := t.addsValues_foldl t.values.length t.blocks.length (f.args.map Value.argument)
  have blocks := addsBlocks_foldl ((f.args.map Value.argument).foldl (addValue t.values.length t.blocks.length) t)
    t.values.length t.blocks.length f.blocks
  simp only [addFunction]
  generalize (f.args.map Value.argument).foldl (addValue t.values.length t.blocks.length) t = withArgs at args blocks ⊢
  generalize f.blocks.foldl (addBlock t.values.length t.blocks.length) withArgs = filled at blocks ⊢
  have argCount : withArgs.values.length = t.values.length + f.args.length := by simpa using args.count
  have blockCount : filled.blocks.length = t.blocks.length + f.blocks.length := by rw [blocks.blockCount, args.blocks]
  have functions : filled.functions = t.functions := blocks.functions.trans args.functions
  have after : filled.Extends { filled with functions := filled.functions ++ [{
      name := f.name
      blocks := (t.blocks.length, filled.blocks.length)
      args := (t.values.length, withArgs.values.length) }] } :=
    ⟨List.prefix_append _ _, List.prefix_rfl, List.prefix_rfl, List.prefix_rfl⟩
  have values : filled.HasValues t.values.length t.blocks.length t.values.length f.values := by
    have rest := blocks.values
    rw [args.count] at rest
    exact (args.values.of_extends blocks.before).append rest
  have added : filled.functions ++ [{
      name := f.name
      blocks := (t.blocks.length, filled.blocks.length)
      args := (t.values.length, withArgs.values.length) }] =
        t.functions ++ [f.row t.values.length t.blocks.length] := by
    rw [functions, blockCount, argCount]
    rfl
  refine ⟨(args.before.trans blocks.before).trans after, added, blockCount, ?_, ?_, ?_, ?_⟩
  · rw [blocks.valueCount, argCount]
    simp [FunctionOf.values, Nat.add_assoc]
  · simp [added]
  · exact values.of_extends after
  · intro j block found
    obtain ⟨row, place, records⟩ := blocks.blocks j block found
    rw [args.blocks] at place
    rw [argCount] at records
    exact ⟨row, place, records.of_extends after⟩

end Tables

def firstBlock (program : Program) (index : Nat) : Nat :=
  ((program.functions.take index).flatMap (·.blocks)).length

namespace Tables

structure AddsFunctions (t : Tables) (functions : List Function) (t' : Tables) : Prop where
  before : t.Extends t'
  names : t'.functions.map (·.name) = t.functions.map (·.name) ++ functions.map (·.name)
  blockCount : t'.blocks.length = t.blocks.length + (functions.flatMap (·.blocks)).length
  valueCount : t'.values.length = t.values.length + (functions.flatMap (·.values)).length
  holds : ∀ i f, functions[i]? = some f → t'.Holds (t.functions.length + i) f
    (t.values.length + base ⟨functions⟩ i) (t.blocks.length + firstBlock ⟨functions⟩ i)

theorem addsFunctions_foldl (t : Tables) (functions : List Function) :
    t.AddsFunctions functions (functions.foldl addFunction t) := by
  induction functions generalizing t with
  | nil => exact ⟨.refl t, by simp, rfl, rfl, by simp⟩
  | cons f functions ih =>
    have here := t.addsFunction f
    have later := ih (t.addFunction f)
    refine ⟨here.before.trans later.before, ?_, ?_, ?_, ?_⟩
    · rw [List.foldl_cons, later.names, here.functions]
      simp [FunctionOf.row]
    · rw [List.foldl_cons, later.blockCount, here.blockCount, List.flatMap_cons, List.length_append]
      omega
    · rw [List.foldl_cons, later.valueCount, here.valueCount, List.flatMap_cons, List.length_append]
      omega
    · intro i other found
      cases i with
      | zero =>
        obtain rfl : f = other := by simpa using found
        exact here.holds.of_extends later.before
      | succ i =>
        have holds := later.holds i other (by simpa using found)
        rw [here.functions, List.length_append, List.length_singleton, here.valueCount, here.blockCount] at holds
        simpa [Program.base, firstBlock, Nat.add_assoc, Nat.add_comm 1] using holds

end Tables

theorem addsFunctions_tables (program : Program) : Tables.AddsFunctions {} program.functions program.tables :=
  Tables.addsFunctions_foldl {} program.functions

theorem names_tables (program : Program) : program.tables.functions.map (·.name) = program.functions.map (·.name) :=
  program.addsFunctions_tables.names

theorem holds_tables {program : Program} {index : Nat} {f : Function} (found : program.functions[index]? = some f) :
    program.tables.Holds index f (program.base index) (program.firstBlock index) := by
  simpa using program.addsFunctions_tables.holds index f found

end Reflow.Program
