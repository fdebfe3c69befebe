import Reflow.Proofs.Program.Tables

namespace Reflow.Program

/-! ## References -/

def pending (place : Nat) : List String → List Reference
  | [] => []
  | name :: names => ⟨name, place⟩ :: pending (place + 1) names

def patch (number : String → Nat) (refs : List Reference) (operands : List Nat) : List Nat :=
  refs.foldl (fun operands ref => operands.set ref.place (number ref.name)) operands

section References

variable {number : String → Nat} {refs : List Reference} {operands : List Nat}

theorem names_pending (place : Nat) (names : List String) : (pending place names).map (·.name) = names := by
  induction names generalizing place with
  | nil => rfl
  | cons _ _ ih => rw [pending, List.map_cons, ih]

theorem place_of_mem_pending {ref : Reference} {place : Nat} {names : List String} (mem : ref ∈ pending place names) :
    ref.place < place + names.length := by
  induction names generalizing place with
  | nil => cases mem
  | cons _ _ ih =>
    rw [List.length_cons]
    rcases List.mem_cons.1 mem with rfl | later
    · exact Nat.lt_add_of_pos_right (Nat.succ_pos _)
    · have := ih later
      omega

theorem patch_append (inside : ∀ ref ∈ refs, ref.place < operands.length) (more : List Nat) :
    patch number refs (operands ++ more) = patch number refs operands ++ more := by
  induction refs generalizing operands with
  | nil => rfl
  | cons ref refs ih =>
    have first : (operands ++ more).set ref.place (number ref.name) =
        operands.set ref.place (number ref.name) ++ more := List.set_append_left _ _ (inside ref (.head _))
    rw [patch, List.foldl_cons, first]
    exact ih fun other mem => by
      rw [List.length_set]
      exact inside other (.tail _ mem)

theorem patch_pending (names : List String) :
    patch number (pending operands.length names) (operands ++ names.map fun _ => 0) = operands ++ names.map number := by
  induction names generalizing operands with
  | nil => rfl
  | cons name names ih =>
    have first : (operands ++ (name :: names).map fun _ => 0).set operands.length (number name) =
        (operands ++ [number name]) ++ names.map fun _ => 0 := by simp
    have rest := @ih (operands ++ [number name])
    rw [List.length_append, List.length_singleton] at rest
    rw [pending, patch, List.foldl_cons, first]
    exact rest.trans (by simp)

theorem inside_append_pending {n m : Nat} (inside : ∀ ref ∈ refs, ref.place < n) (le : n ≤ m) (names : List String) :
    ∀ ref ∈ refs ++ pending m names, ref.place < m + names.length := by
  intro ref mem
  rcases List.mem_append.1 mem with old | new
  · exact (inside ref old).trans_le (le.trans (Nat.le_add_right _ _))
  · exact place_of_mem_pending new

theorem length_patch : (patch number refs operands).length = operands.length := by
  induction refs generalizing operands with
  | nil => rfl
  | cons _ _ ih => exact ih.trans (List.length_set ..)

theorem patch_append_pending (inside : ∀ ref ∈ refs, ref.place < operands.length) (names : List String) :
    patch number (refs ++ pending operands.length names) (operands ++ names.map fun _ => 0) =
      patch number refs operands ++ names.map number := by
  have rest := @patch_pending number (patch number refs operands) names
  rw [length_patch] at rest
  rw [patch, List.foldl_append]
  change patch number (pending _ names) (patch number refs (operands ++ _)) = _
  rw [patch_append inside, rest]

theorem patch_pending_twice {number' : String → Nat} {refs' : List Reference}
    (inside : ∀ ref ∈ refs, ref.place < operands.length) (inside' : ∀ ref ∈ refs', ref.place < operands.length)
    (names names' : List String) :
    patch number' (refs' ++ pending (operands.length + names.length) names')
        (patch number (refs ++ pending operands.length names)
          (operands ++ (names.map fun _ => 0) ++ names'.map fun _ => 0)) =
      patch number' refs' (patch number refs operands) ++ names.map number ++ names'.map number' := by
  have first := inside_append_pending inside le_rfl names
  have length : operands.length + names.length = (patch number refs operands ++ names.map number).length := by
    rw [List.length_append, length_patch, List.length_map]
  have within : ∀ ref ∈ refs', ref.place < (patch number refs operands).length := by rwa [length_patch]
  rw [patch_append (by simpa using first), patch_append_pending inside, length, patch_append_pending,
    patch_append within]
  intro ref mem
  rw [← length]
  exact Nat.lt_add_right _ (inside' ref mem)

end References

/-! ## Values -/

namespace Builder

variable (b : Builder)

theorem foldl_pushValue (names : List String) : names.foldl pushValue b = { b with
      valueRefs := b.valueRefs ++ pending b.tables.operands.length names
      tables.operands := b.tables.operands ++ names.map fun _ => 0 } := by
  induction names generalizing b with
  | nil => simp [pending]
  | cons _ _ ih =>
    rw [List.foldl_cons, ih]
    simp [pushValue, pending]

theorem foldl_pushBlock (names : List String) : names.foldl pushBlock b = { b with
      blockRefs := b.blockRefs ++ pending b.tables.operands.length names
      tables.operands := b.tables.operands ++ names.map fun _ => 0 } := by
  induction names generalizing b with
  | nil => simp [pending]
  | cons _ _ ih =>
    rw [List.foldl_cons, ih]
    simp [pushBlock, pending]

theorem foldl_pushTarget (names : List String) : names.foldl pushTarget b =
    { names.foldl pushBlock b with successors := b.successors ++ names } := by
  induction names generalizing b with
  | nil => simp
  | cons _ _ ih =>
    rw [List.foldl_cons, ih, foldl_pushBlock, foldl_pushBlock]
    simp [pushTarget, pushBlock, pending]

theorem foldl_countValue (names : List String) (count : Nat) :
    names.foldl countValue (b, count) = (names.foldl pushValue b, count + names.length) := by
  induction names generalizing b count with
  | nil => rfl
  | cons _ _ ih =>
    rw [List.foldl_cons, countValue, ih, List.foldl_cons, List.length_cons]
    congr 1
    omega

/-- Every form of statement pushes the values it reads, then the blocks it names, and counts the values. -/
theorem pushOperands_eq (instr : Instr String String) : b.pushOperands instr =
    (instr.targets.foldl pushTarget (instr.reads.foldl pushValue b), instr.reads.length) := by
  cases instr with
  | any | call => simp [pushOperands, foldl_countValue, Instr.op, Op.info, Instr.reads, Instr.targets]
  | ret result => cases result <;> rfl
  | multiif =>
    simp only [pushOperands, foldl_countValue, Instr.op, Op.info, Instr.reads, Instr.targets]
    simp
  | switch =>
    simp only [pushOperands, Instr.op, Op.info, Instr.reads, Instr.targets, List.foldl_map]
    rfl
  | _ => rfl

def Value.successors : Value String String → List String
  | .statement stmt => stmt.instr.targets
  | _ => []

def add (value : Value String String) : Builder where
  tables :=
    { b.tables with
      values := b.tables.values ++ [value.row b.tables.operands.length]
      operands := b.tables.operands ++ (value.reads.map fun _ => 0) ++ value.targets.map fun _ => 0 }
  values := b.values ++ value.name?.toList.map fun name => (name, b.tables.values.length)
  blocks := b.blocks
  valueRefs := b.valueRefs ++ pending b.tables.operands.length value.reads
  blockRefs := b.blockRefs ++ pending (b.tables.operands.length + value.reads.length) value.targets
  successors := b.successors ++ Value.successors value

theorem addArgument_eq (name : String) : b.addArgument name = b.add (.argument name) := by
  simp [addArgument, addRow, define, add, Value.row, pending, Value.reads, Value.targets, Value.name?, Value.successors,
    Value.cls, Value.op, Value.symbol, Value.immediates, Value.cases]

theorem addPhi_eq (phi : Phi String String) : b.addPhi phi = b.add (.phi phi) := by
  have values (b : Builder) : phi.incoming.foldl (fun b slot => b.pushValue slot.2) b =
      (phi.incoming.map (·.2)).foldl pushValue b := List.foldl_map.symm
  have blocks (b : Builder) : phi.incoming.foldl (fun b slot => b.pushBlock slot.1) b =
      (phi.incoming.map (·.1)).foldl pushBlock b := List.foldl_map.symm
  simp [addPhi, values, blocks, foldl_pushValue, foldl_pushBlock, addRow, define, add, Value.row, Value.reads,
    Value.targets, Value.name?, Value.successors, Value.cls, Value.op, Value.symbol, Value.immediates,
    Value.cases, Nat.add_assoc]

theorem addStatement_eq (stmt : Statement String String) : b.addStatement stmt = b.add (.statement stmt) := by
  simp [addStatement, pushOperands_eq, foldl_pushTarget, foldl_pushValue, foldl_pushBlock, addRow, define, add,
    Value.row, Value.reads, Value.targets, Value.name?, Value.successors, Value.cls, Value.op, Value.symbol,
    Value.immediates, Value.cases, Nat.add_assoc]

theorem foldl_eq_add {α : Type} {step : Builder → α → Builder} {value : α → Value String String}
    (each : ∀ b a, step b a = b.add (value a)) (as : List α) : as.foldl step b = (as.map value).foldl add b := by
  rw [List.foldl_map]
  exact congrArg (fun step => as.foldl step b) (funext₂ each)

theorem successors_foldl_add (values : List (Value String String)) :
    (values.foldl add b).successors = b.successors ++ values.flatMap Value.successors := by
  induction values generalizing b with
  | nil => simp
  | cons _ _ ih =>
    rw [List.foldl_cons, ih]
    simp [add]

def openBlock (block : Block String String) : Builder :=
  { b with blocks := b.blocks ++ [(block.name, b.tables.blocks.length)], successors := [] }

theorem addBlock_eq (block : Block String String) :
    let filled := block.values.foldl add (b.openBlock block)
    let closed := block.targets.foldl pushBlock filled
    b.addBlock block = { closed with
      tables.blocks := closed.tables.blocks ++ [{
        name := block.name
        succs := (filled.tables.operands.length, closed.tables.operands.length)
        first := b.tables.values.length
        phiEnd := ((block.phis.map Value.phi).foldl add (b.openBlock block)).tables.values.length
        last := filled.tables.values.length }] } := by
  have named : (block.values.foldl add (b.openBlock block)).successors = block.targets := by
    rw [successors_foldl_add, Block.values, List.flatMap_append, List.flatMap_map, List.flatMap_map]
    simp [openBlock, Value.successors, Block.targets]
  dsimp only
  rw [← named, Block.values, List.foldl_append, ← foldl_eq_add _ addStatement_eq, ← foldl_eq_add _ addPhi_eq]
  rfl

end Builder

/-! ## Names -/

def known (first : Nat) (names : List (Option String)) : List (String × Nat) :=
  (numberFrom first names).filterMap fun entry => entry.2.map fun name => (name, entry.1)

theorem known_concat (first : Nat) (names : List (Option String)) (name? : Option String) :
    known first (names ++ [name?]) =
      known first names ++ name?.toList.map fun name => (name, first + names.length) := by
  rw [known, numberFrom_concat, List.filterMap_append]
  cases name? <;> rfl

theorem lookup_known (first : Nat) (names : List (Option String)) (name : String) : (known first names).lookup name =
      if some name ∈ names then some (first + names.idxOf (some name)) else none := by
  induction names generalizing first with
  | nil => rfl
  | cons name? names ih =>
    have rest := ih (first + 1)
    rw [known] at rest ⊢
    rw [numberFrom, List.filterMap_cons]
    by_cases here : name? = some name
    · subst here
      simp
    · have later : (some name = name? ∨ some name ∈ names) ↔ some name ∈ names := or_iff_right (Ne.symm here)
      have index : (name? :: names).idxOf (some name) = names.idxOf (some name) + 1 :=
        List.idxOf_cons_ne _ here
      have place : first + (names.idxOf (some name) + 1) = first + 1 + names.idxOf (some name) := by omega
      simp only [List.mem_cons, later, index, place]
      cases name? with
      | none => exact rest
      | some other =>
        have differs : (name == other) = false := beq_eq_false_iff_ne.2 fun same => here (congrArg some same.symm)
        rw [Option.map_some, List.lookup_cons, differs]
        exact rest

theorem Value.row_map (start : Nat) (f g : String → Nat) (value : Value String String) :
    (value.map f g).row start = value.row start := by
  have reads : (value.map f g).reads.length = value.reads.length := by rw [reads_map, List.length_map]
  have targets : (value.map f g).targets.length = value.targets.length := by rw [targets_map, List.length_map]
  have same : (value.map f g).cls = value.cls ∧ (value.map f g).op = value.op ∧
      (value.map f g).symbol = value.symbol ∧ (value.map f g).immediates = value.immediates ∧
      (value.map f g).cases = value.cases := by
    cases value with
    | argument | phi => exact ⟨rfl, rfl, rfl, rfl, rfl⟩
    | statement stmt =>
      obtain ⟨result, instr⟩ := stmt
      cases instr with
      | switch => exact ⟨rfl, rfl, rfl, rfl, by simp [map, cases, Instr.map, Instr.cases]⟩
      | _ => exact ⟨rfl, rfl, rfl, rfl, rfl⟩
  obtain ⟨cls, op, symbol, immediates, cases⟩ := same
  simp only [row, name?_map, cls, op, reads, targets, symbol, immediates, cases]
  cases value <;> rfl

/-! ## Blocks -/

/-- A builder that has added some values and met some blocks, and the tables it stands for once the names are filled in.
-/
structure Stands (base firstBlock : Nat) (f g : String → Nat) (values : List (Value String String))
    (blocks targets : List String) (b : Builder) (t : Tables) : Prop where
  functions : b.tables.functions = t.functions
  sameBlocks : b.tables.blocks = t.blocks
  sameValues : b.tables.values = t.values
  count : t.values.length = base + values.length
  valueNames : b.values = known base (values.map (·.name?))
  blockNames : b.blocks = known firstBlock (blocks.map some)
  reads : b.valueRefs.map (·.name) = values.flatMap (·.reads)
  targets : b.blockRefs.map (·.name) = targets
  valuesInside : ∀ ref ∈ b.valueRefs, ref.place < b.tables.operands.length
  blocksInside : ∀ ref ∈ b.blockRefs, ref.place < b.tables.operands.length
  operands : patch (firstBlock + g ·) b.blockRefs (patch (base + f ·) b.valueRefs b.tables.operands) = t.operands

namespace Stands

variable {base firstBlock : Nat} {f g : String → Nat} {values : List (Value String String)}
  {blocks targets : List String} {b : Builder} {t : Tables}
  (stands : Stands base firstBlock f g values blocks targets b t)

include stands

theorem length : b.tables.operands.length = t.operands.length := by
  rw [← stands.operands, length_patch, length_patch]

theorem pushBlocks (names : List String) :
    Stands base firstBlock f g values blocks (targets ++ names) (names.foldl Builder.pushBlock b)
      { t with operands := t.operands ++ names.map (firstBlock + g ·) } := by
  have inside : ∀ ref ∈ b.blockRefs, ref.place < (patch (base + f ·) b.valueRefs b.tables.operands).length := by
    rw [length_patch]
    exact stands.blocksInside
  have filled := @patch_append_pending (firstBlock + g ·) _ _ inside names
  rw [length_patch, ← patch_append stands.valuesInside, stands.operands] at filled
  rw [Builder.foldl_pushBlock]
  refine { stands with targets := ?_, valuesInside := ?_, blocksInside := ?_, operands := filled }
  · rw [List.map_append, names_pending, stands.targets]
  · intro ref mem
    rw [List.length_append]
    exact Nat.lt_add_right _ (stands.valuesInside ref mem)
  · simpa using inside_append_pending stands.blocksInside le_rfl names

theorem add (value : Value String String) :
    Stands base firstBlock f g (values ++ [value]) blocks (targets ++ value.targets) (b.add value)
      (t.addValue base firstBlock (value.map f g)) := by
  have reads := inside_append_pending stands.valuesInside le_rfl value.reads
  have targets := inside_append_pending stands.blocksInside (Nat.le_add_right _ value.reads.length) value.targets
  have filled := @patch_pending_twice (base + f ·) _ _ (firstBlock + g ·) _ stands.valuesInside stands.blocksInside
    value.reads value.targets
  rw [stands.operands] at filled
  refine ⟨stands.functions, stands.sameBlocks, ?_, ?_, ?_, stands.blockNames, ?_, ?_, ?_, ?_, ?_⟩
  · change b.tables.values ++ [value.row b.tables.operands.length] = t.values ++ [_]
    rw [stands.sameValues, stands.length, Value.row_map]
  · simp [Tables.addValue, stands.count, Nat.add_assoc]
  · rw [List.map_append, List.map_singleton, known_concat, ← stands.valueNames, List.length_map, ← stands.count,
      ← stands.sameValues]
    rfl
  · change (b.valueRefs ++ pending _ _).map _ = _
    rw [List.map_append, names_pending, stands.reads, List.flatMap_append, List.flatMap_singleton]
  · change (b.blockRefs ++ pending _ _).map _ = _
    rw [List.map_append, names_pending, stands.targets]
  · intro ref mem
    simpa [Builder.add, Nat.add_assoc] using Nat.lt_add_right value.targets.length (reads ref mem)
  · simpa [Builder.add, Nat.add_assoc] using targets
  · refine filled.trans ?_
    simp only [Tables.addValue, Value.reads_map, Value.targets_map, List.map_map]
    rfl

theorem addAll (more : List (Value String String)) :
    Stands base firstBlock f g (values ++ more) blocks (targets ++ more.flatMap (·.targets))
      (more.foldl Builder.add b) ((more.map (·.map f g)).foldl (Tables.addValue base firstBlock) t) := by
  induction more generalizing values targets b t with
  | nil => simpa using stands
  | cons value more ih => simpa using ih (stands.add value)

theorem addBlock (count : t.blocks.length = firstBlock + blocks.length) (block : Block String String) :
    Stands base firstBlock f g (values ++ block.values) (blocks ++ [block.name])
      (targets ++ (block.values.flatMap (·.targets) ++ block.targets)) (b.addBlock block)
      (t.addBlock base firstBlock (block.map f g)) := by
  have start : Stands base firstBlock f g values (blocks ++ [block.name]) targets (b.openBlock block) t :=
    { stands with
      blockNames := by
        rw [List.map_append, List.map_singleton, known_concat, ← stands.blockNames, List.length_map, ← count,
          ← stands.sameBlocks]
        rfl }
  have withPhis := start.addAll (block.phis.map Value.phi)
  have filled := start.addAll block.values
  have closed := filled.pushBlocks block.targets
  rw [← Block.values_map] at filled closed
  rw [List.append_assoc] at closed
  have targets : (block.map f g).targets.map (firstBlock + ·) = block.targets.map (firstBlock + g ·) := by
    simp [Block.targets, Block.map, List.flatMap_map, List.map_flatMap, Instr.targets_map, Function.comp_def]
  have phiEnd : ((block.phis.map Value.phi).foldl Builder.add (b.openBlock block)).tables.values.length =
      t.values.length + (block.map f g).phis.length := by
    rw [withPhis.sameValues, withPhis.count, stands.count, List.length_append, Block.map]
    simp [Nat.add_assoc]
  rw [Builder.addBlock_eq, Tables.addBlock, targets]
  refine { closed with sameBlocks := ?_ }
  rw [closed.sameBlocks, closed.length, filled.length, phiEnd, filled.sameValues, stands.sameValues]
  simp [Block.map]

theorem addBlocks (count : t.blocks.length = firstBlock + blocks.length) (more : List (Block String String)) :
    Stands base firstBlock f g (values ++ more.flatMap (·.values)) (blocks ++ more.map (·.name))
      (targets ++ more.flatMap fun block => block.values.flatMap (·.targets) ++ block.targets)
      (more.foldl Builder.addBlock b) ((more.map (·.map f g)).foldl (Tables.addBlock base firstBlock) t) := by
  induction more generalizing values blocks targets b t with
  | nil => simpa using stands
  | cons block more ih =>
    have next : (t.addBlock base firstBlock (block.map f g)).blocks.length =
        firstBlock + (blocks ++ [block.name]).length := by
      rw [(t.addsBlocks_addBlock base firstBlock (block.map f g)).blockCount, count]
      simp [Nat.add_assoc]
    simpa using ih (stands.addBlock count block) next

end Stands

/-! ## Functions -/

theorem fillIn_known (first : Nat) (names : List (Option String)) (undefined : String → ParseError)
    (operands : List Nat) (refs : List Reference) :
    fillIn (known first names) undefined operands refs =
      match (refs.map (·.name)).find? fun name => decide (some name ∉ names) with
      | some name => .error (undefined name)
      | none => .ok (patch (fun name => first + names.idxOf (some name)) refs operands) := by
  induction refs generalizing operands with
  | nil => rfl
  | cons ref refs ih =>
    have step := ih (operands.set ref.place (first + names.idxOf (some ref.name)))
    rw [fillIn] at step
    rw [fillIn, List.foldlM_cons, List.map_cons, List.find?_cons, lookup_known]
    by_cases defined : some ref.name ∈ names
    · simp only [defined, not_true_eq_false, decide_false]
      exact step
    · simp only [defined, not_false_eq_true, decide_true]
      rfl

theorem idxOf_map_some (names : List String) (name : String) :
    (names.map some).idxOf (some name) = names.idxOf name := by
  induction names with
  | nil => rfl
  | cons _ _ ih => simp [List.idxOf_cons, ih]

theorem find?_flatMap_append {α β : Type} {as : List α} {xs ys : α → List β} {p : β → Bool}
    (again : ∀ a ∈ as, ys a ⊆ xs a) : (as.flatMap fun a => xs a ++ ys a).find? p = (as.flatMap xs).find? p := by
  induction as with
  | nil => rfl
  | cons a as ih =>
    rw [List.flatMap_cons, List.flatMap_cons, List.find?_append, List.find?_append, List.find?_append,
      ih fun b mem => again b (.tail _ mem)]
    cases found : (xs a).find? p with
    | some b => rfl
    | none =>
      have none : (ys a).find? p = none :=
        List.find?_eq_none.2 fun b mem => List.find?_eq_none.1 found b (again a (.head _) mem)
      rw [none]
      rfl

/-- A function is built into the tables exactly if its names resolve, and then as the resolved function is laid out. -/
theorem Tables.build_eq (t : Tables) (f : FunctionOf String String) : t.build f = (resolve f).map t.addFunction := by
  have start : Stands t.values.length t.blocks.length (fun name => (f.values.map (·.name?)).idxOf (some name))
      (f.blocks.map (·.name)).idxOf [] [] [] { tables := t } t :=
    ⟨rfl, rfl, rfl, rfl, rfl, rfl, rfl, rfl, by simp, by simp, rfl⟩
  have mapped (f g : String → Nat) (args : List String) :
      (args.map Value.argument).map (·.map f g) = args.map Value.argument := by simp [Value.map]
  have withArgs := start.addAll (f.args.map Value.argument)
  rw [mapped] at withArgs
  have count := congrArg List.length (t.addsValues_foldl t.values.length t.blocks.length (f.args.map .argument)).blocks
  have filled := withArgs.addBlocks count f.blocks
  have argEnd := congrArg List.length withArgs.sameValues
  have values : [] ++ f.args.map Value.argument ++ f.blocks.flatMap (·.values) = f.values := rfl
  rw [values] at filled
  have again : ∀ block ∈ f.blocks, block.targets ⊆ block.values.flatMap (·.targets) := by
    intro block _ name named
    obtain ⟨stmt, listed, named⟩ := List.mem_flatMap.1 named
    exact List.mem_flatMap.2 ⟨.statement stmt, List.mem_append_right _ (List.mem_map_of_mem listed), named⟩
  have numbers : (fun name => t.blocks.length + ((f.blocks.map (·.name)).map some).idxOf (some name)) =
      (t.blocks.length + (f.blocks.map (·.name)).idxOf ·) :=
    funext fun name => by rw [idxOf_map_some]
  rw [Tables.build, Builder.foldl_eq_add _ Builder.addArgument_eq]
  generalize (f.args.map Value.argument).foldl Builder.add { tables := t } = argued at filled argEnd ⊢
  dsimp only
  generalize f.blocks.foldl Builder.addBlock argued = b at filled ⊢
  have targets : (b.blockRefs.map (·.name)).find? (fun name => decide (some name ∉ (f.blocks.map (·.name)).map some)) =
      (f.values.flatMap (·.targets)).find? fun name => decide (name ∉ f.blocks.map (·.name)) := by
    simp only [filled.targets, List.nil_append, List.mem_map, Option.some.injEq, exists_eq_right]
    rw [List.find?_append, find?_flatMap_append again, ← List.find?_append, FunctionOf.values, List.flatMap_append,
      List.flatMap_assoc]
  rw [filled.valueNames, filled.blockNames, fillIn_known, filled.reads, resolve]
  simp only [fillIn_known, List.nil_append, targets, numbers]
  cases (f.values.flatMap (·.reads)).find? fun name => decide (some name ∉ f.values.map (·.name?)) with
  | some => rfl
  | none =>
    cases (f.values.flatMap (·.targets)).find? fun name => decide (name ∉ f.blocks.map (·.name)) with
    | some => rfl
    | none =>
      refine congrArg Except.ok ?_
      rw [filled.functions, filled.sameBlocks, filled.sameValues, argEnd, filled.operands]
      rfl

/-! ## Programs -/

instance : LawfulMonad Reader := by
  refine .mk' Reader (fun reader => ?_) (fun _ _ => rfl) fun reader next last => ?_
  all_goals
    induction reader with
    | done | fault => rfl
    | look rest ih => exact congrArg Reader.look (funext ih)
    | move cs rest ih => exact congrArg (Reader.move cs) ih
    | giveUp rest ih => exact congrArg Reader.giveUp ih

theorem readFunctionTo_map {α β : Type} (taken : String → Bool)
    (finish : FunctionOf String String → Except ParseError α)
    (g : α → β) : readFunctionTo taken (fun f => (finish f).map g) = g <$> readFunctionTo taken finish := by
  rw [readFunctionTo, readFunctionTo, map_bind]
  refine bind_congr fun name => ?_
  split
  · rfl
  · simp only [map_bind]
    refine bind_congr fun _ => bind_congr fun args => bind_congr fun _ => bind_congr fun blocks => ?_
    split
    · rfl
    · cases finish ⟨name, args, blocks⟩ <;> rfl

theorem readTables_eq (fuel : Nat) (functions : List Function) :
    readTables fuel (tables ⟨functions⟩) = (fun functions => tables ⟨functions⟩) <$> readFunctions fuel functions := by
  induction fuel generalizing functions with
  | zero => rfl
  | succ fuel ih =>
    have taken : (fun name => (tables ⟨functions⟩).functions.any (·.name = name)) =
        fun name => functions.any (·.name = name) := by
      funext name
      have names : (tables ⟨functions⟩).functions.map (·.name) = functions.map (·.name) := names_tables ⟨functions⟩
      have any := congrArg (List.any · (· = name)) names
      simpa only [List.any_map, Function.comp_def] using any
    have next (f : Function) : (tables ⟨functions⟩).addFunction f = tables ⟨functions ++ [f]⟩ := by
      simp [tables]
    rw [readTables, readFunctions, map_bind]
    refine bind_congr fun cs => ?_
    rw [map_bind]
    refine bind_congr fun _ => ?_
    split
    · rfl
    · rw [taken, show (tables ⟨functions⟩).build = _ from funext (tables ⟨functions⟩).build_eq, readFunctionTo_map,
        map_bind, bind_map_left]
      exact bind_congr fun f => (congrArg (readTables fuel) (next f)).trans (ih _)

/-- The tables that a text is read into are those of the program it is read as. -/
theorem parseTables_eq (text : String) : parseTables text = (parse text).map tables := by
  have same : (bounded fun fuel => readTables fuel {}).run text.toList =
      ((fun functions => tables ⟨functions⟩) <$> bounded fun fuel => readFunctions fuel []).run text.toList := by
    rw [bounded, bounded, map_bind]
    exact congrArg (Reader.run · text.toList) (bind_congr fun cs => readTables_eq (cs.length + 1) [])
  rw [parseTables, same, parse, ← bind_pure_comp, Reader.run_bind]
  cases (bounded fun fuel => readFunctions fuel []).run text.toList <;> rfl

theorem parseTables_eq_ok {text : String} {program : Program} (parsed : parse text = .ok program) :
    parseTables text = .ok program.tables := by
  rw [parseTables_eq, parsed]
  rfl

theorem exists_of_parseTables {text : String} {t : Tables} (parsed : parseTables text = .ok t) :
    ∃ program, parse text = .ok program ∧ t = program.tables := by
  rw [parseTables_eq] at parsed
  cases read : parse text with
  | error => simp [read, Except.map] at parsed
  | ok program =>
    rw [read] at parsed
    exact ⟨program, rfl, (Except.ok.inj parsed).symm⟩

end Reflow.Program
