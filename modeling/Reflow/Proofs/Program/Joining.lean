import Reflow.Proofs.Body
import Reflow.Proofs.Program.Queries
import Reflow.Proofs.Program.RoundTrip
import Reflow.Proofs.Program.SideBySide

/-!
# Programs one behind the other

Texts that are read one behind the other, the tables they are read into, and the bodies of their functions.
-/

namespace Reflow.Program

/-! ## Where a function ends -/

def closesFrom (comment : Bool) : List Char → Bool
  | [] => false
  | c :: cs =>
    if c = '\n' then closesFrom false cs
    else if comment || c = ';' then closesFrom true cs
    else c = '\x7d' || closesFrom false cs

variable {cs rest : List Char} {f : Function} {functions : List Function}

theorem closesFrom_skipFrom (newlines comment : Bool) (cs : List Char) :
    closesFrom false (skipFrom newlines comment cs) = closesFrom comment cs := by
  induction cs generalizing comment with
  | nil => rfl
  | cons c cs ih =>
    unfold skipFrom
    by_cases line : c = '\n'
    · subst line
      cases newlines with
      | true => exact ih false
      | false => rfl
    · rw [if_neg line]
      by_cases inComment : (comment || c = ';') = true
      · rw [if_pos inComment, ih, closesFrom, if_neg line, if_pos inComment]
      · rw [if_neg inComment]
        split
        · rename_i blank
          have other : c ≠ '\x7d' := by
            rintro rfl
            exact absurd blank (by decide)
          rw [ih, closesFrom, if_neg line, if_neg inComment]
          simp [other]
        · rw [Bool.not_eq_true, Bool.or_eq_false_iff] at inComment
          rw [inComment.1]

theorem closesFrom_cons {c : Char} (mark : IsMark c) (cs : List Char) :
    closesFrom false (c :: cs) = closesFrom false cs := by
  rw [closesFrom, if_neg mark.1.ne_lineFeed]
  simp [mark.1.2, mark.2]

theorem skipFrom_append (newlines : Bool) {comment : Bool} {cs : List Char}
    (stops : newlines = true → closesFrom comment cs = true) (more : List Char) :
    skipFrom newlines comment (cs ++ '\n' :: more) = skipFrom newlines comment cs ++ '\n' :: more := by
  induction cs generalizing comment with
  | nil =>
    cases newlines with
    | false => rfl
    | true => exact absurd (stops rfl) Bool.false_ne_true
  | cons c cs ih =>
    rw [List.cons_append, skipFrom, skipFrom]
    by_cases line : c = '\n'
    · subst line
      cases newlines with
      | false => rfl
      | true => exact ih fun _ => stops rfl
    · rw [closesFrom, if_neg line] at stops
      rw [if_neg line, if_neg line]
      by_cases inComment : (comment || c = ';') = true
      · rw [if_pos inComment] at stops ⊢
        rw [if_pos inComment]
        exact ih stops
      · rw [if_neg inComment] at stops ⊢
        rw [if_neg inComment]
        split
        · rename_i blank
          refine ih fun asked => ?_
          have other : c ≠ '\x7d' := by
            rintro rfl
            exact absurd blank (by decide)
          simpa [other] using stops asked
        · rfl

def Pairing.followedBy (more : List Char) : Pairing where
  same cs cs' := cs' = cs ++ '\n' :: more
  live cs := closesFrom false cs = true
  closed := True
  next := by
    rintro c cs cs' - rfl
    exact ⟨_, rfl, rfl⟩
  quiet := by
    rintro c cs cs' rfl quiet head
    cases cs with
    | nil =>
      obtain rfl := Option.some.inj head
      decide
    | cons => exact quiet c head
  skips := by
    rintro newlines cs cs' live rfl
    have same := skipFrom_append newlines (fun _ => live) more
    refine ⟨same, ?_⟩
    rw [same]
    have closes := (closesFrom_skipFrom newlines false cs).trans live
    cases there : skipFrom newlines false cs with
    | nil =>
      rw [there] at closes
      exact absurd closes Bool.false_ne_true
    | cons => cases newlines <;> rfl
  live_cons mark live := closesFrom_cons mark _ ▸ live
  live_close _ := trivial
  live_skipFrom live := (closesFrom_skipFrom _ _ _).trans live

def Pairing.unclosed : Pairing :=
  .alone (closesFrom false · = false) False (fun mark live => closesFrom_cons mark _ ▸ live)
    (fun live => absurd live (by simp [closesFrom])) fun live => (closesFrom_skipFrom _ _ _).trans live

theorem closesFrom_of_readFunction
    (read : (readFunction functions).Reads cs f rest) : closesFrom false cs = true := by
  rw [← Bool.not_eq_false]
  intro live
  have follows := Pairing.unclosed.readFunction_follows functions cs cs live rfl (Nat.lt_succ_self _)
    (Nat.lt_succ_self _)
  rw [show (readFunction functions).run cs = _ from read] at follows
  obtain ⟨-, _, -, -, closed, -⟩ := follows
  exact closed

theorem readFunction_append
    (read : (readFunction functions).Reads cs f rest) (more : List Char) :
    (readFunction functions).Reads (cs ++ '\n' :: more) f (rest ++ '\n' :: more) ∧ rest.length < cs.length := by
  have follows := (Pairing.followedBy more).readFunction_follows functions cs (cs ++ '\n' :: more)
    (closesFrom_of_readFunction read) rfl (Nat.lt_succ_self _) (Nat.lt_succ_self _)
  rw [show (readFunction functions).run cs = _ from read] at follows
  obtain ⟨-, _, read', rfl, -, shorter, -⟩ := follows
  exact ⟨read', shorter⟩

/-! ## Functions in a row -/

theorem readFunction_among {functions others : List Function}
    (read : (readFunction functions).Reads cs f rest) (new : f.name ∉ others.map (·.name)) :
    (readFunction others).Reads cs f rest := by
  obtain ⟨name, middle, named, after⟩ := read.of_bind
  refine named.bind ?_
  split at after
  · cases after
  · have same : f.name = name := by
      refine (?_ : Reader.Gives _ fun f : Function => f.name = name) _ _ _ after
      refine .after fun _ => .after fun args => .after fun _ => .after fun blocks => ?_
      split
      · exact .fail _
      · split
        · rename_i resolved
          obtain ⟨rfl, -⟩ := resolve_eq_ok resolved
          exact .pure rfl
        · exact .fail _
    rw [if_neg (by simpa [same] using new)]
    exact after

inductive Lists : List Function → List Char → Prop
  | nil {cs : List Char} (done : skip cs = []) : Lists [] cs
  | cons {f : Function} {functions : List Function} {cs rest : List Char}
      (read : (readFunction []).Reads (skip cs) f rest)
      (others : Lists functions rest) : Lists (f :: functions) cs

theorem lists_of_readFunctions {fuel : Nat} {before all : List Function}
    (read : (readFunctions fuel before).Reads cs all rest) (enough : cs.length < fuel) :
    ∃ functions, all = before ++ functions ∧ Lists functions cs := by
  induction fuel generalizing before cs with
  | zero => exact absurd enough (Nat.not_lt_zero _)
  | succ fuel ih =>
    rw [Reader.Reads, run_readFunctions] at read
    split at read
    · rename_i done
      obtain ⟨rfl, -⟩ := Prod.mk.inj (Except.ok.inj read)
      exact ⟨[], (List.append_nil _).symm, .nil (List.isEmpty_iff.1 done)⟩
    · obtain ⟨f, middle, first, later⟩ := Reader.Reads.of_bind read
      have shorter : middle.length < (skip cs).length := (readFunction_append first []).2
      have skipped : (skip cs).length ≤ cs.length := length_skipFrom_le _ _ _
      obtain ⟨functions, rfl, lists⟩ := ih later (by omega)
      exact ⟨f :: functions, by simp, .cons (readFunction_among first (by simp)) lists⟩

namespace Lists

variable {functions others : List Function} {cs more : List Char}

theorem readFunctions (lists : Lists functions cs) (before : List Function) {fuel : Nat}
    (names : ((before ++ functions).map (·.name)).Nodup) (enough : cs.length < fuel) :
    ∃ rest, (readFunctions fuel before).Reads cs (before ++ functions) rest := by
  induction lists generalizing before fuel with
  | @nil cs done =>
    obtain ⟨fuel, rfl⟩ := Nat.exists_eq_add_one_of_ne_zero (Nat.ne_zero_of_lt enough)
    refine ⟨skip cs, ?_⟩
    rw [Reader.Reads, run_readFunctions, if_pos (List.isEmpty_iff.2 done), List.append_nil]
    rfl
  | @cons f _ cs rest read _ ih =>
    obtain ⟨fuel, rfl⟩ := Nat.exists_eq_add_one_of_ne_zero (Nat.ne_zero_of_lt enough)
    have shorter : rest.length < (skip cs).length := (readFunction_append read []).2
    have skipped : (skip cs).length ≤ cs.length := length_skipFrom_le _ _ _
    have new : f.name ∉ before.map (·.name) := by
      rw [List.map_append] at names
      exact fun given => List.disjoint_of_nodup_append names given (by simp)
    have less : rest.length < fuel := by omega
    obtain ⟨last, later⟩ := ih (before ++ [f]) (by simpa using names) less
    refine ⟨last, ?_⟩
    have some : ¬ (skip cs).isEmpty = true := by
      rw [List.isEmpty_iff_length_eq_zero]
      omega
    rw [Reader.Reads, run_readFunctions, if_neg some]
    exact (readFunction_among read new).bind (by simpa using later)

theorem congr (lists : Lists functions cs) (same : skip more = skip cs) : Lists functions more := by
  cases lists with
  | nil done => exact .nil (same.trans done)
  | cons read others => exact .cons (same ▸ read) others

theorem skip_append_of_nil {comment : Bool} (done : skipFrom true comment cs = []) (more : List Char) :
    skipFrom true comment (cs ++ '\n' :: more) = skip more := by
  induction cs generalizing comment with
  | nil => rfl
  | cons c cs ih =>
    rw [skipFrom] at done
    rw [List.cons_append, skipFrom]
    split at done
    · rw [if_pos ‹_›]
      exact ih done
    · rw [if_neg ‹_›]
      split at done
      · rw [if_pos ‹_›]
        exact ih done
      · rw [if_neg ‹_›]
        split at done
        · rw [if_pos ‹_›]
          exact ih done
        · cases done

theorem append (first : Lists functions cs) (second : Lists others more) :
    Lists (functions ++ others) (cs ++ '\n' :: more) := by
  induction first with
  | nil done => exact second.congr (skip_append_of_nil done more)
  | @cons _ _ cs _ read _ ih =>
    have stops : closesFrom false cs = true :=
      (closesFrom_skipFrom true false cs).symm.trans (closesFrom_of_readFunction read)
    have same : skip (cs ++ '\n' :: more) = skip cs ++ '\n' :: more := skipFrom_append true (fun _ => stops) more
    exact .cons (same ▸ (readFunction_append read more).1) ih

end Lists

theorem parse_eq_ok_iff {text : String} {functions : List Function} :
    parse text = .ok ⟨functions⟩ ↔ Lists functions text.toList ∧ (functions.map (·.name)).Nodup := by
  constructor
  · intro parsed
    refine ⟨?_, (parse_written parsed).names⟩
    rw [parse] at parsed
    split at parsed
    · rename_i found rest ran
      obtain rfl : found = functions := congrArg Program.functions (Except.ok.inj parsed)
      obtain ⟨others, rfl, lists⟩ := lists_of_readFunctions ran (Nat.lt_succ_self _)
      exact lists
    · cases parsed
  · rintro ⟨lists, names⟩
    obtain ⟨rest, read⟩ := lists.readFunctions [] names (Nat.lt_succ_self _)
    have ran : (bounded fun fuel => readFunctions fuel []).run text.toList = .ok (functions, rest) := read
    rw [parse, ran]

/-! ## Tables one behind the other -/

def shiftRange (n : Nat) (range : Nat × Nat) : Nat × Nat :=
  (n + range.1, n + range.2)

def FunctionRow.behind (t : Tables) (row : FunctionRow) : FunctionRow :=
  { row with
    blocks := shiftRange t.blocks.length row.blocks
    args := shiftRange t.values.length row.args }

def BlockRow.behind (t : Tables) (row : BlockRow) : BlockRow :=
  { row with
    succs := shiftRange t.operands.length row.succs
    first := t.values.length + row.first
    phiEnd := t.values.length + row.phiEnd
    last := t.values.length + row.last }

/-- The row of a value behind other tables. An argument has no operands, and its range stays at the start. -/
def ValueRow.behind (t : Tables) (row : ValueRow) : ValueRow :=
  { row with
    operands := if row.cls = .argument then row.operands else shiftRange t.operands.length row.operands }

namespace Tables

def isValueSlot (t : Tables) (i : Nat) : Bool :=
  t.values.any fun row => row.operands.1 ≤ i && i < row.operands.1 + row.opCount

def operandBehind (t t' : Tables) (i operand : Nat) : Nat :=
  (if t'.isValueSlot i then t.values.length else t.blocks.length) + operand

def join (t t' : Tables) : Tables where
  functions := t.functions ++ t'.functions.map (·.behind t)
  blocks := t.blocks ++ t'.blocks.map (·.behind t)
  values := t.values ++ t'.values.map (·.behind t)
  operands := t.operands ++ t'.operands.mapIdx (t.operandBehind t')

variable {t t' : Tables} {base firstBlock : Nat}

theorem join_empty (t : Tables) : t.join {} = t := by
  simp [join]

@[simp]
theorem length_blocks_join : (t.join t').blocks.length = t.blocks.length + t'.blocks.length := by
  simp [join]

@[simp]
theorem length_values_join : (t.join t').values.length = t.values.length + t'.values.length := by
  simp [join]

def Fits (t : Tables) : Prop :=
  ∀ row ∈ t.values, row.operands.1 + row.opCount ≤ t.operands.length

theorem Fits.lt_of_isValueSlot (fits : t.Fits) {i : Nat} (slot : t.isValueSlot i = true) : i < t.operands.length := by
  obtain ⟨row, mem, inside⟩ := List.any_eq_true.1 slot
  have := fits row mem
  simp only [Bool.and_eq_true, decide_eq_true_eq] at inside
  omega

theorem isValueSlot_addValue (value : Value Nat Nat) (i : Nat) :
    (t.addValue base firstBlock value).isValueSlot i = true ↔
      t.isValueSlot i = true ∨ t.operands.length ≤ i ∧ i < t.operands.length + value.reads.length := by
  cases value <;> simp [isValueSlot, addValue, Value.row, Value.reads]

theorem Fits.addValue (fits : t.Fits) (value : Value Nat Nat) : (t.addValue base firstBlock value).Fits := by
  intro row mem
  have longer : t.operands.length + value.reads.length ≤ (t.addValue base firstBlock value).operands.length := by
    simp [Tables.addValue]
  rcases List.mem_append.1 mem with old | new
  · have := fits row old
    omega
  · obtain rfl := List.mem_singleton.1 new
    cases value <;> simp_all [Value.row, Value.reads]

theorem mapIdx_eq_map {α β : Type} {as : List α} {g : Nat → α → β} {h : α → β}
    (same : ∀ i < as.length, ∀ a, g i a = h a) : as.mapIdx g = as.map h := by
  refine List.ext_getElem (by simp) fun i inside _ => ?_
  rw [List.getElem_mapIdx, List.getElem_map]
  exact same i (by simpa using inside) _

theorem mapIdx_operandBehind (t : Tables) {t'' : Tables} {reads : List Nat} (targets : List Nat) (fits : t'.Fits)
    (slots : ∀ i, t''.isValueSlot i = true ↔
      t'.isValueSlot i = true ∨ t'.operands.length ≤ i ∧ i < t'.operands.length + reads.length) :
    (t'.operands ++ reads ++ targets).mapIdx (t.operandBehind t'') =
      t'.operands.mapIdx (t.operandBehind t') ++ reads.map (t.values.length + ·) ++
        targets.map (t.blocks.length + ·) := by
  rw [List.mapIdx_append, List.mapIdx_append]
  congr 1
  · congr 1
    · refine List.mapIdx_eq_mapIdx_iff.2 fun i inside => ?_
      have same : t''.isValueSlot i = t'.isValueSlot i := by
        rw [Bool.eq_iff_iff, slots, or_iff_left (by omega)]
      rw [operandBehind, operandBehind, same]
    · refine mapIdx_eq_map fun i inside read => ?_
      rw [operandBehind, if_pos ((slots _).2 (.inr (by omega)))]
  · refine mapIdx_eq_map fun i inside target => ?_
    rw [List.length_append]
    have block : ¬ t''.isValueSlot (i + (t'.operands.length + reads.length)) = true := by
      rw [slots]
      rintro (old | new)
      · have := fits.lt_of_isValueSlot old
        omega
      · omega
    rw [operandBehind, if_neg block]

theorem map_add_add (n k : Nat) (numbers : List Nat) : numbers.map (n + k + ·) = (numbers.map (k + ·)).map (n + ·) := by
  simp [Function.comp_def, Nat.add_assoc]

theorem join_addValue (fits : t'.Fits) (value : Value Nat Nat) :
    (t.join t').addValue (t.values.length + base) (t.blocks.length + firstBlock) value =
      t.join (t'.addValue base firstBlock value) := by
  have slots (i : Nat) : (t'.addValue base firstBlock value).isValueSlot i = true ↔ t'.isValueSlot i = true ∨
      t'.operands.length ≤ i ∧ i < t'.operands.length + (value.reads.map (base + ·)).length := by
    rw [isValueSlot_addValue, List.length_map]
  rw [Tables.mk.injEq]
  refine ⟨rfl, rfl, ?_, ?_⟩
  · simp only [addValue, join, List.map_append, List.append_assoc, List.map_cons, List.map_nil, map_add_add]
    congr 2
    cases value with
    | argument => rfl
    | phi => simp [Value.row, ValueRow.behind, Value.cls, shiftRange, Nat.add_assoc]
    | statement stmt =>
      have place : (Value.statement stmt : Value Nat Nat).cls ≠ .argument := by
        change (if stmt.instr.op.isTerminator then ValueClass.terminator else .normal) ≠ .argument
        split <;> simp
      simp [Value.row, ValueRow.behind, place, shiftRange, Nat.add_assoc]
  · change _ = t.operands ++ List.mapIdx _ (_ ++ _)
    rw [mapIdx_operandBehind t _ fits slots]
    simp only [addValue, join, map_add_add, List.append_assoc]

theorem foldl_join {α : Type} {add add' : Tables → α → Tables}
    (step : ∀ t' a, t'.Fits → add (t.join t') a = t.join (add' t' a) ∧ (add' t' a).Fits) (as : List α)
    (fits : t'.Fits) :
    as.foldl add (t.join t') = t.join (as.foldl add' t') ∧ (as.foldl add' t').Fits := by
  induction as generalizing t' with
  | nil => exact ⟨rfl, fits⟩
  | cons a as ih =>
    obtain ⟨same, fits'⟩ := step t' a fits
    rw [List.foldl_cons, List.foldl_cons, same]
    exact ih fits'

theorem foldl_addValue_join (t : Tables) (base firstBlock : Nat) (values : List (Value Nat Nat)) (fits : t'.Fits) :
    values.foldl (addValue (t.values.length + base) (t.blocks.length + firstBlock)) (t.join t') =
        t.join (values.foldl (addValue base firstBlock) t') ∧
      (values.foldl (addValue base firstBlock) t').Fits :=
  foldl_join (fun _ value fits => ⟨join_addValue fits value, fits.addValue value⟩) values fits

theorem addBlock_join (t : Tables) (base firstBlock : Nat) (block : Block Nat Nat) (fits : t'.Fits) :
    (t.join t').addBlock (t.values.length + base) (t.blocks.length + firstBlock) block =
        t.join (t'.addBlock base firstBlock block) ∧ (t'.addBlock base firstBlock block).Fits := by
  obtain ⟨same, fits'⟩ := foldl_addValue_join t base firstBlock block.values fits
  have slots (i : Nat) : (t'.addBlock base firstBlock block).isValueSlot i = true ↔
      (block.values.foldl (addValue base firstBlock) t').isValueSlot i = true ∨
        (block.values.foldl (addValue base firstBlock) t').operands.length ≤ i ∧
          i < (block.values.foldl (addValue base firstBlock) t').operands.length + ([] : List Nat).length := by
    rw [or_iff_left (by simp)]
    rfl
  have operands := mapIdx_operandBehind t (block.targets.map (firstBlock + ·)) fits' slots
  constructor
  · rw [Tables.mk.injEq]
    dsimp only [addBlock]
    rw [same]
    refine ⟨rfl, ?_, rfl, ?_⟩
    · simp [join, BlockRow.behind, shiftRange, Nat.add_assoc]
    · rw [List.append_nil, List.map_nil, List.append_nil] at operands
      rw [map_add_add, join, List.append_assoc, ← operands]
      rfl
  · intro row mem
    have := fits' row mem
    simp only [addBlock, List.length_append]
    omega

theorem addFunction_join (f : Function) (fits : t'.Fits) :
    (t.join t').addFunction f = t.join (t'.addFunction f) ∧ (t'.addFunction f).Fits := by
  obtain ⟨args, fitsArgs⟩ := foldl_addValue_join t t'.values.length t'.blocks.length (f.args.map Value.argument) fits
  obtain ⟨blocks, fitsBlocks⟩ := foldl_join (fun _ => addBlock_join t t'.values.length t'.blocks.length)
    f.blocks fitsArgs
  refine ⟨?_, fitsBlocks⟩
  dsimp only [addFunction]
  rw [length_values_join, length_blocks_join, args, blocks, Tables.mk.injEq]
  refine ⟨?_, rfl, rfl, rfl⟩
  simp [join, FunctionRow.behind, shiftRange]

end Tables

theorem tables_append (functions others : List Function) :
    tables ⟨functions ++ others⟩ = (tables ⟨functions⟩).join (tables ⟨others⟩) := by
  have empty : ({} : Tables).Fits := by simp [Tables.Fits]
  rw [tables, List.foldl_append]
  conv_lhs => rw [← Tables.join_empty (functions.foldl Tables.addFunction {})]
  exact (Tables.foldl_join (fun _ f fits => Tables.addFunction_join f fits) others empty).1

/-! ## Programs one behind the other -/

theorem parse_append {a b : String} {p q : Program} (readFirst : parse a = .ok p) (readSecond : parse b = .ok q)
    (disjoint : ∀ f ∈ p.functions, ∀ g ∈ q.functions, f.name ≠ g.name) :
    parse (a ++ "\n" ++ b) = .ok ⟨p.functions ++ q.functions⟩ := by
  obtain ⟨first, names⟩ := parse_eq_ok_iff.1 readFirst
  obtain ⟨second, names'⟩ := parse_eq_ok_iff.1 readSecond
  refine parse_eq_ok_iff.2 ⟨?_, ?_⟩
  · simpa using first.append second
  · rw [List.map_append]
    refine List.Nodup.append names names' fun name inFirst inSecond => ?_
    obtain ⟨f, mem, rfl⟩ := List.mem_map.1 inFirst
    obtain ⟨g, mem', same⟩ := List.mem_map.1 inSecond
    exact disjoint f mem g mem' same.symm

/-- A function of tables is emitted like one of other tables, in passes with the same number: with the same text, the
same names of temporaries and the same causes of failure, where the numbers of values are shifted. -/
def Tables.SameBodies (shift : Nat) (t : Tables) (row : FunctionRow) (t' : Tables) (row' : FunctionRow) : Prop :=
  ∀ (session session' : Session) (config : Config), session'.passesOf row'.name = session.passesOf row.name →
    ∀ passes, ∃ emitted emitted', t.emitPasses? row session config passes = some emitted ∧
      t'.emitPasses? row' session' config passes = some emitted' ∧
      emitted'.1 = emitted.1.map (shiftResult shift (Body.shift shift))

theorem Tables.Holds.sameBodies {t t' : Tables} {f : Function} {index index' base firstBlock firstBlock' : Nat}
    (shift : Nat) (holds : t.Holds index f base firstBlock)
    (holds' : t'.Holds index' f (shift + base) firstBlock') (wf : f.WellFormed) :
    SameBodies shift t (f.row base firstBlock) t' (f.row (shift + base) firstBlock') := by
  intro session session' config pass passes
  refine ⟨_, _, holds.emitPasses?_eq wf session config passes,
    holds'.emitPasses?_eq wf session' config passes, ?_⟩
  rw [Prod.map_fst, Prod.map_fst, Session.emitPasses_fst (p := f.procedure 0) pass, List.map_map]
  exact List.map_congr_left fun result _ => shiftResult_body_add shift base result

theorem base_append (functions others : List Function) (i : Nat) :
    base ⟨functions ++ others⟩ (functions.length + i) =
      (tables ⟨functions⟩).values.length + base ⟨others⟩ i := by
  rw [base, List.take_length_add_append, List.flatMap_append, List.length_append,
    (addsFunctions_tables ⟨functions⟩).valueCount, base]
  simp

theorem firstBlock_append (functions others : List Function) (i : Nat) :
    firstBlock ⟨functions ++ others⟩ (functions.length + i) =
      (tables ⟨functions⟩).blocks.length + firstBlock ⟨others⟩ i := by
  rw [firstBlock, List.take_length_add_append, List.flatMap_append, List.length_append,
    (addsFunctions_tables ⟨functions⟩).blockCount, firstBlock]
  simp

/-- The functions of a program are independent: two texts without a common name are read one behind the other. -/
theorem parse_append_independent {a b : String} {t t' : Tables} (readFirst : parseTables a = .ok t)
    (readSecond : parseTables b = .ok t') (disjoint : ∀ f ∈ t.functions, ∀ g ∈ t'.functions, f.name ≠ g.name) :
    ∃ joined, parseTables (a ++ "\n" ++ b) = .ok joined ∧ joined = t.join t' ∧
      (∀ row ∈ t.functions, Tables.SameBodies 0 t row joined row) ∧
      ∀ row ∈ t'.functions, Tables.SameBodies t.values.length t' row joined (row.behind t) := by
  obtain ⟨p, first, rfl⟩ := exists_of_parseTables readFirst
  obtain ⟨q, second, rfl⟩ := exists_of_parseTables readSecond
  have names : ∀ f ∈ p.functions, ∀ g ∈ q.functions, f.name ≠ g.name := by
    intro f mem g mem'
    obtain ⟨row, listed, name⟩ := List.mem_map.1 (p.names_tables.symm ▸ List.mem_map_of_mem mem)
    obtain ⟨row', listed', name'⟩ := List.mem_map.1 (q.names_tables.symm ▸ List.mem_map_of_mem mem')
    rw [← name, ← name']
    exact disjoint row listed row' listed'
  have joined := tables_append p.functions q.functions
  refine ⟨_, parseTables_eq_ok (parse_append first second names), joined, ?_, ?_⟩
  · intro row mem
    obtain ⟨i, place⟩ := List.mem_iff_getElem?.1 mem
    obtain ⟨f, found, rfl⟩ := exists_function_of_row place
    have wf := ((parse_written first).functions f (List.mem_of_getElem? found)).toWellFormed
    have before : p.tables.Extends (tables ⟨p.functions ++ q.functions⟩) := by
      rw [joined]
      exact ⟨List.prefix_append .., List.prefix_append .., List.prefix_append .., List.prefix_append ..⟩
    have holds := holds_tables found
    have same := holds.sameBodies 0 (by rw [Nat.zero_add]; exact holds.of_extends before) wf
    rwa [Nat.zero_add] at same
  · intro row mem
    obtain ⟨i, place⟩ := List.mem_iff_getElem?.1 mem
    obtain ⟨f, found, rfl⟩ := exists_function_of_row place
    have wf := ((parse_written second).functions f (List.mem_of_getElem? found)).toWellFormed
    have later : (p.functions ++ q.functions)[p.functions.length + i]? = some f := by
      rw [List.getElem?_append_right (Nat.le_add_right _ _), Nat.add_sub_cancel_left, found]
    have holds := @holds_tables ⟨p.functions ++ q.functions⟩ _ _ later
    rw [base_append, firstBlock_append] at holds
    have moved : (f.row (q.base i) (q.firstBlock i)).behind p.tables =
        f.row (p.tables.values.length + q.base i) (p.tables.blocks.length + q.firstBlock i) := by
      simp [FunctionRow.behind, FunctionOf.row, shiftRange, Nat.add_assoc]
    rw [moved]
    exact (holds_tables found).sameBodies _ holds wf

theorem parse_twoFunctions_keywords : ∃ a b, parseTables a = .ok twoFunctions.tables ∧
    parseTables b = .ok keywords.tables ∧
    (∀ f ∈ twoFunctions.tables.functions, ∀ g ∈ keywords.tables.functions, f.name ≠ g.name) ∧
    ∃ joined, parseTables (a ++ "\n" ++ b) = .ok joined ∧ joined = twoFunctions.tables.join keywords.tables ∧
      ∃ row ∈ keywords.tables.functions, row.name = "ret" ∧
        Tables.SameBodies 9 keywords.tables row joined (row.behind twoFunctions.tables) := by
  obtain ⟨a, first⟩ := parse_twoFunctions
  obtain ⟨b, second⟩ := parse_keywords
  have disjoint : ∀ f ∈ twoFunctions.tables.functions, ∀ g ∈ keywords.tables.functions, f.name ≠ g.name := by
    decide +kernel
  obtain ⟨joined, read, tables, -, later⟩ :=
    parse_append_independent (parseTables_eq_ok first) (parseTables_eq_ok second) disjoint
  have count : twoFunctions.tables.values.length = 9 := by decide +kernel
  have named : ∃ row ∈ keywords.tables.functions, row.name = "ret" := by decide +kernel
  obtain ⟨row, mem, name⟩ := named
  exact ⟨a, b, parseTables_eq_ok first, parseTables_eq_ok second, disjoint, joined, read, tables, row, mem, name,
    count ▸ later row mem⟩

/-- Not every range of operands is shifted: an argument keeps the empty range at the start. -/
theorem argument_operands_not_shifted : ¬ ∀ (a b : String) (p q joined : Program), parse a = .ok p → parse b = .ok q →
    (∀ f ∈ p.functions, ∀ g ∈ q.functions, f.name ≠ g.name) → parse (a ++ "\n" ++ b) = .ok joined →
    joined.tables.values.map (·.operands) = p.tables.values.map (·.operands) ++
      q.tables.values.map fun row => shiftRange p.tables.operands.length row.operands := by
  intro shifted
  have readFirst : parse "f(%u) \x7b\nb:\n  ret %u\n\x7d" =
      .ok ⟨[⟨"f", ["u"], [⟨"b", [], [⟨none, .ret (some 0)⟩]⟩]⟩]⟩ := by decide +kernel
  have readSecond : parse "g(%v) \x7b\nb:\n  ret %v\n\x7d" =
      .ok ⟨[⟨"g", ["v"], [⟨"b", [], [⟨none, .ret (some 0)⟩]⟩]⟩]⟩ := by decide +kernel
  have read := parse_append readFirst readSecond (by decide)
  exact absurd (shifted _ _ _ _ _ readFirst readSecond (by decide) read) (by decide +kernel)

end Reflow.Program
