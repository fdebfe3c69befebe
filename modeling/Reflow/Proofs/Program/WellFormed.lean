import Mathlib.Data.List.TakeWhile
import Mathlib.Tactic
import Reflow.Program.Parser

namespace Reflow

variable {V B V' B' : Type}

def Instr.numbers (instr : Instr V B) : List Int :=
  instr.immediates ++ instr.cases.filterMap fun
    | .value n => some n
    | .otherwise => none

section Map

variable (f : V → V') (g : B → B') (instr : Instr V B)

@[simp]
theorem Instr.op_map : (instr.map f g).op = instr.op := by
  cases instr <;> rfl

@[simp]
theorem Instr.symbol_map : (instr.map f g).symbol = instr.symbol := by
  cases instr <;> rfl

theorem Instr.reads_map : (instr.map f g).reads = instr.reads.map f := by
  cases instr with
  | ret result => cases result <;> rfl
  | multiif => simp [map, reads, Function.comp_def]
  | _ => rfl

theorem Instr.targets_map : (instr.map f g).targets = instr.targets.map g := by
  cases instr with
  | multiif _ _ _ otherwise =>
    cases otherwise <;> simp [map, targets, Function.comp_def]
  | switch => simp [map, targets, Function.comp_def]
  | _ => rfl

@[simp]
theorem Instr.numbers_map : (instr.map f g).numbers = instr.numbers := by
  cases instr with
  | switch => simp [map, numbers, cases, immediates, Function.comp_def]
  | _ => rfl

end Map

namespace Text

theorem continuesName_of_isBlank {c : Char} (blank : isBlank c = true) : continuesName c = false := by
  have finite : c.toNat ∈ [9, 10, 11, 12, 13, 0x20, 0x85, 0xA0, 0x1680, 0x2000, 0x2001, 0x2002, 0x2003,
      0x2004, 0x2005, 0x2006, 0x2007, 0x2008, 0x2009, 0x200A, 0x2028, 0x2029, 0x202F, 0x205F, 0x3000] := by
    simp only [isBlank, Bool.or_eq_true, Bool.and_eq_true, decide_eq_true_eq, beq_iff_eq] at blank
    simp only [List.mem_cons, List.not_mem_nil, or_false]
    omega
  have checked : ∀ n ∈ [9, 10, 11, 12, 13, 0x20, 0x85, 0xA0, 0x1680, 0x2000, 0x2001, 0x2002, 0x2003,
      0x2004, 0x2005, 0x2006, 0x2007, 0x2008, 0x2009, 0x200A, 0x2028, 0x2029, 0x202F, 0x205F, 0x3000],
      continuesName (Char.ofNat n) = false := by
    decide +kernel
  simpa using checked c.toNat finite

theorem isBlank_of_continuesName {c : Char} (letter : continuesName c = true) : isBlank c = false := by
  cases blank : isBlank c with
  | false => rfl
  | true => rw [continuesName_of_isBlank blank] at letter; exact letter.symm

end Text

theorem Instr.targets_eq_nil {instr : Instr V B} (straight : instr.op.isTerminator = false) : instr.targets = [] := by
  cases instr with
  | br | condbr | loop | multiif | switch | goto => simp [op, Op.isTerminator, Op.info] at straight
  | _ => rfl

namespace Program

def IsWord (s : String) : Prop :=
  ∃ c rest, s.toList = c :: rest ∧ Text.startsName c ∧ ∀ d ∈ s.toList, Text.continuesName d

theorem IsWord.ne_empty {s : String} (isWord : IsWord s) : s ≠ "" := by
  obtain ⟨c, rest, chars, -, -⟩ := isWord
  rintro rfl
  simp at chars

theorem IsWord.lineFeed_not_mem {s : String} (isWord : IsWord s) : '\n' ∉ s.toList := by
  obtain ⟨c, rest, -, -, letters⟩ := isWord
  intro mem
  exact absurd (letters _ mem) (by decide)

def IsSmall (n : Int) : Prop :=
  n.natAbs < 0x8000000000000000

end Program

/-- A label that is a word, a switch with an arm, or any other statement. -/
def Instr.IsWritten : Instr V B → Prop
  | label name => Program.IsWord name
  | switch _ arms => arms ≠ []
  | _ => True

theorem Instr.IsWritten.map {instr : Instr V B} (written : instr.IsWritten) (f : V → V') (g : B → B') :
    (instr.map f g).IsWritten := by
  cases instr with
  | label => exact written
  | switch => simpa [Instr.map, IsWritten] using written
  | _ => trivial

namespace Program

structure Statement.Shaped (stmt : Statement V B) : Prop where
  isDef : stmt.result.isSome → stmt.instr.op.isDef
  isSome : stmt.instr.op.isDef → stmt.instr.op ≠ .call → stmt.result.isSome
  result : ∀ name ∈ stmt.result, IsWord name
  callee : stmt.instr.op = .call → IsWord stmt.instr.symbol

structure Block.Shaped (block : Block V B) : Prop where
  phis : ∀ phi ∈ block.phis, IsWord phi.name
  stmts : ∀ stmt ∈ block.stmts, stmt.Shaped
  terminated : ∀ stmt ∈ block.stmts.dropLast, stmt.instr.op.isTerminator = false

structure Block.Labelled (block : Block V B) : Prop where
  written : ∀ stmt ∈ block.stmts, stmt.instr.IsWritten
  first : ∀ stmt ∈ block.stmts.tail, stmt.instr.op ≠ .label

structure Block.Written (block : Block V B) : Prop where
  name : IsWord block.name
  incoming : ∀ phi ∈ block.phis, phi.incoming ≠ []
  numbers : ∀ stmt ∈ block.stmts, ∀ n ∈ stmt.instr.numbers, IsSmall n

structure FunctionOf.Shaped (f : FunctionOf V B) : Prop where
  nonempty : f.blocks ≠ []
  args : ∀ name ∈ f.args, IsWord name
  blocks : ∀ block ∈ f.blocks, block.Shaped
  names : (f.values.filterMap (·.name?)).Nodup

structure FunctionOf.WellFormed (f : Function) : Prop extends f.Shaped where
  reads : ∀ value ∈ f.values, ∀ v ∈ value.reads, ∃ read name, f.values[v]? = some read ∧
    read.name? = some name
  targets : ∀ value ∈ f.values, ∀ b ∈ value.targets, b < f.blocks.length

/-- A function that can be written down: all references lead somewhere, and every name is a word that is given once. -/
structure FunctionOf.Written (f : Function) : Prop extends f.WellFormed where
  name : IsWord f.name
  labelled : ∀ block ∈ f.blocks, block.Labelled
  written : ∀ block ∈ f.blocks, block.Written
  blockNames : (f.blocks.map (·.name)).Nodup

structure Written (program : Program) : Prop where
  functions : ∀ f ∈ program.functions, f.Written
  names : (program.functions.map (·.name)).Nodup

theorem FunctionOf.Shaped.isWord_name {f : FunctionOf V B} (shaped : f.Shaped) {value : Value V B}
    (mem : value ∈ f.values) {name : String} (named : value.name? = some name) : IsWord name := by
  rcases List.mem_append.1 mem with inArgs | inBlocks
  · obtain ⟨arg, listed, rfl⟩ := List.mem_map.1 inArgs
    obtain rfl := Option.some.inj named
    exact shaped.args _ listed
  · obtain ⟨block, listed, inBlock⟩ := List.mem_flatMap.1 inBlocks
    rcases List.mem_append.1 inBlock with inPhis | inStmts
    · obtain ⟨phi, listedPhi, rfl⟩ := List.mem_map.1 inPhis
      obtain rfl := Option.some.inj named
      exact (shaped.blocks block listed).phis phi listedPhi
    · obtain ⟨stmt, listedStmt, rfl⟩ := List.mem_map.1 inStmts
      exact ((shaped.blocks block listed).stmts stmt listedStmt).result name named

/-! ## References by number -/

def Value.map (f : V → V') (g : B → B') : Value V B → Value V' B'
  | argument name => argument name
  | phi p => phi (p.map f g)
  | statement stmt => statement ⟨stmt.result, stmt.instr.map f g⟩

section Map

variable (f : V → V') (g : B → B')
  {block : Block V B}

theorem Statement.Shaped.map {stmt : Statement V B} (shaped : stmt.Shaped) :
    Statement.Shaped ⟨stmt.result, stmt.instr.map f g⟩ where
  isDef := by simpa using shaped.isDef
  isSome := by simpa using shaped.isSome
  result := shaped.result
  callee := by simpa using shaped.callee

theorem Block.Shaped.map (shaped : block.Shaped) : (block.map f g).Shaped where
  phis := by
    intro phi mem
    obtain ⟨phi, listed, rfl⟩ := List.mem_map.1 mem
    exact shaped.phis phi listed
  stmts := by
    intro stmt mem
    obtain ⟨stmt, listed, rfl⟩ := List.mem_map.1 mem
    exact (shaped.stmts stmt listed).map f g
  terminated := by
    intro stmt mem
    rw [Block.map, ← List.map_dropLast] at mem
    obtain ⟨stmt, listed, rfl⟩ := List.mem_map.1 mem
    simpa using shaped.terminated stmt listed

theorem Block.Labelled.map (labelled : block.Labelled) : (block.map f g).Labelled where
  written := by
    intro stmt mem
    obtain ⟨stmt, listed, rfl⟩ := List.mem_map.1 mem
    exact (labelled.written stmt listed).map f g
  first := by
    intro stmt mem
    rw [Block.map, ← List.map_tail] at mem
    obtain ⟨stmt, listed, rfl⟩ := List.mem_map.1 mem
    simpa using labelled.first stmt listed

theorem Block.Written.map (written : block.Written) : (block.map f g).Written where
  name := written.name
  incoming := by
    intro phi mem
    obtain ⟨phi, listed, rfl⟩ := List.mem_map.1 mem
    simpa [Phi.map] using written.incoming phi listed
  numbers := by
    intro stmt mem
    obtain ⟨stmt, listed, rfl⟩ := List.mem_map.1 mem
    simpa using written.numbers stmt listed

@[simp]
theorem Value.name?_map (value : Value V B) : (value.map f g).name? = value.name? := by
  cases value <;> rfl

theorem Value.reads_map (value : Value V B) : (value.map f g).reads = value.reads.map f := by
  cases value with
  | argument => rfl
  | phi p => simp [map, reads, Phi.map, Function.comp_def]
  | statement stmt => exact stmt.instr.reads_map f g

theorem Value.targets_map (value : Value V B) : (value.map f g).targets = value.targets.map g := by
  cases value with
  | argument => rfl
  | phi p => simp [map, targets, Phi.map, Function.comp_def]
  | statement stmt => exact stmt.instr.targets_map f g

theorem Block.values_map (block : Block V B) : (block.map f g).values = block.values.map (·.map f g) := by
  simp [values, map, Function.comp_def, Value.map]

theorem FunctionOf.values_map (name : String) (args : List String) (blocks : List (Block V B)) :
    (FunctionOf.mk name args (blocks.map (·.map f g))).values =
      (FunctionOf.mk name args blocks).values.map (·.map f g) := by
  simp [values, List.flatMap_map, List.map_flatMap, Block.values_map, Function.comp_def, Value.map]

end Map

variable {source : FunctionOf String String}

theorem resolve_eq_ok {f : Function} (resolved : resolve source = .ok f) :
    f = ⟨source.name, source.args, source.blocks.map
      (·.map (fun name => (source.values.map (·.name?)).idxOf (some name)) (source.blocks.map (·.name)).idxOf)⟩ ∧
    (∀ value ∈ source.values, ∀ name ∈ value.reads, some name ∈ source.values.map (·.name?)) ∧
    ∀ value ∈ source.values, ∀ name ∈ value.targets, name ∈ source.blocks.map (·.name) := by
  simp only [resolve] at resolved
  split at resolved
  · simp at resolved
  · rename_i reads
    split at resolved
    · simp at resolved
    · rename_i targets
      refine ⟨(Except.ok.inj resolved).symm, fun value listed name named => ?_, fun value listed name named => ?_⟩
      · simpa using List.find?_eq_none.1 reads name (List.mem_flatMap.2 ⟨value, listed, named⟩)
      · simpa using List.find?_eq_none.1 targets name (List.mem_flatMap.2 ⟨value, listed, named⟩)

theorem resolve_wellFormed {f : Function} (shaped : source.Shaped)
    (resolved : resolve source = .ok f) : f.WellFormed := by
  obtain ⟨rfl, reads, targets⟩ := resolve_eq_ok resolved
  have values := FunctionOf.values_map (fun name => (source.values.map (·.name?)).idxOf (some name))
    (source.blocks.map (·.name)).idxOf source.name source.args source.blocks
  refine ⟨⟨by simpa using shaped.nonempty, shaped.args, ?_, ?_⟩, ?_, ?_⟩
  · intro block mem
    obtain ⟨block, listed, rfl⟩ := List.mem_map.1 mem
    exact (shaped.blocks block listed).map _ _
  · rw [values]
    simpa [List.filterMap_map, Function.comp_def] using shaped.names
  · intro value mem v read
    rw [values] at mem
    obtain ⟨value, listed, rfl⟩ := List.mem_map.1 mem
    rw [Value.reads_map] at read
    obtain ⟨name, named, rfl⟩ := List.mem_map.1 read
    have found := List.getElem?_idxOf (reads value listed name named)
    rw [List.getElem?_map, Option.map_eq_some_iff] at found
    obtain ⟨defined, found, same⟩ := found
    rw [values, List.getElem?_map, found]
    exact ⟨_, name, rfl, by simpa using same⟩
  · intro value mem b target
    rw [values] at mem
    obtain ⟨value, listed, rfl⟩ := List.mem_map.1 mem
    rw [Value.targets_map] at target
    obtain ⟨name, named, rfl⟩ := List.mem_map.1 target
    simpa using List.idxOf_lt_length_of_mem (targets value listed name named)

/-! ## Reading -/

def Reader.Gives {α : Type} (reader : Reader α) (property : α → Prop) : Prop :=
  ∀ cs a rest, reader.run cs = .ok (a, rest) → property a

namespace Reader.Gives

variable {α β : Type} {property : α → Prop}
  {reader : Reader β} {next : β → Reader α}

theorem trivial (reader : Reader α) : reader.Gives fun _ => True :=
  fun _ _ _ _ => True.intro

theorem pure {a : α} (holds : property a) : Gives (Pure.pure a) property := by
  rintro cs a rest read
  cases read
  exact holds

theorem fail (cause : ParseError) : (Program.fail cause : Reader α).Gives property := by
  rintro cs a rest read
  cases read

theorem bind {first : β → Prop} (gives : reader.Gives first)
    (rest : ∀ b, first b → (next b).Gives property) : (reader >>= next).Gives property := by
  intro cs a left read
  rw [Reader.run_bind] at read
  cases head : reader.run cs with
  | error =>
    rw [head] at read
    exact nomatch read
  | ok result =>
    rw [head] at read
    exact rest result.1 (gives cs _ _ head) _ a left read

theorem after (rest : ∀ b, (next b).Gives property) :
    (reader >>= next).Gives property :=
  (trivial reader).bind fun b _ => rest b

theorem bounded {loop : Nat → Reader α} (gives : ∀ fuel, (loop fuel).Gives property) :
    (Program.bounded loop).Gives property :=
  after fun _ => gives _

end Reader.Gives

open Reader

variable {defined : List String}

theorem startsName_continues (c : Char) (starts : Text.startsName c) : Text.continuesName c := by
  simp only [Text.startsName, Text.isAlphabetic, Bool.or_eq_true] at starts
  simp only [Text.continuesName, Text.isAlphanumeric, Bool.or_eq_true]
  rcases starts with starts | starts
  · left
    split at starts
    · rename_i ascii
      simp [ascii, Char.isAlphanum, starts]
    · rename_i ascii
      simp [ascii, starts]
  · exact .inr starts

theorem readName_gives : readName.Gives IsWord := by
  refine .after fun cs => ?_
  split
  · rename_i name rest scanned
    refine .after fun _ => .pure ?_
    rw [scanName] at scanned
    split at scanned
    · simp at scanned
    · rename_i c left skipped
      split at scanned
      · rename_i starts
        obtain ⟨rfl, -⟩ := Prod.mk.inj (Option.some.inj scanned)
        have continues := startsName_continues c starts
        refine ⟨c, left.takeWhile Text.continuesName, ?_, starts, ?_⟩
        · simp [continues]
        · intro d mem
          rw [String.toList_ofList] at mem
          exact List.mem_takeWhile_imp mem
      · simp at scanned
  · exact .after fun _ => .after fun _ => .after fun _ => .fail _

theorem readValueName_gives : readValueName.Gives IsWord :=
  .after fun _ => readName_gives

/-! ## Numbers -/

theorem readDigits_gives (base : Nat) (isDigit : Char → Bool) (tooLarge : String → ParseError) :
    (readDigits base isDigit tooLarge).Gives (· < 0x8000000000000000) := by
  refine .after fun cs => ?_
  dsimp only
  split
  · exact .fail _
  · refine .after fun _ => ?_
    split
    · rename_i small
      exact .pure small
    · exact .fail _

theorem readMagnitude_gives : readMagnitude.Gives (· < 0x8000000000000000) := by
  refine .after fun cs => ?_
  split
  · exact .after fun _ => readDigits_gives _ _ _
  · exact readDigits_gives _ _ _

theorem readNumber_gives : readNumber.Gives IsSmall := by
  refine .after fun cs => ?_
  split
  · exact .after fun _ => readMagnitude_gives.bind fun n small => .pure (by simpa [IsSmall] using small)
  · exact .after fun _ => readMagnitude_gives.bind fun n small => .pure (by simpa [IsSmall] using small)

theorem readCase_gives : readCase.Gives fun case => ∀ n, case = .value n → IsSmall n := by
  refine .after fun cs => .after fun _ => ?_
  split
  · refine .after fun name => ?_
    split
    · exact .pure (by simp)
    · exact .fail _
  · exact readNumber_gives.bind fun n small => .pure (by simpa using small)

theorem readCases_gives (fuel : Nat) :
    (readCases fuel).Gives fun arms => ∀ arm ∈ arms, ∀ n, arm.1 = .value n → IsSmall n := by
  induction fuel with
  | zero => exact .pure (by simp)
  | succ fuel ih =>
    refine .after fun more => ?_
    split
    · refine .after fun _ => readCase_gives.bind fun case small => ?_
      refine .after fun _ => .after fun target => .after fun _ => ?_
      exact ih.bind fun arms rest => .pure (List.forall_mem_cons.2 ⟨small, rest⟩)
    · exact .pure (by simp)

/-! ## Statements -/

structure ReadAs (instr : NamedInstr) (op : Op) : Prop where
  op_eq : instr.op = op
  callee : op = .call → IsWord instr.symbol
  written : instr.IsWritten
  numbers : ∀ n ∈ instr.numbers, IsSmall n

theorem ReadAs.of_op {instr : NamedInstr}
    (other : instr.op ∉ [Op.call, .label, .const, .init, .switch]) : ReadAs instr instr.op := by
  cases instr with
  | call | label | const | init | switch => simp [Instr.op] at other
  | _ => exact ⟨rfl, by simp [Instr.op], trivial, by simp [Instr.numbers, Instr.immediates, Instr.cases]⟩

theorem readInstr_gives (op : Op) : (readInstr op).Gives (ReadAs · op) := by
  cases op with
  | any => exact .after fun _ => .pure (.of_op (by simp [Instr.op]))
  | const =>
    refine readNumber_gives.bind fun n small => .pure ⟨rfl, by simp, trivial, ?_⟩
    simpa [Instr.numbers, Instr.immediates, Instr.cases] using small
  | binary op => exact .after fun _ => .after fun _ => .after fun _ => .pure (.of_op (by simp [Instr.op]))
  | copy => exact .after fun _ => .pure (.of_op (by simp [Instr.op]))
  | call =>
    refine .after fun cs => ?_
    split
    · refine .after fun _ => readName_gives.bind fun callee word => .after fun _ => .pure ?_
      exact ⟨rfl, fun _ => word, trivial, by simp [Instr.numbers, Instr.immediates, Instr.cases]⟩
    · exact .after fun _ => .fail _
  | init =>
    refine .after fun var => .after fun _ => readNumber_gives.bind fun n small => .pure ⟨rfl, by simp, trivial, ?_⟩
    simpa [Instr.numbers, Instr.immediates, Instr.cases] using small
  | vuse => exact .after fun _ => .pure (.of_op (by simp [Instr.op]))
  | label =>
    refine readName_gives.bind fun name word => .pure ⟨rfl, by simp, word, ?_⟩
    simp [Instr.numbers, Instr.immediates, Instr.cases]
  | asm => exact .pure (.of_op (by simp [Instr.op]))
  | ret =>
    refine .after fun cs => .after fun _ => ?_
    split
    · exact .pure (.of_op (by simp [Instr.op]))
    · exact .after fun _ => .pure (.of_op (by simp [Instr.op]))
  | br => exact .after fun _ => .pure (.of_op (by simp [Instr.op]))
  | condbr | loop =>
    refine .after fun _ => .after fun _ => .after fun _ => .after fun _ => .after fun _ => .pure ?_
    exact .of_op (by simp [Instr.op])
  | multiif =>
    refine .after fun arm => ?_
    split
    · exact .after fun _ => .pure (.of_op (by simp [Instr.op]))
    · exact .fail _
  | switch =>
    refine .after fun selector => (Gives.bounded readCases_gives).bind fun arms small => ?_
    split
    · exact .fail _
    · rename_i some
      refine .pure ⟨rfl, by simp, by simpa [Instr.IsWritten] using some, fun n mem => ?_⟩
      simp only [Instr.numbers, Instr.immediates, Instr.cases, List.nil_append] at mem
      obtain ⟨case, listed, value⟩ := List.mem_filterMap.1 mem
      obtain ⟨arm, inArms, rfl⟩ := List.mem_map.1 listed
      refine small arm inArms n ?_
      cases label : arm.1 with
      | value m => simpa [label] using value
      | otherwise => simp [label] at value
  | goto => exact .after fun _ => .pure (.of_op (by simp [Instr.op]))
  | argument => exact .fail _
  | phi => exact .fail _
  | vphi => exact .fail _

theorem define_gives (nodup : defined.Nodup) (name : String) :
    (define defined name).Gives fun all => all = defined ++ [name] ∧ all.Nodup := by
  rw [define]
  split
  · exact .fail _
  · rename_i new
    exact .pure ⟨rfl, List.Nodup.append nodup (List.nodup_singleton name) (by simpa using new)⟩

structure Statement.Legal (stmt : Statement String String) : Prop extends stmt.Shaped where
  written : stmt.instr.IsWritten
  numbers : ∀ n ∈ stmt.instr.numbers, IsSmall n

theorem readStatement_gives (nodup : defined.Nodup) :
    (readStatement defined).Gives fun (stmt, all) => stmt.Legal ∧ all = defined ++ stmt.result.toList ∧ all.Nodup := by
  refine .after fun cs => .after fun _ => ?_
  split
  · refine readValueName_gives.bind fun name word => .after fun _ => .after fun op => ?_
    split
    · exact .fail _
    · rename_i isDef
      refine (define_gives nodup name).bind fun all extended => ?_
      refine (readInstr_gives op).bind fun instr read => .pure ⟨?_, extended⟩
      obtain ⟨rfl, callee, written, numbers⟩ := read
      exact ⟨⟨fun _ => by simpa using isDef, fun _ _ => rfl, by simpa using word, callee⟩, written, numbers⟩
  · refine .after fun op => ?_
    split
    · exact .fail _
    · rename_i noResult
      refine (readInstr_gives op).bind fun instr read => .pure ⟨?_, by simp, nodup⟩
      obtain ⟨rfl, callee, written, numbers⟩ := read
      refine ⟨⟨by simp, fun isDef notCall => ?_, by simp, callee⟩, written, numbers⟩
      simp [isDef, notCall] at noResult

theorem readIncoming_gives (fuel : Nat) : (readIncoming (fuel + 1)).Gives (· ≠ []) := by
  refine .after fun _ => .after fun block => .after fun _ => .after fun value => .after fun _ => .after fun more => ?_
  split
  · exact .after fun rest => .pure (by simp)
  · exact .pure (by simp)

theorem readPhi_gives (nodup : defined.Nodup) (isVirtual : Bool) :
    (readPhi isVirtual defined).Gives fun (phi, all) =>
      IsWord phi.name ∧ phi.incoming ≠ [] ∧ all = defined ++ [phi.name] ∧ all.Nodup := by
  refine readValueName_gives.bind fun name word => .after fun _ => .after fun _ => ?_
  have incoming : (bounded readIncoming).Gives (· ≠ []) := .after fun cs => readIncoming_gives _
  refine (define_gives nodup name).bind fun all extended => ?_
  exact incoming.bind fun incoming some => .pure ⟨word, some, extended⟩

/-! ## Blocks -/

structure Block.ReadAfter (before : List String) (block : NamedBlock) (defined : List String) : Prop where
  shaped : block.Shaped
  labelled : block.Labelled
  written : block.Written
  named : defined = before ++ block.values.filterMap (·.name?)
  nodup : defined.Nodup

namespace Block.ReadAfter

variable {before defined : List String} {block : NamedBlock}

theorem begin {name : String} (word : IsWord name) (nodup : defined.Nodup) : ReadAfter defined ⟨name, [], []⟩ defined :=
  ⟨⟨by simp, by simp, by simp⟩, ⟨by simp, by simp⟩, ⟨word, by simp, by simp⟩, by simp [values], nodup⟩

theorem addPhi {phi : Phi String String} (read : ReadAfter before block defined) (noStmts : block.stmts = [])
    (word : IsWord phi.name) (some : phi.incoming ≠ []) (nodup : (defined ++ [phi.name]).Nodup) :
    ReadAfter before { block with phis := block.phis ++ [phi] } (defined ++ [phi.name]) where
  shaped := by
    refine ⟨List.forall_mem_append.2 ⟨read.shaped.phis, ?_⟩, read.shaped.stmts, read.shaped.terminated⟩
    simpa using word
  labelled := ⟨read.labelled.written, read.labelled.first⟩
  written := by
    refine ⟨read.written.name, List.forall_mem_append.2 ⟨read.written.incoming, ?_⟩, read.written.numbers⟩
    simpa using some
  named := by
    rw [read.named]
    simp [values, noStmts, Value.name?]
  nodup := nodup

theorem addStmt {stmt : Statement String String} (read : ReadAfter before block defined) (legal : stmt.Legal)
    (going : isTerminated block.stmts = false) (inTime : block.stmts = [] ∨ stmt.instr.op ≠ .label)
    (nodup : (defined ++ stmt.result.toList).Nodup) :
    ReadAfter before { block with stmts := block.stmts ++ [stmt] } (defined ++ stmt.result.toList) where
  shaped := by
    refine ⟨read.shaped.phis, List.forall_mem_append.2 ⟨read.shaped.stmts, ?_⟩, fun other mem => ?_⟩
    · simpa using legal.toShaped
    · rw [List.dropLast_concat] at mem
      rcases List.eq_nil_or_concat block.stmts with none | ⟨init, last, split⟩
      · simp [none] at mem
      · rw [List.concat_eq_append] at split
        rw [split, List.mem_append] at mem
        rcases mem with mem | mem
        · refine read.shaped.terminated other ?_
          rwa [split, List.dropLast_concat]
        · obtain rfl : other = last := by simpa using mem
          simpa [isTerminated, split] using going
  labelled := by
    refine ⟨List.forall_mem_append.2 ⟨read.labelled.written, by simpa using legal.written⟩, ?_⟩
    have first := read.labelled.first
    cases stmts : block.stmts with
    | nil => simp
    | cons =>
      rw [stmts] at first
      exact List.forall_mem_append.2 ⟨first, by simpa [stmts] using inTime⟩
  written := by
    refine ⟨read.written.name, read.written.incoming, List.forall_mem_append.2 ⟨read.written.numbers, ?_⟩⟩
    simpa using legal.numbers
  named := by
    rw [read.named]
    cases result : stmt.result <;> simp [values, Value.name?, result]
  nodup := nodup

end Block.ReadAfter

variable {functions : List Function}

theorem readBlockItems_gives (fuel : Nat) {before defined : List String} {block : NamedBlock}
    (known : block.ReadAfter before defined) :
    (readBlockItems fuel block defined).Gives fun read =>
      read.1.ReadAfter before read.2 ∧ read.1.name = block.name := by
  induction fuel generalizing block defined with
  | zero => exact .pure ⟨known, rfl⟩
  | succ fuel ih =>
    refine .after fun cs => .after fun _ => ?_
    split
    · exact .pure ⟨known, rfl⟩
    · split
      · exact .fail _
      · rename_i going
        split
        · split
          · exact .fail _
          · rename_i noStmts
            refine (readPhi_gives known.nodup _).bind fun ⟨phi, all⟩ read => ?_
            obtain ⟨word, some, rfl, nodup⟩ := read
            exact ih (known.addPhi (by simpa using noStmts) word some nodup)
        · refine (readStatement_gives known.nodup).bind fun ⟨stmt, all⟩ read => ?_
          obtain ⟨legal, rfl, nodup⟩ := read
          dsimp only
          split
          · exact .fail _
          · rename_i inTime
            refine ih (known.addStmt legal (by simpa using going) ?_ nodup)
            rw [Bool.and_eq_true, not_and_or] at inTime
            simpa [or_comm] using inTime

theorem readBlock_gives (blocks : List NamedBlock) {defined : List String} (nodup : defined.Nodup) :
    (readBlock blocks defined).Gives fun read =>
      read.1.ReadAfter defined read.2 ∧ read.1.name ∉ blocks.map (·.name) := by
  refine readName_gives.bind fun name word => .after fun _ => ?_
  split
  · exact .fail _
  · rename_i new
    refine .bounded fun fuel cs read rest ran => ?_
    obtain ⟨known, same⟩ := readBlockItems_gives fuel (.begin word nodup) cs read rest ran
    exact ⟨known, by simpa [same] using new⟩

structure BlocksRead (args : List String) (blocks : List NamedBlock) (defined : List String) : Prop where
  shaped : ∀ block ∈ blocks, block.Shaped
  labelled : ∀ block ∈ blocks, block.Labelled
  written : ∀ block ∈ blocks, block.Written
  names : (blocks.map (·.name)).Nodup
  named : defined = args ++ (blocks.flatMap (·.values)).filterMap (·.name?)
  nodup : defined.Nodup

theorem readBlocks_gives (function : String) (fuel : Nat) {args defined : List String} {blocks : List NamedBlock}
    (known : BlocksRead args blocks defined) :
    (readBlocks function fuel blocks defined).Gives fun blocks => ∃ defined, BlocksRead args blocks defined := by
  induction fuel generalizing blocks defined with
  | zero => exact .pure ⟨defined, known⟩
  | succ fuel ih =>
    refine .after fun closed => ?_
    split
    · exact .pure ⟨defined, known⟩
    · refine .after fun cs => ?_
      split
      · exact .fail _
      · refine (readBlock_gives blocks known.nodup).bind fun ⟨block, all⟩ ⟨read, new⟩ => ih ?_
        refine ⟨?_, ?_, ?_, ?_, read.named.trans (by simp [known.named]), read.nodup⟩
        · exact List.forall_mem_append.2 ⟨known.shaped, by simpa using read.shaped⟩
        · exact List.forall_mem_append.2 ⟨known.labelled, by simpa using read.labelled⟩
        · exact List.forall_mem_append.2 ⟨known.written, by simpa using read.written⟩
        · rw [List.map_append]
          exact List.Nodup.append known.names (List.nodup_singleton _) (by simpa using new)

/-! ## Functions -/

theorem readArgs_gives (fuel : Nat) {args : List String} (nodup : args.Nodup) (words : ∀ name ∈ args, IsWord name) :
    (readArgs fuel args).Gives fun args => args.Nodup ∧ ∀ name ∈ args, IsWord name := by
  induction fuel generalizing args with
  | zero => exact .pure ⟨nodup, words⟩
  | succ fuel ih =>
    refine .after fun closed => ?_
    split
    · exact .pure ⟨nodup, words⟩
    · refine readValueName_gives.bind fun name word => ?_
      refine (define_gives nodup name).bind fun all extended => ?_
      obtain ⟨rfl, nodup⟩ := extended
      have words : ∀ other ∈ args ++ [name], IsWord other := List.forall_mem_append.2 ⟨words, by simpa using word⟩
      refine .after fun more => ?_
      split
      · exact ih nodup words
      · refine .after fun cs => ?_
        split
        · exact ih nodup words
        · exact .fail _

theorem readFunction_gives (functions : List Function) :
    (readFunction functions).Gives fun f => f.Written ∧ f.name ∉ functions.map (·.name) := by
  refine readName_gives.bind fun name word => ?_
  split
  · exact .fail _
  · rename_i new
    refine .after fun _ => ?_
    refine (Gives.bounded fun fuel => readArgs_gives fuel (by simp) (by simp)).bind fun args read => ?_
    obtain ⟨nodup, words⟩ := read
    refine .after fun _ => ?_
    refine (Gives.bounded fun fuel => readBlocks_gives name fuel
      ⟨by simp, by simp, by simp, by simp, (List.append_nil args).symm, nodup⟩).bind fun blocks read => ?_
    obtain ⟨defined, read⟩ := read
    split
    · exact .fail _
    · rename_i nonempty
      split
      · rename_i f resolved
        have shaped : FunctionOf.Shaped ⟨name, args, blocks⟩ := by
          refine ⟨by simpa using nonempty, words, read.shaped, ?_⟩
          have nodup := read.named ▸ read.nodup
          simpa [FunctionOf.values, List.filterMap_map, Function.comp_def, Value.name?] using nodup
        have wf := resolve_wellFormed shaped resolved
        obtain ⟨rfl, -⟩ := resolve_eq_ok resolved
        refine .pure ⟨⟨wf, word, ?_, ?_, ?_⟩, by simpa using new⟩
        · exact List.forall_mem_map.2 fun block listed => (read.labelled block listed).map _ _
        · exact List.forall_mem_map.2 fun block listed => (read.written block listed).map _ _
        · simpa [Block.map, Function.comp_def] using read.names
      · exact .fail _

theorem readFunctions_gives (fuel : Nat) (known : Written ⟨functions⟩) :
    (readFunctions fuel functions).Gives fun functions => Written ⟨functions⟩ := by
  induction fuel generalizing functions with
  | zero => exact .pure known
  | succ fuel ih =>
    refine .after fun cs => .after fun _ => ?_
    split
    · exact .pure known
    · refine (readFunction_gives functions).bind fun f new => ih ⟨?_, ?_⟩
      · exact List.forall_mem_append.2 ⟨known.functions, by simpa using new.1⟩
      · rw [List.map_append]
        exact List.Nodup.append known.names (List.nodup_singleton _) (by simpa using new.2)

theorem parse_written {text : String} {program : Program} (parsed : parse text = .ok program) : program.Written := by
  rw [parse] at parsed
  split at parsed
  · rename_i functions rest result
    obtain rfl := Except.ok.inj parsed
    exact Gives.bounded (fun fuel => readFunctions_gives fuel ⟨by simp, by simp⟩) _ _ _ result
  · simp at parsed

def FunctionOf.IsRead (f : Function) : Prop :=
  ∃ text program, parse text = .ok program ∧ f ∈ program.functions

/-- Reading a program from the pieces of its text. A literal is decoded from its start for each character, so short
pieces are decided faster than the whole. -/
theorem parse_join (pieces : List String)
    (parsed : ((bounded fun fuel => readFunctions fuel []).run (pieces.flatMap String.toList)).toOption.map Prod.fst =
      some functions) : parse (String.join pieces) = .ok ⟨functions⟩ := by
  rw [parse, String.toList_join]
  cases ran : (bounded fun fuel => readFunctions fuel []).run (pieces.flatMap String.toList) with
  | ok => simp_all [Except.toOption]
  | error => simp [ran, Except.toOption] at parsed

theorem FunctionOf.IsRead.of_pieces {f : Function} (pieces : List String)
    (parsed : ((bounded fun fuel => readFunctions fuel []).run (pieces.flatMap String.toList)).toOption.map Prod.fst =
      some [f]) : f.IsRead :=
  ⟨String.join pieces, ⟨[f]⟩, parse_join pieces parsed, List.mem_singleton.2 rfl⟩

theorem FunctionOf.IsRead.written {f : Function} (read : f.IsRead) : f.Written := by
  obtain ⟨text, program, parsed, mem⟩ := read
  exact (parse_written parsed).functions f mem

theorem FunctionOf.IsRead.wellFormed {f : Function} (read : f.IsRead) : f.WellFormed :=
  read.written.toWellFormed

theorem FunctionOf.IsRead.labelled {f : Function} (read : f.IsRead) : ∀ block ∈ f.blocks, block.Labelled :=
  read.written.labelled

end Program

end Reflow
