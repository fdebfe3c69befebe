import Reflow.Proofs.Code.Words
import Reflow.Proofs.Program.View

namespace Reflow

variable {V B : Type}

def Instr.isStraight : Instr V B → Bool
  | any _ | const _ | binary .. | copy _ | call .. | vuse _ => true
  | _ => false

def Instr.isInner : Instr V B → Bool
  | init .. => true
  | instr => instr.isStraight

theorem Instr.isInner_of_isStraight {instr : Instr V B} (straight : instr.isStraight) : instr.isInner := by
  cases instr with
  | init => rfl
  | _ => exact straight

namespace Program.FunctionOf

variable (f : Function)

def statementText (stmt : Statement Nat Nat) : String :=
  match renderInstr ⟨f.valueName, fun _ => .ok ""⟩ (stmt.result.getD "") stmt.instr with
  | .ok text => text
  | .error _ => ""

def followArms (next : BlockId → Resume) (otherwise : Resume) : List (Var × BlockId) → Resume
  | [] => otherwise
  | (cond, target) :: arms =>
    .test (f.valueName cond) (next target) (followArms next otherwise arms)

def followStatements (next : BlockId → Resume) : List (Statement Nat Nat) → Resume
  | [] => .stop .fellOff
  | stmt :: rest =>
    match stmt.instr with
    | .vuse _ | .label _ => followStatements next rest
    | .br target | .goto target => next target
    | .condbr cond thenBlock elseBlock => .test (f.valueName cond) (next thenBlock) (next elseBlock)
    | .loop cond body exit => .test (f.valueName cond) (next body) (next exit)
    | .multiif cond target arms otherwise =>
      f.followArms next (otherwise.elim (.stop .fellOff) next) ((cond, target) :: arms)
    | .switch .. => .stop .lost
    | .ret _ => .after (.ran (f.statementText stmt)) (.stop .returned)
    | _ => .after (.ran (f.statementText stmt)) (followStatements next rest)

def follow : Nat → BlockId → Resume
  | 0, _ => .stop .cutOff
  | n + 1, b =>
    (f.blocks[b]?).elim (.stop .lost) fun block => f.followStatements (follow n) block.stmts

variable {f}
  {next next' : BlockId → Resume}

theorem test_goesOnAs {cond : String} {yes no yes' no' : Resume} (outcomes : Stream' Bool)
    (first : ∀ outcomes, (yes outcomes).GoesOnAs (yes' outcomes))
    (second : ∀ outcomes, (no outcomes).GoesOnAs (no' outcomes)) :
    (Resume.test cond yes no outcomes).GoesOnAs (Resume.test cond yes' no' outcomes) := by
  unfold Resume.test
  apply Run.GoesOnAs.after
  cases outcomes.head with
  | true => exact first outcomes.tail
  | false => exact second outcomes.tail

theorem followArms_goesOnAs {otherwise otherwise' : Resume}
    (goesOn : ∀ b outcomes, (next b outcomes).GoesOnAs (next' b outcomes))
    (rest : ∀ outcomes, (otherwise outcomes).GoesOnAs (otherwise' outcomes))
    (arms : List (Var × BlockId)) (outcomes : Stream' Bool) :
    (f.followArms next otherwise arms outcomes).GoesOnAs (f.followArms next' otherwise' arms outcomes) := by
  induction arms generalizing outcomes with
  | nil => exact rest outcomes
  | cons arm arms ih => exact test_goesOnAs outcomes (goesOn arm.2) ih

theorem followStatements_goesOnAs
    (goesOn : ∀ b outcomes, (next b outcomes).GoesOnAs (next' b outcomes))
    (stmts : List (Statement Nat Nat)) (outcomes : Stream' Bool) :
    (f.followStatements next stmts outcomes).GoesOnAs (f.followStatements next' stmts outcomes) := by
  induction stmts generalizing outcomes with
  | nil => exact .refl _
  | cons stmt rest ih =>
    unfold followStatements
    cases stmt.instr with
    | vuse => exact ih outcomes
    | label => exact ih outcomes
    | br target => exact goesOn target outcomes
    | goto target => exact goesOn target outcomes
    | condbr cond thenBlock elseBlock =>
      exact test_goesOnAs outcomes (goesOn thenBlock) (goesOn elseBlock)
    | loop cond body exit => exact test_goesOnAs outcomes (goesOn body) (goesOn exit)
    | multiif _ _ _ otherwise =>
      apply followArms_goesOnAs goesOn
      cases otherwise with
      | none => exact fun _ => .refl _
      | some b => exact goesOn b
    | switch => exact .refl _
    | ret => exact .refl _
    | _ => exact (ih outcomes).after _

theorem follow_goesOnAs {n m : Nat} (le : n ≤ m) (b : BlockId) (outcomes : Stream' Bool) :
    (f.follow n b outcomes).GoesOnAs (f.follow m b outcomes) := by
  induction n generalizing m b outcomes with
  | zero => exact ⟨List.nil_prefix, fun ended => absurd rfl ended⟩
  | succ n ih =>
    obtain ⟨m, rfl⟩ : ∃ k, m = k + 1 := ⟨m - 1, by omega⟩
    unfold follow
    cases f.blocks[b]? with
    | none => exact .refl _
    | some block =>
      exact followStatements_goesOnAs (fun b outcomes => ih (by omega) b outcomes) block.stmts outcomes

def codes (f : Function) (stmts : List (Statement Nat Nat)) : List Code :=
  (stmts.filter fun stmt => stmt.instr.op != .vuse).map fun stmt => .plain (f.statementText stmt)

def texts (f : Function) (stmts : List (Statement Nat Nat)) : List String :=
  (stmts.filter fun stmt => stmt.instr.op != .vuse).map f.statementText

theorem codes_eq (f : Function) (stmts : List (Statement Nat Nat)) : f.codes stmts = (f.texts stmts).map .plain := by
  simp [codes, texts]

theorem followStatements_append {body : List (Statement Nat Nat)} (inner : ∀ stmt ∈ body, stmt.instr.isInner)
    (next : BlockId → Resume) (rest : List (Statement Nat Nat)) (limit : Nat) (jump : String → Resume) :
    f.followStatements next (body ++ rest) =
      (Code.sequence (f.codes body)).run limit jump (f.followStatements next rest) := by
  induction body with
  | nil => rfl
  | cons stmt body ih =>
    have tail := ih fun stmt mem => inner stmt (.tail _ mem)
    have here := inner stmt (.head _)
    rw [List.cons_append, followStatements]
    cases instr : stmt.instr with
    | vuse => simp [codes, instr, Instr.op, tail]
    | any | const | binary | copy | call | init => simp [codes, instr, Instr.op, tail, Code.run]
    | _ => simp [instr, Instr.isInner, Instr.isStraight] at here

theorem run_codes_congr {stmts : List (Statement Nat Nat)} {limit : Nat} {jump : String → Resume}
    {next next' : Resume} {outcomes : Stream' Bool} (same : next outcomes = next' outcomes) :
    (Code.sequence (f.codes stmts)).run limit jump next outcomes =
      (Code.sequence (f.codes stmts)).run limit jump next' outcomes := by
  rw [codes]
  induction stmts.filter fun stmt => stmt.instr.op != .vuse with
  | nil => exact same
  | cons _ _ ih =>
    simp only [List.map_cons, Code.sequence_cons, Code.run, Resume.after]
    rw [ih]

theorem labels_codes (f : Function) (stmts : List (Statement Nat Nat)) :
    (Code.sequence (f.codes stmts)).labels = [] := by
  rw [Code.labels_sequence, List.flatMap_eq_nil_iff]
  intro code mem
  obtain ⟨stmt, -, rfl⟩ := List.mem_map.1 mem
  rfl

theorem mem_intercalate {separator : String} {names : List String} {c : Char}
    (mem : c ∈ (separator.intercalate names).toList) : c ∈ separator.toList ∨ ∃ name ∈ names, c ∈ name.toList := by
  induction names with
  | nil => simp at mem
  | cons name names ih =>
    cases names with
    | nil => exact .inr ⟨name, by simp, by simpa using mem⟩
    | cons =>
      rw [String.intercalate_cons_cons] at mem
      simp only [String.toList_append, List.mem_append] at mem
      rcases mem with (here | inside) | later
      · exact .inr ⟨name, by simp, here⟩
      · exact .inl inside
      · rcases ih later with inside | ⟨other, listed, inside⟩
        · exact .inl inside
        · exact .inr ⟨other, .tail _ listed, inside⟩

theorem lineFeed_not_mem_toString (n : Int) : '\n' ∉ (toString n).toList := by
  intro mem
  have digit (n : Nat) : '\n' ∉ Nat.toDigits 10 n := by
    intro mem
    exact absurd (Nat.isDigit_of_mem_toDigits (by decide) (by decide) mem) (by decide)
  rw [Int.toString_eq_repr] at mem
  cases n with
  | ofNat n => exact digit n (by simpa [Int.repr] using mem)
  | negSucc n => exact digit (n + 1) (by simpa [Int.repr] using mem)

theorem WellFormed.isWord_valueName (wf : f.WellFormed) {value : Value Nat Nat} {v : Var}
    (mem : value ∈ f.values) (read : v ∈ value.reads) : IsWord (f.valueName v) := by
  obtain ⟨source, name, found, named⟩ := wf.reads value mem v read
  have same : f.valueName v = name := IsNamed.valueName_eq ⟨source, found, named⟩
  rw [same]
  have listed : source ∈ f.values := List.mem_of_getElem? found
  rw [values, List.mem_append, List.mem_map, List.mem_flatMap] at listed
  rcases listed with ⟨arg, listed, rfl⟩ | ⟨block, inBlock, listed⟩
  · obtain rfl : arg = name := by simpa [Value.name?] using named
    exact wf.args arg listed
  · have shaped := wf.blocks block inBlock
    rw [Block.values, List.mem_append, List.mem_map, List.mem_map] at listed
    rcases listed with ⟨phi, listed, rfl⟩ | ⟨stmt, listed, rfl⟩
    · obtain rfl : phi.name = name := by simpa [Value.name?] using named
      exact shaped.phis phi listed
    · exact (shaped.stmts stmt listed).result name named

variable {block : Block Nat Nat} {stmt : Statement Nat Nat}

theorem WellFormed.isWord_read (wf : f.WellFormed) (inFunction : block ∈ f.blocks)
    (inBlock : stmt ∈ block.stmts) : ∀ v ∈ stmt.instr.reads, IsWord (f.valueName v) := by
  intro v read
  have mem : Value.statement stmt ∈ f.values :=
    List.mem_append_right _ (List.mem_flatMap.2
      ⟨block, inFunction, List.mem_append_right _ (List.mem_map_of_mem inBlock)⟩)
  exact wf.isWord_valueName mem read

theorem lineFeed_not_mem_operandList {operands : List Var} {label : BlockId → Except EmitError String}
    (words : ∀ v ∈ operands, IsWord (f.valueName v)) : '\n' ∉ (operandList ⟨f.valueName, label⟩ operands).toList := by
  intro mem
  rcases mem_intercalate mem with inside | ⟨name, listed, inside⟩
  · exact absurd inside (by decide)
  · obtain ⟨v, read, rfl⟩ := List.mem_map.1 listed
    exact (words v read).lineFeed_not_mem inside

theorem WellFormed.exists_result (wf : f.WellFormed) (inFunction : block ∈ f.blocks)
    (inBlock : stmt ∈ block.stmts) (isDef : stmt.instr.op.isDef) (noCall : stmt.instr.op ≠ .call) :
    ∃ name, stmt.result = some name ∧ IsWord name := by
  have shaped := (wf.blocks block inFunction).stmts stmt inBlock
  obtain ⟨name, found⟩ := Option.isSome_iff_exists.1 (shaped.isSome isDef noCall)
  exact ⟨name, found, shaped.result name found⟩

theorem isStatement_assignment {text name : String} (isWord : IsWord name) (value : List Char) (inner : '\n' ∉ value)
    (chars : text.toList = name.toList ++ ([' ', '='] ++ value ++ [';'])) : Token.IsStatement text :=
  Token.isStatement_word isWord _ rfl (by simpa using inner) chars

theorem renderInstr_eq (printed : stmt.instr.op ∉ [.vuse, .asm, .br, .goto])
    (label : BlockId → Except EmitError String) :
    renderInstr ⟨f.valueName, label⟩ (stmt.result.getD "") stmt.instr = .ok (f.statementText stmt) := by
  obtain ⟨result, instr⟩ := stmt
  cases instr with
  | vuse | asm | br | goto => simp [Instr.op] at printed
  | ret value => cases value <;> rfl
  | _ => rfl

theorem WellFormed.isStatement_text (wf : f.WellFormed) (inFunction : block ∈ f.blocks)
    (inBlock : stmt ∈ block.stmts) (straight : stmt.instr.isStraight) (real : stmt.instr.op ≠ .vuse) :
    Token.IsStatement (f.statementText stmt) := by
  have words := wf.isWord_read inFunction inBlock
  have shaped := (wf.blocks block inFunction).stmts stmt inBlock
  have given := wf.exists_result inFunction inBlock
  have plain (s : String) : toString s = s := rfl
  obtain ⟨result, instr⟩ := stmt
  cases instr with
  | any operands =>
    obtain ⟨name, rfl, isWord⟩ := given rfl (by simp [Instr.op])
    have inner : '\n' ∉ (operandList ⟨f.valueName, fun _ => .ok ""⟩ operands).toList :=
      lineFeed_not_mem_operandList words
    refine isStatement_assignment isWord (" any(".toList ++
      (operandList ⟨f.valueName, fun _ => .ok ""⟩ operands).toList ++ [')']) ?_ ?_
    · simpa using inner
    · simp [statementText, renderInstr, plain]
  | const n =>
    obtain ⟨name, rfl, isWord⟩ := given rfl (by simp [Instr.op])
    refine isStatement_assignment isWord (' ' :: (toString n).toList) ?_ ?_
    · simpa using lineFeed_not_mem_toString n
    · simp [statementText, renderInstr, plain]
  | binary op left right =>
    obtain ⟨name, rfl, isWord⟩ := given rfl (by simp [Instr.op])
    have first := (words left (by simp [Instr.reads])).lineFeed_not_mem
    have second := (words right (by simp [Instr.reads])).lineFeed_not_mem
    have between : '\n' ∉ op.symbol.toList := by cases op <;> decide
    refine isStatement_assignment isWord (' ' :: ((f.valueName left).toList ++ ' ' ::
      (op.symbol.toList ++ ' ' :: (f.valueName right).toList))) ?_ ?_
    · simp [first, between, second]
    · simp [statementText, renderInstr, plain]
  | copy source =>
    obtain ⟨name, rfl, isWord⟩ := given rfl (by simp [Instr.op])
    have inner := (words source (by simp [Instr.reads])).lineFeed_not_mem
    refine isStatement_assignment isWord (' ' :: (f.valueName source).toList) ?_ ?_
    · simpa using inner
    · simp [statementText, renderInstr, plain]
  | call callee operands =>
    have isCallee : IsWord callee := shaped.callee rfl
    have inner : '\n' ∉ (operandList ⟨f.valueName, fun _ => .ok ""⟩ operands).toList :=
      lineFeed_not_mem_operandList words
    cases result with
    | none =>
      refine Token.isStatement_word isCallee ('(' ::
        ((operandList ⟨f.valueName, fun _ => .ok ""⟩ operands).toList ++ [')'])) rfl ?_ ?_
      · simpa using inner
      · simp [statementText, renderInstr, plain]
    | some name =>
      have isWord := shaped.result name rfl
      refine isStatement_assignment isWord (' ' :: (callee.toList ++ '(' ::
        ((operandList ⟨f.valueName, fun _ => .ok ""⟩ operands).toList ++ [')']))) ?_ ?_
      · simp [isCallee.lineFeed_not_mem, inner]
      · simp [statementText, renderInstr, plain, isWord.ne_empty]
  | vuse => exact absurd rfl real
  | _ => exact absurd straight (by simp [Instr.isStraight])

end Program.FunctionOf

end Reflow
