import Reflow.Proofs.Program.Spelling

namespace Reflow.Program

open Reader

/-! ## Lists -/

variable {after : List Char}

@[simp]
theorem moreText_nil : moreText [] = [] :=
  rfl

@[simp]
theorem moreText_cons (item : List Char) (items : List (List Char)) :
    moreText (item :: items) = ',' :: ' ' :: (item ++ moreText items) := by
  simp [moreText]

theorem moreText_append (items others : List (List Char)) :
    moreText (items ++ others) = moreText items ++ moreText others := by
  simp [moreText]

theorem length_le_moreText (items : List (List Char)) : items.length ≤ (moreText items).length := by
  induction items with
  | nil => simp
  | cons =>
    simp only [moreText_cons, List.length_cons, List.length_append]
    omega

theorem endsName_mark {c : Char} {cs : List Char} (mark : c ∈ [',', ']', ' ', ':', '(', ')']) : EndsName (c :: cs) := by
  have all : [',', ']', ' ', ':', '(', ')'].all (!Text.continuesName ·) = true := by decide
  exact .cons (by simpa using List.all_eq_true.1 all c mark)

theorem endsName_moreText (items : List (List Char)) (ends : EndsName after) :
    EndsName (moreText items ++ after) := by
  cases items with
  | nil => exact ends
  | cons =>
    rw [moreText_cons]
    exact endsName_mark (by decide)

theorem tryChar_reads_end (ends : LineEnds after) :
    (tryChar ',').Reads after false (skip after) := by
  cases found : skip after with
  | nil => exact tryChar_reads_nil found
  | cons c => exact tryChar_reads_other found (ends.next c (by simp [found])).1

/-! ## Operands and arms -/

section Operands

variable {after : List Char} (ends : LineEnds after)
include ends

variable {operands : List String}

theorem readCallOperands_reads (words : ∀ v ∈ operands, IsWord v) {fuel : Nat}
    (enough : operands.length ≤ fuel) :
    (readCallOperands (fuel + 1)).Reads (moreText (operands.map valueText) ++ after) operands (skipInLine after) := by
  induction operands generalizing fuel with
  | nil => exact (nextInLine_reads_end ends).bind .pure
  | cons name _ ih =>
    cases fuel with
    | zero => simp at enough
    | succ =>
      have word := words name (.head _)
      have rest := ih (fun v mem => words v (.tail _ mem)) (Nat.le_of_succ_le_succ enough)
      simp only [List.map_cons, moreText_cons, valueText, List.cons_append, List.append_assoc]
      refine (nextInLine_reads _).bind ?_
      exact (readValueName_reads word rfl (endsName_moreText _ ends.name)).bind (rest.bind .pure)

theorem readOperands_reads {name : String} (words : ∀ v ∈ name :: operands, IsWord v)
    {fuel : Nat} (enough : operands.length ≤ fuel) {cs : List Char}
    (found : skipInLine cs = listText ((name :: operands).map valueText) ++ after) :
    (readOperands (fuel + 1)).Reads cs (name :: operands) (skipInLine after) := by
  have word := words name (.head _)
  simp only [List.map_cons, listText, valueText, List.append_assoc, List.cons_append] at found
  induction operands generalizing name fuel cs with
  | nil =>
    refine .get (.set ?_)
    rw [found]
    exact (readValueName_reads word rfl ends.name).bind ((nextInLine_reads_end ends).bind .pure)
  | cons next operands ih =>
    cases fuel with
    | zero => simp at enough
    | succ =>
      have others := fun v mem => words v (.tail _ mem)
      simp only [List.map_cons, moreText_cons, valueText, List.append_assoc, List.cons_append] at found
      have rest := ih others (Nat.le_of_succ_le_succ enough) (others next (.head _))
        (show skipInLine (' ' :: '%' :: (next.toList ++ (moreText (operands.map valueText) ++ after))) = _ from rfl)
      refine .get (.set ?_)
      rw [found]
      refine (readValueName_reads word rfl (endsName_mark (by decide))).bind ((nextInLine_reads _).bind ?_)
      exact rest.bind .pure

end Operands

theorem ne_of_startsName {c d : Char} (starts : Text.startsName c = true) (mark : Text.startsName d = false) :
    c ≠ d := by
  rintro rfl
  simp [starts] at mark

section Arms

variable {cs rest after : List Char} {v b : String}

theorem readArm_reads (value : IsWord v) (block : IsWord b)
    (found : skip cs = pairText (valueText v) (targetText b) ++ rest) : readArm.Reads cs (some v, b) rest := by
  simp only [pairText, valueText, targetText, List.cons_append, List.append_assoc, List.nil_append] at found
  refine (expect_reads found).bind (.get (.set ?_))
  refine (readValueName_reads value rfl (endsName_mark (by decide))).bind ((expect_reads rfl).bind ?_)
  exact (readBlockName_reads block rfl (endsName_mark (by decide))).bind ((expect_reads rfl).bind .pure)

theorem readArm_reads_otherwise (block : IsWord b) (found : skip cs = '[' :: (targetText b ++ ']' :: rest)) :
    readArm.Reads cs (none, b) rest := by
  simp only [targetText, List.cons_append] at found
  refine (expect_reads found).bind (.get (.set ?_))
  exact (readBlockName_reads block rfl (endsName_mark (by decide))).bind ((expect_reads rfl).bind .pure)

theorem readMoreArms_reads (ends : LineEnds after) {arms : List (String × String)} {otherwise : Option String}
    (words : ∀ arm ∈ arms, IsWord arm.1 ∧ IsWord arm.2) (last : ∀ b ∈ otherwise, IsWord b) {fuel : Nat}
    (enough : arms.length ≤ fuel) :
    (readMoreArms (fuel + 1)).Reads (moreText (arms.map (fun (v, b) => pairText (valueText v) (targetText b)) ++
      otherwise.toList.map fun b => '[' :: (targetText b ++ [']'])) ++ after) (arms, otherwise) (skipInLine after) := by
  induction arms generalizing fuel with
  | nil =>
    cases otherwise with
    | none => exact (nextInLine_reads_end ends).bind .pure
    | some b =>
      simp only [List.map_nil, List.nil_append, Option.toList_some, List.map_cons, moreText_cons, moreText_nil,
        List.append_nil, List.cons_append, List.append_assoc]
      refine (nextInLine_reads _).bind ((readArm_reads_otherwise (last b rfl) rfl).bind ?_)
      exact (nextInLine_reads_end ends).bind .pure
  | cons arm arms ih =>
    cases fuel with
    | zero => simp at enough
    | succ =>
      obtain ⟨value, block⟩ := words arm (.head _)
      have later := fun arm mem => words arm (.tail _ mem)
      have others := ih later (Nat.le_of_succ_le_succ enough)
      rw [List.map_cons, List.cons_append, moreText_cons, List.cons_append, List.cons_append, List.append_assoc]
      refine (nextInLine_reads _).bind ((readArm_reads value block rfl).bind ?_)
      exact others.bind .pure

theorem isWord_of_letters {s : String}
    (letters : (s.toList.head?.any Text.startsName && s.toList.all Text.continuesName) = true) : IsWord s := by
  rw [Bool.and_eq_true, Option.any_eq_true, List.all_eq_true] at letters
  obtain ⟨⟨c, head, starts⟩, continues⟩ := letters
  obtain ⟨rest, chars⟩ := List.head?_eq_some_iff.1 head
  exact ⟨c, rest, chars, starts, continues⟩

theorem isWord_default : IsWord "default" :=
  isWord_of_letters (by decide)

theorem not_isAlphabetic_of_isDigit {c : Char} (digit : c = '-' ∨ c.isDigit = true) : Text.isAlphabetic c = false := by
  have code : c.toNat = 45 ∨ 48 ≤ c.toNat ∧ c.toNat ≤ 57 := by
    rcases digit with rfl | digit
    · exact .inl rfl
    · simp only [Char.isDigit, Bool.and_eq_true, decide_eq_true_eq, UInt32.le_iff_toNat_le] at digit
      exact .inr digit
  have all : ∀ n ∈ 45 :: List.range' 48 10, Text.isAlphabetic (Char.ofNat n) = false := by decide
  have mem : c.toNat ∈ 45 :: List.range' 48 10 := by
    rw [List.mem_cons, List.mem_range'_1]
    omega
  simpa using all c.toNat mem

theorem isSolid_of_isDigit {c : Char} (digit : c = '-' ∨ c.isDigit = true) : IsSolid c := by
  rcases digit with rfl | digit
  · exact ⟨by decide, by decide⟩
  · exact isSolid_of_continuesName (continuesName_of_isDigit digit)

theorem skip_decimal (n : Int) (rest : List Char) : skip (decimal n ++ rest) = decimal n ++ rest := by
  obtain ⟨c, digits, written, digit⟩ := decimal_head n
  rw [written, List.cons_append, skip_cons (isSolid_of_isDigit digit)]

theorem readCase_reads {case : CaseLabel} (small : ∀ n, case = .value n → IsSmall n) (ends : EndsName rest) :
    readCase.Reads (caseText case ++ rest) case rest := by
  refine .get (.set ?_)
  cases case with
  | value n =>
    obtain ⟨c, digits, written, digit⟩ := decimal_head n
    have number : ((decimal n ++ rest).head?.any Text.isAlphabetic) = false := by
      simp [written, not_isAlphabetic_of_isDigit digit]
    have found : skip (caseText (.value n) ++ rest) = decimal n ++ rest := skip_decimal n rest
    rw [found, number]
    exact (readNumber_reads (small n rfl) (skip_decimal n rest) ends).bind .pure
  | otherwise =>
    have head : (caseText .otherwise ++ rest).head? = some 'd' := rfl
    have alphabetic : Text.isAlphabetic 'd' = true := by decide
    have letter : ((caseText .otherwise ++ rest).head?.any Text.isAlphabetic) = true := by
      simp only [head, Option.any_some, alphabetic]
    have found : skip (caseText .otherwise ++ rest) = caseText .otherwise ++ rest := isWord_default.skip_eq rest
    simp only [found, letter, if_true]
    exact (readName_reads isWord_default found ends).bind .pure

theorem readCases_reads (ends : LineEnds after) {arms : List (CaseLabel × String)} (words : ∀ arm ∈ arms, IsWord arm.2)
    (small : ∀ arm ∈ arms, ∀ n, arm.1 = .value n → IsSmall n) {fuel : Nat} (enough : arms.length ≤ fuel) :
    (readCases (fuel + 1)).Reads
      (moreText (arms.map fun (case, b) => pairText (caseText case) (targetText b)) ++ after) arms (skip after) := by
  induction arms generalizing fuel with
  | nil => exact (tryChar_reads_end ends).bind .pure
  | cons arm arms ih =>
    cases fuel with
    | zero => simp at enough
    | succ =>
      have others := ih (fun arm mem => words arm (.tail _ mem))
        (fun arm mem => small arm (.tail _ mem)) (Nat.le_of_succ_le_succ enough)
      have label := small arm (.head _)
      simp only [List.map_cons, moreText_cons, pairText, targetText, List.cons_append, List.append_assoc,
        List.nil_append]
      refine (tryChar_reads rfl).bind ((expect_reads rfl).bind ?_)
      refine (readCase_reads label (endsName_mark (by decide))).bind ((expect_reads rfl).bind ?_)
      refine (readBlockName_reads (words arm (.head _)) rfl (endsName_mark (by decide))).bind ?_
      exact (expect_reads rfl).bind (others.bind .pure)

end Arms

/-! ## Statements -/

structure Spellable (instr : NamedInstr) : Prop where
  reads : ∀ v ∈ instr.reads, IsWord v
  targets : ∀ b ∈ instr.targets, IsWord b
  callee : instr.op = .call → IsWord instr.symbol
  written : instr.IsWritten
  numbers : ∀ n ∈ instr.numbers, IsSmall n

section Instr

variable {after : List Char} (ends : LineEnds after)
include ends

theorem readTwoWay_reads {build : String → String → String → NamedInstr} {v b b' : String} (value : IsWord v)
    (first : IsWord b) (second : IsWord b') :
    (readTwoWay build).Reads (' ' :: (listText [valueText v, targetText b, targetText b'] ++ after)) (build v b b')
      after := by
  simp only [listText, moreText_cons, moreText_nil, valueText, targetText, List.cons_append, List.append_assoc,
    List.nil_append]
  refine (readValueName_reads value rfl (endsName_mark (by decide))).bind ((expect_reads rfl).bind ?_)
  refine (readBlockName_reads first rfl (endsName_mark (by decide))).bind ((expect_reads rfl).bind ?_)
  exact (readBlockName_reads second rfl ends.name).bind .pure

theorem readInstr_reads {instr : NamedInstr} (spellable : Spellable instr) :
    ∃ rest, (readInstr instr.op).Reads (operandsText instr ++ after) instr rest ∧ skip rest = skip after := by
  obtain ⟨reads, targets, callee, written, numbers⟩ := spellable
  have space (cs : List Char) (n : Int) : skip (' ' :: (decimal n ++ cs)) = decimal n ++ cs := skip_decimal n cs
  cases instr with
  | any operands =>
    refine ⟨skipInLine after, ?_, skip_skipInLine after⟩
    cases operands with
    | nil =>
      have line := ends.line
      refine Reads.bind (.bounded (.get (.set ?_))) .pure
      rw [if_neg]
      · exact .pure
      · intro value
        change (skipInLine after).head? = some '%' at value
        rw [atLineEnd, value] at line
        cases empty : skipInLine after <;> simp [empty] at line value
    | cons name operands =>
      refine Reads.bind (.bounded (readOperands_reads ends reads ?_ rfl)) .pure
      have long := length_le_moreText (operands.map valueText)
      simp only [operandsText, List.map_cons, listText, List.length_cons, List.length_append, List.length_map] at long ⊢
      omega
  | const n =>
    exact ⟨after, (readNumber_reads (numbers n (by simp [Instr.numbers, Instr.immediates])) (space after n)
      ends.name).bind .pure, rfl⟩
  | binary op left right =>
    refine ⟨after, ?_, rfl⟩
    simp only [operandsText, listText, moreText_cons, moreText_nil, valueText, List.cons_append, List.append_assoc,
      List.nil_append]
    refine (readValueName_reads (reads left (by simp [Instr.reads])) rfl (endsName_mark (by decide))).bind ?_
    refine (expect_reads rfl).bind ?_
    exact (readValueName_reads (reads right (by simp [Instr.reads])) rfl ends.name).bind .pure
  | copy source =>
    exact ⟨after, (readValueName_reads (reads source (by simp [Instr.reads])) rfl ends.name).bind .pure, rfl⟩
  | call name operands =>
    refine ⟨skipInLine after, ?_, skip_skipInLine after⟩
    have word : IsWord name := callee rfl
    have words : ∀ v ∈ operands, IsWord v := reads
    simp only [operandsText, List.cons_append, List.append_assoc]
    refine .get (.set ?_)
    refine (readName_reads word (word.skip_eq _) (endsName_moreText _ ends.name)).bind ?_
    refine Reads.bind (.bounded (readCallOperands_reads ends words ?_)) .pure
    have long := length_le_moreText (operands.map valueText)
    simp only [List.length_append, List.length_map] at long ⊢
    omega
  | init var n =>
    refine ⟨after, ?_, rfl⟩
    simp only [operandsText, listText, moreText_cons, moreText_nil, valueText, List.cons_append, List.append_assoc,
      List.append_nil]
    refine (readValueName_reads (reads var (by simp [Instr.reads])) rfl (endsName_mark (by decide))).bind ?_
    refine (expect_reads rfl).bind ?_
    have small := numbers n (by simp [Instr.numbers, Instr.immediates])
    exact (readNumber_reads small (space after n) ends.name).bind .pure
  | vuse source =>
    exact ⟨after, (readValueName_reads (reads source (by simp [Instr.reads])) rfl ends.name).bind .pure, rfl⟩
  | label name =>
    have word : IsWord name := written
    exact ⟨after, (readName_reads word (word.skip_space after) ends.name).bind .pure, rfl⟩
  | asm => exact ⟨after, .pure, rfl⟩
  | ret result =>
    cases result with
    | none =>
      refine ⟨skipInLine after, .get (.set ?_), skip_skipInLine after⟩
      change Reads (if atLineEnd (skipInLine after) = true then _ else _) _ _ _
      rw [if_pos ends.line]
      exact .pure
    | some v =>
      refine ⟨after, .get (.set ?_), rfl⟩
      exact (readValueName_reads (reads v (by simp [Instr.reads])) rfl ends.name).bind .pure
  | br target =>
    exact ⟨after, (readBlockName_reads (targets target (by simp [Instr.targets])) rfl ends.name).bind .pure, rfl⟩
  | condbr cond thenBlock elseBlock =>
    exact ⟨after, readTwoWay_reads ends (reads cond (by simp [Instr.reads]))
      (targets thenBlock (by simp [Instr.targets])) (targets elseBlock (by simp [Instr.targets])), rfl⟩
  | loop cond body exit =>
    exact ⟨after, readTwoWay_reads ends (reads cond (by simp [Instr.reads]))
      (targets body (by simp [Instr.targets])) (targets exit (by simp [Instr.targets])), rfl⟩
  | multiif cond target arms otherwise =>
    refine ⟨skipInLine after, ?_, skip_skipInLine after⟩
    have words : ∀ arm ∈ arms, IsWord arm.1 ∧ IsWord arm.2 := fun arm mem =>
      ⟨reads arm.1 (.tail _ (List.mem_map_of_mem mem)),
        targets arm.2 (List.mem_append_left _ (.tail _ (List.mem_map_of_mem mem)))⟩
    have last : ∀ b ∈ otherwise, IsWord b := fun b same =>
      targets b (List.mem_append_right _ (Option.mem_toList.2 same))
    simp only [operandsText, List.map_cons, List.cons_append, listText, List.append_assoc]
    refine (readArm_reads (reads cond (.head _)) (targets target (.head _)) rfl).bind ?_
    refine Reads.bind (.bounded (readMoreArms_reads ends words last ?_)) .pure
    have long := length_le_moreText (arms.map fun (v, b) => pairText (valueText v) (targetText b))
    simp only [moreText_append, List.length_append, List.length_map] at long ⊢
    omega
  | switch selector arms =>
    refine ⟨skip after, ?_, skip_skip after⟩
    have small : ∀ arm ∈ arms, ∀ n, arm.1 = .value n → IsSmall n := by
      intro arm mem n value
      refine numbers n (List.mem_append_right _ (List.mem_filterMap.2 ⟨arm.1, List.mem_map_of_mem mem, ?_⟩))
      rw [value]
    simp only [operandsText, listText, valueText, List.cons_append, List.append_assoc]
    refine (readValueName_reads (reads selector (.head _)) rfl (endsName_moreText _ ends.name)).bind ?_
    have words : ∀ arm ∈ arms, IsWord arm.2 := fun arm mem => targets arm.2 (List.mem_map_of_mem mem)
    refine Reads.bind (.bounded (readCases_reads ends words small ?_)) ?_
    · have long := length_le_moreText (arms.map fun (case, b) => pairText (caseText case) (targetText b))
      simp only [List.length_append, List.length_map] at long ⊢
      omega
    · have some : arms ≠ [] := written
      rw [if_neg (by simpa using some)]
      exact .pure
  | goto target =>
    exact ⟨after, (readBlockName_reads (targets target (by simp [Instr.targets])) rfl ends.name).bind .pure, rfl⟩

end Instr

theorem op_mem_written (instr : NamedInstr) : instr.op ∈ Op.written := by
  cases instr with
  | binary op => cases op <;> simp [Instr.op, Op.written, Op.all]
  | _ => simp [Instr.op, Op.written, Op.all]

theorem isWord_opName {op : Op} (written : op ∈ Op.written) : IsWord op.name ∧ Op.ofName? op.name = some op := by
  have all : ∀ op ∈ Op.written, (op.name.toList.head?.any Text.startsName &&
      op.name.toList.all Text.continuesName) = true ∧ Op.ofName? op.name = some op := by
    decide
  exact ⟨isWord_of_letters (all op written).1, (all op written).2⟩

theorem endsName_operandsText (instr : NamedInstr) {after : List Char} (ends : EndsName after) :
    EndsName (operandsText instr ++ after) := by
  unfold operandsText
  split <;> first | exact ends | exact endsName_mark (by decide)

theorem readOp_reads (instr : NamedInstr) {cs after : List Char} (ends : EndsName after)
    (found : skip cs = instr.op.name.toList ++ (operandsText instr ++ after)) :
    readOp.Reads cs instr.op (operandsText instr ++ after) := by
  obtain ⟨word, stands⟩ := isWord_opName (op_mem_written instr)
  refine (readName_reads word found (endsName_operandsText instr ends)).bind ?_
  rw [stands]
  exact .pure

theorem readValueOp_reads (instr : NamedInstr) {after : List Char} (ends : EndsName after) :
    readValueOp.Reads (' ' :: (instr.op.name.toList ++ (operandsText instr ++ after))) instr.op
      (operandsText instr ++ after) := by
  obtain ⟨word, -⟩ := isWord_opName (op_mem_written instr)
  have found := word.skip_eq (operandsText instr ++ after)
  obtain ⟨c, letters, chars, starts, continues⟩ := word
  have solid := isSolid_of_continuesName (continues c (by simp [chars]))
  have skipped : skipInLine (' ' :: (instr.op.name.toList ++ (operandsText instr ++ after))) =
      instr.op.name.toList ++ (operandsText instr ++ after) := by
    rw [chars, List.cons_append]
    exact skipFrom_cons solid false _
  -- A keyword stands in the line, so the value is not one without an operation.
  have inside : (atLineEnd (instr.op.name.toList ++ (operandsText instr ++ after)) ||
      (instr.op.name.toList ++ (operandsText instr ++ after)).head? = some '%') = false := by
    have letter : c ≠ '%' := ne_of_startsName starts (by decide)
    simp [chars, atLineEnd, solid.ne_lineFeed, letter]
  refine .get (.set ?_)
  rw [skipped, inside]
  exact readOp_reads instr ends found

theorem define_reads {defined : List String} {name : String} (new : name ∉ defined) (cs : List Char) :
    (define defined name).Reads cs (defined ++ [name]) cs := by
  rw [define, if_neg new]
  exact .pure

section Statements

variable {cs after : List Char} (ends : LineEnds after) {stmt : Statement String String}
include ends

theorem Statement.reads (shaped : stmt.Shaped) (spellable : Spellable stmt.instr) {defined : List String}
    (fresh : ∀ name ∈ stmt.result, name ∉ defined) (found : skip cs = stmt.line ++ after) :
    ∃ rest, (readStatement defined).Reads cs (stmt, defined ++ stmt.result.toList) rest ∧ skip rest = skip after := by
  obtain ⟨rest, read, left⟩ := readInstr_reads ends spellable
  obtain ⟨word, -⟩ := isWord_opName (op_mem_written stmt.instr)
  refine ⟨rest, .get (.set ?_), left⟩
  obtain ⟨result, instr⟩ := stmt
  cases result with
  | none =>
    have plain : (skip cs).head? ≠ some '%' := by
      obtain ⟨c, letters, chars, starts, -⟩ := word
      rw [found, Statement.line, List.append_assoc, chars]
      simpa using ne_of_startsName starts (by decide)
    have needless : (instr.op.isDef && instr.op != .call) = false := by
      have isSome := shaped.isSome
      simp only [Option.isSome_none, Bool.false_eq_true, imp_false, Decidable.not_not] at isSome
      cases def_ : instr.op.isDef with
      | false => rfl
      | true => simp [isSome def_]
    rw [if_neg plain]
    simp only [Statement.line, List.append_assoc] at found
    refine (readOp_reads instr ends.name ((skip_skip cs).trans found)).bind ?_
    rw [needless]
    exact read.bind (by simpa using Reads.pure)
  | some name =>
    have named := shaped.result name rfl
    simp only [Statement.line, valueText, List.cons_append, List.append_assoc] at found
    rw [found]
    refine (readValueName_reads named rfl (endsName_mark (by decide))).bind ((expect_reads rfl).bind ?_)
    refine (readValueOp_reads instr ends.name).bind ?_
    rw [if_neg (by simpa using shaped.isDef rfl)]
    refine (define_reads (fresh name rfl) _).bind ?_
    exact read.bind .pure

end Statements

/-! ## Phis -/

theorem isWord_phiName (phi : Phi String String) : IsWord phi.op.name := by
  cases kind : phi.isVirtual <;>
    exact isWord_of_letters (by simp only [Phi.op, kind]; decide)

section Phis

variable {cs after : List Char} (ends : LineEnds after)
include ends

theorem readIncoming_reads {incoming : List (String × String)} (some : incoming ≠ [])
    (words : ∀ pair ∈ incoming, IsWord pair.1 ∧ IsWord pair.2) {fuel : Nat} (enough : incoming.length ≤ fuel + 1)
    (found : skip cs = listText (incoming.map fun (b, v) => pairText (targetText b) (valueText v)) ++ after) :
    (readIncoming (fuel + 1)).Reads cs incoming (skipInLine after) := by
  induction incoming generalizing fuel cs with
  | nil => exact absurd rfl some
  | cons pair incoming ih =>
    obtain ⟨block, value⟩ := words pair (.head _)
    simp only [List.map_cons, listText, pairText, targetText, valueText, List.cons_append, List.append_assoc,
      List.nil_append] at found
    refine (expect_reads found).bind ((readBlockName_reads block rfl (endsName_mark (by decide))).bind ?_)
    refine (expect_reads rfl).bind ((readValueName_reads value rfl (endsName_mark (by decide))).bind ?_)
    refine (expect_reads rfl).bind ?_
    cases incoming with
    | nil => exact (nextInLine_reads_end ends).bind .pure
    | cons =>
      cases fuel with
      | zero => simp at enough
      | succ =>
        rw [List.map_cons, moreText_cons, List.cons_append, List.cons_append, List.append_assoc]
        refine (nextInLine_reads _).bind ?_
        refine Reads.bind (ih (by simp) (fun pair mem => words pair (.tail _ mem))
          (Nat.le_of_succ_le_succ enough) ?_) .pure
        rw [List.map_cons, listText, List.append_assoc]
        rfl

theorem Phi.reads {phi : Phi String String} (name : IsWord phi.name) (some : phi.incoming ≠ [])
    (words : ∀ pair ∈ phi.incoming, IsWord pair.1 ∧ IsWord pair.2) {defined : List String} (fresh : phi.name ∉ defined)
    (found : skip cs = phi.line ++ after) :
    (readPhi phi.isVirtual defined).Reads cs (phi, defined ++ [phi.name]) (skipInLine after) := by
  have word := isWord_phiName phi
  simp only [Phi.line, valueText, List.cons_append, List.append_assoc] at found
  refine (readValueName_reads name found (endsName_mark (by decide))).bind ((expect_reads rfl).bind ?_)
  refine (readName_reads word (word.skip_space _) (endsName_mark (by decide))).bind ((define_reads fresh _).bind ?_)
  have enough : phi.incoming.length ≤
      (listText (phi.incoming.map fun (b, v) => pairText (targetText b) (valueText v)) ++ after).length + 1 + 1 := by
    cases phi.incoming with
    | nil => simp
    | cons pair incoming =>
      have long := length_le_moreText (incoming.map fun (b, v) => pairText (targetText b) (valueText v))
      simp only [List.map_cons, listText, List.length_append, List.length_cons, List.length_map] at long ⊢
      omega
  refine Reads.bind (.bounded (readIncoming_reads ends some words enough ?_)) .pure
  cases incoming : phi.incoming with
  | nil => exact absurd incoming some
  | cons => rfl

end Phis

/-! ## What is seen ahead -/

section Ahead

variable {cs after : List Char}

theorem phiAhead?_eq {name op : String} (named : IsWord name) (word : IsWord op) (ends : EndsName after)
    (found : skip cs = '%' :: (name.toList ++ ' ' :: '=' :: ' ' :: (op.toList ++ after))) :
    phiAhead? cs = if op = "phi" then some false else if op = "vphi" then some true else none := by
  have first := scanName_eq named (named.skip_eq (' ' :: '=' :: ' ' :: (op.toList ++ after)))
    (endsName_mark (by decide))
  have second := scanName_eq word (word.skip_space after) ends
  have between : skip (' ' :: '=' :: ' ' :: (op.toList ++ after)) = '=' :: ' ' :: (op.toList ++ after) := rfl
  simp only [phiAhead?, found, first, between, second]
  split
  · rename_i same
    obtain ⟨rfl, -⟩ := Prod.mk.inj (Option.some.inj same)
    rfl
  · rename_i same
    obtain ⟨rfl, -⟩ := Prod.mk.inj (Option.some.inj same)
    rfl
  · rename_i notPhi notVirtual
    rw [if_neg, if_neg]
    · rintro rfl
      exact notVirtual after rfl
    · rintro rfl
      exact notPhi after rfl

theorem Phi.ahead {phi : Phi String String} (name : IsWord phi.name) (found : skip cs = phi.line ++ after) :
    phiAhead? cs = some phi.isVirtual := by
  simp only [Phi.line, valueText, List.cons_append, List.append_assoc] at found
  rw [phiAhead?_eq name (isWord_phiName phi) (endsName_mark (by decide)) found]
  cases kind : phi.isVirtual <;> simp [Phi.op, kind, Op.name, Op.info]

theorem Statement.not_ahead {stmt : Statement String String} (shaped : stmt.Shaped) (ends : EndsName after)
    (found : skip cs = stmt.line ++ after) : phiAhead? cs = none := by
  have written := op_mem_written stmt.instr
  obtain ⟨word, -⟩ := isWord_opName written
  obtain ⟨result, instr⟩ := stmt
  cases result with
  | none =>
    obtain ⟨c, letters, chars, starts, -⟩ := word
    rw [Statement.line, List.append_assoc, chars, List.cons_append] at found
    have letter : c ≠ '%' := ne_of_startsName starts (by decide)
    unfold phiAhead?
    rw [found]
    split
    · rename_i same
      exact absurd (List.cons.inj same).1 letter
    · rfl
  | some name =>
    have other : ∀ op ∈ Op.written, op.name ≠ "phi" ∧ op.name ≠ "vphi" := by decide
    simp only [Statement.line, valueText, List.cons_append, List.append_assoc] at found
    rw [phiAhead?_eq (shaped.result name rfl) word (endsName_operandsText instr ends) found,
      if_neg (other _ written).1, if_neg (other _ written).2]

theorem blockEnds_value (rest : List Char) : blockEnds ('%' :: rest) = false :=
  rfl

theorem operandsText_head {instr : NamedInstr} (written : instr.IsWritten) (ends : LineEnds after) :
    (skip (operandsText instr ++ after)).head? ≠ some ':' := by
  have number (n : Int) (cs : List Char) : (skip (' ' :: (decimal n ++ cs))).head? ≠ some ':' := by
    obtain ⟨c, digits, chars, digit⟩ := decimal_head n
    rw [show skip (' ' :: (decimal n ++ cs)) = _ from skip_decimal n cs, chars]
    intro same
    obtain rfl : c = ':' := by simpa using same
    rcases digit with colon | colon <;> exact absurd colon (by decide)
  have nothing : (skip after).head? ≠ some ':' := fun same => (ends.next ':' same).2 rfl
  cases instr with
  | any operands => cases operands with
    | nil => exact nothing
    | cons => simp [operandsText, listText, valueText, skip, skipFrom, Text.isBlank]
  | const n => exact number n after
  | label name =>
    have word : IsWord name := written
    rw [operandsText, List.cons_append, word.skip_space]
    obtain ⟨c, letters, chars, starts, -⟩ := word
    rw [chars]
    simpa using ne_of_startsName starts (by decide)
  | asm => exact nothing
  | ret result => cases result with
    | none => exact nothing
    | some v => simp [operandsText, valueText, skip, skipFrom, Text.isBlank]
  | _ => simp [operandsText, listText, valueText, targetText, pairText, skip, skipFrom, Text.isBlank]

theorem Statement.blockEnds_line {stmt : Statement String String} (written : stmt.instr.IsWritten)
    (ends : LineEnds after) : blockEnds (stmt.line ++ after) = false := by
  obtain ⟨word, -⟩ := isWord_opName (op_mem_written stmt.instr)
  obtain ⟨result, instr⟩ := stmt
  cases result with
  | some => exact blockEnds_value _
  | none =>
    have scanned := scanName_eq word (word.skip_eq _) (endsName_operandsText instr ends.name)
    obtain ⟨c, letters, chars, starts, -⟩ := word
    have letter : c ≠ '\x7d' := ne_of_startsName starts (by decide)
    rw [Statement.line, List.append_assoc, blockEnds, scanned]
    simp [chars, letter, operandsText_head written ends]

end Ahead

end Reflow.Program
