import Reflow.Proofs.Copies.Execution
import Reflow.Proofs.Emit.Statements

namespace Reflow.Program.FunctionOf

variable {f : Function} {base pass : Nat} {b x : BlockId} {labels : Labels}
  {body : List (Statement Nat Nat)} {last : Statement Nat Nat}

theorem HasBlock.label?_eq_none (has : f.HasBlock b body last) (base : Nat)
    (noLabel : last.instr.op ≠ .label) : (f.procedure base).label? b = none := by
  obtain ⟨block, found, stmts⟩ := has.exists_block
  rw [Procedure.label?, block?_of_get found]
  simp only [Option.bind_some, Block.view, Block.label?]
  split
  · rename_i result name rest same
    rw [same] at stmts
    cases body with
    | nil =>
      obtain ⟨rfl, -⟩ := List.cons.inj stmts
      exact absurd rfl noLabel
    | cons =>
      obtain ⟨rfl, -⟩ := List.cons.inj stmts
      have := has.inner _ (.head _)
      simp [Instr.isInner, Instr.isStraight] at this
  · rfl

theorem Branches.label?_eq_none (branches : f.Branches) (b : BlockId) : (f.procedure base).label? b = none := by
  cases found : f.blocks[b]? with
  | none => simp [Procedure.label?, block?_procedure, found]
  | some =>
    obtain ⟨body, last, has, -, exit⟩ := branches.exists_block found
    apply has.label?_eq_none
    cases instr : last.instr <;> simp [instr, Instr.isExit, Instr.op] at exit ⊢

theorem number_eq (b : BlockId) : (f.procedure base).number b = b := by
  rw [Procedure.number, block?_procedure]
  cases f.blocks[b]? <;> rfl

theorem Branches.labelText_eq (branches : f.Branches) (b : BlockId) : (f.procedure base).labelText pass b =
      "BB_LABEL_" ++ toString b ++ (if pass > 1 then "_" ++ toString pass else "") := by
  simp only [Procedure.labelText, branches.label?_eq_none, number_eq]
  rfl

theorem Branches.labelText_injective (branches : f.Branches) :
    Function.Injective ((f.procedure base).labelText pass) := by
  intro b c same
  rw [branches.labelText_eq, branches.labelText_eq, String.append_left_inj, String.append_right_inj] at same
  exact repr_injective same

theorem continuesName_toString (n : Nat) : ∀ c ∈ (toString n).toList, Text.continuesName c = true := by
  intro c mem
  have digit : c.isDigit := Nat.isDigit_of_mem_toDigits (by decide) (by decide)
    (show c ∈ Nat.toDigits 10 n by simpa [toString, Nat.repr] using mem)
  have ascii : c.toNat < 128 := by
    simp only [Char.isDigit, Bool.and_eq_true, decide_eq_true_eq] at digit
    have upper := UInt32.le_iff_toNat_le.1 digit.2
    have value : c.toNat = c.val.toNat := rfl
    rw [value]
    exact lt_of_le_of_lt upper (by decide)
  simp [Text.continuesName, Text.isAlphanumeric, ascii, Char.isAlphanum, digit]

theorem oneLine_blockComment (n : Nat) : Text.OneLine ("//" ++ ("Basic block " ++ toString n)).toList := by
  have chars : ("//" ++ ("Basic block " ++ toString n)).toList =
      "//Basic block ".toList ++ (toString n).toList := by simp
  have solid (c : Char) (mem : c ∈ (toString n).toList) : Text.isBlank c = false :=
    Text.isBlank_of_continuesName (continuesName_toString n c mem)
  have some : (toString n).toList ≠ [] := by simp [toString, Nat.repr, Nat.toDigits_ne_nil]
  rw [chars]
  refine ⟨⟨?_, ?_⟩, by simp, ?_⟩
  · intro c found
    obtain rfl : '/' = c := by simpa using found
    decide
  · intro c found
    rw [List.getLast?_append_of_ne_nil _ some] at found
    exact solid c (List.mem_of_getLast? found)
  · intro mem
    rcases List.mem_append.1 mem with start | number
    · exact absurd start (by decide)
    · exact absurd (solid _ number) (by decide)

theorem ofText_blockComment (n : Nat) : Token.ofText ("//" ++ ("Basic block " ++ toString n)) = [] :=
  Token.ofText_comment (oneLine_blockComment n)

theorem isWord_numbered (n pass : Nat) :
    IsWord ("BB_LABEL_" ++ toString n ++ if pass > 1 then "_" ++ toString pass else "") := by
  refine ⟨'B', ("B_LABEL_" ++ toString n ++ (if pass > 1 then "_" ++ toString pass else "")).toList,
    by simp, by decide, ?_⟩
  have letters : ∀ c ∈ "BB_LABEL_".toList, Text.continuesName c = true :=
    List.all_eq_true.1 (show "BB_LABEL_".toList.all Text.continuesName = true from rfl)
  have digits := continuesName_toString
  intro c mem
  simp only [String.toList_append, List.mem_append] at mem
  rcases mem with (start | number) | mark
  · exact letters c start
  · exact digits n c number
  · split at mark
    · rw [String.toList_append, List.mem_append] at mark
      rcases mark with score | number
      · rw [List.mem_singleton.1 (show c ∈ ['_'] from score)]
        decide
      · exact digits pass c number
    · simp at mark

theorem Branches.isWord_labelText (branches : f.Branches) (base pass : Nat) (b : BlockId) :
    IsWord ((f.procedure base).labelText pass b) := by
  rw [branches.labelText_eq]
  exact isWord_numbered b pass

theorem HasBlock.kinds_eq (has : f.HasBlock b body last) (bare : f.Bare) (base : Nat) :
    (f.procedure base).kinds b = (f.numbered b body).filterMap (classify? base) ++
      (classify? base (f.blockStart b + body.length, last)).toList := by
  obtain ⟨block, found, stmts⟩ := has.exists_block
  rw [bare.kinds_eq found, stmts, numbered, numberFrom_concat, List.filterMap_append]
  cases ok : classify? base (f.blockStart b + body.length, last) <;>
    simp [ok, numbered]

theorem HasBlock.succs_eq (has : f.HasBlock b body last) :
    (f.procedure base).succs b = last.instr.targets.eraseDups := by
  obtain ⟨block, found, stmts⟩ := has.exists_block
  have quiet : body.flatMap (fun stmt => stmt.instr.targets) = [] := by
    rw [List.flatMap_eq_nil_iff]
    intro stmt mem
    have inner := has.inner stmt mem
    cases instr : stmt.instr <;> simp [instr, Instr.isInner, Instr.isStraight, Instr.targets] at inner ⊢
  rw [Procedure.succs, block?_of_get found, Option.elim_some]
  simp [Block.view, Block.succs, Block.targets, stmts, quiet]

theorem HasBlock.mem_succs_iff (has : f.HasBlock b body last) :
    x ∈ (f.procedure base).succs b ↔ x ∈ last.instr.targets := by
  rw [has.succs_eq, List.mem_eraseDups]

end Reflow.Program.FunctionOf
