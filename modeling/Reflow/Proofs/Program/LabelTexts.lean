import Reflow.Proofs.Program.Texts

namespace Reflow.Program.FunctionOf

variable {f : Function} {base pass pass' : Nat} {b c : BlockId} {labels labels' : Labels} {text text' : String}

def sourceLabel? (f : Function) (b : BlockId) : Option String :=
  f.blocks[b]?.bind Block.label?

theorem label?_procedure (f : Function) (base : Nat) (b : BlockId) :
    (f.procedure base).label? b = f.sourceLabel? b := by
  rw [Procedure.label?, block?_procedure, sourceLabel?]
  cases f.blocks[b]? <;> rfl

def madeLabel (pass : Nat) (b : BlockId) : String :=
  "BB_LABEL_" ++ toString b ++ if pass > 1 then "_" ++ toString pass else ""

theorem labelText_procedure (f : Function) (base pass : Nat) (b : BlockId) :
    (f.procedure base).labelText pass b = (f.sourceLabel? b).getD (madeLabel pass b) := by
  rw [Procedure.labelText, label?_procedure, number_eq]
  cases f.sourceLabel? b <;> rfl

theorem toList_madeLabel (pass : Nat) (b : BlockId) : (madeLabel pass b).toList =
    "BB_LABEL_".toList ++ (b.repr.toList ++ if pass > 1 then '_' :: pass.repr.toList else []) := by
  have mark : (if pass > 1 then "_" ++ toString pass else "").toList =
      if pass > 1 then '_' :: pass.repr.toList else [] := by
    split
    · rw [String.toList_append]
      rfl
    · rfl
  rw [madeLabel, String.toList_append, String.toList_append, mark, List.append_assoc]
  rfl

theorem madeLabel_injective (first : 1 ≤ pass) (first' : 1 ≤ pass')
    (same : madeLabel pass b = madeLabel pass' c) : b = c ∧ pass = pass' := by
  have rest : b.repr.toList ++ (if pass > 1 then '_' :: pass.repr.toList else []) =
      c.repr.toList ++ if pass' > 1 then '_' :: pass'.repr.toList else [] := by
    rw [← List.append_cancel_left_eq "BB_LABEL_".toList, ← toList_madeLabel, ← toList_madeLabel, same]
  by_cases marked : pass > 1
  · by_cases marked' : pass' > 1
    · rw [if_pos marked, if_pos marked'] at rest
      obtain ⟨number, -, mark⟩ :=
        (List.append_cons_inj_of_notMem (underscore_notMem_repr b) (underscore_notMem_repr pass)).1 rest
      exact ⟨repr_injective (String.toList_injective number), repr_injective (String.toList_injective mark)⟩
    · rw [if_pos marked, if_neg marked', List.append_nil] at rest
      exact absurd (rest ▸ by simp) (underscore_notMem_repr c)
  · by_cases marked' : pass' > 1
    · rw [if_neg marked, if_pos marked', List.append_nil] at rest
      exact absurd (rest ▸ by simp) (underscore_notMem_repr b)
    · rw [if_neg marked, if_neg marked', List.append_nil, List.append_nil] at rest
      exact ⟨repr_injective (String.toList_injective rest), by omega⟩

/-- Two labels of a function have one text exactly if they are the label of one block in one pass, or the source gives
one of the blocks the label of the other. -/
theorem label_eq_label_iff (first : 1 ≤ pass) (first' : 1 ≤ pass')
    (assigned : (f.procedure base).assignLabels pass = .ok labels)
    (assigned' : (f.procedure base).assignLabels pass' = .ok labels')
    (named : labels.label b = .ok text) (named' : labels'.label c = .ok text') :
    text = text' ↔ b = c ∧ pass = pass' ∨ f.sourceLabel? b = some text' ∨ f.sourceLabel? c = some text := by
  have kinds (x : BlockId) : (f.procedure base).classified x = .ok ((f.procedure base).kinds x) :=
    classified_kinds (plain_of_assignLabels assigned) x
  have here := Procedure.eq_labelText kinds assigned named
  have there := Procedure.eq_labelText kinds assigned' named'
  rw [labelText_procedure] at here there
  constructor
  · intro same
    cases own : f.sourceLabel? b with
    | some =>
      rw [own, Option.getD_some] at here
      exact .inr (.inl (by rw [← here, same]))
    | none =>
      cases own' : f.sourceLabel? c with
      | some =>
        rw [own', Option.getD_some] at there
        exact .inr (.inr (by rw [← there, same]))
      | none =>
        rw [own, Option.getD_none] at here
        rw [own', Option.getD_none] at there
        exact .inl (madeLabel_injective first first' (by rw [← here, ← there, same]))
  · intro alike
    rcases alike with ⟨rfl, rfl⟩ | own | own'
    · rw [here, there]
    · rw [here, own, Option.getD_some]
    · rw [there, own', Option.getD_some]

def namesake : Function where
  name := "namesake"
  args := ["c"]
  blocks :=
    [⟨"head", [], [⟨none, .label "BB_LABEL_1"⟩, ⟨none, .condbr 0 1 2⟩]⟩,
     ⟨"body", [], [⟨none, .condbr 0 1 0⟩]⟩,
     ⟨"exit", [], [⟨none, .ret none⟩]⟩]

theorem namesake_isRead : namesake.IsRead :=
  .of_pieces ["namesake(%c) \x7b\n", "head:\n label BB_LABEL_1\n condbr %c, ^body, ^exit\n",
      "body:\n condbr %c, ^body, ^head\n", "exit:\n ret\n\x7d\n"] (by decide)

theorem namesake_label_eq : namesake.IsRead ∧ ∃ labels labels' text text',
    (namesake.procedure 0).assignLabels 1 = .ok labels ∧ (namesake.procedure 0).assignLabels 2 = .ok labels' ∧
    labels.label 1 = .ok text ∧ labels'.label 0 = .ok text' ∧ text = text' := by
  have assigned : (namesake.procedure 0).assignLabels 1 = .ok ⟨[(0, "BB_LABEL_1"), (1, "BB_LABEL_1")], []⟩ := rfl
  have assigned' : (namesake.procedure 0).assignLabels 2 = .ok ⟨[(0, "BB_LABEL_1"), (1, "BB_LABEL_1_2")], []⟩ := rfl
  have body : Labels.label ⟨[(0, "BB_LABEL_1"), (1, "BB_LABEL_1")], []⟩ 1 = .ok "BB_LABEL_1" := rfl
  have head : Labels.label ⟨[(0, "BB_LABEL_1"), (1, "BB_LABEL_1_2")], []⟩ 0 = .ok "BB_LABEL_1" := rfl
  exact ⟨namesake_isRead, _, _, _, _, assigned, assigned', body, head,
    (label_eq_label_iff le_rfl one_le_two assigned assigned' body head).2 (.inr (.inr rfl))⟩

end Reflow.Program.FunctionOf
