import Mathlib.Tactic
import Reflow.Copies.Basic

namespace Reflow

theorem mem_of_lookup {α β : Type} [BEq α] [LawfulBEq α] {entries : List (α × β)} {a : α} {b : β}
    (found : entries.lookup a = some b) : (a, b) ∈ entries := by
  obtain ⟨before, after, rfl, -⟩ := List.lookup_eq_some_iff.1 found
  simp

section Run

variable {α : Type}

def Copy.run (env : String → α) (copy : Copy) : String → α :=
  Function.update env copy.dest (env copy.source)

def Copy.runAll (env : String → α) (copies : List Copy) : String → α :=
  copies.foldl Copy.run env

variable (env : String → α) (copies : List Copy)

@[simp]
theorem Copy.runAll_nil : runAll env [] = env :=
  rfl

@[simp]
theorem Copy.runAll_cons (copy : Copy) : runAll env (copy :: copies) = runAll (copy.run env) copies :=
  rfl

theorem Copy.runAll_append (more : List Copy) : runAll env (copies ++ more) = runAll (runAll env copies) more :=
  List.foldl_append

theorem Copy.runAll_concat (copy : Copy) :
    runAll env (copies ++ [copy]) = Function.update (runAll env copies) copy.dest (runAll env copies copy.source) := by
  rw [runAll_append]
  rfl

theorem Copy.runAll_of_not_mem {name : String} (kept : name ∉ copies.map (·.dest)) :
    runAll env copies name = env name := by
  induction copies generalizing env with
  | nil => rfl
  | cons _ _ ih =>
    rw [List.map_cons, List.mem_cons, not_or] at kept
    rw [runAll_cons, ih _ kept.2, Copy.run, Function.update_of_ne kept.1]

end Run

theorem repr_injective : Function.Injective Nat.repr := by
  intro m n same
  have digits := congrArg String.toList same
  rw [Nat.toList_repr, Nat.toList_repr] at digits
  rw [← Nat.ofDigitChars_toDigits (b := 10) (n := m) (by omega) le_rfl, digits,
    Nat.ofDigitChars_toDigits (by omega) le_rfl]

theorem underscore_notMem_repr (n : Nat) : '_' ∉ n.repr.toList := by
  intro mem
  rw [Nat.toList_repr] at mem
  have digit := Nat.isDigit_of_mem_toDigits (by omega) (by omega) mem
  simp at digit

theorem temporaryName_injective {n k n' k' : Nat}
    (same : temporaryName n k = temporaryName n' k') : n = n' ∧ k = k' := by
  have chars (n k : Nat) : (temporaryName n k).toList = "__t__".toList ++ (n.repr.toList ++ '_' :: k.repr.toList) := by
    simp [temporaryName, toString, String.toList_append]
  have tails : n.repr.toList ++ '_' :: k.repr.toList = n'.repr.toList ++ '_' :: k'.repr.toList := by
    rw [← List.append_cancel_left_eq "__t__".toList, ← chars, ← chars, same]
  obtain ⟨first, -, second⟩ :=
    (List.append_cons_inj_of_notMem (underscore_notMem_repr n) (underscore_notMem_repr k)).1 tails
  exact ⟨repr_injective (String.toList_injective first), repr_injective (String.toList_injective second)⟩

theorem Procedure.exists_freshName (p : Procedure) (n : Nat) :
    ∃ k, p.freshName n = temporaryName n k ∧ temporaryName n k ∉ p.identifiers := by
  have free : ∃ k ∈ List.range (p.identifiers.length + 1), temporaryName n k ∉ p.identifiers := by
    by_contra taken
    push Not at taken
    have nodup : ((List.range (p.identifiers.length + 1)).map (temporaryName n)).Nodup :=
      List.nodup_range.map fun _ _ same => (temporaryName_injective same).2
    have subset : (List.range (p.identifiers.length + 1)).map (temporaryName n) ⊆ p.identifiers := by
      intro name mem
      obtain ⟨k, listed, rfl⟩ := List.mem_map.1 mem
      exact taken k listed
    have short := (nodup.subperm subset).length_le
    simp at short
  obtain ⟨k, found⟩ : ∃ k, (List.range (p.identifiers.length + 1)).find?
      (fun k => temporaryName n k ∉ p.identifiers) = some k := by
    rw [← Option.isSome_iff_exists, List.find?_isSome]
    simpa using free
  refine ⟨k, by rw [freshName, found, Option.getD_some], ?_⟩
  simpa using List.find?_some found

theorem Procedure.freshName_not_mem (p : Procedure) (n : Nat) : p.freshName n ∉ p.identifiers := by
  obtain ⟨k, name, fresh⟩ := p.exists_freshName n
  exact name ▸ fresh

theorem Procedure.freshName_injective (p : Procedure) : Function.Injective p.freshName := by
  intro m n same
  obtain ⟨k, name, -⟩ := p.exists_freshName m
  obtain ⟨k', name', -⟩ := p.exists_freshName n
  exact (temporaryName_injective (name.symm.trans (same.trans name'))).1

end Reflow
