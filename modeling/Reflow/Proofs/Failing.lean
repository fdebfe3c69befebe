import Mathlib.Tactic.Common

namespace Reflow

theorem exists_eq_ok_of_isOk {α ε : Type} {outcome : Except ε α} (ok : outcome.isOk = true) : ∃ a, outcome = .ok a := by
  cases outcome with
  | ok a => exact ⟨a, rfl⟩
  | error => exact nomatch ok

section Map

variable {α β ε : Type} {g : α → Except ε β} {as : List α} {bs : List β}

theorem mapM_eq_ok {h : α → Option β} (each : ∀ a ∈ as, ∃ b, g a = .ok b ∧ h a = some b) :
    as.mapM g = .ok (as.filterMap h) := by
  induction as with
  | nil => rfl
  | cons a as ih =>
    obtain ⟨b, ok, found⟩ := each a (.head _)
    have rest := ih fun a mem => each a (.tail _ mem)
    rw [List.mapM_cons, ok, List.filterMap_cons_some found]
    simp [rest, Bind.bind, Except.bind, Pure.pure, Except.pure]

theorem mapM_eq_ok_map {h : α → β} (each : ∀ a ∈ as, ∀ b, g a = .ok b → b = h a)
    (mapped : as.mapM g = .ok bs) : bs = as.map h := by
  induction as generalizing bs with
  | nil => simpa [Pure.pure, Except.pure] using mapped.symm
  | cons a as ih =>
    cases first : g a with
    | error => simp [first, Bind.bind, Except.bind] at mapped
    | ok b =>
      cases rest : as.mapM g with
      | error => simp [first, rest, Bind.bind, Except.bind] at mapped
      | ok more =>
        obtain rfl : b :: more = bs := by
          simpa [first, rest, Bind.bind, Except.bind, Pure.pure, Except.pure] using mapped
        rw [List.map_cons, each a (by simp) b first, ih (fun a mem => each a (by simp [mem])) rest]

theorem exists_of_mapM_eq_ok (found : as.mapM g = .ok bs) : ∀ a ∈ as, ∃ b, g a = .ok b := by
  induction as generalizing bs with
  | nil => simp
  | cons a as ih =>
    rw [List.mapM_cons] at found
    cases here : g a with
    | error => simp [here, Bind.bind, Except.bind] at found
    | ok b =>
      cases later : as.mapM g with
      | error => simp [here, later, Bind.bind, Except.bind] at found
      | ok => exact List.forall_mem_cons.2 ⟨⟨b, here⟩, ih later⟩

theorem exists_of_mapM_eq_error {error : ε} (failed : as.mapM g = .error error) : ∃ a ∈ as, g a = .error error := by
  induction as with
  | nil => exact nomatch failed
  | cons a as ih =>
    rw [List.mapM_cons] at failed
    cases first : g a with
    | error other =>
      rw [first] at failed
      obtain rfl : other = error := Except.error.inj failed
      exact ⟨a, .head _, first⟩
    | ok =>
      rw [first] at failed
      cases rest : as.mapM g with
      | ok =>
        rw [rest] at failed
        exact nomatch failed
      | error other =>
        rw [rest] at failed
        obtain rfl : other = error := Except.error.inj failed
        obtain ⟨later, mem, refused⟩ := ih rest
        exact ⟨later, .tail _ mem, refused⟩

end Map

section Fold

variable {α β ε : Type} {f : α → β → Except ε α} {a c : α}

theorem foldlM_append_eq_ok {before after : List β} (folded : (before ++ after).foldlM f a = .ok c) :
    ∃ between, before.foldlM f a = .ok between ∧ after.foldlM f between = .ok c := by
  rw [List.foldlM_append] at folded
  cases first : before.foldlM f a with
  | error => simp [first, Bind.bind, Except.bind] at folded
  | ok between => exact ⟨between, rfl, by simpa [first, Bind.bind, Except.bind] using folded⟩

theorem foldlM_cons_eq_ok {b : β} {rest : List β} (folded : (b :: rest).foldlM f a = .ok c) :
    ∃ between, f a b = .ok between ∧ rest.foldlM f between = .ok c := by
  rw [List.foldlM_cons] at folded
  cases first : f a b with
  | error => simp [first, Bind.bind, Except.bind] at folded
  | ok between => exact ⟨between, rfl, by simpa [first, Bind.bind, Except.bind] using folded⟩

end Fold

end Reflow
