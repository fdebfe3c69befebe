import Reflow.Proofs.Copies.Names
import Reflow.Proofs.Copies.Reads

namespace Reflow

theorem filter_eq_singleton {α β : Type} [DecidableEq β] {g : α → β} {as : List α} (nodup : (as.map g).Nodup) {a : α}
    (mem : a ∈ as) : as.filter (g · = g a) = [a] := by
  induction as with
  | nil => cases mem
  | cons first as ih =>
    obtain ⟨new, nodup⟩ := List.nodup_cons.1 nodup
    rcases List.mem_cons.1 mem with rfl | later
    · rw [List.filter_cons_of_pos (by simp), List.filter_eq_nil_iff.2]
      exact fun other listed same => new (of_decide_eq_true same ▸ List.mem_map_of_mem listed)
    · have other : g first ≠ g a := fun same => new (same ▸ List.mem_map_of_mem later)
      rw [List.filter_cons_of_neg (by simpa using other), ih nodup later]

namespace Copies.Accounts

variable {p : Procedure} {known : String → Prop} {c : Copies}

theorem reported_nodup (accounts : c.Accounts p known) : c.reported.Nodup := by
  rw [accounts.fresh]
  exact List.nodup_range.map p.freshName_injective

theorem not_mem_identifiers (accounts : c.Accounts p known) {name : String} (reported : name ∈ c.reported) :
    name ∉ p.identifiers := by
  rw [accounts.fresh] at reported
  obtain ⟨n, -, rfl⟩ := List.mem_map.1 reported
  exact p.freshName_not_mem n

theorem filter_lines (accounts : c.Accounts p known) (identified : ∀ name, known name → name ∈ p.identifiers)
    {t : Temporary} (mem : t ∈ c.temporaries) : c.lines.filter (·.dest = t.name) = [t.line p] := by
  obtain ⟨others, perm, ends⟩ := accounts.lines
  have own : (c.temporaries.map (·.line p)).filter (·.dest = t.name) = [t.line p] := by
    rw [List.filter_map]
    exact congrArg (List.map _) (filter_eq_singleton accounts.reported_nodup mem)
  have none : others.filter (·.dest = t.name) = [] := by
    rw [List.filter_eq_nil_iff]
    intro line other same
    have reported : t.name ∈ c.reported := List.mem_map_of_mem mem
    exact accounts.not_mem_identifiers reported (of_decide_eq_true same ▸ identified _ (ends line other))
  have split := perm.filter (·.dest = t.name)
  rw [List.filter_append, own, none] at split
  exact List.perm_singleton.1 split

end Copies.Accounts

namespace Program.FunctionOf

variable {f : Function} {base : Nat} {facts : Facts} {c : Copies}

def valueNames (f : Function) : List String :=
  f.values.filterMap (·.name?)

theorem IsNamed.mem_valueNames {v : Var} {name : String} (named : f.IsNamed v name) : f.valueName v ∈ f.valueNames := by
  rw [named.valueName_eq]
  obtain ⟨value, found, named⟩ := named
  exact List.mem_filterMap.2 ⟨value, List.mem_of_getElem? found, named⟩

theorem WellFormed.copies_accounts (wf : f.WellFormed) (copied : (f.procedure base).copies facts = .ok c) :
    c.Accounts (f.procedure base) (· ∈ f.valueNames) := by
  refine Procedure.copies_accounts (fun b pairs edges pair mem => ?_) copied
  obtain ⟨⟨src, source⟩, dest, target⟩ :=
    isNamed_of_isEdgeCopy wf ((Procedure.mem_edgePairs_iff edges).1 mem)
  exact ⟨source.mem_valueNames, target.mem_valueNames⟩

/-- The temporaries of a function have different names, which no value and no block of it has. -/
theorem IsRead.temporaries_reported (read : f.IsRead) (copied : (f.procedure base).copies facts = .ok c) :
    c.reported.Nodup ∧
    (∀ t ∈ c.temporaries, t.name ∉ f.valueNames ∧ t.name ∉ f.blocks.map (·.name) ∧
      c.lines.filter (·.dest = t.name) = [⟨t.name, (f.procedure base).varName t.like⟩]) ∧
    (∀ line ∈ c.lines, (line.dest ∈ f.valueNames ∨ line.dest ∈ c.reported) ∧
      (line.source ∈ f.valueNames ∨ line.source ∈ c.reported)) ∧
    ∀ entry ∈ c.renamings, ∀ entry' ∈ entry.2, ∀ name ∈ entry'.2, name ∈ f.valueNames ∨ name ∈ c.reported := by
  have accounts := read.wellFormed.copies_accounts copied
  refine ⟨accounts.reported_nodup, fun t mem => ?_, fun line mem => ?_, fun entry mem entry' inside name held => ?_⟩
  · have other := accounts.not_mem_identifiers (List.mem_map_of_mem mem : t.name ∈ c.reported)
    refine ⟨fun value => other (List.mem_append_left _ value), fun block => other (List.mem_append_right _ block), ?_⟩
    exact accounts.filter_lines (fun name value => List.mem_append_left _ value) mem
  · exact ⟨accounts.dests line mem, accounts.sources line mem⟩
  · exact .inr (accounts.renamings entry mem entry' inside name held)

theorem swapLatch_temporaries : ∃ c, (swapLatch.procedure 0).copies (swapLatch.procedure 0).analysis.toFacts = .ok c ∧
    c.temporaries = [⟨"__t__0_0", 3⟩, ⟨"__t__1_0", 4⟩, ⟨"__t__2_0", 3⟩] ∧ c.reported.Nodup ∧
    ∀ t ∈ c.temporaries, c.lines.filter (·.dest = t.name) = [⟨t.name, (swapLatch.procedure 0).varName t.like⟩] := by
  have computed : ((swapLatch.procedure 0).copies (swapLatch.procedure 0).analysis.toFacts).toOption.map
      (·.temporaries) = some [⟨"__t__0_0", 3⟩, ⟨"__t__1_0", 4⟩, ⟨"__t__2_0", 3⟩] := by decide +kernel
  cases copied : (swapLatch.procedure 0).copies (swapLatch.procedure 0).analysis.toFacts with
  | error => simp [copied, Except.toOption] at computed
  | ok c =>
    rw [copied] at computed
    obtain ⟨nodup, each, -⟩ := swapLatch_isRead.temporaries_reported copied
    exact ⟨c, rfl, Option.some.inj computed, nodup, fun t mem => (each t mem).2.2⟩

end Program.FunctionOf

end Reflow
