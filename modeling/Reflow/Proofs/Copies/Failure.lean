import Reflow.Proofs.Copies.Walk

namespace Reflow.Procedure

variable {p : Procedure} {b succ incoming : BlockId} {phi : Phi}
  {error : EmitError} {phis : List Phi} {pairs : List Pair}

/-- A phi of a successor of a block takes a value from a block that does not come before that successor. -/
structure TakesUnknown (p : Procedure) (b succ : BlockId) (phi : Phi) (incoming : BlockId) : Prop where
  edge : succ ∈ p.succs b
  member : phi ∈ p.phis succ
  real : phi.isVirtual = false
  taken : incoming ∈ phi.incoming.map (·.1)
  unknown : incoming ∉ p.preds succ

theorem phiPairs_eq_error (failed : p.phiPairs b succ phis = .error error) :
    ∃ phi ∈ phis, phi.isVirtual = false ∧ ∃ incoming ∈ phi.incoming.map (·.1), incoming ∉ p.preds succ ∧
      error = .unknownPhiPredecessor (p.reported phi.var) incoming succ := by
  induction phis with
  | nil => exact nomatch failed
  | cons phi phis ih =>
    rw [phiPairs] at failed
    split at failed
    · obtain ⟨later, member, taken⟩ := ih failed
      exact ⟨later, .tail _ member, taken⟩
    · rename_i real
      cases found : phi.incoming.find? fun slot => slot.1 ∉ p.preds succ with
      | some slot =>
        rw [found] at failed
        exact ⟨phi, .head _, by simpa using real, slot.1,
          List.mem_map_of_mem (List.mem_of_find?_eq_some found), by simpa using List.find?_some found,
          (Except.error.inj failed).symm⟩
      | none =>
        rw [found] at failed
        cases rest : p.phiPairs b succ phis with
        | error other =>
          rw [rest] at failed
          obtain rfl : other = error := Except.error.inj failed
          obtain ⟨later, member, taken⟩ := ih rest
          exact ⟨later, .tail _ member, taken⟩
        | ok =>
          rw [rest] at failed
          cases source : phi.incomingFrom b with
          | none | some => simp only [source] at failed; exact nomatch failed

theorem mem_preds_of_phiPairs (edges : p.phiPairs b succ phis = .ok pairs)
    (member : phi ∈ phis) (real : phi.isVirtual = false) (taken : incoming ∈ phi.incoming.map (·.1)) :
    incoming ∈ p.preds succ := by
  induction phis generalizing pairs with
  | nil => exact nomatch member
  | cons first phis ih =>
    rw [phiPairs] at edges
    split at edges
    · rename_i isVirtual
      rcases List.mem_cons.1 member with rfl | later
      · exact absurd isVirtual (by simp [real])
      · exact ih edges later
    · cases found : first.incoming.find? fun slot => slot.1 ∉ p.preds succ with
      | some =>
        rw [found] at edges
        exact nomatch edges
      | none =>
        rw [found] at edges
        rcases List.mem_cons.1 member with rfl | later
        · obtain ⟨slot, listed, rfl⟩ := List.mem_map.1 taken
          simpa using List.find?_eq_none.1 found slot listed
        · cases rest : p.phiPairs b succ phis with
          | error => simp [rest, Bind.bind, Except.bind] at edges
          | ok => exact ih rest later

theorem edgePairs_eq_error (failed : p.edgePairs b = .error error) :
    ∃ succ phi incoming, p.TakesUnknown b succ phi incoming ∧
      error = .unknownPhiPredecessor (p.reported phi.var) incoming succ := by
  rw [edgePairs] at failed
  cases each : (p.succs b).mapM fun succ => p.phiPairs b succ (p.phis succ) with
  | ok => simp [each, Except.map] at failed
  | error other =>
    rw [each] at failed
    obtain rfl : other = error := Except.error.inj failed
    obtain ⟨succ, edge, here⟩ := exists_of_mapM_eq_error each
    obtain ⟨phi, member, real, incoming, taken, unknown, rfl⟩ := phiPairs_eq_error here
    exact ⟨succ, phi, incoming, ⟨edge, member, real, taken, unknown⟩, rfl⟩

theorem not_takesUnknown (edges : p.edgePairs b = .ok pairs) :
    ¬ p.TakesUnknown b succ phi incoming := by
  intro takes
  rw [edgePairs] at edges
  cases each : (p.succs b).mapM fun succ => p.phiPairs b succ (p.phis succ) with
  | error => simp [each, Except.map] at edges
  | ok =>
    obtain ⟨pairs, here⟩ := exists_of_mapM_eq_ok each succ takes.edge
    exact takes.unknown (mem_preds_of_phiPairs here takes.member takes.real takes.taken)

theorem exists_edgePairs (known : ∀ succ phi incoming, ¬ p.TakesUnknown b succ phi incoming) :
    ∃ pairs, p.edgePairs b = .ok pairs := by
  cases edges : p.edgePairs b with
  | ok pairs => exact ⟨pairs, rfl⟩
  | error =>
    obtain ⟨succ, phi, incoming, takes, -⟩ := edgePairs_eq_error edges
    exact absurd takes (known succ phi incoming)

def MeetsUnknown (p : Procedure) : Prop :=
  ∃ b succ phi incoming, p.Reachable b ∧ p.TakesUnknown b succ phi incoming

theorem Enters.reachable {fuel : Nat} {stack stack' : Rename.Stack} {walk walk' : CopyWalk} {b b' : BlockId}
    (enters : p.Enters p.analysis.toFacts fuel stack walk b stack' walk' b') (reach : p.Reachable b) :
    p.Reachable b' := by
  induction enters with
  | here => exact reach
  | inside _ _ children _ _ ih =>
    have child := mem_children_iff.1 (children ▸ List.mem_append_right _ (.head _))
    exact ih child.reached

theorem copies_eq_error (failed : p.copies p.analysis.toFacts = .error error) :
    ∃ b succ phi incoming, p.Reachable b ∧ p.TakesUnknown b succ phi incoming ∧
      error = .unknownPhiPredecessor (p.reported phi.var) incoming succ := by
  have outcome := p.walk_outcome
  rw [copies_eq] at failed
  generalize p.walkBelow p.analysis.toFacts _ [] {} p.entry = result at outcome failed
  cases outcome with
  | visits => exact nomatch failed
  | @fails other b reach edges =>
    obtain rfl : other = error := Except.error.inj failed
    obtain ⟨succ, phi, incoming, takes, named⟩ := edgePairs_eq_error edges
    exact ⟨b, succ, phi, incoming, reach, takes, named⟩

theorem exists_copies_iff : (∃ c, p.copies p.analysis.toFacts = .ok c) ↔ ¬ p.MeetsUnknown := by
  constructor
  · rintro ⟨c, copied⟩ ⟨b, succ, phi, incoming, reach, takes⟩
    obtain ⟨last, walked, -⟩ := copies_eq_ok copied
    have outcome := p.walk_outcome
    rw [walked] at outcome
    obtain ⟨added, -, -, -, edges⟩ := outcome
    obtain ⟨pairs, found⟩ := edges b reach
    exact not_takesUnknown found takes
  · intro known
    apply exists_copies_ok
    intro b reach
    exact exists_edgePairs fun succ phi incoming takes => known ⟨b, succ, phi, incoming, reach, takes⟩

/-- The copies of a procedure can be placed unless a phi takes a value from an unknown predecessor. -/
theorem copies_fails_exactly_on_unknown (p : Procedure) :
    let facts := p.analysis.toFacts
    let walked := p.walkWithin facts ((facts.domChildren.flatMap (·.2)).length + 1) ([], {}) p.entry
    (∀ stack walk b, p.EntersBlock facts stack walk b → p.Reachable b) ∧ (∀ names last, walked = .ok (names, last) →
        names = [] ∧ last.visited.Nodup ∧ ∀ b, b ∈ last.visited ↔ p.Reachable b) ∧
      (∀ b, p.copies facts ≠ .error (.reachedTwice b)) ∧
      (∀ error, p.copies facts = .error error → ∃ b succ phi incoming, p.Reachable b ∧
        p.TakesUnknown b succ phi incoming ∧ error = .unknownPhiPredecessor (p.reported phi.var) incoming succ) ∧
      ((∃ phi incoming succ, p.copies facts = .error (.unknownPhiPredecessor phi incoming succ)) ↔ p.MeetsUnknown) ∧
      ((∃ last, walked = .ok ([], last) ∧ p.copies facts = .ok last.copies) ↔ ¬ p.MeetsUnknown) ∧
      ∀ a b, p.Reachable b → (facts.dominates a b = true ↔ ∀ nodes, p.flow.Path p.entry b nodes → a ∈ nodes) := by
  intro facts walked
  have below : walked = (p.walkBelow facts ((facts.domChildren.flatMap (·.2)).length + 1) [] {} p.entry).map
      fun last => ([], last) := walkWithin_eq (List.forall_mem_nil _) _ _ _
  refine ⟨fun stack walk b enters => Enters.reachable enters reachable_entry, ?_, ?_, fun error => copies_eq_error,
    ?_, ?_, fun a b => dominates_iff⟩
  · intro names last succeeds
    have outcome := p.walk_outcome
    rw [below] at succeeds
    generalize p.walkBelow facts _ [] {} p.entry = result at outcome succeeds
    cases outcome with
    | @visits _ _ visited nodup members =>
      obtain ⟨rfl, rfl⟩ := Prod.mk.inj (Except.ok.inj succeeds)
      rw [visited, List.append_nil]
      exact ⟨rfl, nodup, members⟩
    | fails => exact nomatch succeeds
  · intro b failed
    obtain ⟨_, _, _, _, _, _, other⟩ := copies_eq_error failed
    exact nomatch other
  · constructor
    · rintro ⟨n, x, y, failed⟩
      obtain ⟨b, succ, phi, incoming, reach, takes, -⟩ := copies_eq_error failed
      exact ⟨b, succ, phi, incoming, reach, takes⟩
    · intro meets
      cases copied : p.copies facts with
      | ok c => exact absurd meets (exists_copies_iff.1 ⟨c, copied⟩)
      | error =>
        obtain ⟨b, succ, phi, incoming, -, -, rfl⟩ := copies_eq_error copied
        exact ⟨_, _, _, rfl⟩
  · rw [← exists_copies_iff]
    constructor
    · rintro ⟨last, -, copied⟩
      exact ⟨_, copied⟩
    · rintro ⟨c, copied⟩
      obtain ⟨last, succeeds, rfl⟩ := copies_eq_ok copied
      exact ⟨last, by rw [below, succeeds]; rfl, copied⟩

end Reflow.Procedure
