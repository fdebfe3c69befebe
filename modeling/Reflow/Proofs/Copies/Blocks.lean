import Reflow.Proofs.Copies.Saves

namespace Reflow

structure Copies.Within (blocks : BlockId → Prop) (c : Copies) : Prop where
  saves : ∀ entry ∈ c.saves, blocks entry.1
  tails : ∀ entry ∈ c.tails, blocks entry.1

theorem sum_length_filter_eq {β : Type} {order : List BlockId} (nodup : order.Nodup) {entries : List (BlockId × β)}
    (listed : ∀ entry ∈ entries, entry.1 ∈ order) :
    (order.map fun b => (entries.filter (·.1 = b)).length).sum = entries.length := by
  induction entries with
  | nil => simp
  | cons entry entries ih =>
    have one : (order.map fun b => if entry.1 = b then 1 else 0).sum = 1 := by
      rw [List.sum_map_eq_nsmul_single entry.1 _ fun b other _ => if_neg other.symm,
        List.count_eq_one_of_mem nodup (listed entry (.head _))]
      simp
    have split (b : BlockId) : ((entry :: entries).filter (·.1 = b)).length =
        (if entry.1 = b then 1 else 0) + (entries.filter (·.1 = b)).length := by
      by_cases same : entry.1 = b <;> simp [same, Nat.add_comm]
    simp only [split]
    rw [List.sum_map_add, one, ih fun entry mem => listed entry (.tail _ mem), List.length_cons, Nat.add_comm]

namespace Schedule

variable {p : Procedure} {facts : Facts} {b : BlockId}

theorem mem_tails_run {s : Schedule} {blocks : BlockId → Prop} (here : blocks b)
    (within : ∀ entry ∈ s.copies.tails, blocks entry.1) (fuel : Nat) :
    ∀ entry ∈ (s.runWithin p facts b fuel).copies.tails, blocks entry.1 := by
  have performed (s : Schedule) (pair : Pair) (within : ∀ entry ∈ s.copies.tails, blocks entry.1) :
      ∀ entry ∈ (s.perform p facts b pair).copies.tails, blocks entry.1 := by
    have saved : (s.saveLost p facts b pair).copies.tails = s.copies.tails := by
      rw [saveLost]
      split <;> rfl
    obtain ⟨lines, wrote⟩ := Logs.exists_wrote (p := p) (b := b) (s.saveLost p facts b pair) pair
    intro entry mem
    have mem : entry ∈ s.copies.tails ++ lines.map fun copy => (b, copy) := by
      rw [← saved, ← wrote.tails]
      exact mem
    rcases List.mem_append.1 mem with old | new
    · exact within entry old
    · obtain ⟨copy, -, rfl⟩ := List.mem_map.1 new
      exact here
  refine runWithin_invariant (fun s => ∀ entry ∈ s.copies.tails, blocks entry.1) ?_ ?_ fuel s within
  · intro s pair rest within _
    exact performed _ pair within
  · intro s pair rest within _ _
    refine performed _ pair fun entry mem => ?_
    rw [breakCycle] at mem
    split at mem
    · rcases List.mem_append.1 mem with old | new
      · exact within entry old
      · rw [List.mem_singleton.1 new]
        exact here
    · exact within entry mem

end Schedule

namespace Procedure

variable {p : Procedure} {facts : Facts} {b : BlockId} {stack names : Rename.Stack} {walk next last : CopyWalk}
    {c : Copies}

theorem placeNames_within {blocks : BlockId → Prop} (here : blocks b) (below : ∀ x ∈ p.succs b, blocks x)
    (placed : p.placeNames facts b stack walk = .ok (names, next)) (within : walk.copies.Within blocks) :
    next.copies.Within blocks := by
  cases edges : p.edgePairs b with
  | error => simp [placeNames, placeCopies, Except.map, schedule, edges, Bind.bind, Except.bind] at placed
  | ok pairs =>
    simp only [placeNames, placeCopies, Except.map, schedule, edges, Bind.bind, Except.bind, Pure.pure, Except.pure,
      Except.ok.injEq, Prod.mk.injEq] at placed
    obtain ⟨rfl, rfl⟩ := placed
    obtain ⟨saved, saves⟩ := Schedule.run_saves p facts b pairs stack walk.copies
    have done : ((Schedule.start pairs stack walk.copies).runWithin p facts b pairs.length).copies.Within blocks := by
      refine ⟨?_, Schedule.mem_tails_run here within.tails pairs.length⟩
      rw [saves.lines]
      intro entry mem
      rcases List.mem_append.1 mem with old | new
      · exact within.saves entry old
      · obtain ⟨⟨pair, name⟩, listed, rfl⟩ := List.mem_map.1 new
        exact below _ ((mem_edgePairs_iff edges).1 (saves.lost _ listed).1).edge
    dsimp only
    split
    · exact done
    · exact ⟨done.saves, done.tails⟩

theorem count_copies (copied : p.copies p.analysis.toFacts = .ok c) :
    c.count = (p.analysis.order.map fun b => (c.saved b).length + (c.tail b).length).sum := by
  obtain ⟨last, walked, rfl⟩ := copies_eq_ok copied
  have within : last.copies.Within p.Reachable := by
    refine walkBelow_keeps p.Reachable (fun _ walk => walk.copies.Within p.Reachable) ?_ ?_
      (Digraph.Reaches.refl p.entry) ⟨by simp, by simp⟩ walked [] ⟨by simp, by simp⟩
    · exact fun b _ child mem => (mem_children_iff.1 mem).reached
    · intro b stack walk names next reach within placed
      have here := placeNames_within reach (fun x edge => reach.succ edge) placed within
      exact ⟨here, fun _ _ => here⟩
  have saves := sum_length_filter_eq order_nodup fun entry mem => mem_order_iff.2 (within.saves entry mem)
  have tails := sum_length_filter_eq order_nodup fun entry mem => mem_order_iff.2 (within.tails entry mem)
  rw [Copies.count, ← saves, ← tails, ← List.sum_map_add]
  simp [Copies.saved, Copies.tail]

end Procedure

end Reflow
