import Reflow.Copies.Schedule
import Reflow.Proofs.Analysis.Liveness

namespace Reflow.Procedure

variable {p : Procedure} {b d : BlockId} {v : Var}

structure Strict (p : Procedure) : Prop where
  reads : ∀ b v d, p.Reachable b → p.ReadsFirst b v → p.Defines d v → d ≠ b ∧ p.Dominates d b
  passes : ∀ b v d, p.Reachable b → p.PassesOn b v → p.Defines d v → p.Dominates d b

theorem mem_liveIn_iff (reach : p.Reachable b) : v ∈ p.analysis.liveIn b ↔ p.LiveOnEntry b v := by
  obtain ⟨live, complete, -, ins, -⟩ := p.analysis_tables
  rw [Facts.liveIn, ins]
  exact complete.sweep.1.mem_ins_iff (Nat.le_succ _) reach

theorem Strict.dominates_of_liveOnEntry (strict : p.Strict) (reach : p.Reachable b) (live : p.LiveOnEntry b v)
    (defines : p.Defines d v) : d ≠ b ∧ p.Dominates d b := by
  obtain ⟨nodes, last, path, unwritten, read⟩ := live
  have reached : p.Reachable last := reach.trans ⟨nodes, path⟩
  have above : d ≠ last ∧ p.Dominates d last := by
    rcases read with reads | ⟨kept, passes⟩
    · exact strict.reads last v d reached reads defines
    · exact ⟨fun same => kept (same ▸ defines), strict.passes last v d reached passes defines⟩
  -- No block on the path to the read is the one that defines the variable.
  have apart : d ∉ nodes := by
    intro mem
    rcases path.eq_single_or_last with ⟨-, rfl⟩ | ⟨-, before, -, -, rfl⟩
    · exact above.1 (List.mem_singleton.1 mem)
    · rcases List.mem_append.1 mem with inner | isLast
      · exact unwritten d (by simpa using inner) defines
      · exact above.1 (List.mem_singleton.1 isLast)
  refine ⟨fun same => apart (same ▸ path.left_mem), fun way toBlock => ?_⟩
  obtain ⟨whole, joined, members⟩ := toBlock.trans path
  exact ((members d).1 (above.2 whole joined)).resolve_right apart

theorem Strict.dominates_of_isLost (strict : p.Strict) (lost : Schedule.isLost p.analysis.toFacts b v = true)
    (defines : p.Defines d v) : p.Dominates d b := by
  obtain ⟨child, listed, wanted⟩ := List.any_eq_true.1 lost
  obtain ⟨-, live⟩ := Bool.and_eq_true_iff.1 wanted
  have idom := mem_children_iff.1 listed
  have live : p.LiveOnEntry child v := (mem_liveIn_iff idom.reached).1 (of_decide_eq_true live)
  obtain ⟨ne, above⟩ := strict.dominates_of_liveOnEntry idom.reached live defines
  exact idom.closest d ne above

theorem mem_blockIds_of_mem {α : Type} {part : Block → List α} {a : α}
    (mem : a ∈ (p.block? b).elim [] part) : b ∈ p.blockIds := by
  cases found : p.block? b with
  | none => simp [found] at mem
  | some block =>
    obtain rfl : block.id = b := by simpa using List.find?_some found
    exact List.mem_map_of_mem (List.mem_of_find?_eq_some found)

theorem Defines.mem_blockIds (defines : p.Defines b v) : b ∈ p.blockIds := by
  rcases defines with ⟨phi, listed, -⟩ | ⟨stmt, listed, -⟩
  · exact mem_blockIds_of_mem listed
  · exact mem_blockIds_of_mem listed

theorem Strict.of_accesses (accesses : ∀ b ∈ p.blockIds, ∀ d ∈ p.blockIds, ∀ v ∈ (p.access d).defined,
      (v ∈ (p.access b).reads → d ≠ b ∧ p.analysis.dominates d b = true) ∧
        (v ∈ (p.access b).edgeReads → p.analysis.dominates d b = true)) : p.Strict where
  reads := by
    intro b v d _ reads defines
    have here : b ∈ p.blockIds := by
      obtain ⟨-, before, stmt, after, stmts, -⟩ := reads
      exact mem_blockIds_of_mem (show stmt ∈ p.stmts b by simp [stmts])
    obtain ⟨first, -⟩ := accesses b here d defines.mem_blockIds v (mem_access_defined.2 defines)
    obtain ⟨ne, above⟩ := first (mem_access_reads.2 reads)
    exact ⟨ne, dominates_of_isAboveWithin above⟩
  passes := by
    intro b v d _ passes defines
    have here : b ∈ p.blockIds := by
      obtain ⟨succ, edge, -⟩ := passes
      exact mem_blockIds_of_mem edge
    obtain ⟨-, second⟩ := accesses b here d defines.mem_blockIds v (mem_access_defined.2 defines)
    exact dominates_of_isAboveWithin (second (mem_access_edgeReads.2 passes))

end Reflow.Procedure
