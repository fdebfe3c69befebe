import Reflow.Proofs.Copies.Lines
import Reflow.Proofs.Copies.Simultaneous

namespace Reflow

namespace Schedule

variable {p : Procedure} {facts : Facts} {b : BlockId} {pairs : List Pair} {stack : Rename.Stack} {copies : Copies}
  {saved : List (Pair × String)} {s : Schedule} {pair : Pair}

/-- The invariant of an ordering that has saved the destinations of some copies into temporaries, where `flight` is the
copy being done. -/
structure Saves (p : Procedure) (facts : Facts) (b : BlockId) (pairs : List Pair)
    (copies : Copies) (saved : List (Pair × String)) (flight : List Pair) (s : Schedule) : Prop where
  pending : ∀ pair ∈ flight ++ (s.ready ++ s.blocked), pair ∈ pairs
  lost : ∀ entry ∈ saved, entry.1 ∈ pairs ∧ isLost facts b entry.1.dest = true
  covers : ∀ pair ∈ pairs, isLost facts b pair.dest = true →
    pair ∈ flight ++ (s.ready ++ s.blocked) ∨ pair.dest ∈ saved.map (·.1.dest)
  once : (saved.map (·.1.dest)).Nodup
  pushed : s.scope.pushed = (saved.map (·.1.dest)).reverse
  lines : s.copies.saves =
    copies.saves ++ saved.map fun entry => (entry.1.target, ⟨entry.2, p.varName entry.1.dest⟩)

namespace Saves

variable {rest : List Pair}

theorem take_ready (saves : Saves p facts b pairs copies saved [] s)
    (first : s.ready = pair :: rest) : Saves p facts b pairs copies saved [pair] { s with ready := rest } :=
  { saves with
    pending := by simpa [first] using saves.pending
    covers := by simpa [first] using saves.covers }

theorem take_blocked (saves : Saves p facts b pairs copies saved [] s)
    (none : s.ready = []) (first : s.blocked = pair :: rest) :
    Saves p facts b pairs copies saved [pair] ({ s with blocked := rest }.breakCycle p b pair) := by
  have scope : ({ s with blocked := rest }.breakCycle p b pair).scope = s.scope := by
    rw [breakCycle]
    split <;> rfl
  have lines : ({ s with blocked := rest }.breakCycle p b pair).copies.saves = s.copies.saves := by
    rw [breakCycle]
    split <;> rfl
  exact { saves with
    pending := by simpa [none, first] using saves.pending
    covers := by simpa [none, first] using saves.covers
    pushed := (congrArg Rename.Scope.pushed scope).trans saves.pushed
    lines := lines.trans saves.lines }

theorem saveLost (saves : Saves p facts b pairs copies saved [pair] s) :
    ∃ saved', Saves p facts b pairs copies saved' [pair] (s.saveLost p facts b pair) ∧
      (isLost facts b pair.dest = true → pair.dest ∈ saved'.map (·.1.dest)) := by
  rw [Schedule.saveLost]
  split
  · rename_i fresh
    obtain ⟨lost, unsaved⟩ := Bool.and_eq_true_iff.1 fresh
    have new : pair.dest ∉ saved.map (·.1.dest) := by
      simpa [Rename.Scope.hasPushed, saves.pushed] using unsaved
    refine ⟨saved ++ [(pair, p.freshName s.copies.temporaries.length)], ?_, fun _ => by simp⟩
    exact { saves with
      lost := by
        intro entry listed
        rcases List.mem_append.1 listed with old | new
        · exact saves.lost entry old
        · rw [List.mem_singleton.1 new]
          exact ⟨saves.pending pair (by simp), lost⟩
      covers := fun q listed lost => (saves.covers q listed lost).imp_right fun old =>
        List.map_append ▸ List.mem_append_left _ old
      once := by
        rw [List.map_append]
        refine List.Nodup.append saves.once (List.nodup_singleton _) ?_
        simpa [List.disjoint_singleton] using new
      pushed := by simp [newTemporary, Rename.Scope.push, saves.pushed]
      lines := by simp [newTemporary, saves.lines] }
  · rename_i known
    refine ⟨saved, saves, fun lost => ?_⟩
    simpa [lost, Rename.Scope.hasPushed, saves.pushed] using known

theorem perform (saves : Saves p facts b pairs copies saved [pair] s) :
    ∃ saved', Saves p facts b pairs copies saved' [] (s.perform p facts b pair) := by
  obtain ⟨saved', saves', found⟩ := saves.saveLost
  obtain ⟨lines, wrote⟩ := Logs.exists_wrote (p := p) (b := b) (s.saveLost p facts b pair) pair
  have pending (q : Pair) : q ∈ (s.perform p facts b pair).ready ++ (s.perform p facts b pair).blocked ↔
      q ∈ (s.saveLost p facts b pair).ready ++ (s.saveLost p facts b pair).blocked := by
    by_cases reads : q.dest = pair.src <;> simp [Schedule.perform, release, wrote.ready, wrote.blocked, reads]
  refine ⟨saved', ?_⟩
  exact {
    pending := fun q mem => saves'.pending q (List.mem_append_right _ ((pending q).1 mem))
    lost := saves'.lost
    covers := by
      intro q listed lost
      rcases saves'.covers q listed lost with left | done
      · rcases List.mem_cons.1 left with rfl | left
        · exact .inr (found lost)
        · exact .inl ((pending q).2 left)
      · exact .inr done
    once := saves'.once
    pushed := (congrArg Rename.Scope.pushed wrote.scope).trans saves'.pushed
    lines := wrote.saves.trans saves'.lines }

theorem of_start (pairs : List Pair) (stack : Rename.Stack) (copies : Copies) :
    Saves p facts b pairs copies [] [] (start pairs stack copies) where
  pending := by
    intro pair mem
    simp only [start, List.partition_eq_filter_filter, List.nil_append, List.mem_append, List.mem_filter] at mem
    tauto
  lost := by simp
  covers := by
    intro pair mem _
    by_cases read : pairs.any (·.src = pair.dest) = true <;> simp [start, mem, read]
  once := List.nodup_nil
  pushed := rfl
  lines := by simp [start]

end Saves

theorem run_saves (p : Procedure) (facts : Facts) (b : BlockId) (pairs : List Pair) (stack : Rename.Stack)
    (copies : Copies) : ∃ saved, Saves p facts b pairs copies saved []
      ((start pairs stack copies).runWithin p facts b pairs.length) := by
  refine runWithin_invariant (fun s => ∃ saved, Saves p facts b pairs copies saved [] s) ?_ ?_ _ _
    ⟨[], .of_start pairs stack copies⟩
  · rintro s pair rest ⟨saved, saves⟩ first
    exact (saves.take_ready first).perform
  · rintro s pair rest ⟨saved, saves⟩ none first
    exact (saves.take_blocked none first).perform

end Schedule

namespace Procedure

variable {p : Procedure} {facts : Facts} {b : BlockId} {stack names : Rename.Stack} {walk next : CopyWalk}
  {pairs : List Pair} {log : Schedule.Log} {saved : List (Pair × String)} {s : Schedule} {c : Copies} {v : Var}
  {t : String}

theorem namesIn_eq {last : CopyWalk} (places : p.Places facts b stack walk names next pairs log s)
    (new : b ∉ walk.visited) (confined : walk.Confined) (extends_ : next.Extends last) :
    last.copies.namesIn b = names := by
  obtain ⟨added, renamings, outside⟩ := extends_.renamings
  have before : walk.copies.renamings.lookup b = none := by
    rw [List.lookup_eq_none_iff]
    rintro ⟨d, other⟩ mem
    have ne : b ≠ d := fun same => new (same ▸ confined.renamings _ mem)
    simpa using ne
  have after : added.lookup b = none := by
    rw [List.lookup_eq_none_iff]
    rintro ⟨d, other⟩ mem
    have ne : b ≠ d := fun same => outside _ mem (same ▸ places.visited ▸ (.head _))
    simpa using ne
  rw [Copies.namesIn, renamings, places.renamings, List.lookup_append, List.lookup_append, before, after]
  cases names <;> simp

structure Visits (p : Procedure) (facts : Facts) (c : Copies) (b : BlockId) (stack : Rename.Stack) (walk : CopyWalk)
    (pairs : List Pair) (log : Schedule.Log) (saved : List (Pair × String)) (s : Schedule) : Prop where
  edges : p.edgePairs b = .ok pairs
  assignment : Assignment p pairs stack walk.copies
  run : s = (Schedule.start pairs stack walk.copies).runWithin p facts b pairs.length
  logs : Schedule.Logs p b pairs stack walk.copies log [] s
  traces : Schedule.Traces p pairs stack log [] s
  done : log.done.Perm pairs
  saves : Schedule.Saves p facts b pairs walk.copies saved [] s
  names : c.namesIn b = s.scope.stack
  tail : c.tail b = log.lines
  lines : s.copies.saves <+: c.saves

theorem EntersBlock.visits (distinct : ∀ b pairs, p.edgePairs b = .ok pairs → Distinct p pairs)
    (copies : p.copies facts = .ok c) (enters : p.EntersBlock facts stack walk b) :
    ∃ pairs log saved s, p.Visits facts c b stack walk pairs log saved s := by
  obtain ⟨last, walked, rfl⟩ := copies_eq_ok copies
  have made : Rename.MadeBefore p ({} : CopyWalk).copies [] := by simp [Rename.MadeBefore, Rename.names]
  obtain ⟨new, confined, made, names, next, pairs, log, s, places, extends_⟩ :=
    Enters.places distinct enters made ⟨by simp, by simp⟩ walked
  have assignment : Assignment p pairs stack walk.copies := ⟨distinct b pairs places.edges, made⟩
  obtain ⟨saved, saves⟩ := Schedule.run_saves p facts b pairs stack walk.copies
  obtain ⟨log', logs', traces⟩ := Schedule.run_traces facts b assignment
  have finished := Schedule.run_finished p facts b pairs stack walk.copies
  rw [← places.run] at saves logs' traces finished
  refine ⟨pairs, log', saved, s, places.edges, assignment, places.run, logs', traces, ?_, saves, ?_, ?_, ?_⟩
  · simpa [finished.1, finished.2] using logs'.perm
  · rw [namesIn_eq places new confined extends_, places.inForce]
  · rw [tail_eq_lines places new confined extends_, places.logs.lines_eq logs' rfl]
  · exact places.saves ▸ extends_.saves

namespace Visits

variable (visits : p.Visits facts c b stack walk pairs log saved s)

include visits

theorem schedule_eq : p.schedule facts b stack walk.copies = .ok s := by
  rw [visits.run]
  simp only [schedule, visits.edges, Bind.bind, Except.bind, Pure.pure, Except.pure]

theorem pushes_eq : log.pushes = (saved.map fun entry => (entry.1.dest, entry.2)).reverse := by
  have lines := List.append_cancel_left (visits.logs.saves.symm.trans visits.saves.lines)
  have temps : log.pushes.map (·.2) = (saved.map (·.2)).reverse := by
    have made := congrArg (List.map Copy.dest) visits.logs.pushed
    rw [lines] at made
    rw [← List.reverse_eq_iff]
    simpa [Function.comp_def] using made.symm
  have vars := visits.logs.vars.symm.trans visits.saves.pushed
  exact (List.zip_of_prod vars temps).trans (List.zip_of_prod (by simp) (by simp)).symm

theorem isEdgeCopy_of_mem {entry : Pair × String} (mem : entry ∈ saved) : p.IsEdgeCopy b entry.1 :=
  (mem_edgePairs_iff visits.edges).1 (visits.saves.lost entry mem).1

theorem mem_saved {pair : Pair} (mem : (pair, t) ∈ saved) : ⟨t, p.varName pair.dest⟩ ∈ c.saved pair.target := by
  have listed : (pair.target, (⟨t, p.varName pair.dest⟩ : Copy)) ∈ c.saves := by
    refine visits.lines.subset ?_
    rw [visits.saves.lines]
    exact List.mem_append_right _ (List.mem_map.2 ⟨_, mem, rfl⟩)
  exact List.mem_map.2 ⟨_, List.mem_filter.2 ⟨listed, by simp⟩, rfl⟩

theorem mem_pushes_iff : (v, t) ∈ log.pushes ↔ ∃ pair, (pair, t) ∈ saved ∧ pair.dest = v := by
  rw [visits.pushes_eq, List.mem_reverse, List.mem_map]
  constructor
  · rintro ⟨⟨pair, temp⟩, mem, same⟩
    obtain ⟨rfl, rfl⟩ := Prod.mk.inj same
    exact ⟨pair, mem, rfl⟩
  · rintro ⟨pair, mem, rfl⟩
    exact ⟨_, mem, rfl⟩

theorem mem_pushes_of_line {h : BlockId} (line : (h, ⟨t, p.varName v⟩) ∈ log.saves) (made : ⟨t, v⟩ ∈ log.temporaries) :
    (v, t) ∈ log.pushes := by
  have saved : (⟨t, p.varName v⟩ : Copy) ∈ log.saves.map (·.2) := List.mem_map.2 ⟨_, line, rfl⟩
  rw [visits.logs.pushed] at saved
  obtain ⟨⟨w, temp⟩, pushed, same⟩ := List.mem_map.1 saved
  obtain ⟨rfl, -⟩ := Copy.mk.inj same
  -- The line only gives the name of the variable; the temporary tells which variable it is.
  obtain ⟨⟨v', temp'⟩, listed, same⟩ := List.mem_map.1 (visits.logs.kinds.mem_iff.1 made)
  obtain ⟨rfl, rfl⟩ := Temporary.mk.inj same
  have equal : (v', temp') = (w, temp') :=
    List.inj_on_of_nodup_map visits.logs.names_nodup listed (List.mem_append_right _ (List.mem_reverse.1 pushed)) rfl
  obtain rfl : v' = w := congrArg Prod.fst equal
  exact List.mem_reverse.1 pushed

end Visits

def SavesInto (p : Procedure) (facts : Facts) (b : BlockId) (v : Var) (t : String) : Prop :=
  ∃ stack walk s saves temporaries h, p.EntersBlock facts stack walk b ∧
    p.schedule facts b stack walk.copies = .ok s ∧ s.copies.saves = walk.copies.saves ++ saves ∧
    s.copies.temporaries = walk.copies.temporaries ++ temporaries ∧
    (h, ⟨t, p.varName v⟩) ∈ saves ∧ ⟨t, v⟩ ∈ temporaries

theorem Visits.savesInto (visits : p.Visits facts c b stack walk pairs log saved s)
    (enters : p.EntersBlock facts stack walk b) (pushed : (v, t) ∈ log.pushes) : p.SavesInto facts b v t := by
  have line : (⟨t, p.varName v⟩ : Copy) ∈ log.saves.map (·.2) := by
    rw [visits.logs.pushed]
    exact List.mem_map.2 ⟨_, List.mem_reverse.2 pushed, rfl⟩
  obtain ⟨⟨h, copy⟩, listed, rfl⟩ := List.mem_map.1 line
  refine ⟨stack, walk, s, log.saves, log.temporaries, h, enters, visits.schedule_eq, visits.logs.saves,
    visits.logs.temporaries, listed, ?_⟩
  exact visits.logs.kinds.mem_iff.2 (List.mem_map.2 ⟨(v, t), List.mem_append_right _ pushed, rfl⟩)

end Procedure

theorem Program.FunctionOf.WellFormed.distinct {f : Program.Function} (wf : f.WellFormed) (base : Nat) :
    ∀ b pairs, (f.procedure base).edgePairs b = .ok pairs → Distinct (f.procedure base) pairs :=
  fun _ _ => edgePairs_distinct wf

end Reflow
