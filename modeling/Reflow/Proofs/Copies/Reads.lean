import Reflow.Proofs.Copies.Renaming

namespace Reflow

namespace Procedure

variable {p : Procedure} {facts : Facts} {b d : BlockId} {stack : Rename.Stack} {walk : CopyWalk} {pairs : List Pair}
  {log : Schedule.Log} {saved : List (Pair × String)} {s : Schedule} {c : Copies} {v : Var} {t : String}

section

variable (visits : p.Visits facts c b stack walk pairs log saved s)
include visits

theorem Visits.inForce_not_assigned (top : Rename.top? (c.namesIn b) v = some t) : t ∉ (c.tail b).map (·.dest) := by
  rw [visits.names] at top
  rw [visits.tail]
  intro assigned
  rcases visits.logs.linesFrom t assigned with ⟨pair, done, rfl⟩ | ⟨w, held⟩
  · have known := (visits.assignment.known pair (visits.logs.mem_pairs (List.mem_append_left _ done))).2
    exact visits.logs.inForce_ne visits.assignment (Rename.mem_names_of_top? top) known rfl
  · exact visits.logs.not_held visits.assignment (Rename.mem_names_of_top? top) held

theorem Visits.exists_pair_of_assigned (known : p.varName v ∈ p.identifiers)
    (assigned : p.varName v ∈ (c.tail b).map (·.dest)) : ∃ pair ∈ pairs, p.varName v = p.varName pair.dest := by
  rw [visits.tail] at assigned
  rcases visits.logs.linesFrom _ assigned with ⟨pair, done, same⟩ | ⟨w, held⟩
  · exact ⟨pair, visits.done.mem_iff.1 done, same⟩
  · exact absurd rfl (visits.logs.known_ne (List.mem_append_left _ held) known)

theorem Visits.assigned_iff {pair : Pair} (mem : pair ∈ pairs) (top : Rename.top? (c.namesIn b) pair.dest = none) :
    p.varName pair.dest ∈ (c.tail b).map (·.dest) ↔
      pair.src ≠ pair.dest ∨ ∃ q ∈ pairs, q ≠ pair ∧ q.src = pair.dest := by
  rw [visits.tail]
  exact visits.traces.written pair (visits.done.mem_iff.2 mem) (visits.names ▸ top)

theorem Visits.read_own_name (known : p.varName v ∈ p.identifiers) (top : Rename.top? stack v = some t)
    (injective : ∀ pair ∈ pairs, p.varName pair.src = p.varName v → pair.src = v) {before after : List Copy}
    {line : Copy} (split : c.tail b = before ++ line :: after) (reads : line.source = p.varName v) :
    p.varName v ∈ before.map (·.dest) ∨ line.dest ∉ p.identifiers ∧ ∃ cycle, IsolatedCycle pairs cycle ∧ v ∈ cycle := by
  have sourced := visits.traces.sourced before line after (visits.tail ▸ split)
  cases sourced with
  | @breaks u temp kept =>
    have kept' : (u, temp) ∈ ((Schedule.start pairs stack walk.copies).runWithin p facts b pairs.length).held :=
      visits.run ▸ kept
    obtain ⟨cycle, isolated, onCycle⟩ := (Schedule.run_cycles visits.assignment).2 _ kept'
    obtain ⟨pair, mem, rfl, -⟩ := isolated.exists_copy onCycle
    refine .inr ⟨fun listed => ?_, cycle, isolated, injective pair mem reads ▸ onCycle⟩
    exact visits.logs.known_ne (List.mem_append_left _ kept) listed rfl
  | ofHeld kept => exact absurd reads.symm (visits.logs.known_ne (List.mem_append_left _ kept) known)
  | ofMoved assigned =>
    obtain rfl := reads
    exact .inl assigned
  | ofInForce named => exact absurd reads.symm (visits.logs.inForce_ne visits.assignment named known)
  | ofOwn mem unnamed =>
    rw [injective _ mem reads, top] at unnamed
    exact nomatch unnamed

end

end Procedure

namespace Program.FunctionOf

variable {f : Function} {base : Nat} {b : BlockId}

theorem isNamed_of_mem_uses (wf : f.WellFormed) {stmt : Stmt} (listed : stmt ∈ (f.procedure base).stmts b)
    {v : Var} (reads : v ∈ stmt.uses) : ∃ name, f.IsNamed v name := by
  cases found : f.blocks[b]? with
  | none => simp [Procedure.stmts, block?_procedure, found] at listed
  | some =>
    rw [Procedure.stmts, block?_of_get found] at listed
    obtain ⟨⟨id, source⟩, kept, rfl⟩ := List.mem_map.1 listed
    obtain ⟨i, here, -⟩ := mem_numberFrom_iff.1 (List.mem_filter.1 kept).1
    have value : Value.statement source ∈ f.values :=
      mem_values_of_block found (List.mem_append_right _ (List.mem_map_of_mem (List.mem_of_getElem? here)))
    obtain ⟨value, name, found, named⟩ := wf.reads _ value v reads
    exact ⟨name, value, found, named⟩

theorem IsNamed.eq_of_varName_eq {v w : Var} {name name' : String} (wf : f.WellFormed)
    (named : f.IsNamed v name) (named' : f.IsNamed w name')
    (same : (f.procedure base).varName v = (f.procedure base).varName w) : v = w := by
  have same : f.valueName v = f.valueName w := same
  rw [named.valueName_eq, named'.valueName_eq] at same
  exact named.unique wf (same ▸ named')

/-- The tail copies of a block assign the name under which one of its statements reads a variable if and only if no
block above has saved the variable and they give it a new value; a copy of the variable to itself counts only if another
copy reads the variable too. -/
theorem WellFormed.tail_assigns_read_iff (wf : f.WellFormed) {c : Copies}
    (run : (f.procedure base).copies (f.procedure base).analysis.toFacts = .ok c)
    (reach : (f.procedure base).Reachable b) {stmt : Stmt}
    (listed : stmt ∈ (f.procedure base).stmts b) {v : Var} (reads : v ∈ stmt.uses) :
    let p := f.procedure base
    (Rename.top? (c.namesIn b) v).getD (p.varName v) ∈ (c.tail b).map (·.dest) ↔
      (∀ d, p.Dominates d b → ∀ t, ¬ p.SavesInto p.analysis.toFacts d v t) ∧
      ∃ pair, p.IsEdgeCopy b pair ∧ pair.dest = v ∧
        (pair.src ≠ v ∨ ∃ other, p.IsEdgeCopy b other ∧ other ≠ pair ∧ other.src = v) := by
  have distinct := wf.distinct base
  obtain ⟨stack, walk, enters⟩ := Procedure.exists_entersBlock run reach
  obtain ⟨pairs, log, saved, s, visits⟩ := enters.visits distinct run
  obtain ⟨name, named⟩ := isNamed_of_mem_uses wf listed reads
  have unsaved := (enters.namedByTree distinct run v).none_iff
  intro p
  have isCopy (pair : Pair) : p.IsEdgeCopy b pair ↔ pair ∈ pairs := (Procedure.mem_edgePairs_iff visits.edges).symm
  simp only [isCopy]
  cases top : Rename.top? (c.namesIn b) v with
  | some t =>
    refine ⟨fun assigned => absurd assigned (visits.inForce_not_assigned top), fun ⟨never, _⟩ => ?_⟩
    exact nomatch top.symm.trans (unsaved.2 never)
  | none =>
    refine Iff.trans ?_ (and_iff_right (unsaved.1 top)).symm
    constructor
    · intro assigned
      obtain ⟨pair, mem, same⟩ := visits.exists_pair_of_assigned named.valueName_mem assigned
      obtain ⟨-, name', named'⟩ := isNamed_of_isEdgeCopy wf ((isCopy pair).2 mem)
      obtain rfl := named.eq_of_varName_eq wf named' same
      exact ⟨pair, mem, rfl, (visits.assigned_iff mem top).1 assigned⟩
    · rintro ⟨pair, mem, rfl, written⟩
      exact (visits.assigned_iff mem top).2 written

def retest : Function where
  name := "retest"
  args := ["a"]
  blocks :=
    [⟨"entry", [], [⟨none, .br 1⟩]⟩,
     ⟨"loop", [⟨"v", false, [(0, 0), (1, 3)]⟩],
        [⟨some "w", .any [2]⟩, ⟨none, .condbr 2 1 2⟩]⟩,
     ⟨"exit", [], [⟨none, .ret none⟩]⟩]

theorem retest_isRead : retest.IsRead :=
  .of_pieces
    ["retest(%a) \x7b\n", "entry:\n br ^loop\n",
      "loop:\n %v = phi [^entry, %a], [^loop, %w]\n %w = any %v\n condbr %v, ^loop, ^exit\n",
      "exit:\n ret\n\x7d\n"] (by decide +kernel)

theorem retest_tail_assigns_read : ∃ c stmt,
    (retest.procedure 0).copies (retest.procedure 0).analysis.toFacts = .ok c ∧ (retest.procedure 0).Reachable 1 ∧
    stmt ∈ (retest.procedure 0).stmts 1 ∧ stmt.kind = .ok (.conditional 2 1 2) ∧ 2 ∈ stmt.uses ∧
    c.tail 1 = [⟨"v", "w"⟩] ∧ (Rename.top? (c.namesIn 1) 2).getD ((retest.procedure 0).varName 2) = "v" ∧
    (∀ d, (retest.procedure 0).Dominates d 1 →
      ∀ t, ¬ (retest.procedure 0).SavesInto (retest.procedure 0).analysis.toFacts d 2 t) ∧
    ∃ pair, (retest.procedure 0).IsEdgeCopy 1 pair ∧ pair.dest = 2 := by
  have computed : ((retest.procedure 0).copies (retest.procedure 0).analysis.toFacts).toOption.map
      (fun c => (c.tail 1, (Rename.top? (c.namesIn 1) 2).getD ((retest.procedure 0).varName 2))) =
        some ([⟨"v", "w"⟩], "v") := by decide +kernel
  have reach : (retest.procedure 0).Reachable 1 := ⟨[0, 1], .step (by decide) (.single 1)⟩
  have listed : (⟨4, .ok (.conditional 2 1 2), [2], []⟩ : Stmt) ∈ (retest.procedure 0).stmts 1 :=
    .tail _ (.head _)
  cases copied : (retest.procedure 0).copies (retest.procedure 0).analysis.toFacts with
  | error => simp [copied, Except.toOption] at computed
  | ok c =>
    rw [copied] at computed
    obtain ⟨tail, name⟩ := Prod.mk.inj (Option.some.inj computed)
    have assigned := retest_isRead.wellFormed.tail_assigns_read_iff copied reach listed (.head _)
    obtain ⟨unsaved, pair, copy, dest, -⟩ := assigned.1 (by rw [tail, name]; exact .head _)
    exact ⟨c, _, rfl, reach, listed, rfl, .head _, tail, name, unsaved, pair, copy, dest⟩

/-- Below a block that saves a variable, no statement reads a variable under the saved one's own name. -/
theorem WellFormed.reads_below_save (wf : f.WellFormed) {c : Copies}
    (run : (f.procedure base).copies (f.procedure base).analysis.toFacts = .ok c)
    (reach : (f.procedure base).Reachable b) {d : BlockId}
    (above : (f.procedure base).Dominates d b) (ne : d ≠ b) {v : Var} {t : String}
    (saves : (f.procedure base).SavesInto (f.procedure base).analysis.toFacts d v t) :
    let p := f.procedure base
    (∀ stmt ∈ p.stmts b, ∀ u ∈ stmt.uses, (Rename.top? (c.namesIn b) u).getD (p.varName u) ≠ p.varName v) ∧
    ∀ before line after, c.tail b = before ++ line :: after → line.source = p.varName v →
      p.varName v ∈ before.map (·.dest) ∨
      line.dest ∉ p.identifiers ∧ ∃ pairs cycle, (∀ pair, pair ∈ pairs ↔ p.IsEdgeCopy b pair) ∧
        IsolatedCycle pairs cycle ∧ v ∈ cycle := by
  have distinct := wf.distinct base
  obtain ⟨stack, walk, enters⟩ := Procedure.exists_entersBlock run reach
  obtain ⟨pairs, log, saved, s, visits⟩ := enters.visits distinct run
  -- What is saved is a phi, so it has a name that no other variable has.
  obtain ⟨h, ⟨phi, listed, rfl⟩, -⟩ := saves.exists_phi distinct run
  obtain ⟨-, -, source, -, -, -, named⟩ := exists_phi_of_mem listed
  intro p
  have inForce : Rename.top? (c.namesIn b) phi.var ≠ none :=
    fun none => (enters.namedByTree distinct run phi.var).none_iff.1 none d above t saves
  have onEntry : Rename.top? stack phi.var ≠ none := by
    rcases enters.stack_eq distinct run with ⟨rfl, -⟩ | ⟨a, idom, rfl⟩
    · exact absurd (Procedure.eq_entry_of_dominates above) ne
    · obtain ⟨stack', walk', enters'⟩ := Procedure.exists_entersBlock run (idom.dominates.reaches idom.reached)
      have below := idom.closest d ne above
      exact fun none => (enters'.namedByTree distinct run phi.var).none_iff.1 none d below t saves
  refine ⟨fun stmt listed' u reads => ?_, fun before line after split reads => ?_⟩
  · obtain ⟨name, named'⟩ := isNamed_of_mem_uses wf listed' reads
    cases top : Rename.top? (c.namesIn b) u with
    | some temp =>
      have mem : temp ∈ Rename.names s.scope.stack u := Rename.mem_names_of_top? (visits.names ▸ top)
      exact (visits.logs.inForce_ne visits.assignment mem named.valueName_mem).symm
    | none =>
      intro same
      obtain rfl := named'.eq_of_varName_eq wf named same
      exact inForce top
  · obtain ⟨temp, top⟩ := Option.ne_none_iff_exists'.1 onEntry
    have injective (pair : Pair) (mem : pair ∈ pairs) (same : p.varName pair.src = p.varName phi.var) :
        pair.src = phi.var := by
      obtain ⟨⟨name, named'⟩, -⟩ :=
        isNamed_of_isEdgeCopy wf ((Procedure.mem_edgePairs_iff visits.edges).1 mem)
      exact named'.eq_of_varName_eq wf named same
    refine (visits.read_own_name named.valueName_mem top injective split reads).imp_right ?_
    rintro ⟨temporary, cycle, isolated, onCycle⟩
    exact ⟨temporary, pairs, cycle, fun pair => Procedure.mem_edgePairs_iff visits.edges, isolated, onCycle⟩

def swapLatch : Function where
  name := "latch"
  args := ["a", "b"]
  blocks :=
    [⟨"entry", [], [⟨none, .br 1⟩]⟩,
      { name := "head"
        phis := [⟨"x", false, [(0, 0), (2, 6), (3, 4)]⟩, ⟨"y", false, [(0, 1), (2, 7), (3, 3)]⟩]
        stmts := [⟨none, .br 2⟩] },
     ⟨"first", [],
        [⟨some "p", .any []⟩, ⟨some "q", .any []⟩, ⟨some "c", .any []⟩, ⟨none, .condbr 8 1 3⟩]⟩,
     ⟨"second", [], [⟨some "e", .any []⟩, ⟨none, .condbr 10 1 4⟩]⟩,
     ⟨"exit", [], [⟨none, .ret none⟩]⟩]

theorem swapLatch_isRead : swapLatch.IsRead :=
  .of_pieces
    ["latch(%a, %b) \x7b\n", "entry:\n br ^head\n",
      "head:\n %x = phi [^entry, %a], [^first, %p], [^second, %y]\n",
      " %y = phi [^entry, %b], [^first, %q], [^second, %x]\n br ^first\n",
      "first:\n %p = any\n %q = any\n %c = any\n condbr %c, ^head, ^second\n",
      "second:\n %e = any\n condbr %e, ^head, ^exit\n", "exit:\n ret\n\x7d\n"] (by decide +kernel)

theorem swapLatch_reads_below_save : ∃ c d,
    (swapLatch.procedure 0).copies (swapLatch.procedure 0).analysis.toFacts = .ok c ∧
    (swapLatch.procedure 0).Dominates d 3 ∧ d ≠ 3 ∧
    (swapLatch.procedure 0).SavesInto (swapLatch.procedure 0).analysis.toFacts d 3 "__t__0_0" ∧
    c.tail 3 = [⟨"__t__2_0", "x"⟩, ⟨"x", "__t__1_0"⟩, ⟨"y", "__t__2_0"⟩] ∧
    ∃ pairs cycle, (∀ pair, pair ∈ pairs ↔ (swapLatch.procedure 0).IsEdgeCopy 3 pair) ∧
      IsolatedCycle pairs cycle ∧ 3 ∈ cycle := by
  have computed : ((swapLatch.procedure 0).copies (swapLatch.procedure 0).analysis.toFacts).toOption.map
      (fun c => (c.tail 3, Rename.top? (c.namesIn 2) 3)) =
        some ([⟨"__t__2_0", "x"⟩, ⟨"x", "__t__1_0"⟩, ⟨"y", "__t__2_0"⟩], some "__t__0_0") := by decide +kernel
  have idom := Procedure.idom?_eq_some_iff.1
    (show (swapLatch.procedure 0).analysis.idom? 3 = some 2 by decide +kernel)
  cases copied : (swapLatch.procedure 0).copies (swapLatch.procedure 0).analysis.toFacts with
  | error => simp [copied, Except.toOption] at computed
  | ok c =>
    rw [copied] at computed
    obtain ⟨tail, name⟩ := Prod.mk.inj (Option.some.inj computed)
    have distinct := swapLatch_isRead.wellFormed.distinct 0
    obtain ⟨stack, walk, enters⟩ := Procedure.exists_entersBlock copied (idom.dominates.reaches idom.reached)
    obtain ⟨d, nearest, saves⟩ := ((enters.namedByTree distinct copied 3).some_iff _).1 name
    have above : (swapLatch.procedure 0).Dominates d 3 := nearest.dominates.trans idom.dominates
    have ne : d ≠ 3 := by
      rintro rfl
      exact idom.ne (Digraph.Dominates.antisymm idom.reached idom.dominates nearest.dominates)
    obtain ⟨-, lines⟩ := swapLatch_isRead.wellFormed.reads_below_save copied idom.reached above ne saves
    rcases lines [] _ _ tail rfl with behind | ⟨-, cycle⟩
    · exact absurd behind List.not_mem_nil
    · exact ⟨c, d, rfl, above, ne, saves, tail, cycle⟩

end Program.FunctionOf

end Reflow
