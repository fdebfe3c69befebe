import Reflow.Proofs.Copies.Simultaneous

namespace Reflow

variable {p : Procedure} {facts : Facts} {b : BlockId} {named known : String → Prop}
  {c : Copies}

structure Copies.Among (named : String → Prop) (c : Copies) : Prop where
  saves : ∀ entry ∈ c.saves, named entry.2.dest ∧ named entry.2.source
  tails : ∀ entry ∈ c.tails, named entry.2.dest ∧ named entry.2.source
  renamings : ∀ entry ∈ c.renamings, ∀ entry' ∈ entry.2, ∀ name ∈ entry'.2, named name

theorem Copies.Among.mem_saved (among : c.Among named) {copy : Copy} (mem : copy ∈ c.saved b) :
    named copy.dest ∧ named copy.source := by
  obtain ⟨entry, listed, rfl⟩ := List.mem_map.1 mem
  exact among.saves entry (List.mem_filter.1 listed).1

theorem Copies.Among.mem_tail (among : c.Among named) {copy : Copy} (mem : copy ∈ c.tail b) :
    named copy.dest ∧ named copy.source := by
  obtain ⟨entry, listed, rfl⟩ := List.mem_map.1 mem
  exact among.tails entry (List.mem_filter.1 listed).1

theorem Copies.Among.top? (among : c.Among named) {v : Var} {name : String}
    (found : Rename.top? (c.namesIn b) v = some name) : named name := by
  rw [Copies.namesIn] at found
  cases here : c.renamings.lookup b with
  | none => simp [here, Rename.top?, Rename.names] at found
  | some stack =>
    rw [here] at found
    obtain ⟨entry, listed, mem⟩ := Rename.exists_entry_of_top? found
    exact among.renamings (b, stack) (mem_of_lookup here) entry listed name mem

def Temporary.line (p : Procedure) (t : Temporary) : Copy :=
  ⟨t.name, p.varName t.like⟩

namespace Copies

def reported (c : Copies) : List String :=
  c.temporaries.map (·.name)

def lines (c : Copies) : List Copy :=
  (c.saves ++ c.tails).map (·.2)

/-- Temporaries have the fresh names in their order, and beside one line for each of them only lines that assign known
names. -/
structure Accounts (p : Procedure) (known : String → Prop) (c : Copies) : Prop where
  fresh : c.reported = (List.range c.temporaries.length).map p.freshName
  lines : ∃ others, c.lines.Perm (c.temporaries.map (·.line p) ++ others) ∧ ∀ line ∈ others, known line.dest
  sources : ∀ line ∈ c.lines, known line.source ∨ line.source ∈ c.reported
  renamings : ∀ entry ∈ c.renamings, ∀ entry' ∈ entry.2, ∀ name ∈ entry'.2, name ∈ c.reported

namespace Accounts

variable {c next : Copies} {copy : Copy}

theorem dests (accounts : c.Accounts p known) : ∀ line ∈ c.lines, known line.dest ∨ line.dest ∈ c.reported := by
  obtain ⟨others, perm, ends⟩ := accounts.lines
  intro line mem
  rcases List.mem_append.1 (perm.subset mem) with save | other
  · obtain ⟨t, listed, rfl⟩ := List.mem_map.1 save
    exact .inr (List.mem_map_of_mem listed)
  · exact .inl (ends line other)

theorem makes (accounts : c.Accounts p known) {like : Var} (here : known (p.varName like))
    (temporaries : next.temporaries = c.temporaries ++ [⟨p.freshName c.temporaries.length, like⟩])
    (lines : next.lines.Perm (c.lines ++ [⟨p.freshName c.temporaries.length, p.varName like⟩]))
    (renamings : next.renamings = c.renamings) : next.Accounts p known := by
  have more : next.reported = c.reported ++ [p.freshName c.temporaries.length] := by simp [reported, temporaries]
  refine ⟨?_, ?_, ?_, ?_⟩
  · rw [more, accounts.fresh, temporaries]
    simp [List.range_succ]
  · obtain ⟨others, perm, ends⟩ := accounts.lines
    refine ⟨others, ?_, ends⟩
    rw [temporaries, List.map_append, List.append_assoc]
    refine (lines.trans (perm.append_right _)).trans ?_
    rw [List.append_assoc]
    exact List.perm_append_comm.append_left _
  · intro line mem
    rw [more]
    rcases List.mem_append.1 (lines.subset mem) with old | new
    · exact (accounts.sources line old).imp_right (List.mem_append_left _)
    · rw [List.mem_singleton.1 new]
      exact .inl here
  · rw [renamings, more]
    exact fun entry mem entry' inside name held =>
      List.mem_append_left _ (accounts.renamings entry mem entry' inside name held)

theorem addTail (accounts : c.Accounts p known) (dest : known copy.dest)
    (source : known copy.source ∨ copy.source ∈ c.reported) :
    Accounts p known { c with tails := c.tails ++ [(b, copy)] } := by
  have lines : ({ c with tails := c.tails ++ [(b, copy)] } : Copies).lines = c.lines ++ [copy] := by simp [Copies.lines]
  refine ⟨accounts.fresh, ?_, ?_, accounts.renamings⟩
  · obtain ⟨others, perm, ends⟩ := accounts.lines
    refine ⟨others ++ [copy], ?_, ?_⟩
    · rw [lines, ← List.append_assoc]
      exact perm.append_right _
    · intro line mem
      rcases List.mem_append.1 mem with old | new
      · exact ends line old
      · exact List.mem_singleton.1 new ▸ dest
  · rw [lines]
    intro line mem
    rcases List.mem_append.1 mem with old | new
    · exact accounts.sources line old
    · exact List.mem_singleton.1 new ▸ source

theorem among (accounts : c.Accounts p named) (fresh : ∀ n, named (p.freshName n)) : c.Among named := by
  have isNamed {name : String} (mem : name ∈ c.reported) : named name := by
    rw [accounts.fresh] at mem
    obtain ⟨n, -, rfl⟩ := List.mem_map.1 mem
    exact fresh n
  have line {entry : BlockId × Copy} (mem : entry ∈ c.saves ++ c.tails) :
      named entry.2.dest ∧ named entry.2.source := by
    have listed : entry.2 ∈ c.lines := List.mem_map_of_mem mem
    exact ⟨(accounts.dests _ listed).elim id isNamed, (accounts.sources _ listed).elim id isNamed⟩
  exact ⟨fun entry mem => line (List.mem_append_left _ mem), fun entry mem => line (List.mem_append_right _ mem),
    fun entry mem entry' inside name held => isNamed (accounts.renamings entry mem entry' inside name held)⟩

end Accounts

end Copies

def Pair.Among (p : Procedure) (named : String → Prop) (pair : Pair) : Prop :=
  named (p.varName pair.src) ∧ named (p.varName pair.dest)

namespace Schedule

structure Accounts (p : Procedure) (known : String → Prop) (before : List String) (s : Schedule) : Prop where
  grows : before ⊆ s.copies.reported
  pending : ∀ pair ∈ s.ready ++ s.blocked, pair.Among p known
  held : ∀ entry ∈ s.held, entry.2 ∈ s.copies.reported
  moved : ∀ entry ∈ s.moved, known (p.varName entry.2)
  stack : ∀ entry ∈ s.scope.stack, ∀ name ∈ entry.2, name ∈ s.copies.reported
  copies : s.copies.Accounts p known

namespace Accounts

variable {before : List String} {s : Schedule} {pair : Pair}

theorem sourceName (accounts : s.Accounts p known before) (here : pair.Among p known) :
    known (s.sourceName p pair.src) ∨ s.sourceName p pair.src ∈ s.copies.reported := by
  rw [Schedule.sourceName]
  split
  · rename_i temp _ found
    exact .inr (accounts.held _ (mem_of_lookup found))
  · rename_i holder _ found
    exact .inl (accounts.moved _ (mem_of_lookup found))
  · cases found : Rename.top? s.scope.stack pair.src with
    | none => exact .inl here.1
    | some name =>
      obtain ⟨entry, listed, mem⟩ := Rename.exists_entry_of_top? found
      exact .inr (accounts.stack entry listed name mem)

theorem mem_reported_newTemporary (s : Schedule) (like : Var) :
    s.copies.reported ⊆ (s.newTemporary p like).2.copies.reported ∧
    (s.newTemporary p like).1 ∈ (s.newTemporary p like).2.copies.reported := by
  simp [newTemporary, Copies.reported]

section

variable (accounts : s.Accounts p known before)
include accounts

theorem saveLost (here : pair.Among p known) : (s.saveLost p facts b pair).Accounts p known before := by
  rw [Schedule.saveLost]
  split
  · obtain ⟨more, new⟩ := mem_reported_newTemporary (p := p) s pair.dest
    refine ⟨List.Subset.trans accounts.grows more, accounts.pending, fun entry mem => more (accounts.held entry mem),
      accounts.moved, ?_, ?_⟩
    · exact Rename.forall_push new fun entry mem name held => more (accounts.stack entry mem name held)
    · refine accounts.copies.makes here.2 rfl ?_ rfl
      simp only [Copies.lines, newTemporary, List.map_append, List.append_assoc]
      exact List.perm_append_comm.append_left _
  · exact accounts

theorem assign (here : pair.Among p known) : (s.assign p b pair).Accounts p known before := by
  rw [Schedule.assign]
  dsimp only
  split
  · exact accounts
  · have added : (s.addTail b ⟨p.varName pair.dest, s.sourceName p pair.src⟩).Accounts p known before :=
      ⟨accounts.grows, accounts.pending, accounts.held, accounts.moved, accounts.stack,
        accounts.copies.addTail here.2 (accounts.sourceName here)⟩
    split
    · exact { added with moved := List.forall_mem_cons.2 ⟨here.2, added.moved⟩ }
    · exact added

theorem release (v : Var) : (s.release v).Accounts p known before := by
  refine { accounts with pending := fun pair mem => accounts.pending pair ?_ }
  simp only [Schedule.release, List.partition_eq_filter_filter, List.mem_append, List.mem_filter] at mem ⊢
  tauto

theorem perform (here : pair.Among p known) : (s.perform p facts b pair).Accounts p known before :=
  ((accounts.saveLost here).assign here).release pair.src

theorem breakCycle (here : pair.Among p known) : (s.breakCycle p b pair).Accounts p known before := by
  rw [Schedule.breakCycle]
  split
  · obtain ⟨more, new⟩ := mem_reported_newTemporary (p := p) s pair.dest
    refine ⟨List.Subset.trans accounts.grows more, accounts.pending, ?_, accounts.moved,
      fun entry mem name held => more (accounts.stack entry mem name held), ?_⟩
    · exact List.forall_mem_cons.2 ⟨new, fun entry mem => more (accounts.held entry mem)⟩
    · refine accounts.copies.makes here.2 rfl ?_ rfl
      simp [Copies.lines, newTemporary, Schedule.addTail]
  · exact accounts

theorem runWithin (facts : Facts) (b : BlockId) (fuel : Nat) :
    (s.runWithin p facts b fuel).Accounts p known before := by
  refine runWithin_invariant (Accounts p known before) ?_ ?_ fuel s accounts
  · intro s pair rest accounts first
    have pending := accounts.pending
    rw [first] at pending
    exact Accounts.perform { accounts with pending := fun q mem => pending q (.tail _ mem) } (pending pair (.head _))
  · intro s pair rest accounts none first
    have pending := accounts.pending
    rw [none, first] at pending
    have here := pending pair (.head _)
    have taken : Schedule.Accounts p known before { s with blocked := rest } :=
      { accounts with pending := fun q mem => pending q (List.mem_cons_of_mem _ (by simpa [none] using mem)) }
    exact (taken.breakCycle here).perform here

end

end Accounts

end Schedule

namespace Procedure

variable {stack : Rename.Stack} {walk : CopyWalk} {c : Copies}

section Accounts

variable (edges : ∀ b pairs, p.edgePairs b = .ok pairs → ∀ pair ∈ pairs, pair.Among p known)

include edges

theorem placeNames_accounts {names : Rename.Stack} {next : CopyWalk}
    (placed : p.placeNames facts b stack walk = .ok (names, next))
    (above : ∀ entry ∈ stack, ∀ name ∈ entry.2, name ∈ walk.copies.reported) (accounts : walk.copies.Accounts p known) :
    walk.copies.reported ⊆ next.copies.reported ∧ (∀ entry ∈ names, ∀ name ∈ entry.2, name ∈ next.copies.reported) ∧
      next.copies.Accounts p known := by
  cases found : p.edgePairs b with
  | error => simp [placeNames, placeCopies, Except.map, schedule, found, Bind.bind, Except.bind] at placed
  | ok pairs =>
    simp only [placeNames, placeCopies, Except.map, schedule, found, Bind.bind, Except.bind, Pure.pure, Except.pure,
      Except.ok.injEq, Prod.mk.injEq] at placed
    obtain ⟨rfl, rfl⟩ := placed
    have start : (Schedule.start pairs stack walk.copies).Accounts p known walk.copies.reported := by
      refine ⟨.refl _, fun pair mem => edges b pairs found pair ?_, by simp [Schedule.start],
        by simp [Schedule.start], above, accounts⟩
      simp only [Schedule.start, List.partition_eq_filter_filter, List.mem_append, List.mem_filter] at mem
      tauto
    have done := start.runWithin facts b pairs.length
    split
    · exact ⟨done.grows, done.stack, done.copies⟩
    · refine ⟨done.grows, done.stack, { done.copies with renamings := ?_ }⟩
      intro entry mem
      rcases List.mem_append.1 mem with old | new
      · exact done.copies.renamings entry old
      · obtain rfl := List.mem_singleton.1 new
        exact done.stack

theorem copies_accounts (copied : p.copies facts = .ok c) : c.Accounts p known := by
  obtain ⟨last, walked, rfl⟩ := copies_eq_ok copied
  have empty : Copies.Accounts p known {} :=
    ⟨rfl, ⟨[], .refl _, by simp⟩, by simp [Copies.lines], by simp⟩
  refine (walkBelow_keeps (fun _ => True)
    (fun above walk => (∀ entry ∈ above, ∀ name ∈ entry.2, name ∈ walk.copies.reported) ∧ walk.copies.Accounts p known)
    (fun _ _ _ _ => trivial) ?_ trivial ⟨by simp, empty⟩ walked [] ⟨by simp, empty⟩).2
  rintro b stack walk names next - ⟨above, accounts⟩ placed
  obtain ⟨grows, below, accounts⟩ := placeNames_accounts edges placed above accounts
  exact ⟨⟨below, accounts⟩, fun above kept => ⟨fun entry mem name held => grows (kept.1 entry mem name held), accounts⟩⟩

end Accounts

theorem copies_among (fresh : ∀ n, named (p.freshName n))
    (edges : ∀ b pairs, p.edgePairs b = .ok pairs → ∀ pair ∈ pairs, pair.Among p named)
    (copied : p.copies facts = .ok c) : c.Among named :=
  (copies_accounts edges copied).among fresh

end Procedure

end Reflow
