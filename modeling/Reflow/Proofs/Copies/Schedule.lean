import Reflow.Copies.Schedule
import Reflow.Proofs.Copies.Execution
import Reflow.Proofs.Copies.Scopes

namespace Reflow

structure Distinct (p : Procedure) (pairs : List Pair) : Prop where
  nodup : (pairs.map (·.dest)).Nodup
  known : ∀ pair ∈ pairs, p.varName pair.src ∈ p.identifiers ∧ p.varName pair.dest ∈ p.identifiers
  injective : ∀ pair ∈ pairs, ∀ q ∈ pairs,
    (p.varName pair.src = p.varName q.dest → pair.src = q.dest) ∧
      (p.varName pair.dest = p.varName q.dest → pair.dest = q.dest)

def Rename.MadeBefore (p : Procedure) (copies : Copies) (stack : Rename.Stack) : Prop :=
  ∀ v, ∀ name ∈ names stack v, ∃ n < copies.temporaries.length, name = p.freshName n

structure Assignment (p : Procedure) (pairs : List Pair) (stack : Rename.Stack) (copies : Copies) :
    Prop extends Distinct p pairs where
  earlier : Rename.MadeBefore p copies stack

theorem Assignment.eq_of_dest {p : Procedure} {pairs : List Pair} {stack : Rename.Stack}
    {copies : Copies} (assignment : Assignment p pairs stack copies) {pair q : Pair}
    (mem : pair ∈ pairs) (mem' : q ∈ pairs) (same : pair.dest = q.dest) : pair = q :=
  List.inj_on_of_nodup_map assignment.nodup mem mem' same

namespace Schedule

structure Log where
  done : List Pair := []
  lines : List Copy := []
  saves : List (BlockId × Copy) := []
  pushes : List (Var × String) := []
  temporaries : List Temporary := []

def Keeps (s : Schedule) (v : Var) : Prop :=
  (s.held.lookup v).isSome ∨ (s.moved.lookup v).isSome

/-- The values that names have before the copies: those in force on entry, the saved ones, and the variables that are
kept in a temporary first. -/
structure Holds {α : Type} (p : Procedure) (pairs : List Pair) (stack : Rename.Stack)
    (pushes held : List (Var × String)) (env : String → α) (val : Var → α) : Prop where
  entry : ∀ pair ∈ pairs, env ((Rename.top? stack pair.src).getD (p.varName pair.src)) = val pair.src
  saved : ∀ v t, (v, t) ∈ pushes → env t = val v
  broken : ∀ v t, (v, t) ∈ held → env (p.varName v) = val v

/-- The invariant of an ordering, where `flight` is the copy being done. -/
structure Logs (p : Procedure) (b : BlockId) (pairs : List Pair) (stack : Rename.Stack)
    (copies : Copies) (log : Log) (flight : List Pair) (s : Schedule) : Prop where
  perm : (log.done ++ (flight ++ (s.ready ++ s.blocked))).Perm pairs
  waiting : ∀ pair ∈ s.blocked, (∃ q ∈ flight ++ (s.ready ++ s.blocked), q.src = pair.dest) ∧
    ∀ q ∈ log.done, q.src ≠ pair.dest
  kept : ∀ pair ∈ log.done ++ (flight ++ s.ready), ∀ q ∈ flight ++ (s.ready ++ s.blocked),
    q ≠ pair → q.src = pair.dest → s.Keeps pair.dest
  moved : ∀ v w, (v, w) ∈ s.moved → ∃ pair ∈ log.done, pair.src = v ∧ pair.dest = w
  tails : s.copies.tails = copies.tails ++ log.lines.map fun copy => (b, copy)
  saves : s.copies.saves = copies.saves ++ log.saves
  renamings : s.copies.renamings = copies.renamings
  names : s.scope.stack = Rename.pushAll log.pushes stack
  vars : s.scope.pushed = log.pushes.map (·.1)
  temporaries : s.copies.temporaries = copies.temporaries ++ log.temporaries
  pushed : log.saves.map (·.2) = log.pushes.reverse.map fun entry => ⟨entry.2, p.varName entry.1⟩
  fresh : log.temporaries.map (·.name) =
    (List.range' copies.temporaries.length log.temporaries.length).map p.freshName
  kinds : log.temporaries.Perm ((s.held ++ log.pushes).map fun entry => ⟨entry.2, entry.1⟩)
  linesNodup : (log.lines.map (·.dest)).Nodup
  linesFrom : ∀ name ∈ log.lines.map (·.dest),
    (∃ pair ∈ log.done, name = p.varName pair.dest) ∨ ∃ v, (v, name) ∈ s.held
  values : ∀ (α : Type) (env : String → α) (val : Var → α),
    Holds p pairs stack log.pushes s.held env val →
      (∀ pair ∈ log.done, Copy.runAll env log.lines (p.varName pair.dest) = val pair.src) ∧
        ∀ v t, (v, t) ∈ s.held → Copy.runAll env log.lines t = val v

variable {p : Procedure} {facts : Facts} {b : BlockId} {pairs flight : List Pair}
  {stack : Rename.Stack} {copies : Copies} {log : Log} {s : Schedule} {pair : Pair}

namespace Logs

section

variable (logs : Logs p b pairs stack copies log flight s)
include logs

variable {v : Var} {t : String}

theorem mem_pairs (mem : pair ∈ log.done ++ (flight ++ (s.ready ++ s.blocked))) : pair ∈ pairs :=
  logs.perm.subset mem

theorem exists_fresh (mem : (v, t) ∈ s.held ++ log.pushes) :
    ∃ n, copies.temporaries.length ≤ n ∧ n < copies.temporaries.length + log.temporaries.length ∧
      t = p.freshName n := by
  have listed : (⟨t, v⟩ : Temporary) ∈ log.temporaries :=
    logs.kinds.mem_iff.2 (List.mem_map.2 ⟨(v, t), mem, rfl⟩)
  have name : t ∈ log.temporaries.map (·.name) := List.mem_map.2 ⟨_, listed, rfl⟩
  rw [logs.fresh] at name
  obtain ⟨n, inRange, rfl⟩ := List.mem_map.1 name
  rw [List.mem_range'_1] at inRange
  exact ⟨n, inRange.1, inRange.2, rfl⟩

theorem known_ne (mem : (v, t) ∈ s.held ++ log.pushes) {name : String}
    (known : name ∈ p.identifiers) : name ≠ t := by
  rintro rfl
  obtain ⟨n, -, -, fresh⟩ := logs.exists_fresh mem
  exact p.freshName_not_mem n (fresh ▸ known)

theorem names_nodup : ((s.held ++ log.pushes).map (·.2)).Nodup := by
  have nodup : (log.temporaries.map (·.name)).Nodup := by
    rw [logs.fresh]
    exact List.Nodup.map p.freshName_injective List.nodup_range'
  have perm := logs.kinds.map (·.name)
  rw [List.map_map] at perm
  exact perm.nodup_iff.1 nodup

theorem value_unassigned {α : Type} (env : String → α) {name : String} (own : ∀ v, (v, name) ∉ s.held)
    (kept : ∀ q ∈ log.done, name ≠ p.varName q.dest) : Copy.runAll env log.lines name = env name := by
  refine Copy.runAll_of_not_mem _ _ fun assigned => ?_
  rcases logs.linesFrom _ assigned with ⟨q, mem, same⟩ | ⟨v, mem⟩
  · exact kept q mem same
  · exact own v mem

theorem next_ne (mem : (v, t) ∈ s.held ++ log.pushes) :
    t ≠ p.freshName s.copies.temporaries.length := by
  rintro rfl
  obtain ⟨n, -, lt, name⟩ := logs.exists_fresh mem
  have same := p.freshName_injective name
  rw [logs.temporaries, List.length_append] at same
  omega

theorem fresh_concat (v : Var) :
    (log.temporaries ++ [Temporary.mk (p.freshName s.copies.temporaries.length) v]).map (·.name) =
      (List.range' copies.temporaries.length (log.temporaries.length + 1)).map p.freshName := by
  rw [List.map_append, logs.fresh, List.range'_concat, List.map_append, logs.temporaries]
  simp

theorem saveLost (facts : Facts) (pair : Pair) :
    ∃ log', log'.done = log.done ∧ Logs p b pairs stack copies log' flight (s.saveLost p facts b pair) := by
  rw [Schedule.saveLost]
  split
  · let temp := p.freshName s.copies.temporaries.length
    refine ⟨{ log with
      saves := log.saves ++ [(pair.target, ⟨temp, p.varName pair.dest⟩)]
      pushes := (pair.dest, temp) :: log.pushes
      temporaries := log.temporaries ++ [⟨temp, pair.dest⟩] }, rfl, ?_⟩
    exact { logs with
      saves := by simp [newTemporary, logs.saves, temp]
      names := by simp [newTemporary, Rename.Scope.push, logs.names, temp, Rename.pushAll]
      vars := by simp [newTemporary, Rename.Scope.push, logs.vars]
      temporaries := by simp [newTemporary, logs.temporaries, temp]
      pushed := by simp [logs.pushed]
      fresh := by simpa [temp] using logs.fresh_concat pair.dest
      kinds := by
        refine (List.perm_append_singleton _ _).trans ((logs.kinds.cons _).trans ?_)
        simp only [List.map_append, List.map_cons]
        exact List.perm_middle.symm
      values := fun α env val holds => logs.values α env val
        ⟨holds.entry, fun v t mem => holds.saved v t (.tail _ mem), holds.broken⟩ }
  · exact ⟨log, rfl, logs⟩

variable (assignment : Assignment p pairs stack copies)
include assignment

theorem dest_not_assigned (mem : pair ∈ flight ++ (s.ready ++ s.blocked)) :
    p.varName pair.dest ∉ log.lines.map (·.dest) := by
  have inPairs := logs.mem_pairs (List.mem_append_right _ mem)
  intro assigned
  rcases logs.linesFrom _ assigned with ⟨q, done, same⟩ | ⟨v, held⟩
  · have inPairs' := logs.mem_pairs (List.mem_append_left _ done)
    obtain rfl := assignment.eq_of_dest inPairs inPairs' ((assignment.injective pair inPairs q inPairs').2 same)
    have nodup := logs.perm.nodup_iff.2 (List.Nodup.of_map _ assignment.nodup)
    exact (List.disjoint_of_nodup_append nodup) done mem
  · exact logs.known_ne (List.mem_append_left _ held) (assignment.known pair inPairs).2 rfl

theorem value_pushed {α : Type} (env : String → α) {v : Var} {temp : String} (mem : (v, temp) ∈ log.pushes) :
    Copy.runAll env log.lines temp = env temp := by
  refine logs.value_unassigned env ?_ ?_
  · intro w held
    have nodup := logs.names_nodup
    rw [List.map_append] at nodup
    exact List.disjoint_of_nodup_append nodup (List.mem_map.2 ⟨_, held, rfl⟩) (List.mem_map.2 ⟨_, mem, rfl⟩)
  · rintro q done rfl
    have inPairs := logs.mem_pairs (List.mem_append_left _ done)
    exact logs.known_ne (List.mem_append_right _ mem) (assignment.known q inPairs).2 rfl

theorem value_entry {α : Type} (env : String → α) {v : Var} {temp : String} (mem : temp ∈ Rename.names stack v) :
    Copy.runAll env log.lines temp = env temp := by
  obtain ⟨n, lt, name⟩ := assignment.earlier v temp mem
  refine logs.value_unassigned env ?_ ?_
  · intro w held
    obtain ⟨m, le, -, name'⟩ := logs.exists_fresh (List.mem_append_left _ held)
    have same : n = m := p.freshName_injective (name.symm.trans name')
    omega
  · rintro q done same
    have inPairs := logs.mem_pairs (List.mem_append_left _ done)
    refine p.freshName_not_mem n (name ▸ ?_)
    exact same ▸ (assignment.known q inPairs).2

theorem next_not_assigned : p.freshName s.copies.temporaries.length ∉ log.lines.map (·.dest) := by
  intro assigned
  rcases logs.linesFrom _ assigned with ⟨q, done, same⟩ | ⟨v, held⟩
  · have known := (assignment.known q (logs.mem_pairs (List.mem_append_left _ done))).2
    exact p.freshName_not_mem _ (same ▸ known)
  · exact logs.next_ne (List.mem_append_left _ held) rfl

end

/-! ## Steps -/

variable {rest : List Pair}

theorem take_ready (logs : Logs p b pairs stack copies log [] s) (first : s.ready = pair :: rest) :
    Logs p b pairs stack copies log [pair] { s with ready := rest } :=
  { logs with
    perm := by simpa [first] using logs.perm
    waiting := by simpa [first] using logs.waiting
    kept := by simpa [first, Keeps] using logs.kept }

theorem take_blocked (assignment : Assignment p pairs stack copies)
    (logs : Logs p b pairs stack copies log [] s) (none : s.ready = []) (first : s.blocked = pair :: rest) :
    ∃ log', log'.done = log.done ∧
      Logs p b pairs stack copies log' [pair] ({ s with blocked := rest }.breakCycle p b pair) := by
  have perm : (log.done ++ ([pair] ++ (s.ready ++ rest))).Perm pairs := by
    simpa [none, first] using logs.perm
  have waiting : ∀ q ∈ rest, (∃ r ∈ [pair] ++ (s.ready ++ rest), r.src = q.dest) ∧ ∀ r ∈ log.done, r.src ≠ q.dest := by
    intro q mem
    obtain ⟨reader, unread⟩ := logs.waiting q (by simp [first, mem])
    exact ⟨by simpa [none, first] using reader, unread⟩
  have keptDone : ∀ q ∈ log.done, ∀ r ∈ [pair] ++ (s.ready ++ rest), r ≠ q → r.src = q.dest → s.Keeps q.dest := by
    intro q done r mem
    exact logs.kept q (by simp [done]) r (by simpa [none, first] using mem)
  rw [breakCycle]
  split
  · let temp := p.freshName s.copies.temporaries.length
    have unassigned : p.varName pair.dest ∉ log.lines.map (·.dest) :=
      logs.dest_not_assigned assignment (by simp [first])
    refine ⟨{ log with
      lines := log.lines ++ [⟨temp, p.varName pair.dest⟩]
      temporaries := log.temporaries ++ [⟨temp, pair.dest⟩] }, rfl, ?_⟩
    exact { logs with
      perm := perm
      waiting := waiting
      kept := by
        intro q mem r pending ne reads
        by_cases same : q.dest = pair.dest
        · exact .inl (by simp [same])
        · have done : q ∈ log.done := by
            rcases List.mem_append.1 mem with done | flight
            · exact done
            · have flight : q ∈ [pair] ++ s.ready := flight
              rw [none, List.append_nil, List.mem_singleton] at flight
              exact absurd (flight ▸ rfl) same
          have differs : (q.dest == pair.dest) = false := by simpa using same
          simpa [Keeps, List.lookup_cons, differs, addTail, newTemporary] using keptDone q done r pending ne reads
      tails := by simp [addTail, newTemporary, logs.tails, temp]
      temporaries := by simp [addTail, newTemporary, logs.temporaries, temp]
      fresh := by simpa [temp] using logs.fresh_concat pair.dest
      kinds := by
        refine (List.perm_append_singleton _ _).trans ?_
        simpa [newTemporary, temp] using logs.kinds.cons ⟨temp, pair.dest⟩
      linesNodup := by
        rw [List.map_append]
        refine List.Nodup.append logs.linesNodup (List.nodup_singleton _) ?_
        simpa [List.disjoint_singleton] using logs.next_not_assigned assignment
      linesFrom := by
        intro name mem
        rw [List.map_append, List.mem_append] at mem
        rcases mem with mem | mem
        · rcases logs.linesFrom name mem with done | ⟨v, held⟩
          · exact .inl done
          · exact .inr ⟨v, .tail _ held⟩
        · obtain rfl : name = temp := by simpa using mem
          exact .inr ⟨pair.dest, by simp [newTemporary, temp]⟩
      values := by
        intro α env val holds
        obtain ⟨done, held⟩ := logs.values α env val
          ⟨holds.entry, holds.saved, fun v t mem => holds.broken v t (.tail _ mem)⟩
        simp only [Copy.runAll_concat]
        refine ⟨fun q mem => ?_, fun v t mem => ?_⟩
        · rw [Function.update_of_ne, done q mem]
          have known := (assignment.known q (logs.mem_pairs (List.mem_append_left _ mem))).2
          rintro (same : p.varName q.dest = p.freshName s.copies.temporaries.length)
          exact p.freshName_not_mem _ (same ▸ known)
        · rcases List.mem_cons.1 mem with same | mem
          · obtain ⟨rfl, rfl⟩ := Prod.mk.inj same
            rw [show (newTemporary p { s with blocked := rest } pair.dest).1 = temp from rfl,
              Function.update_self, Copy.runAll_of_not_mem _ _ unassigned]
            exact holds.broken _ _ (.head _)
          · rw [Function.update_of_ne (logs.next_ne (List.mem_append_left _ mem)), held v t mem] }
  · rename_i unread
    refine ⟨log, rfl, ?_⟩
    exact { logs with
      perm := perm
      waiting := waiting
      kept := by
        intro q mem r pending ne reads
        rcases List.mem_append.1 mem with done | flight
        · exact keptDone q done r pending ne reads
        · obtain rfl : q = pair := by simpa [none] using flight
          have later : r ∈ rest := by simpa [none, ne] using pending
          exact absurd (List.any_eq_true.2 ⟨r, later, by simpa using reads⟩) unread }

theorem assign_eq (s : Schedule) (pair : Pair) : s.assign p b pair = s ∧ s.sourceName p pair.src = p.varName pair.dest ∨
      s.sourceName p pair.src ≠ p.varName pair.dest ∧ ∃ moved,
        s.assign p b pair = { s.addTail b ⟨p.varName pair.dest, s.sourceName p pair.src⟩ with moved } ∧
          moved = if s.blocked.any (·.dest = pair.src) then (pair.src, pair.dest) :: s.moved else s.moved := by
  rw [assign]
  split
  · rename_i same
    exact .inl ⟨rfl, same⟩
  · rename_i differs
    refine .inr ⟨differs, _, ?_, rfl⟩
    by_cases reads : s.blocked.any (·.dest = pair.src) = true <;> simp [addTail, reads]

structure Wrote (p : Procedure) (b : BlockId) (pair : Pair) (s t : Schedule) (lines : List Copy) :
    Prop where
  ready : t.ready = s.ready
  blocked : t.blocked = s.blocked
  held : t.held = s.held
  moved : s.moved <:+ t.moved
  movedFrom : ∀ v w, (v, w) ∈ t.moved → (v, w) ∈ s.moved ∨ v = pair.src ∧ w = pair.dest
  scope : t.scope = s.scope
  saves : t.copies.saves = s.copies.saves
  renamings : t.copies.renamings = s.copies.renamings
  temporaries : t.copies.temporaries = s.copies.temporaries
  tails : t.copies.tails = s.copies.tails ++ lines.map fun copy => (b, copy)
  dests : (lines.map (·.dest)).Sublist [p.varName pair.dest]
  value : ∀ (α : Type) (env : String → α),
    Copy.runAll env lines (p.varName pair.dest) = env (s.sourceName p pair.src)

theorem exists_wrote (s : Schedule) (pair : Pair) : ∃ lines, Wrote p b pair s (s.assign p b pair) lines := by
  rcases assign_eq s pair with ⟨same, elided⟩ | ⟨-, moved, same, rfl⟩
  · rw [same]
    exact ⟨[], rfl, rfl, rfl, List.suffix_rfl, fun _ _ => .inl, rfl, rfl, rfl, rfl, by simp, by simp,
      fun α env => by rw [elided, Copy.runAll_nil]⟩
  · rw [same]
    refine ⟨[⟨p.varName pair.dest, s.sourceName p pair.src⟩], rfl, rfl, rfl, ?_, ?_, rfl, rfl, rfl, rfl,
      rfl, by simp, fun α env => by simp [Copy.run]⟩
    · dsimp only
      split
      · exact List.suffix_cons _ _
      · exact List.suffix_rfl
    · intro v w mem
      dsimp only at mem
      split at mem
      · simpa [or_comm] using mem
      · exact .inl mem

theorem Wrote.keeps {t : Schedule} {lines : List Copy} {v : Var} (wrote : Wrote p b pair s t lines)
    (keeps : s.Keeps v) : t.Keeps v := by
  rcases keeps with kept | kept
  · exact .inl (wrote.held ▸ kept)
  · exact .inr (wrote.moved.sublist.lookup_isSome kept)

section

variable (assignment : Assignment p pairs stack copies) (logs : Logs p b pairs stack copies log [pair] s)
include assignment logs

theorem flight_not_done : pair ∉ log.done := by
  intro mem
  have nodup := logs.perm.nodup_iff.2 (List.Nodup.of_map _ assignment.nodup)
  exact (List.disjoint_of_nodup_append nodup) mem (by simp)

theorem value_sourceName {α : Type} {env : String → α} {val : Var → α}
    (holds : Holds p pairs stack log.pushes s.held env val) :
    Copy.runAll env log.lines (s.sourceName p pair.src) = val pair.src := by
  have inPairs : pair ∈ pairs := logs.mem_pairs (by simp)
  obtain ⟨done, held⟩ := logs.values α env val holds
  rw [sourceName]
  split
  · rename_i temp found
    exact held _ _ (mem_of_lookup found)
  · rename_i holder _ found
    obtain ⟨q, mem, same, rfl⟩ := logs.moved _ _ (mem_of_lookup found)
    exact (done q mem).trans (by rw [same])
  · rename_i notHeld notMoved
    have first := holds.entry pair inPairs
    rw [logs.names, Rename.top?_pushAll]
    cases pushed : log.pushes.lookup pair.src with
    | some =>
      have mem := mem_of_lookup pushed
      rw [Option.some_or, Option.getD_some, logs.value_pushed assignment env mem, holds.saved _ _ mem]
    | none =>
      rw [Option.none_or]
      cases entry : Rename.top? stack pair.src with
      | some =>
        rw [entry, Option.getD_some] at first
        rw [Option.getD_some, logs.value_entry assignment env (Rename.mem_names_of_top? entry), first]
      | none =>
        rw [entry, Option.getD_none] at first
        rw [Option.getD_none, logs.value_unassigned env, first]
        · intro v held
          exact logs.known_ne (List.mem_append_left _ held) (assignment.known pair inPairs).1 rfl
        · intro q mem same
          have inPairs' := logs.mem_pairs (List.mem_append_left _ mem)
          have dest := (assignment.injective pair inPairs q inPairs').1 same
          have ne : pair ≠ q := fun same => logs.flight_not_done assignment (same ▸ mem)
          have keeps := logs.kept q (by simp [mem]) pair (by simp) ne dest
          simp [Keeps, ← dest, notHeld, notMoved] at keeps

theorem keeps_assign {q : Pair} (mem : q ∈ s.blocked) (reads : q.dest = pair.src) :
    (s.assign p b pair).Keeps q.dest := by
  have inPairs : pair ∈ pairs := logs.mem_pairs (by simp)
  have inPairs' : q ∈ pairs := logs.mem_pairs (by simp [mem])
  rcases assign_eq s pair with ⟨same, elided⟩ | ⟨-, moved, same, rfl⟩
  · rw [same]
    rw [sourceName] at elided
    split at elided
    · rename_i temp found
      refine absurd elided.symm (logs.known_ne (List.mem_append_left _ (mem_of_lookup found)) ?_)
      exact (assignment.known pair inPairs).2
    · rename_i holder _ found
      exact .inr (by simp [reads, found])
    · exfalso
      rw [logs.names, Rename.top?_pushAll] at elided
      cases pushed : log.pushes.lookup pair.src with
      | some =>
        rw [pushed, Option.some_or, Option.getD_some] at elided
        refine absurd elided.symm (logs.known_ne (List.mem_append_right _ (mem_of_lookup pushed)) ?_)
        exact (assignment.known pair inPairs).2
      | none =>
        rw [pushed, Option.none_or] at elided
        cases entry : Rename.top? stack pair.src with
        | some =>
          rw [entry, Option.getD_some] at elided
          obtain ⟨n, -, name⟩ := assignment.earlier _ _ (Rename.mem_names_of_top? entry)
          refine p.freshName_not_mem n (name ▸ ?_)
          exact elided ▸ (assignment.known pair inPairs).2
        | none =>
          -- Only a copy of a variable to itself is left, and that one does not wait any more.
          rw [entry, Option.getD_none] at elided
          have self := (assignment.injective pair inPairs pair inPairs).1 elided
          obtain rfl := assignment.eq_of_dest inPairs inPairs' (self.symm.trans reads.symm)
          have nodup := logs.perm.nodup_iff.2 (List.Nodup.of_map _ assignment.nodup)
          have rest := (List.nodup_append.1 nodup).2.1
          simp [mem] at rest
  · rw [same]
    have any : s.blocked.any (·.dest = pair.src) = true :=
      List.any_eq_true.2 ⟨q, mem, by simpa using reads⟩
    exact .inr (by simp [any, reads])

theorem assign_release : ∃ log', log'.done = log.done ++ [pair] ∧
      Logs p b pairs stack copies log' [] ((s.assign p b pair).release pair.src) := by
  obtain ⟨lines, wrote⟩ := exists_wrote (p := p) (b := b) s pair
  have inPairs : pair ∈ pairs := logs.mem_pairs (by simp)
  have unassigned : p.varName pair.dest ∉ log.lines.map (·.dest) :=
    logs.dest_not_assigned assignment (by simp)
  have released (q : Pair) (mem : q ∈ s.blocked) (reads : q.dest = pair.src) :
      (s.assign p b pair).Keeps q.dest := logs.keeps_assign assignment mem reads
  generalize s.assign p b pair = t at wrote released
  have readyNow : (t.release pair.src).ready = s.ready ++ s.blocked.filter (·.dest = pair.src) := by
    simp [release, wrote.ready, wrote.blocked]
  have blockedNow : (t.release pair.src).blocked = s.blocked.filter (·.dest ≠ pair.src) := by
    simp [release, wrote.blocked, Function.comp_def]
  have pendingNow (q : Pair) (mem : q ∈ s.blocked) :
      q ∈ s.blocked.filter (·.dest = pair.src) ∨ q ∈ s.blocked.filter (·.dest ≠ pair.src) := by
    by_cases reads : q.dest = pair.src <;> simp [mem, reads]
  refine ⟨{ log with done := log.done ++ [pair], lines := log.lines ++ lines }, rfl, ?_⟩
  exact { logs with
    perm := by
      rw [readyNow, blockedNow]
      have halves : (s.blocked.filter (·.dest = pair.src) ++ s.blocked.filter (·.dest ≠ pair.src)).Perm s.blocked := by
        simpa using List.filter_append_perm (fun q : Pair => decide (q.dest = pair.src)) s.blocked
      refine List.Perm.trans ?_ logs.perm
      simp only [List.nil_append, List.append_assoc]
      exact ((halves.append_left s.ready).append_left [pair]).append_left log.done
    waiting := by
      rw [readyNow, blockedNow]
      intro q mem
      obtain ⟨listed, other⟩ := List.mem_filter.1 mem
      have other : q.dest ≠ pair.src := by simpa using other
      obtain ⟨⟨reader, pending, reads⟩, unread⟩ := logs.waiting q listed
      refine ⟨⟨reader, ?_, reads⟩, fun r done => ?_⟩
      · have ne : reader ≠ pair := by
          rintro rfl
          exact other reads.symm
        have pending : reader ∈ s.ready ∨ reader ∈ s.blocked := by simpa [ne] using pending
        rcases pending with ready | blocked
        · simp [ready]
        · have now := pendingNow reader blocked
          simp only [List.nil_append, List.mem_append]
          tauto
      · rcases List.mem_append.1 done with done | done
        · exact unread r done
        · obtain rfl : r = pair := by simpa using done
          exact other.symm
    kept := by
      rw [readyNow, blockedNow, List.nil_append, List.nil_append]
      intro q mem r pending ne reads
      have pending : r ∈ s.ready ++ s.blocked := by
        simp only [List.mem_append, List.mem_filter] at pending ⊢
        tauto
      have before (old : q ∈ log.done ++ ([pair] ++ s.ready)) : t.Keeps q.dest :=
        wrote.keeps (logs.kept q old r (List.mem_append_right _ pending) ne reads)
      rcases List.mem_append.1 mem with done | ready
      · exact before (by simpa [or_assoc] using List.mem_append_left s.ready done)
      · rcases List.mem_append.1 ready with old | new
        · exact before (by simp [old])
        · obtain ⟨listed, now⟩ := List.mem_filter.1 new
          exact released q listed (by simpa using now)
    moved := by
      intro v w mem
      rcases wrote.movedFrom v w mem with old | ⟨rfl, rfl⟩
      · obtain ⟨q, done, same⟩ := logs.moved v w old
        exact ⟨q, by simp [done], same⟩
      · exact ⟨pair, by simp, rfl, rfl⟩
    tails := by
      rw [List.map_append, ← List.append_assoc, ← logs.tails]
      exact wrote.tails
    saves := wrote.saves.trans logs.saves
    renamings := wrote.renamings.trans logs.renamings
    names := (congrArg Rename.Scope.stack wrote.scope).trans logs.names
    vars := (congrArg Rename.Scope.pushed wrote.scope).trans logs.vars
    temporaries := wrote.temporaries.trans logs.temporaries
    kinds := by
      have held : (t.release pair.src).held = s.held := wrote.held
      exact held ▸ logs.kinds
    linesNodup := by
      rw [List.map_append]
      refine List.Nodup.append logs.linesNodup (wrote.dests.nodup (List.nodup_singleton _)) ?_
      intro name old new
      obtain rfl : name = p.varName pair.dest := by simpa using wrote.dests.subset new
      exact unassigned old
    linesFrom := by
      intro name mem
      rw [List.map_append, List.mem_append] at mem
      rcases mem with old | new
      · rcases logs.linesFrom name old with ⟨q, done, same⟩ | ⟨v, held⟩
        · exact .inl ⟨q, by simp [done], same⟩
        · exact .inr ⟨v, by simpa [release, wrote.held] using held⟩
      · exact .inl ⟨pair, by simp, by simpa using wrote.dests.subset new⟩
    values := by
      intro α env val holds
      have held : (t.release pair.src).held = s.held := wrote.held
      rw [held] at holds ⊢
      obtain ⟨done, kept⟩ := logs.values α env val holds
      simp only [Copy.runAll_append]
      have others {name : String} (ne : name ≠ p.varName pair.dest) :
          Copy.runAll (Copy.runAll env log.lines) lines name = Copy.runAll env log.lines name := by
        refine Copy.runAll_of_not_mem _ _ fun mem => ne ?_
        simpa using wrote.dests.subset mem
      refine ⟨fun q mem => ?_, fun v t mem => ?_⟩
      · rcases List.mem_append.1 mem with old | new
        · rw [others, done q old]
          intro same
          have inPairs' := logs.mem_pairs (List.mem_append_left _ old)
          have dest := (assignment.injective q inPairs' pair inPairs).2 same
          exact logs.flight_not_done assignment (assignment.eq_of_dest inPairs' inPairs dest ▸ old)
        · obtain rfl : q = pair := by simpa using new
          rw [wrote.value, logs.value_sourceName assignment holds]
      · rw [others, kept v t mem]
        exact (logs.known_ne (List.mem_append_left _ mem) (assignment.known pair inPairs).2).symm }

theorem perform (facts : Facts) :
    ∃ log', log'.done = log.done ++ [pair] ∧ Logs p b pairs stack copies log' [] (s.perform p facts b pair) := by
  obtain ⟨log', done, saved⟩ := logs.saveLost facts pair
  rw [← done]
  exact saved.assign_release assignment

end

end Logs

/-! ## A run -/

theorem start_logs (pairs : List Pair) (stack : Rename.Stack) (copies : Copies) :
    Logs p b pairs stack copies {} [] (start pairs stack copies) where
  perm := by
    simpa [start, List.partition_eq_filter_filter, Function.comp_def] using
      List.filter_append_perm (fun pair : Pair => !pairs.any (·.src = pair.dest)) pairs
  waiting := by
    intro pair mem
    simp only [start, List.partition_eq_filter_filter, List.mem_filter, Function.comp_apply, Bool.not_not,
      List.any_eq_true, decide_eq_true_eq] at mem
    obtain ⟨-, reader, listed, reads⟩ := mem
    refine ⟨⟨reader, ?_, reads⟩, by simp⟩
    simp only [start, List.partition_eq_filter_filter, List.nil_append, List.mem_append, List.mem_filter,
      Function.comp_apply, Bool.not_not, listed, true_and]
    cases pairs.any (·.src = reader.dest) <;> simp
  kept := by
    intro pair mem q pending ne reads
    simp only [start, List.partition_eq_filter_filter, List.nil_append, List.mem_append, List.mem_filter,
      Function.comp_apply, Bool.not_not] at mem pending
    have unread : ∀ q ∈ pairs, q.src ≠ pair.dest := by simpa using mem.2
    have listed : q ∈ pairs := by tauto
    exact absurd reads (unread q listed)
  moved := by simp [start]
  tails := by simp [start]
  saves := by simp [start]
  renamings := rfl
  names := by simp [start, Rename.Scope.enter, Rename.pushAll]
  vars := rfl
  temporaries := by simp [start]
  pushed := rfl
  fresh := rfl
  kinds := by simp [start]
  linesNodup := by simp
  linesFrom := by simp
  values := by simp [start]

theorem runWithin_invariant (invariant : Schedule → Prop) (ready : ∀ s pair rest, invariant s → s.ready = pair :: rest →
      invariant ({ s with ready := rest }.perform p facts b pair))
    (blocked : ∀ s pair rest, invariant s → s.ready = [] → s.blocked = pair :: rest →
      invariant (({ s with blocked := rest }.breakCycle p b pair).perform p facts b pair))
    (fuel : Nat) (s : Schedule) (holds : invariant s) : invariant (s.runWithin p facts b fuel) := by
  induction fuel generalizing s with
  | zero => exact holds
  | succ fuel ih =>
    rw [runWithin]
    split
    · rename_i pair rest first
      exact ih _ (ready s pair rest holds first)
    · rename_i pair rest none first
      exact ih _ (blocked s pair rest holds none first)
    · exact holds

theorem scope_runWithin (p : Procedure) (facts : Facts) (b : BlockId) (fuel : Nat) {s : Schedule}
    (entered : s.scope = .enter stack) : ∃ pushes, (s.runWithin p facts b fuel).scope =
      ⟨Rename.pushAll pushes stack, pushes.map (·.1)⟩ := by
  have performed {s : Schedule} (pair : Pair) (pushes : List (Var × String))
      (scope : s.scope = ⟨Rename.pushAll pushes stack, pushes.map (·.1)⟩) : ∃ pushes,
        (s.perform p facts b pair).scope = ⟨Rename.pushAll pushes stack, pushes.map (·.1)⟩ := by
    obtain ⟨lines, wrote⟩ := Logs.exists_wrote (p := p) (b := b) (s.saveLost p facts b pair) pair
    have written : (s.perform p facts b pair).scope = (s.saveLost p facts b pair).scope := wrote.scope
    rw [written, saveLost]
    split
    · refine ⟨(pair.dest, p.freshName s.copies.temporaries.length) :: pushes, ?_⟩
      simp only [newTemporary, scope]
      rfl
    · exact ⟨pushes, scope⟩
  refine runWithin_invariant (fun s => ∃ pushes, s.scope = ⟨Rename.pushAll pushes stack, pushes.map (·.1)⟩) ?_ ?_ _ _
    ⟨[], entered⟩
  · rintro s pair rest ⟨pushes, scope⟩ -
    exact performed pair pushes scope
  · rintro s pair rest ⟨pushes, scope⟩ - -
    refine performed pair pushes ?_
    rw [breakCycle]
    split
    · exact scope
    · exact scope

section

variable (s : Schedule) (pair : Pair)

theorem perform_blocked : (s.perform p facts b pair).blocked = s.blocked.filter (·.dest ≠ pair.src) := by
  have saved : (s.saveLost p facts b pair).blocked = s.blocked := by
    rw [saveLost]
    split <;> rfl
  obtain ⟨_, wrote⟩ := Logs.exists_wrote (p := p) (b := b) (s.saveLost p facts b pair) pair
  simp [perform, release, wrote.blocked, saved, Function.comp_def]

theorem perform_ready : (s.perform p facts b pair).ready = s.ready ++ s.blocked.filter (·.dest = pair.src) := by
  have saved : (s.saveLost p facts b pair).ready = s.ready ∧ (s.saveLost p facts b pair).blocked = s.blocked := by
    rw [saveLost]
    split <;> exact ⟨rfl, rfl⟩
  obtain ⟨_, wrote⟩ := Logs.exists_wrote (p := p) (b := b) (s.saveLost p facts b pair) pair
  simp [perform, release, wrote.ready, wrote.blocked, saved]

theorem perform_held : (s.perform p facts b pair).held = s.held := by
  have saved : (s.saveLost p facts b pair).held = s.held := by
    rw [saveLost]
    split <;> rfl
  obtain ⟨_, wrote⟩ := Logs.exists_wrote (p := p) (b := b) (s.saveLost p facts b pair) pair
  simp [perform, release, wrote.held, saved]

@[simp]
theorem breakCycle_ready : (s.breakCycle p b pair).ready = s.ready := by
  rw [breakCycle]
  split <;> rfl

@[simp]
theorem breakCycle_blocked : (s.breakCycle p b pair).blocked = s.blocked := by
  rw [breakCycle]
  split <;> rfl

theorem perform_pending_length : (s.perform p facts b pair).ready.length + (s.perform p facts b pair).blocked.length =
      s.ready.length + s.blocked.length := by
  have halves := (List.filter_append_perm (fun q : Pair => decide (q.dest = pair.src)) s.blocked).length_eq
  simp only [List.length_append] at halves
  simp only [perform_ready, perform_blocked, List.length_append, ne_eq, decide_not]
  omega

end

theorem runWithin_finished (fuel : Nat) (s : Schedule) (enough : s.ready.length + s.blocked.length ≤ fuel) :
    (s.runWithin p facts b fuel).ready = [] ∧ (s.runWithin p facts b fuel).blocked = [] := by
  induction fuel generalizing s with
  | zero =>
    rw [runWithin]
    exact ⟨List.length_eq_zero_iff.1 (by omega), List.length_eq_zero_iff.1 (by omega)⟩
  | succ fuel ih =>
    rw [runWithin]
    split
    · rename_i pair rest first
      refine ih _ ?_
      rw [perform_pending_length]
      rw [first, List.length_cons] at enough
      dsimp only
      omega
    · rename_i pair rest none first
      refine ih _ ?_
      rw [perform_pending_length, breakCycle_ready, breakCycle_blocked]
      rw [first, List.length_cons] at enough
      dsimp only
      omega
    · rename_i none none'
      exact ⟨none, none'⟩

theorem run_finished (p : Procedure) (facts : Facts) (b : BlockId) (pairs : List Pair)
    (stack : Rename.Stack) (copies : Copies) :
    ((start pairs stack copies).runWithin p facts b pairs.length).ready = [] ∧
      ((start pairs stack copies).runWithin p facts b pairs.length).blocked = [] := by
  have started : Logs p b pairs stack copies {} [] (start pairs stack copies) :=
    start_logs pairs stack copies
  exact runWithin_finished _ _ (by simpa using started.perm.length_eq.le)

theorem run_logs (facts : Facts) (b : BlockId) (assignment : Assignment p pairs stack copies) :
    ∃ log, Logs p b pairs stack copies log []
      ((start pairs stack copies).runWithin p facts b pairs.length) ∧ log.done.Perm pairs := by
  have invariant : ∃ log, Logs p b pairs stack copies log []
      ((start pairs stack copies).runWithin p facts b pairs.length) := by
    refine runWithin_invariant (fun s => ∃ log, Logs p b pairs stack copies log [] s) ?_ ?_ _ _
      ⟨{}, start_logs pairs stack copies⟩
    · rintro s pair rest ⟨log, logs⟩ first
      obtain ⟨log', -, next⟩ := (logs.take_ready first).perform assignment facts
      exact ⟨log', next⟩
    · rintro s pair rest ⟨log, logs⟩ none first
      obtain ⟨log', -, taken⟩ := logs.take_blocked assignment none first
      obtain ⟨log'', -, next⟩ := taken.perform assignment facts
      exact ⟨log'', next⟩
  obtain ⟨log, logs⟩ := invariant
  have finished := run_finished p facts b pairs stack copies
  exact ⟨log, logs, by simpa [finished.1, finished.2] using logs.perm⟩

end Schedule

end Reflow
