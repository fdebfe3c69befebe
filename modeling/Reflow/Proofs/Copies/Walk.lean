import Reflow.Copies.Walk
import Reflow.Proofs.Analysis
import Reflow.Proofs.Copies.Schedule
import Reflow.Proofs.Failing

namespace Reflow

section AppendsOutside

variable {β : Type} {visited more : List BlockId} {first second third : List (BlockId × β)}

def AppendsOutside (visited : List BlockId) (first second : List (BlockId × β)) : Prop :=
  ∃ added, second = first ++ added ∧ ∀ entry ∈ added, entry.1 ∉ visited

theorem AppendsOutside.refl : AppendsOutside visited first first :=
  ⟨[], by simp⟩

theorem AppendsOutside.trans (left : AppendsOutside visited first second) (right : AppendsOutside more second third)
    (grows : visited ⊆ more) : AppendsOutside visited first third := by
  obtain ⟨added, rfl, new⟩ := left
  obtain ⟨added', rfl, new'⟩ := right
  refine ⟨added ++ added', by simp, fun entry mem old => ?_⟩
  rcases List.mem_append.1 mem with mem | mem
  · exact new entry mem old
  · exact new' entry mem (grows old)

theorem AppendsOutside.filter_eq (appends : AppendsOutside visited first second) {b : BlockId}
    (old : b ∈ visited) : second.filter (·.1 = b) = first.filter (·.1 = b) := by
  obtain ⟨added, rfl, new⟩ := appends
  have none : added.filter (·.1 = b) = [] := by
    rw [List.filter_eq_nil_iff]
    intro entry mem same
    exact new entry mem ((of_decide_eq_true same : entry.1 = b) ▸ old)
  rw [List.filter_append, none, List.append_nil]

end AppendsOutside

structure CopyWalk.Extends (walk next : CopyWalk) : Prop where
  visited : walk.visited ⊆ next.visited
  tails : AppendsOutside walk.visited walk.copies.tails next.copies.tails
  renamings : AppendsOutside walk.visited walk.copies.renamings next.copies.renamings
  saves : walk.copies.saves <+: next.copies.saves
  temporaries : walk.copies.temporaries <+: next.copies.temporaries

namespace CopyWalk.Extends

variable {walk next last : CopyWalk}

theorem refl (walk : CopyWalk) : walk.Extends walk :=
  ⟨.refl _, .refl, .refl, List.prefix_rfl, List.prefix_rfl⟩

theorem trans (first : walk.Extends next) (second : next.Extends last) : walk.Extends last where
  visited := List.Subset.trans first.visited second.visited
  tails := first.tails.trans second.tails first.visited
  renamings := first.renamings.trans second.renamings first.visited
  saves := first.saves.trans second.saves
  temporaries := first.temporaries.trans second.temporaries

theorem madeBefore {p : Procedure} {stack : Rename.Stack} (extends_ : walk.Extends next)
    (made : Rename.MadeBefore p walk.copies stack) : Rename.MadeBefore p next.copies stack := by
  intro v name mem
  obtain ⟨n, lt, fresh⟩ := made v name mem
  exact ⟨n, lt.trans_le extends_.temporaries.length_le, fresh⟩

end CopyWalk.Extends

structure CopyWalk.Confined (walk : CopyWalk) : Prop where
  tails : ∀ entry ∈ walk.copies.tails, entry.1 ∈ walk.visited
  renamings : ∀ entry ∈ walk.copies.renamings, entry.1 ∈ walk.visited

namespace Procedure

variable {p : Procedure} {facts : Facts}

def placeNames (p : Procedure) (facts : Facts) (b : BlockId) (stack : Rename.Stack) (walk : CopyWalk) :
    Except EmitError (Rename.Stack × CopyWalk) :=
  (p.placeCopies facts b stack walk).map fun placed => (placed.1.stack, placed.2)

/-- The walk through a block and what is below it, which are given the names in force above them. -/
def walkBelow (p : Procedure) (facts : Facts) : Nat → Rename.Stack → CopyWalk → BlockId → Except EmitError CopyWalk
  | fuel, stack, walk, b =>
    if b ∈ walk.visited then .error (.reachedTwice b)
    else
      match fuel with
      | 0 => .ok walk
      | fuel + 1 => do
        let (names, walk) ← p.placeNames facts b stack walk
        (facts.children b).foldlM (p.walkBelow facts fuel names) walk

theorem scope_of_placeCopies {stack : Rename.Stack} {walk next : CopyWalk} {b : BlockId} {scope : Rename.Scope}
    (placed : p.placeCopies facts b stack walk = .ok (scope, next)) :
    ∃ pushes, scope = ⟨Rename.pushAll pushes stack, pushes.map (·.1)⟩ := by
  cases edges : p.edgePairs b with
  | error => simp [placeCopies, schedule, edges, Bind.bind, Except.bind] at placed
  | ok pairs =>
    simp only [placeCopies, schedule, edges, Bind.bind, Except.bind, Pure.pure, Except.pure, Except.ok.injEq,
      Prod.mk.injEq] at placed
    rw [← placed.1]
    exact Schedule.scope_runWithin p facts b pairs.length rfl

/-- A scope is closed behind its block, so the walk comes back with the names it started with. -/
theorem walkWithin_eq {stack : Rename.Stack} (filled : Rename.Filled stack) (fuel : Nat) (walk : CopyWalk)
    (b : BlockId) :
    p.walkWithin facts fuel (stack, walk) b = (p.walkBelow facts fuel stack walk b).map fun last => (stack, last) := by
  induction fuel generalizing stack walk b with
  | zero =>
    rw [walkWithin, walkBelow]
    split <;> rfl
  | succ fuel ih =>
    rw [walkWithin, walkBelow]
    split
    · rfl
    · cases placed : p.placeCopies facts b stack walk with
      | error => simp [placeNames, placed, Except.map, Bind.bind, Except.bind]
      | ok result =>
        obtain ⟨scope, next⟩ := result
        obtain ⟨pushes, rfl⟩ := scope_of_placeCopies placed
        have names := filled.pushAll pushes
        have children (blocks : List BlockId) (walk : CopyWalk) :
            blocks.foldlM (p.walkWithin facts fuel) (Rename.pushAll pushes stack, walk) =
              (blocks.foldlM (p.walkBelow facts fuel (Rename.pushAll pushes stack)) walk).map fun last =>
                (Rename.pushAll pushes stack, last) := by
          induction blocks generalizing walk with
          | nil => rfl
          | cons child _ rest =>
            rw [List.foldlM_cons, List.foldlM_cons, ih names]
            cases p.walkBelow facts fuel (Rename.pushAll pushes stack) walk child with
            | error => rfl
            | ok between => exact rest between
        simp only [placeNames, placed, Except.map, Bind.bind, Except.bind, children]
        cases (facts.children b).foldlM (p.walkBelow facts fuel (Rename.pushAll pushes stack)) next with
        | error => rfl
        | ok last => exact congrArg (fun stack => Except.ok (stack, last)) (filled.close_eq pushes)

theorem copies_eq (p : Procedure) (facts : Facts) : p.copies facts =
    (p.walkBelow facts ((facts.domChildren.flatMap (·.2)).length + 1) [] {} p.entry).map (·.copies) := by
  rw [Procedure.copies, walkWithin_eq (List.forall_mem_nil _)]
  cases p.walkBelow facts ((facts.domChildren.flatMap (·.2)).length + 1) [] {} p.entry <;> rfl

structure Places (p : Procedure) (facts : Facts) (b : BlockId) (stack : Rename.Stack)
    (walk : CopyWalk) (names : Rename.Stack) (next : CopyWalk) (pairs : List Pair) (log : Schedule.Log)
    (s : Schedule) : Prop where
  edges : p.edgePairs b = .ok pairs
  run : s = (Schedule.start pairs stack walk.copies).runWithin p facts b pairs.length
  logs : Schedule.Logs p b pairs stack walk.copies log [] s
  done : log.done.Perm pairs
  inForce : names = s.scope.stack
  visited : next.visited = b :: walk.visited
  tails : next.copies.tails = s.copies.tails
  saves : next.copies.saves = s.copies.saves
  temporaries : next.copies.temporaries = s.copies.temporaries
  renamings : next.copies.renamings = walk.copies.renamings ++ if names.isEmpty then [] else [(b, names)]

variable {b : BlockId} {stack names : Rename.Stack} {walk next : CopyWalk} {pairs : List Pair}
  {log : Schedule.Log} {s : Schedule}

theorem placeNames_eq_ok (distinct : ∀ b pairs, p.edgePairs b = .ok pairs → Distinct p pairs)
    (made : Rename.MadeBefore p walk.copies stack) (placed : p.placeNames facts b stack walk = .ok (names, next)) :
    ∃ pairs log s, p.Places facts b stack walk names next pairs log s := by
  cases edges : p.edgePairs b with
  | error =>
    simp [placeNames, placeCopies, Except.map, schedule, edges, Bind.bind, Except.bind] at placed
  | ok pairs =>
    obtain ⟨log, logs, done⟩ := Schedule.run_logs facts b ⟨distinct b pairs edges, made⟩
    simp only [placeNames, placeCopies, Except.map, schedule, edges, Bind.bind, Except.bind, Pure.pure, Except.pure,
      Except.ok.injEq, Prod.mk.injEq] at placed
    obtain ⟨rfl, rfl⟩ := placed
    refine ⟨pairs, log, _, edges, rfl, logs, done, rfl, rfl, ?_, ?_, ?_, ?_⟩
    · dsimp only
      split <;> rfl
    · dsimp only
      split <;> rfl
    · dsimp only
      split <;> rfl
    · dsimp only
      split <;> simp [logs.renamings]

section Places

variable (places : p.Places facts b stack walk names next pairs log s)
include places

theorem Places.schedule_eq : p.schedule facts b stack walk.copies = .ok s := by
  rw [places.run]
  simp only [schedule, places.edges, Bind.bind, Except.bind, Pure.pure, Except.pure]

theorem Places.extends (new : b ∉ walk.visited) : walk.Extends next where
  visited := places.visited ▸ List.subset_cons_self _ _
  tails := by
    refine ⟨log.lines.map fun copy => (b, copy), places.tails.trans places.logs.tails, ?_⟩
    intro entry mem
    obtain ⟨copy, -, rfl⟩ := List.mem_map.1 mem
    exact new
  renamings := by
    refine ⟨_, places.renamings, fun entry mem => ?_⟩
    split at mem
    · simp at mem
    · rw [List.mem_singleton.1 mem]
      exact new
  saves := ⟨log.saves, (places.saves.trans places.logs.saves).symm⟩
  temporaries := ⟨log.temporaries, (places.temporaries.trans places.logs.temporaries).symm⟩

theorem Places.madeBefore (made : Rename.MadeBefore p walk.copies stack) : Rename.MadeBefore p next.copies names := by
  rw [Rename.MadeBefore, places.inForce, places.logs.names, places.temporaries,
    places.logs.temporaries, List.length_append]
  intro v name mem
  rcases Rename.mem_names_pushAll.1 mem with pushed | old
  · obtain ⟨n, -, lt, fresh⟩ := places.logs.exists_fresh (List.mem_append_right _ pushed)
    exact ⟨n, lt, fresh⟩
  · obtain ⟨n, lt, fresh⟩ := made v name old
    exact ⟨n, by omega, fresh⟩

theorem Places.confined (confined : walk.Confined) : next.Confined where
  tails := by
    rw [places.tails, places.logs.tails, places.visited]
    intro entry mem
    rcases List.mem_append.1 mem with old | new
    · exact .tail _ (confined.tails entry old)
    · obtain ⟨copy, -, rfl⟩ := List.mem_map.1 new
      exact .head _
  renamings := by
    rw [places.renamings, places.visited]
    intro entry mem
    rcases List.mem_append.1 mem with old | new
    · exact .tail _ (confined.renamings entry old)
    · split at new
      · simp at new
      · rw [List.mem_singleton.1 new]
        exact .head _

end Places

/-! ## Entering blocks -/

inductive Enters (p : Procedure) (facts : Facts) :
    Nat → Rename.Stack → CopyWalk → BlockId → Rename.Stack → CopyWalk → BlockId → Prop
  | here {fuel : Nat} {stack : Rename.Stack} {walk : CopyWalk} {b : BlockId}
      (new : b ∉ walk.visited) : Enters p facts (fuel + 1) stack walk b stack walk b
  | inside {fuel : Nat} {stack names stack' : Rename.Stack} {walk next between walk' : CopyWalk}
      {b child b' : BlockId} {before after : List BlockId} (new : b ∉ walk.visited)
      (placed : p.placeNames facts b stack walk = .ok (names, next))
      (children : facts.children b = before ++ child :: after)
      (walked : before.foldlM (p.walkBelow facts fuel names) next = .ok between)
      (rest : Enters p facts fuel names between child stack' walk' b') :
      Enters p facts (fuel + 1) stack walk b stack' walk' b'

def EntersBlock (p : Procedure) (facts : Facts) (stack : Rename.Stack) (walk : CopyWalk) (b : BlockId) : Prop :=
  p.Enters facts ((facts.domChildren.flatMap (·.2)).length + 1) [] {} p.entry stack walk b

variable {fuel : Nat}

theorem walkBelow_succ_eq_ok {last : CopyWalk}
    (walked : p.walkBelow facts (fuel + 1) stack walk b = .ok last) :
    b ∉ walk.visited ∧ ∃ names next, p.placeNames facts b stack walk = .ok (names, next) ∧
      (facts.children b).foldlM (p.walkBelow facts fuel names) next = .ok last := by
  rw [walkBelow] at walked
  split at walked
  · simp at walked
  · rename_i new
    cases placed : p.placeNames facts b stack walk with
    | error => simp [placed, Bind.bind, Except.bind] at walked
    | ok result =>
      obtain ⟨names, next⟩ := result
      exact ⟨new, names, next, rfl, by simpa [placed, Bind.bind, Except.bind] using walked⟩

theorem walkBelow_keeps (part : BlockId → Prop) (holds : Rename.Stack → CopyWalk → Prop)
    (children : ∀ b, part b → ∀ child ∈ facts.children b, part child)
    (step : ∀ b stack walk names next, part b → holds stack walk → p.placeNames facts b stack walk = .ok (names, next) →
        holds names next ∧ ∀ above, holds above walk → holds above next)
    {last : CopyWalk} (here : part b) (inForce : holds stack walk)
    (walked : p.walkBelow facts fuel stack walk b = .ok last) : ∀ above, holds above walk → holds above last := by
  induction fuel generalizing stack walk b last with
  | zero =>
    rw [walkBelow] at walked
    split at walked
    · cases walked
    · cases walked
      exact fun _ => id
  | succ fuel ih =>
    obtain ⟨-, names, next, placed, rest⟩ := walkBelow_succ_eq_ok walked
    obtain ⟨below, grows⟩ := step b stack walk names next here inForce placed
    have blocks (blocks : List BlockId) (all : ∀ child ∈ blocks, part child) (walk : CopyWalk)
      (below : holds names walk)
        (rest : blocks.foldlM (p.walkBelow facts fuel names) walk = .ok last) :
        ∀ above, holds above walk → holds above last := by
      induction blocks generalizing walk with
      | nil =>
        cases rest
        exact fun _ => id
      | cons child _ ih' =>
        obtain ⟨between, first, rest⟩ := foldlM_cons_eq_ok rest
        have inside := ih (all child (.head _)) below first
        have behind := ih' (fun child mem => all child (.tail _ mem)) between (inside _ below) rest
        exact fun above kept => behind above (inside above kept)
    exact fun above kept => blocks _ (children b here) next below rest above (grows above kept)

theorem walkBlocks_extends {blocks : List BlockId} {last : CopyWalk}
    (each : ∀ walk b next, Rename.MadeBefore p walk.copies names → walk.Confined →
      p.walkBelow facts fuel names walk b = .ok next → walk.Extends next ∧ next.Confined)
    (made : Rename.MadeBefore p walk.copies names) (confined : walk.Confined)
    (walked : blocks.foldlM (p.walkBelow facts fuel names) walk = .ok last) :
    walk.Extends last ∧ last.Confined := by
  induction blocks generalizing walk with
  | nil =>
    obtain rfl : walk = last := Except.ok.inj walked
    exact ⟨.refl walk, confined⟩
  | cons b _ ih =>
    obtain ⟨between, first, rest⟩ := foldlM_cons_eq_ok walked
    obtain ⟨extends_, confined⟩ := each walk b between made confined first
    obtain ⟨extends', confined⟩ := ih (extends_.madeBefore made) confined rest
    exact ⟨extends_.trans extends', confined⟩

section Keeps

variable (distinct : ∀ b pairs, p.edgePairs b = .ok pairs → Distinct p pairs)

include distinct

theorem walkBelow_extends (facts : Facts) (fuel : Nat) (stack : Rename.Stack) (walk : CopyWalk) (b : BlockId)
    (last : CopyWalk) (made : Rename.MadeBefore p walk.copies stack) (confined : walk.Confined)
    (walked : p.walkBelow facts fuel stack walk b = .ok last) : walk.Extends last ∧ last.Confined := by
  induction fuel generalizing stack walk b last with
  | zero =>
    rw [walkBelow] at walked
    split at walked
    · simp at walked
    · obtain rfl : walk = last := by simpa using walked
      exact ⟨.refl walk, confined⟩
  | succ fuel ih =>
    obtain ⟨new, names, next, placed, rest⟩ := walkBelow_succ_eq_ok walked
    obtain ⟨pairs, log, s, places⟩ := placeNames_eq_ok distinct made placed
    obtain ⟨extends_, confined⟩ := walkBlocks_extends (ih names) (places.madeBefore made)
      (places.confined confined) rest
    exact ⟨(places.extends new).trans extends_, confined⟩

theorem Enters.places {fuel : Nat} {stack stack' : Rename.Stack} {walk walk' last : CopyWalk} {b b' : BlockId}
    (enters : p.Enters facts fuel stack walk b stack' walk' b') (made : Rename.MadeBefore p walk.copies stack)
    (confined : walk.Confined) (walked : p.walkBelow facts fuel stack walk b = .ok last) :
    b' ∉ walk'.visited ∧ walk'.Confined ∧ Rename.MadeBefore p walk'.copies stack' ∧
      ∃ names next pairs log s, p.Places facts b' stack' walk' names next pairs log s ∧ next.Extends last := by
  induction enters generalizing last with
  | here new =>
    obtain ⟨new, names, next, placed, rest⟩ := walkBelow_succ_eq_ok walked
    obtain ⟨pairs, log, s, places⟩ := placeNames_eq_ok distinct made placed
    obtain ⟨extends_, -⟩ := walkBlocks_extends (walkBelow_extends distinct facts _ names)
      (places.madeBefore made) (places.confined confined) rest
    exact ⟨new, confined, made, names, next, pairs, log, s, places, extends_⟩
  | @inside fuel _ names _ _ next _ _ _ _ _ _ _ _ placed children walkedBefore _ ih =>
      obtain ⟨-, names', next', placed', rest⟩ := walkBelow_succ_eq_ok walked
      obtain ⟨rfl, rfl⟩ := Prod.mk.inj (Except.ok.inj (placed.symm.trans placed'))
      obtain ⟨pairs, log, s, places⟩ := placeNames_eq_ok distinct made placed
      rw [children] at rest
      obtain ⟨between', first, rest⟩ := foldlM_append_eq_ok rest
      obtain rfl := Except.ok.inj (walkedBefore.symm.trans first)
      obtain ⟨after', inChild, rest⟩ := foldlM_cons_eq_ok rest
      have step := walkBelow_extends distinct facts fuel names
      obtain ⟨extends_, confined⟩ := walkBlocks_extends step (places.madeBefore made) (places.confined confined) first
      have made := extends_.madeBefore (places.madeBefore made)
      obtain ⟨inner, confinedChild⟩ := step _ _ _ made confined inChild
      obtain ⟨last_, -⟩ := walkBlocks_extends step (inner.madeBefore made) confinedChild rest
      obtain ⟨new, confined, made, names, next, pairs, log, s, places, extends'⟩ :=
        ih made confined inChild
      exact ⟨new, confined, made, names, next, pairs, log, s, places, extends'.trans last_⟩

end Keeps

theorem tail_eq_lines {last : CopyWalk} (places : p.Places facts b stack walk names next pairs log s)
    (new : b ∉ walk.visited) (confined : walk.Confined) (extends_ : next.Extends last) :
    last.copies.tail b = log.lines := by
  have here : b ∈ next.visited := places.visited ▸ (.head _)
  have before : walk.copies.tails.filter (·.1 = b) = [] := by
    rw [List.filter_eq_nil_iff]
    intro entry mem same
    exact new ((of_decide_eq_true same : entry.1 = b) ▸ confined.tails entry mem)
  rw [Copies.tail, extends_.tails.filter_eq here, places.tails, places.logs.tails, List.filter_append, before]
  simp [List.filter_map, Function.comp_def]

theorem copies_eq_ok {c : Copies} (copies : p.copies facts = .ok c) :
    ∃ last, p.walkBelow facts ((facts.domChildren.flatMap (·.2)).length + 1) [] {} p.entry = .ok last ∧
      last.copies = c := by
  rw [Procedure.copies_eq] at copies
  cases walked : p.walkBelow facts ((facts.domChildren.flatMap (·.2)).length + 1) [] {} p.entry with
  | error => rw [walked] at copies; exact nomatch copies
  | ok last =>
    rw [walked] at copies
    exact ⟨last, rfl, Except.ok.inj copies⟩

theorem EntersBlock.places {c : Copies} (distinct : ∀ b pairs, p.edgePairs b = .ok pairs → Distinct p pairs)
    (copies : p.copies facts = .ok c) (enters : p.EntersBlock facts stack walk b) :
    Rename.MadeBefore p walk.copies stack ∧ ∃ names next pairs log s,
      p.Places facts b stack walk names next pairs log s ∧ c.tail b = log.lines := by
  obtain ⟨last, walked, rfl⟩ := copies_eq_ok copies
  have made : Rename.MadeBefore p ({} : CopyWalk).copies [] := by simp [Rename.MadeBefore, Rename.names]
  obtain ⟨new, confined, made, names, next, pairs, log, s, places, extends_⟩ :=
    Enters.places distinct enters made ⟨by simp, by simp⟩ walked
  exact ⟨made, names, next, pairs, log, s, places, tail_eq_lines places new confined extends_⟩

/-! ## With the facts of the analysis -/

section Analysis

open Classical in
noncomputable def dominated (p : Procedure) (b : BlockId) : List BlockId :=
  p.analysis.order.filter fun c => b ≠ c ∧ p.Dominates b c

theorem mem_dominated_iff {c : BlockId} : c ∈ p.dominated b ↔ p.Reachable c ∧ b ≠ c ∧ p.Dominates b c := by
  simp [dominated, mem_order_iff]

theorem dominated_nodup : (p.dominated b).Nodup :=
  order_nodup.filter _

theorem dominated_length_lt {c : BlockId} (child : p.flow.ImmediatelyDominates p.entry b c) :
    (p.dominated c).length < (p.dominated b).length := by
  have nodup : (c :: p.dominated c).Nodup := by
    refine List.nodup_cons.2 ⟨fun mem => ?_, dominated_nodup⟩
    exact (mem_dominated_iff.1 mem).2.1 rfl
  have subset : c :: p.dominated c ⊆ p.dominated b := by
    intro x mem
    rcases List.mem_cons.1 mem with rfl | mem
    · exact mem_dominated_iff.2 ⟨child.reached, child.ne, child.dominates⟩
    · obtain ⟨reach, ne, dominates⟩ := mem_dominated_iff.1 mem
      refine mem_dominated_iff.2 ⟨reach, ?_, child.dominates.trans dominates⟩
      rintro rfl
      exact child.ne (Digraph.Dominates.antisymm child.reached child.dominates dominates)
  simpa using (nodup.subperm subset).length_le

theorem dominated_entry_length_le : (p.dominated p.entry).length ≤ (p.analysis.domChildren.flatMap (·.2)).length := by
  have subset : p.dominated p.entry ⊆ p.analysis.domChildren.flatMap (·.2) := by
    intro b mem
    obtain ⟨reach, ne, -⟩ := mem_dominated_iff.1 mem
    obtain ⟨d, idom⟩ := Digraph.exists_immediatelyDominates reach ne.symm
    have above : p.Reachable d := idom.dominates.reaches idom.reached
    refine List.mem_flatMap.2 ⟨(d, p.analysis.order.filter fun c => p.analysis.idom? c = some d), ?_, ?_⟩
    · exact List.mem_map.2 ⟨d, mem_order_iff.2 above, rfl⟩
    · simpa [mem_order_iff, idom?_eq_some_iff] using ⟨reach, idom⟩
  exact (dominated_nodup.subperm subset).length_le

theorem exists_enters (fuel : Nat) (stack : Rename.Stack) (walk : CopyWalk) (b : BlockId) (last : CopyWalk)
    (walked : p.walkBelow p.analysis.toFacts fuel stack walk b = .ok last) (enough : (p.dominated b).length < fuel)
    {x : BlockId} (reach : p.Reachable x) (dominates : p.Dominates b x) :
    ∃ stack' walk', p.Enters p.analysis.toFacts fuel stack walk b stack' walk' x := by
  induction fuel generalizing stack walk b last with
  | zero => exact absurd enough (Nat.not_lt_zero _)
  | succ fuel ih =>
    obtain ⟨new, names, next, placed, rest⟩ := walkBelow_succ_eq_ok walked
    by_cases same : b = x
    · subst same
      exact ⟨stack, walk, .here new⟩
    · obtain ⟨c, child, above⟩ := Digraph.exists_immediatelyDominated reach dominates same
      obtain ⟨before, after, children⟩ := List.append_of_mem (mem_children_iff.2 child)
      rw [children] at rest
      obtain ⟨between, first, rest⟩ := foldlM_append_eq_ok rest
      obtain ⟨later, inChild, -⟩ := foldlM_cons_eq_ok rest
      have fewer := dominated_length_lt child
      obtain ⟨stack', walk', enters⟩ := ih names between c later inChild (by omega) above
      exact ⟨stack', walk', .inside new placed children first enters⟩

theorem exists_entersBlock {c : Copies} (copies : p.copies p.analysis.toFacts = .ok c) (reach : p.Reachable b) :
    ∃ stack walk, p.EntersBlock p.analysis.toFacts stack walk b := by
  obtain ⟨last, walked, -⟩ := copies_eq_ok copies
  exact exists_enters _ [] {} p.entry last walked (Nat.lt_succ_of_le dominated_entry_length_le) reach
    (Digraph.Dominates.root_dominates b)

theorem exists_placeCopies_ok (facts : Facts) (edges : p.edgePairs b = .ok pairs)
    (stack : Rename.Stack) (walk : CopyWalk) : ∃ names next, p.placeNames facts b stack walk = .ok (names, next) ∧
      next.visited = b :: walk.visited := by
  simp only [placeNames, placeCopies, Except.map, schedule, edges, Bind.bind, Except.bind, Pure.pure, Except.pure,
    Except.ok.injEq, Prod.mk.injEq]
  exact ⟨_, _, ⟨rfl, rfl⟩, rfl⟩

theorem placeNames_eq_error (facts : Facts) {error : EmitError} (edges : p.edgePairs b = .error error)
    (stack : Rename.Stack) (walk : CopyWalk) : p.placeNames facts b stack walk = .error error := by
  simp only [placeNames, placeCopies, Except.map, schedule, edges, Bind.bind, Except.bind]

/-- What the walk through a part of the dominator tree comes to: it visits the blocks of the part, each once, or fails
as the copies of a block do. -/
inductive Outcome (p : Procedure) (walk : CopyWalk) (part : BlockId → Prop) : Except EmitError CopyWalk → Prop
  | visits {last : CopyWalk} (added : List BlockId) (visited : last.visited = added ++ walk.visited)
      (nodup : added.Nodup) (members : ∀ x, x ∈ added ↔ part x)
      (edges : ∀ x, part x → ∃ pairs, p.edgePairs x = .ok pairs) : Outcome p walk part (.ok last)
  | fails {error : EmitError} {b : BlockId} (reach : p.Reachable b)
      (edges : p.edgePairs b = .error error) : Outcome p walk part (.error error)

theorem walkBlocks_outcome {fuel : Nat} {blocks : List BlockId}
    (each : ∀ walk c, c ∈ blocks → (∀ x, p.Reachable x → p.Dominates c x → x ∉ walk.visited) →
      p.Outcome walk (fun x => p.Reachable x ∧ p.Dominates c x) (p.walkBelow p.analysis.toFacts fuel names walk c))
    (nodup : blocks.Nodup) (children : ∀ c ∈ blocks, p.flow.ImmediatelyDominates p.entry b c)
    (new : ∀ c ∈ blocks, ∀ x, p.Reachable x → p.Dominates c x → x ∉ walk.visited) :
    p.Outcome walk (fun x => p.Reachable x ∧ ∃ c ∈ blocks, p.Dominates c x)
      (blocks.foldlM (p.walkBelow p.analysis.toFacts fuel names) walk) := by
  induction blocks generalizing walk with
  | nil => exact .visits [] (List.nil_append _).symm .nil (by simp) (by simp)
  | cons c blocks ih =>
    obtain ⟨notAgain, nodup⟩ := List.nodup_cons.1 nodup
    have apart (d : BlockId) (mem : d ∈ blocks) (x : BlockId) (reach : p.Reachable x)
        (below : p.Dominates d x) : ¬ p.Dominates c x := by
      intro above
      obtain rfl := (children c (.head _)).eq_of_dominates (children d (.tail _ mem)) reach above below
      exact notAgain mem
    have first := each walk c (.head _) (new c (.head _))
    rw [List.foldlM_cons]
    generalize p.walkBelow p.analysis.toFacts fuel names walk c = result at first
    cases first with
    | fails reach edges => exact .fails reach edges
    | @visits between added visited addedNodup members edges =>
      have newAfter (d : BlockId) (mem : d ∈ blocks) (x : BlockId) (reach : p.Reachable x)
          (below : p.Dominates d x) : x ∉ between.visited := by
        rw [visited, List.mem_append, members, not_or]
        exact ⟨fun seen => apart d mem x reach below seen.2, new d (.tail _ mem) x reach below⟩
      have rest := ih (fun walk d mem => each walk d (.tail _ mem)) nodup
        (fun d mem => children d (.tail _ mem)) newAfter
      change p.Outcome walk _ (blocks.foldlM (p.walkBelow p.analysis.toFacts fuel names) between)
      generalize blocks.foldlM (p.walkBelow p.analysis.toFacts fuel names) between = result at rest
      cases rest with
      | fails reach edges => exact .fails reach edges
      | @visits last more visited' moreNodup members' edges' =>
        have split (x : BlockId) : (p.Reachable x ∧ ∃ d ∈ c :: blocks, p.Dominates d x) ↔
            (p.Reachable x ∧ ∃ d ∈ blocks, p.Dominates d x) ∨ p.Reachable x ∧ p.Dominates c x := by
          simp only [List.mem_cons, exists_eq_or_imp]
          rw [← and_or_left, or_comm]
        refine .visits (more ++ added) (by simp [visited, visited']) ?_ ?_ ?_
        · refine List.nodup_append.2 ⟨moreNodup, addedNodup, ?_⟩
          rintro x later _ earlier rfl
          obtain ⟨reach, d, mem, below⟩ := (members' x).1 later
          exact apart d mem x reach below ((members x).1 earlier).2
        · intro x
          rw [List.mem_append, members, members', split]
        · intro x here
          exact ((split x).1 here).elim (edges' x) (edges x)

theorem walkBelow_outcome (fuel : Nat) (stack : Rename.Stack) (walk : CopyWalk) (b : BlockId)
    (reach : p.Reachable b) (enough : (p.dominated b).length < fuel)
    (new : ∀ x, p.Reachable x → p.Dominates b x → x ∉ walk.visited) :
    p.Outcome walk (fun x => p.Reachable x ∧ p.Dominates b x) (p.walkBelow p.analysis.toFacts fuel stack walk b) := by
  induction fuel generalizing stack walk b with
  | zero => exact absurd enough (Nat.not_lt_zero _)
  | succ fuel ih =>
    rw [walkBelow, if_neg (new b reach (.refl b))]
    cases edges : p.edgePairs b with
    | error =>
      rw [placeNames_eq_error p.analysis.toFacts edges]
      exact .fails reach edges
    | ok pairs =>
      obtain ⟨names, next, placed, visited⟩ := exists_placeCopies_ok p.analysis.toFacts edges stack walk
      rw [placed]
      have strict (x : BlockId) (below : ∃ c ∈ p.analysis.children b, p.Dominates c x) : x ≠ b := by
        rintro rfl
        obtain ⟨c, mem, dominates⟩ := below
        have child := mem_children_iff.1 mem
        exact child.ne (Digraph.Dominates.antisymm child.reached child.dominates dominates)
      have newBelow (c : BlockId) (mem : c ∈ p.analysis.children b) (x : BlockId) (reach : p.Reachable x)
          (dominates : p.Dominates c x) : x ∉ next.visited := by
        rw [visited, List.mem_cons, not_or]
        exact ⟨strict x ⟨c, mem, dominates⟩, new x reach ((mem_children_iff.1 mem).dominates.trans dominates)⟩
      have below : p.Outcome next _ ((p.analysis.children b).foldlM (p.walkBelow p.analysis.toFacts fuel names) next) :=
        walkBlocks_outcome (fun walk c mem new => ih names walk c (mem_children_iff.1 mem).reached
          (by have := dominated_length_lt (mem_children_iff.1 mem); omega) new)
        children_nodup (fun c => mem_children_iff.1) newBelow
      change p.Outcome walk _ ((p.analysis.children b).foldlM (p.walkBelow p.analysis.toFacts fuel names) next)
      generalize (p.analysis.children b).foldlM (p.walkBelow p.analysis.toFacts fuel names) next = result at below
      cases below with
      | fails reach edges => exact .fails reach edges
      | @visits last added visited' nodup members edges' =>
        have split (x : BlockId) : p.Reachable x ∧ p.Dominates b x ↔
            (p.Reachable x ∧ ∃ c ∈ p.analysis.children b, p.Dominates c x) ∨ x = b := by
          constructor
          · rintro ⟨reached, below⟩
            by_cases same : b = x
            · exact .inr same.symm
            · obtain ⟨c, child, above⟩ := Digraph.exists_immediatelyDominated reached below same
              exact .inl ⟨reached, c, mem_children_iff.2 child, above⟩
          · rintro (⟨reach, c, mem, below⟩ | rfl)
            · exact ⟨reach, (mem_children_iff.1 mem).dominates.trans below⟩
            · exact ⟨reach, .refl x⟩
        refine .visits (added ++ [b]) (by simp [visited, visited']) ?_ ?_ ?_
        · refine List.nodup_append.2 ⟨nodup, List.nodup_singleton b, ?_⟩
          rintro x later _ here rfl
          exact strict x ((members x).1 later).2 (List.mem_singleton.1 here)
        · intro x
          rw [List.mem_append, members, List.mem_singleton, split]
        · intro x here
          rcases (split x).1 here with below | rfl
          · exact edges' x below
          · exact ⟨pairs, edges⟩

theorem walk_outcome : p.Outcome {} p.Reachable
    (p.walkBelow p.analysis.toFacts ((p.analysis.domChildren.flatMap (·.2)).length + 1) [] {} p.entry) := by
  have outcome := walkBelow_outcome ((p.analysis.domChildren.flatMap (·.2)).length + 1) [] {} p.entry
    reachable_entry (Nat.lt_succ_of_le dominated_entry_length_le) (by simp)
  have all : (fun x => p.Reachable x ∧ p.Dominates p.entry x) = p.Reachable := by
    funext x
    exact propext (and_iff_left (Digraph.Dominates.root_dominates x))
  exact all ▸ outcome

theorem exists_copies_ok (edges : ∀ b, p.Reachable b → ∃ pairs, p.edgePairs b = .ok pairs) :
    ∃ c, p.copies p.analysis.toFacts = .ok c := by
  have outcome := p.walk_outcome
  rw [copies_eq]
  generalize p.walkBelow p.analysis.toFacts _ [] {} p.entry = result at outcome ⊢
  cases outcome with
  | @visits last => exact ⟨last.copies, rfl⟩
  | @fails _ b reach failed =>
    obtain ⟨pairs, found⟩ := edges b reach
    exact absurd (failed.symm.trans found) (by simp)

end Analysis

end Procedure

end Reflow
