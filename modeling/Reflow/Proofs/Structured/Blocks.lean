import Reflow.Proofs.Structured.Lines

namespace Reflow

namespace Traversal

variable {t t' t'' : Traversal} {start middle stop low high : Nat} {b join x : Nat}

structure Covers (t t' : Traversal) (start stop : Nat) : Prop where
  same : t' = { t with rendered := t'.rendered }
  rendered : ∀ b : Nat, b ∈ t'.rendered ↔ b ∈ t.rendered ∨ start ≤ b ∧ b < stop

structure Clear (t : Traversal) (start stop : Nat) : Prop where
  fresh : ∀ b : Nat, start ≤ b → b < stop → b ∉ t.rendered
  free : ∀ b : Nat, start ≤ b → b < stop → t.isDeferred b = false
  unhinted : ∀ b : Nat, start ≤ b → b < stop → b ∉ t.hints
  jumpless : t.jumpTargets = []

def Waits (t : Traversal) (join : BlockId) : Prop :=
  t.frontier.lookup join = some t.openExits.length

namespace Covers

section

variable (covers : t.Covers t' start stop)
include covers

theorem frontier : t'.frontier = t.frontier := by
  rw [covers.same]

theorem hints : t'.hints = t.hints := by
  rw [covers.same]

theorem openExits : t'.openExits = t.openExits := by
  rw [covers.same]

theorem jumpTargets : t'.jumpTargets = t.jumpTargets := by
  rw [covers.same]

theorem isDeferred (b : BlockId) : t'.isDeferred b = t.isDeferred b := by
  rw [Traversal.isDeferred, Traversal.isDeferred, covers.frontier]

theorem waits (waits : t.Waits join) : t'.Waits join := by
  rw [Waits, covers.frontier, covers.openExits]
  exact waits

end

theorem refl (t : Traversal) (b : Nat) : t.Covers t b b :=
  ⟨rfl, fun _ => ⟨.inl, fun either => either.resolve_right (by omega)⟩⟩

theorem trans (first : t.Covers t' start middle) (second : t'.Covers t'' middle stop)
    (le : start ≤ middle) (le' : middle ≤ stop) : t.Covers t'' start stop := by
  refine ⟨?_, fun b => ?_⟩
  · rw [second.same, first.same]
  · rw [second.rendered, first.rendered]
    constructor
    · rintro ((old | early) | late)
      · exact .inl old
      · exact .inr ⟨early.1, by omega⟩
      · exact .inr ⟨by omega, late.2⟩
    · rintro (old | inside)
      · exact .inl (.inl old)
      · by_cases before : b < middle
        · exact .inl (.inr ⟨inside.1, before⟩)
        · exact .inr ⟨by omega, inside.2⟩

theorem render (t : Traversal) (b : Nat) : t.Covers (t.render b) b (b + 1) := by
  refine ⟨rfl, fun c => ?_⟩
  rw [Traversal.render, mem_addNew]
  constructor
  · rintro (rfl | old)
    · exact .inr ⟨le_rfl, Nat.lt_succ_self _⟩
    · exact .inl old
  · rintro (old | inside)
    · exact .inr old
    · have same : c = b := by omega
      exact .inl same

theorem undefer (covers : ((t.render b).defer join).Covers t' (b + 1) join) (free : t.isDeferred join = false)
    (before : b < join) : t.Covers (t'.undefer join) b join := by
  have kept : t'.frontier.filter (·.1 ≠ join) = t.frontier := by
    rw [covers.frontier, Traversal.defer, List.filter_cons_of_neg (by simp), List.filter_filter]
    simp only [Bool.and_self]
    exact filter_frontier free
  have inner : (t.render b).Covers (t'.undefer join) (b + 1) join := by
    refine ⟨?_, covers.rendered⟩
    rw [Traversal.undefer, kept, covers.same]
    rfl
  exact (render t b).trans inner (Nat.le_succ b) before

theorem unhint (covers : (t.hint x).Covers t' start stop) : t.Covers (t'.unhint x) start stop := by
  have hints : t'.hints.erase x = t.hints := by
    rw [covers.hints, Traversal.hint, List.erase_cons_head]
  refine ⟨?_, covers.rendered⟩
  rw [Traversal.unhint, hints, covers.same]
  rfl

theorem closeLoop (covers : (t.openLoop x).Covers t' start stop) : t.Covers t'.closeLoop start stop := by
  have openExits : t'.openExits.tail = t.openExits := by
    rw [covers.openExits]
    rfl
  refine ⟨?_, covers.rendered⟩
  rw [Traversal.closeLoop, openExits, covers.same]
  rfl

end Covers

theorem isDeferred_defer : (t.defer join).isDeferred b = true ↔ b = join ∨ t.isDeferred b = true := by
  simp only [isDeferred_iff, defer, List.mem_cons, List.mem_filter]
  constructor
  · rintro ⟨depth, same | ⟨old, -⟩⟩
    · exact .inl (congrArg (·.1) same)
    · exact .inr ⟨depth, old⟩
  · rintro (rfl | ⟨depth, old⟩)
    · exact ⟨_, .inl rfl⟩
    · by_cases same : b = join
      · exact ⟨t.openExits.length, .inl (by rw [same])⟩
      · exact ⟨depth, .inr ⟨old, by simpa using same⟩⟩

theorem begun_of_fresh {p : Procedure} (ipdom : p.analysis.ipdom? b = some join) (apart : join ≠ b)
    (fresh : join ∉ t.rendered) (free : t.isDeferred join = false) :
    (t.render b).joinOf p b = some join ∧ t.begun p b = (t.render b).defer join := by
  have absent : (t.render b).isRendered join = false := by
    rw [isRendered, decide_eq_false_iff_not, Traversal.render, mem_addNew]
    exact fun either => either.elim apart fresh
  have undeferred : (t.render b).isDeferred join = false := free
  have taken : (t.render b).joinOf p b = some join := by
    simp [joinOf, ipdom, absent, undeferred]
  exact ⟨taken, by rw [begun, taken, Option.elim_some]⟩

theorem waits_defer : (t.defer join).Waits join := by
  simp [Waits, defer]

theorem Waits.stays (waits : t.Waits b) : t.isDeferred b = true ∧ t.leavesOpenLoop b = false := by
  rw [Waits] at waits
  simp [isDeferred, leavesOpenLoop, waits]

theorem leavesOpenLoop_of_free (free : t.isDeferred b = false) : t.leavesOpenLoop b = false := by
  have none : t.frontier.lookup b = none := by simpa [isDeferred] using free
  simp [leavesOpenLoop, none]

namespace Clear

section

variable (clear : t.Clear start stop)
include clear

theorem mono (inner : start ≤ low) (outer : high ≤ stop) : t.Clear low high where
  fresh b after before := clear.fresh b (by omega) (by omega)
  free b after before := clear.free b (by omega) (by omega)
  unhinted b after before := clear.unhinted b (by omega) (by omega)
  jumpless := clear.jumpless

theorem covers (covers : t.Covers t' low high) (apart : high ≤ start ∨ stop ≤ low) : t'.Clear start stop where
  fresh b after before rendered := by
    rcases (covers.rendered b).1 rendered with old | inside
    · exact clear.fresh b after before old
    · omega
  free b after before := (covers.isDeferred b).trans (clear.free b after before)
  unhinted b after before := covers.hints ▸ clear.unhinted b after before
  jumpless := covers.jumpTargets.trans clear.jumpless

theorem defer (apart : join < start ∨ stop ≤ join) : (t.defer join).Clear start stop where
  fresh := clear.fresh
  free b after before := by
    rw [Bool.eq_false_iff, ne_eq, isDeferred_defer]
    rintro (rfl | old)
    · omega
    · simp [clear.free b after before] at old
  unhinted := clear.unhinted
  jumpless := clear.jumpless

theorem hint (apart : x < start ∨ stop ≤ x) : (t.hint x).Clear start stop where
  fresh := clear.fresh
  free := clear.free
  unhinted b after before mem := by
    rcases List.mem_cons.1 mem with rfl | old
    · omega
    · exact clear.unhinted b after before old
  jumpless := clear.jumpless

theorem openLoop (exit : BlockId) : (t.openLoop exit).Clear start stop :=
  ⟨clear.fresh, clear.free, clear.unhinted, clear.jumpless⟩

end

theorem begun (clear : t.Clear b stop) (filled : join ≤ stop) : ((t.render b).defer join).Clear (b + 1) join :=
  Clear.defer ((clear.mono (Nat.le_succ b) filled).covers (Covers.render t b) (.inl le_rfl)) (.inr le_rfl)

end Clear

end Traversal

def Procedure.Calm (p : Procedure) (t : Traversal) (b : BlockId) (loopTest : Bool) : Prop :=
  p.inDegree b ≤ 1 ∨ ∀ c ∈ p.preds b, p.analysis.ipdom? c = some b ∧
    (c ∈ t.rendered ∧ c ≠ b ∨ p.analysis.isFeedback c b = true ∧ loopTest = true)

theorem Labels.isNeeded_eq {labels : Labels} {p : Procedure} {t : Traversal} {b : BlockId} {loopTest : Bool}
    (ok : ∀ b, p.classified b = .ok (p.kinds b)) (label : p.label? b = none)
    (explicit : labels.jumpTargets = []) (jumpless : t.jumpTargets = []) (unhinted : b ∉ t.hints)
    (calm : p.Calm t b loopTest) : labels.isNeeded p p.analysis.toFacts t b loopTest = .ok false := by
  have quiet (preds : List BlockId) (all : ∀ c ∈ preds, p.analysis.ipdom? c = some b ∧
      (c ∈ t.rendered ∧ c ≠ b ∨ p.analysis.isFeedback c b = true ∧ loopTest = true)) :
      someJumps p p.analysis.toFacts t b loopTest preds = .ok false := by
    induction preds with
    | nil => rfl
    | cons c _ ih =>
      have rest := ih fun c mem => all c (.tail _ mem)
      obtain ⟨ipdom, known⟩ := all c (.head _)
      have join : p.analysis.toFacts.ipdom? c = some b := ipdom
      obtain ⟨switches, found⟩ : ∃ switches, p.endsWithSwitch c = .ok switches := by
        rw [Procedure.endsWithSwitch, Procedure.lastRealKind_eq (ok c)]
        exact ⟨_, rfl⟩
      rw [someJumps, found]
      simp only [Bind.bind, Except.bind, join, bne_self_eq_false, Bool.and_false, Bool.false_eq_true, if_false]
      rcases known with ⟨rendered, ne⟩ | ⟨feedback, rfl⟩
      · simpa [Traversal.isRendered, rendered, ne] using rest
      · have back : p.analysis.toFacts.isFeedback c b = true := feedback
        simpa [back] using rest
  unfold isNeeded
  rw [label, if_neg (by simp)]
  rw [if_neg (by simp [isExplicitTarget, explicit, Traversal.isJumpTarget, jumpless, Traversal.isHinted, unhinted])]
  rcases calm with single | all
  · rw [if_pos single]
  · split
    · rfl
    · exact quiet _ all

def Source.wrap (braced : Bool) (texts : List String) : List String :=
  if braced then braces texts else texts

def Draws (verbose : Bool) (t : Traversal) (start stop : Nat) (texts : List String) (lines : List Line)
    (t' : Traversal) : Prop :=
  t.Covers t' start stop ∧ Line.Shows verbose lines texts

namespace Program.FunctionOf.Bare

open Emission

variable {f : Function} {e : f.Pass} {braced : Bool} {recurse : Recurse} {t : Traversal} {b join stop : Nat}
  {front inner rest : List String} {allowed : EmitError → Prop}

variable (bare : f.Bare) (body : PrintsBody e allowed b front)
  (unneeded : e.labels.isNeeded e.procedure e.procedure.analysis.toFacts (t.begun e.procedure b) b
    (e.procedure.isTest b) = .ok false)

include bare body unneeded

theorem freshBlock_meets {post : List Line → Traversal → Prop}
    (onward : ∀ comment lines opened, Line.Shows e.verbose comment [] → Line.Shows e.verbose lines front →
      (e.procedure.ending b = none → lines = []) →
      opened = (braced && (((t.render b).joinOf e.procedure b).isSome || (e.procedure.ending b).isSome)) →
      Meets allowed (e.emitter.continuation recurse b (braced && !opened) ((t.render b).joinOf e.procedure b)
          (e.procedure.ending b)) (t.begun e.procedure b) fun out t' =>
        Meets allowed (Emitter.joinLines recurse b out.2) t' fun join t'' =>
          let content := lines ++ out.1 ++ (if braced && !opened && Line.allSilent (lines ++ out.1) then
            [Line.emptyStmt] else []) ++ join
          post (comment ++ if opened then .openBrace :: content ++ [.closeBrace] else content) t'') :
    Meets allowed (e.emitter.freshBlock recurse b braced) t post := by
  unfold Emitter.freshBlock
  apply Meets.update
  apply Meets.of_ok (classified_kinds bare.plain b)
  apply (Emitter.deferJoin_meets rfl).andThen
  rintro deferred begun ⟨rfl, rfl⟩
  extract_lets terminator loopTest
  apply Meets.traversal
  apply Meets.of_ok (a := false) unneeded
  extract_lets opened
  have same : opened = (braced && (((t.render b).joinOf e.procedure b).isSome || (e.procedure.ending b).isSome)) := by
    simp [opened, emitter, Copies.saved, Copies.tail]
    rfl
  simp only [Bool.false_eq_true, if_false]
  apply Meets.bind
  apply Meets.pure
  apply (body _).andThen
  rintro lines t' ⟨rfl, shows, empty⟩
  apply (onward _ lines opened (Line.Shows.comment e.verbose _) shows empty same).andThen
  rintro ⟨out, deferred⟩ t' joins
  apply joins.andThen
  intro join t'' holds
  apply Meets.pure
  have none : e.emitter.saveLines b = [] := by simp [Emitter.saveLines, emitter, Copies.saved]
  simp only [none, List.nil_append, List.append_nil]
  exact holds

theorem freshBlock_defers (ipdom : e.procedure.analysis.ipdom? b = some join) (before : b < join)
    (filled : join ≤ stop) (fresh : join ∉ t.rendered) (free : t.isDeferred join = false)
    (branches : Meets allowed (e.emitter.continuation recurse b false (some join) (e.procedure.ending b))
      ((t.render b).defer join) fun out t' => out.2 = some join ∧
        Draws e.verbose ((t.render b).defer join) (b + 1) join inner out.1 t')
    (onward : ∀ t', t.Covers t' b join → Meets allowed (recurse join false) t' (Draws e.verbose t' join stop rest))
    (some : front ++ inner ++ rest ≠ []) :
    Meets allowed (e.emitter.freshBlock recurse b braced) t
      (Draws e.verbose t b stop (Source.wrap braced (front ++ inner ++ rest))) := by
  obtain ⟨taken, begun⟩ := Traversal.begun_of_fresh ipdom before.ne' fresh free
  apply bare.freshBlock_meets body unneeded
  intro comment lines opened silent shows _ same
  rw [taken, Option.isSome_some, Bool.true_or, Bool.and_true] at same
  subst same
  rw [taken, begun, Bool.and_not_self]
  apply branches.mono
  rintro ⟨out, deferred⟩ t' ⟨rfl, ⟨covers, showsInner⟩⟩
  have undeferred := covers.undefer free before
  unfold Emitter.joinLines
  apply Meets.update
  apply Meets.traversal
  have absent : join ∉ (t'.undefer join).rendered := by
    rw [undeferred.rendered]
    exact fun either => either.elim fresh (by omega)
  rw [if_neg (by simpa [Traversal.isRendered] using absent)]
  apply (onward _ undeferred).mono
  rintro more t'' ⟨covers', showsRest⟩
  refine ⟨undeferred.trans covers' before.le filled, ?_⟩
  have content : Line.Shows e.verbose (lines ++ out ++ [] ++ more) (front ++ inner ++ rest) := by
    rw [List.append_nil]
    exact (shows.append showsInner).append showsRest
  simp only [Bool.false_and, Bool.false_eq_true, if_false]
  apply silent.comment_append
  unfold Source.wrap
  cases opened with
  | true => exact content.braces some
  | false => exact content

theorem freshBlock_leaves (taken : (t.render b).joinOf e.procedure b = none)
    (ending : e.procedure.ending b = none ↔ front = [])
    (continues : ∀ slot, Meets allowed (e.emitter.continuation recurse b slot none (e.procedure.ending b))
      (t.render b) fun out t' => out.2 = none ∧ t' = t.render b ∧
        (rest = [] ∧ out.1 = [] ∨ rest ≠ [] ∧ Line.Shows e.verbose out.1 (Source.wrap slot rest) ∧
          (slot = true → Line.allSilent out.1 = false))) :
    Meets allowed (e.emitter.freshBlock recurse b braced) t
      (Draws e.verbose t b (b + 1) (Source.wrap braced (front ++ rest))) := by
  have begun : t.begun e.procedure b = t.render b := by rw [Traversal.begun, taken, Option.elim_none]
  apply bare.freshBlock_meets body unneeded
  intro comment lines opened silent shows empty same
  rw [taken, Option.isSome_none, Bool.false_or] at same
  rw [taken, begun]
  apply (continues _).mono
  rintro ⟨out, deferred⟩ t' ⟨rfl, rfl, tail⟩
  apply Meets.pure
  refine ⟨Traversal.Covers.render t b, silent.comment_append ?_⟩
  unfold Source.wrap at tail ⊢
  by_cases slot : (braced && !opened) = true
  · -- Nothing was printed for the statements, so what follows is the one statement.
    obtain ⟨rfl, rfl⟩ : braced = true ∧ opened = false := by simpa using slot
    have none : e.procedure.ending b = none := by simpa using same
    obtain rfl := empty none
    obtain rfl := ending.1 none
    rcases tail with ⟨rfl, rfl⟩ | ⟨-, shows', audible⟩
    · exact Line.Shows.semicolon
    · simpa [audible rfl] using shows'
  · rw [Bool.not_eq_true] at slot
    have shows' : Line.Shows e.verbose out rest := by
      rcases tail with ⟨rfl, rfl⟩ | ⟨-, shows', -⟩
      · exact .nil
      · simpa [slot] using shows'
    have content := shows.append shows'
    simp only [slot, Bool.false_and, Bool.false_eq_true, if_false, List.append_nil]
    cases braced with
    | false =>
      obtain rfl : opened = false := by simpa using same
      exact content
    | true =>
      obtain rfl : opened = true := by simpa using slot
      have some : front ≠ [] := by
        intro none
        simp [ending.2 none] at same
      exact content.braces (by simp [some])

end Program.FunctionOf.Bare

end Reflow
