import Reflow.Proofs.Emit.Moves
import Reflow.Proofs.Failing
import Reflow.Proofs.Trace.Balance
import Reflow.Proofs.Trace.Coverage

namespace Reflow

open Emission Relation Traversal

namespace Procedure

variable {p : Procedure} {b : BlockId} {error : EmitError}
  {loopTest : Bool}

def Refuses (p : Procedure) (error : EmitError) : Prop :=
  ∃ b, ∃ stmt ∈ p.stmts b, stmt.kind = .error error

theorem refuses_of_classified (failed : p.classified b = .error error) : p.Refuses error := by
  obtain ⟨stmt, mem, refused⟩ := exists_of_mapM_eq_error failed
  refine ⟨b, stmt, mem, ?_⟩
  cases kind : stmt.kind with
  | ok => simp [kind, Except.map] at refused
  | error => simpa [kind, Except.map] using refused

theorem exists_of_firstRealKind {stmts : List Stmt} (failed : firstRealKind stmts = .error error) :
    ∃ stmt ∈ stmts, stmt.kind = .error error := by
  induction stmts with
  | nil => exact nomatch failed
  | cons stmt _ ih =>
    unfold firstRealKind at failed
    cases kind : stmt.kind with
    | error other =>
      rw [kind] at failed
      obtain rfl : other = error := Except.error.inj failed
      exact ⟨stmt, .head _, kind⟩
    | ok kind' =>
      rw [kind] at failed
      cases real : kind'.isReal with
      | true => simp [real, bind, Except.bind, pure, Except.pure] at failed
      | false =>
        obtain ⟨later, mem, refused⟩ := ih (by simpa [real, bind, Except.bind] using failed)
        exact ⟨later, .tail _ mem, refused⟩

theorem refuses_of_lastRealKind (failed : p.lastRealKind b = .error error) : p.Refuses error := by
  obtain ⟨stmt, mem, refused⟩ := exists_of_firstRealKind failed
  exact ⟨b, stmt, List.mem_reverse.1 mem, refused⟩

theorem refuses_of_isLoopTest (failed : p.isLoopTest b = .error error) : p.Refuses error := by
  unfold isLoopTest at failed
  cases kind : p.lastRealKind b with
  | ok => rw [kind] at failed; exact nomatch failed
  | error other =>
    rw [kind] at failed
    obtain rfl : other = error := Except.error.inj failed
    exact refuses_of_lastRealKind kind

theorem refuses_of_someJumps {facts : Facts} {t : Traversal} {preds : List BlockId}
    (failed : Labels.someJumps p facts t b loopTest preds = .error error) : p.Refuses error := by
  induction preds with
  | nil => exact nomatch failed
  | cons pred _ ih =>
    unfold Labels.someJumps endsWithSwitch at failed
    cases kind : p.lastRealKind pred with
    | error other =>
      rw [kind] at failed
      obtain rfl : other = error := Except.error.inj failed
      exact refuses_of_lastRealKind kind
    | ok =>
      rw [kind] at failed
      simp only [Except.map, bind, Except.bind, pure, Except.pure] at failed
      split_ifs at failed
      exact ih failed

theorem refuses_of_isNeeded {labels : Labels} {facts : Facts} {t : Traversal}
    (failed : labels.isNeeded p facts t b loopTest = .error error) : p.Refuses error := by
  unfold Labels.isNeeded at failed
  split_ifs at failed
  exact refuses_of_someJumps failed

end Procedure

namespace Emitter

variable {e : Emitter} {bound : Nat} {t t' : Traversal} {here after : Progress} {b x join : BlockId}
  {lines : List Line} {deferred : Option BlockId} {error : EmitError}

def Given (e : Emitter) (error : EmitError) : Prop :=
  (∃ stmt names, e.render stmt names = .error error) ∨ e.procedure.Refuses error

def Permits (e : Emitter) (error : EmitError) : Prop :=
  ∀ join b, error = .joinRendered join b → e.Given error

theorem Permits.of_given (given : e.Given error) : e.Permits error :=
  fun _ _ _ => given

theorem Permits.of_ne (other : ∀ join b, error ≠ .joinRendered join b) : e.Permits error :=
  fun join b same => absurd same (other join b)

theorem Permits.of_label (failed : e.labels.label x = .error error) : e.Permits error := by
  unfold Labels.label at failed
  split at failed
  · exact nomatch failed
  · obtain rfl := Except.error.inj failed
    exact .of_ne (by simp)

def Led (e : Emitter) (t : Traversal) (x : BlockId) : Prop :=
  x = e.procedure.entry ∨ ∃ a ∈ t.rendered, x ∈ e.procedure.succs a ∨ e.facts.ipdom? a = some x

inductive Move (e : Emitter) (t : Traversal) : Traversal → Prop
  | render {b : BlockId} (listed : b ∈ e.procedure.blockIds) (fresh : b ∉ t.rendered) (free : t.isDeferred b = false)
      (led : e.procedure.Linked → e.Led t b) : Move e t (t.render b)
  | jump {x : BlockId} (led : e.procedure.Linked → e.Led t x) : Move e t (t.jumpTo x)
  | defer {join : BlockId} (fresh : join ∉ t.rendered) : Move e t (t.defer join)
  | undefer (join : BlockId) : Move e t (t.undefer join)
  | claim {b join : BlockId} (rendered : b ∈ t.rendered) (idom : e.facts.idom? join = some b) : Move e t (t.claim join)
  -- Hints, labels and open loops may change in any way.
  | other {t' : Traversal} (frontier : t'.frontier = t.frontier) (rendered : t'.rendered = t.rendered)
      (claimed : t'.claimed = t.claimed) (jumpTargets : t'.jumpTargets = t.jumpTargets) : Move e t t'

theorem Move.rendered_eq (move : e.Move t t') :
    t'.rendered = t.rendered ∨ ∃ b, b ∈ e.procedure.blockIds ∧ b ∉ t.rendered ∧ t'.rendered = b :: t.rendered := by
  cases move with
  | render listed fresh => exact .inr ⟨_, listed, fresh, if_neg fresh⟩
  | jump | defer | undefer | claim => exact .inl rfl
  | other _ rendered => exact .inl rendered

theorem Move.begins (move : e.Move t t') (fresh : b ∉ t.rendered) (begun : b ∈ t'.rendered) :
    t.isDeferred b = false ∧ (e.procedure.Linked → e.Led t b) := by
  cases move with
  | render _ _ free led =>
    obtain rfl := (mem_addNew.1 begun).resolve_right fresh
    exact ⟨free, led⟩
  | jump | defer | undefer | claim => exact absurd begun fresh
  | other _ rendered => exact absurd (rendered ▸ begun) fresh

theorem rendered_subset_of_moves (moves : ReflTransGen e.Move t t') : t.rendered ⊆ t'.rendered := by
  induction moves with
  | refl => exact .refl _
  | tail _ move ih =>
    rcases move.rendered_eq with same | ⟨b, -, -, longer⟩
    · rwa [same]
    · rw [longer]
      exact List.subset_cons_of_subset b ih

theorem Led.of_moves (led : e.Led t x) (moves : ReflTransGen e.Move t t') : e.Led t' x :=
  led.imp_right fun ⟨a, rendered, leads⟩ => ⟨a, rendered_subset_of_moves moves rendered, leads⟩

theorem led_of_mem_jumpTargets (linked : e.procedure.Linked) (start : ∀ x ∈ t.jumpTargets, e.Led t x)
    (moves : ReflTransGen e.Move t t') : ∀ x ∈ t'.jumpTargets, e.Led t' x := by
  induction moves with
  | refl => exact start
  | @tail t' t'' _ move ih =>
    have old (x : BlockId) (mem : x ∈ t'.jumpTargets) : e.Led t'' x := (ih x mem).of_moves (.single move)
    cases move with
    | render | defer | undefer | claim => exact old
    | jump led =>
      intro x mem
      rcases mem_addNew.1 mem with rfl | mem
      · exact led linked
      · exact old x mem
    | other _ _ _ jumpTargets => rwa [jumpTargets]

structure Sound (e : Emitter) (t : Traversal) : Prop where
  apart : t.Apart
  backed : e.Backed t
  nodup : t.rendered.Nodup
  listed : t.rendered ⊆ e.procedure.blockIds

theorem Sound.empty (e : Emitter) : e.Sound {} :=
  ⟨.empty, by simp [Backed], .nil, by simp⟩

theorem Move.sound (move : e.Move t t') (sound : e.Sound t) : e.Sound t' := by
  have same (frontier : t'.frontier = t.frontier) (rendered : t'.rendered = t.rendered)
      (claimed : t'.claimed = t.claimed) : e.Sound t' := by
    refine ⟨?_, ?_, rendered ▸ sound.nodup, rendered ▸ sound.listed⟩
    · rw [Apart, frontier, rendered]
      exact sound.apart
    · rw [Backed, rendered, claimed]
      exact sound.backed
  cases move with
  | @render b listed fresh free =>
    have longer : (t.render b).rendered = b :: t.rendered := if_neg fresh
    refine ⟨fun entry mem rendered => ?_, fun join mem => ?_, ?_, ?_⟩
    · rcases mem_addNew.1 rendered with new | old
      · rw [← new, Bool.eq_false_iff] at free
        exact free (isDeferred_iff.2 ⟨entry.2, mem⟩)
      · exact sound.apart entry mem old
    · obtain ⟨c, rendered, idom⟩ := sound.backed join mem
      exact ⟨c, mem_addNew.2 (.inr rendered), idom⟩
    · rw [longer]
      exact sound.nodup.cons fresh
    · rw [longer]
      exact List.cons_subset.2 ⟨listed, sound.listed⟩
  | defer fresh =>
    refine ⟨fun entry mem => ?_, sound.backed, sound.nodup, sound.listed⟩
    rcases List.mem_cons.1 mem with rfl | older
    · exact fresh
    · exact sound.apart entry (List.mem_filter.1 older).1
  | undefer join => exact ⟨sound.apart.undefer join, sound.backed, sound.nodup, sound.listed⟩
  | claim rendered idom =>
    refine ⟨sound.apart, fun other mem => ?_, sound.nodup, sound.listed⟩
    rcases mem_addNew.1 mem with rfl | old
    · exact ⟨_, rendered, idom⟩
    · exact sound.backed other old
  | jump => exact same rfl rfl rfl
  | other frontier rendered claimed => exact same frontier rendered claimed

theorem Sound.of_moves (sound : e.Sound t) (moves : ReflTransGen e.Move t t') : e.Sound t' := by
  induction moves with
  | refl => exact sound
  | tail _ move ih => exact move.sound ih

abbrev Runs (e : Emitter) {α : Type} (step : Emission α) (here : Progress) : Prop :=
  step.Makes e.Move e.Permits here

def Leads (e : Emitter) (b x : BlockId) : Prop :=
  e.procedure.Linked → x ∈ e.procedure.succs b ∨ e.facts.ipdom? b = some x

structure Amid (e : Emitter) (bound : Nat) (b : BlockId) (here : Progress) : Prop where
  sound : e.Sound here.traversal
  enough : here.traversal.unrendered e.procedure ≤ bound
  rendered : b ∈ here.traversal.rendered

theorem Amid.of_moves (inside : e.Amid bound b here) (moves : ReflTransGen e.Move here.traversal after.traversal) :
    e.Amid bound b after where
  sound := inside.sound.of_moves moves
  enough := (unrendered_sublist e.procedure (rendered_subset_of_moves moves)).length_le.trans inside.enough
  rendered := rendered_subset_of_moves moves inside.rendered

theorem Amid.moved (inside : e.Amid bound b here) (move : e.Move here.traversal t) :
    e.Amid bound b { here with traversal := t } :=
  inside.of_moves (.single move)

theorem Amid.led (inside : e.Amid bound b here) (leads : e.Leads b x) (linked : e.procedure.Linked) :
    e.Led here.traversal x :=
  .inr ⟨b, inside.rendered, leads linked⟩

def Joins (e : Emitter) (b : BlockId) (deferred : Option BlockId) : Prop :=
  ∀ join, deferred = some join → e.facts.ipdom? b = some join

def Task.Joins (e : Emitter) : Task → Prop
  | .cases b deferred _ deferred' | .rest b _ deferred _ deferred' => e.Joins b deferred → e.Joins b deferred'
  | _ => True

theorem Lays.joins {task : Task} (lays : e.Lays task t lines t') : task.Joins e := by
  induction lays with
  | casesDone | conditional | loop | multiway | jumps | ends | falls => exact id
  | case _ _ _ ih | switch _ ih => exact ih
  | claimed _ ipdom _ _ _ ih => exact fun _ => ih fun join same => Option.some.inj same ▸ ipdom
  | _ => trivial

theorem Lays.claimed_of_rendered {needed slot : Bool} {stmts : List (Stmt × Kind)} {ending : Option Kind}
    (follows : e.Lays (.rest b slot (e.setAside t b) ending deferred) (e.started t b needed stmts) lines t')
    (sound : e.Sound t) (free : t.isDeferred b = false) (fresh : b ∉ t.rendered) :
    ∀ join, deferred = some join → join ∈ t'.rendered → join ∈ t'.claimed := by
  rintro join rfl rendered
  obtain ⟨own, claims, -, split⟩ := follows.claims (apart_started free sound.apart) sound.backed.started
    (mem_started_rendered.2 (.inl rfl)) fun _ => sound.backed.unclaimed_started fresh
  -- The block has set the join aside itself, or it has claimed one that waited for an outer block.
  rcases split with ⟨-, aside⟩ | ⟨-, own⟩
  · have waits : (e.started t b needed stmts).isDeferred join = true := by
      refine isDeferred_iff.2 ⟨t.openExits.length, ?_⟩
      rw [frontier_started, ← aside]
      exact .head _
    exact (claims.taken join waits rendered).1
  · exact (claims.own join own.symm).1

theorem reachable_of_moves (linked : e.procedure.Linked) (facts : e.facts = e.procedure.analysis.toFacts)
    (moves : ReflTransGen e.Move {} t) : ∀ b ∈ t.rendered, e.procedure.Reachable b := by
  induction moves with
  | refl => simp
  | @tail t _ _ move ih =>
    intro b begun
    by_cases old : b ∈ t.rendered
    · exact ih b old
    · rcases (move.begins old begun).2 linked with rfl | ⟨a, rendered, edge | ipdom⟩
      · exact Procedure.reachable_entry
      · exact (ih a rendered).succ edge
      · rw [facts] at ipdom
        exact (ih a rendered).trans (Procedure.reaches_of_ipdom? ipdom)

end Emitter

end Reflow
