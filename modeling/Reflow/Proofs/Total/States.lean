import Reflow.Proofs.Emit.Frontier
import Reflow.Proofs.Procedure

namespace Reflow

variable {targets : List BlockId}

theorem mem_repeats_cons {x y : BlockId} : x ∈ repeats (y :: targets) ↔ x = y ∧ y ∈ targets ∨ x ∈ repeats targets := by
  rw [repeats, List.mem_append]
  split <;> simp_all

theorem mem_of_mem_repeats {x : BlockId} (twice : x ∈ repeats targets) : x ∈ targets := by
  induction targets with
  | nil => exact twice
  | cons _ _ ih =>
    rcases mem_repeats_cons.1 twice with ⟨rfl, -⟩ | later
    · exact .head _
    · exact .tail _ (ih later)

theorem not_mem_repeats {x : BlockId} (distinct : targets.Nodup) : x ∉ repeats targets := by
  induction targets with
  | nil => simp [repeats]
  | cons _ _ ih =>
    obtain ⟨absent, distinct⟩ := List.nodup_cons.1 distinct
    rw [mem_repeats_cons, not_or, not_and]
    exact ⟨fun _ => absent, ih distinct⟩

/-! ## Blocks left without a label -/

namespace Procedure

variable {p : Procedure} {b c x : BlockId}

/-- A block that the chain of tests of `b` names twice, while nothing else leads to it or gives it a label. -/
structure Stray (p : Procedure) (b x : BlockId) : Prop where
  reachable : p.Reachable b
  repeated : ∃ arms, p.ending b = some (.multiway arms) ∧ x ∈ repeats (arms.map (·.2))
  alone : p.inDegree x ≤ 1
  unlabelled : ∀ stmt ∈ p.kinds x, stmt.2 ≠ .label
  unnamed : ∀ c ∈ p.blockIds, x ∉ explicitTargets (p.kinds c)
  passing : p.analysis.ipdom? b ≠ some x

section

variable (stray : p.Stray b x) (routed : p.Routed)
include stray routed

theorem Stray.edge : x ∈ p.succs b := by
  obtain ⟨arms, ending, twice⟩ := stray.repeated
  exact routed.targets b _ ending x (mem_of_mem_repeats twice)

theorem Stray.eq_of_leads (leads : p.Leads c x) : c = b := by
  by_contra ne
  have several := routed.one_lt_inDegree (stray.edge routed) (.inr (leads.exists_pred ne))
  exact absurd stray.alone (Nat.not_le_of_lt several)

theorem Stray.ne_entry : x ≠ p.entry := by
  intro entry
  have several := routed.one_lt_inDegree (stray.edge routed) (.inl entry)
  exact absurd stray.alone (Nat.not_le_of_lt several)

end

def Repeats (p : Procedure) (b x : BlockId) : Prop :=
  ∃ arms, p.ending b = some (.multiway arms) ∧ x ∈ repeats (arms.map (·.2))

def Returns (p : Procedure) (c x : BlockId) : Prop :=
  p.analysis.isFeedback c x = true ∧ p.isTest x = true

/-- Whether an edge back to a loop test is left implicit: it leaves a block without a branch, or is the second arm of a
conditional. -/
def Implicit (p : Procedure) (c x : BlockId) : Prop :=
  (∀ kind, p.ending c = some kind → kind.isBranching = false) ∨
    ∃ cond y, y ≠ x ∧ p.ending c = some (.conditional cond y x)

theorem not_implicit {kind : Kind} (ending : p.ending b = some kind) (branches : kind.isBranching = true)
    (other : ∀ cond y, y ≠ x → kind ≠ .conditional cond y x) : ¬ p.Implicit b x := by
  rintro (quiet | ⟨cond, y, ne, ending'⟩)
  · simp [quiet kind ending] at branches
  · exact other cond y ne (Option.some.inj (ending.symm.trans ending'))

def Exits (p : Procedure) (c x : BlockId) : Prop :=
  ∃ cond body, p.ending c = some (.loop cond body x)

/-- A block that may be rendered before a jump to it that nothing announces: a stray one, a loop test that an edge leads
back to explicitly or that a chain of tests names twice, or the exit of a loop that may be rendered in the body of the
loop. -/
inductive Unannounced (p : Procedure) (x : BlockId) : Prop
  | stray {b : BlockId} (stray : p.Stray b x)
  | returned {b : BlockId} (reach : p.Reachable b) (returns : p.Returns b x) (jumps : ¬ p.Implicit b x)
  | repeated {b : BlockId} (reach : p.Reachable b) (twice : p.Repeats b x) (test : p.isTest x = true)
  | entered {b body : BlockId} {cond : Var} (reach : p.Reachable b)
      (ending : p.ending b = some (.loop cond body x)) (inner : ¬ p.Visited b x)
      (other : x = body ∨ ∃ c, c ≠ b ∧ x ∈ p.succs c)

theorem Unannounced.exists_stray (unannounced : p.Unannounced x)
    (loopless : ∀ b cond body exit, p.ending b ≠ some (.loop cond body exit)) : ∃ b, p.Stray b x := by
  have noTest : p.isTest x = false := by
    rw [isTest]
    split
    · rename_i ending
      exact absurd ending (loopless x _ _ _)
    · rfl
  rcases unannounced with stray | ⟨-, ⟨-, test⟩, -⟩ | ⟨-, -, test⟩ | ⟨-, ending, -, -⟩
  · exact ⟨_, stray⟩
  · simp [noTest] at test
  · simp [noTest] at test
  · exact absurd ending (loopless _ _ _ _)

structure Quiet (p : Procedure) (x : BlockId) : Prop where
  unlabelled : ∀ stmt ∈ p.kinds x, stmt.2 ≠ .label
  unnamed : ∀ c ∈ p.blockIds, x ∉ explicitTargets (p.kinds c)

def FirstStray (p : Procedure) (x : BlockId) : Prop :=
  (∃ b, p.Stray b x) ∧ ∀ b y, p.Stray b y → x ≤ y

theorem FirstStray.unique {y : BlockId} (first : p.FirstStray x) (first' : p.FirstStray y) : x = y := by
  obtain ⟨⟨b, stray⟩, least⟩ := first
  obtain ⟨⟨c, stray'⟩, least'⟩ := first'
  exact le_antisymm (least c y stray') (least' b x stray)

end Procedure

namespace Traversal

variable {p : Procedure} {t t' t'' : Traversal} {b x : BlockId} {coming : Option BlockId} {via more : List BlockId}

/-! ## What rendering keeps -/

structure Carries (t t' : Traversal) : Prop extends Grows t t' where
  hints : t'.hints.Perm t.hints
  late : ∀ x ∈ t.rendered, x ∈ t'.printed → x ∈ t.printed

theorem Carries.refl (t : Traversal) : t.Carries t :=
  { Grows.refl t with hints := .refl _, late := fun _ _ printed => printed }

theorem Carries.trans (first : t.Carries t') (second : t'.Carries t'') : t.Carries t'' :=
  { first.toGrows.trans second.toGrows with
    hints := second.hints.trans first.hints
    late := fun x rendered printed =>
      first.late x rendered (second.late x (first.rendered rendered) printed) }

structure Passes (t t' : Traversal) : Prop extends Carries t t', Keeps t t'

theorem Passes.refl (t : Traversal) : t.Passes t :=
  { Carries.refl t, Keeps.refl t with }

theorem Passes.trans (first : t.Passes t') (second : t'.Passes t'') : t.Passes t'' :=
  { first.toCarries.trans second.toCarries, first.toKeeps.trans second.toKeeps with }

theorem Keeps.knows (keeps : t.Keeps t') (knows : t.Knows x) : t'.Knows x := by
  rcases knows with rendered | jumped | aside
  · exact .inl (keeps.rendered rendered)
  · exact .inr (.inl (keeps.jumpTargets jumped))
  · exact .inr (.inr (by rwa [isDeferred, keeps.frontier]))

theorem Sound.not_mem_of_isDeferred (sound : Sound p coming t) (deferred : t.isDeferred x = true) : x ∉ t.rendered := by
  obtain ⟨depth, mem⟩ := isDeferred_iff.1 deferred
  exact sound.fresh _ mem

/-! ## Blocks added -/

/-- What is added by rendering some blocks: these, and blocks that the ones added lead or jump to. -/
structure Adds (p : Procedure) (t t' : Traversal) (via : List BlockId) : Prop where
  origin : ∀ c ∈ t'.rendered, c ∉ t.rendered → c ∈ via ∨
    ∃ d ∈ t'.rendered, d ∉ t.rendered ∧ p.Leads d c
  jumped : ∀ c ∈ t'.jumpTargets, c ∉ t.jumpTargets → c ∈ via ∨
    ∃ d ∈ t'.rendered, d ∉ t.rendered ∧ p.Leads d c
  printed : ∀ c ∈ t'.rendered, c ∉ t.rendered → c ∈ t.hints ∨ c ∈ t.jumpTargets → c ∈ t'.printed

theorem Adds.of_rendered_eq (rendered : t'.rendered = t.rendered)
    (jumped : ∀ c ∈ t'.jumpTargets, c ∈ via ∨ c ∈ t.jumpTargets) : t.Adds p t' via where
  origin _ mem fresh := absurd (rendered ▸ mem) fresh
  jumped c mem fresh := .inl ((jumped c mem).resolve_right fresh)
  printed _ mem fresh := absurd (rendered ▸ mem) fresh

theorem Adds.trans (grows : t.Carries t') (grows' : t'.Carries t'') (first : t.Adds p t' via)
    (second : t'.Adds p t'' more) : t.Adds p t'' (via ++ more) := by
  -- A block that one of the two steps adds comes from there in both.
  have early {c : BlockId} (origin : c ∈ via ∨ ∃ d ∈ t'.rendered, d ∉ t.rendered ∧ p.Leads d c) :
      c ∈ via ++ more ∨ ∃ d ∈ t''.rendered, d ∉ t.rendered ∧ p.Leads d c := by
    rcases origin with named | ⟨d, rendered, new, leads⟩
    · exact .inl (List.mem_append_left _ named)
    · exact .inr ⟨d, grows'.rendered rendered, new, leads⟩
  have late {c : BlockId} (origin : c ∈ more ∨ ∃ d ∈ t''.rendered, d ∉ t'.rendered ∧ p.Leads d c) :
      c ∈ via ++ more ∨ ∃ d ∈ t''.rendered, d ∉ t.rendered ∧ p.Leads d c := by
    rcases origin with named | ⟨d, rendered, new, leads⟩
    · exact .inl (List.mem_append_right _ named)
    · exact .inr ⟨d, rendered, fun old => new (grows.rendered old), leads⟩
  refine ⟨?_, ?_, ?_⟩
  · intro c mem fresh
    by_cases between : c ∈ t'.rendered
    · exact early (first.origin c between fresh)
    · exact late (second.origin c mem between)
  · intro c mem fresh
    by_cases between : c ∈ t'.jumpTargets
    · exact early (first.jumped c between fresh)
    · exact late (second.jumped c mem between)
  · intro c mem fresh wanted
    by_cases between : c ∈ t'.rendered
    · exact grows'.printed (first.printed c between fresh wanted)
    · apply second.printed c mem between
      exact wanted.imp grows.hints.mem_iff.2 fun old => grows.jumpTargets old

theorem Adds.mono (adds : t.Adds p t' via) (subset : via ⊆ more) : t.Adds p t' more where
  origin c mem fresh := (adds.origin c mem fresh).imp (fun named => subset named) id
  jumped c mem fresh := (adds.jumped c mem fresh).imp (fun named => subset named) id
  printed := adds.printed

theorem Adds.collapse (adds : t.Adds p t' (b :: more)) (leads : ∀ x ∈ more, p.Leads b x)
    (rendered : b ∈ t'.rendered) (new : b ∉ t.rendered) : t.Adds p t' [b] := by
  have inner {c : BlockId} (origin : c ∈ b :: more ∨ ∃ d ∈ t'.rendered, d ∉ t.rendered ∧ p.Leads d c) :
      c ∈ [b] ∨ ∃ d ∈ t'.rendered, d ∉ t.rendered ∧ p.Leads d c := by
    rcases origin with named | later
    · rcases List.mem_cons.1 named with rfl | other
      · exact .inl (.head _)
      · exact .inr ⟨b, rendered, new, leads c other⟩
    · exact .inr later
  exact ⟨fun c mem fresh => inner (adds.origin c mem fresh),
    fun c mem fresh => inner (adds.jumped c mem fresh), adds.printed⟩

theorem Adds.exists_pred (adds : t.Adds p t' via) (under : b ∈ t.rendered) (rendered : x ∈ t'.rendered)
    (new : x ∉ t.rendered) (other : x ∉ via) : ∃ c, c ≠ b ∧ x ∈ p.succs c := by
  rcases adds.origin x rendered new with named | ⟨d, -, later, leads⟩
  · exact absurd named other
  · refine leads.exists_pred ?_
    rintro rfl
    exact later under

end Traversal

/-! ## States -/

structure Emitter.Apt (e : Emitter) : Prop where
  routed : e.procedure.Routed
  facts : e.facts = e.procedure.analysis.toFacts
  assigned : ∃ pass, e.procedure.assignLabels pass = .ok e.labels
  text : ∀ b, ∀ stmt ∈ e.procedure.kinds b, stmt.2 ≠ .virtual →
    ∃ text, e.render stmt.1.id (e.names b) = .ok text

namespace Emitter

open Emission

variable {e : Emitter} {recurse : Recurse} {bound : Nat} {t t' : Traversal} {b x : BlockId} {via : List BlockId}

def IsLabelled (e : Emitter) (b : BlockId) : Prop :=
  ∃ text, e.labels.label b = .ok text

def Entered (e : Emitter) (t : Traversal) (x : BlockId) : Prop :=
  e.procedure.inDegree x ≤ 1 ∨ ∀ c, x ∈ e.procedure.succs c → (c ∈ t.rendered ∨ e.procedure.Returns c x) ∧
      (e.procedure.Switches c → e.procedure.analysis.ipdom? c = some x)

/-- What is known of the labels: a rendered block without its label has been entered. -/
structure Tidy (e : Emitter) (t : Traversal) : Prop where
  printed : ∀ x ∈ t.rendered, x ∉ t.printed → e.Entered t x ∧ e.procedure.Quiet x
  jumped : ∀ x ∈ t.jumpTargets, x ∈ t.rendered → x ∈ t.printed ∨ e.procedure.Unannounced x
  labelled : ∀ x ∈ t.jumpTargets, e.IsLabelled x

def Deals (e : Emitter) (t : Traversal) (c x : BlockId) : Prop :=
  t.Knows x ∨ e.procedure.Returns c x

def Heeds (e : Emitter) (t : Traversal) (hints : List BlockId) (c x : BlockId) : Prop :=
  e.Deals t c x ∨ x ∈ hints ∨ e.procedure.Switches c ∨ e.procedure.Exits c x

def Tracks (e : Emitter) (t : Traversal) (b : BlockId) (hints : List BlockId) : Prop :=
  ∀ c ∈ t.rendered, c ≠ b → ∀ x ∈ e.procedure.succs c, e.Heeds t hints c x

structure Fits (e : Emitter) (t : Traversal) (b : BlockId) : Prop where
  ready : t.Ready e.procedure b
  tidy : e.Tidy t
  hinted : b ∈ t.hints → e.IsLabelled b
  heeded : ∀ c ∈ t.rendered, ∀ x ∈ e.procedure.succs c, x ≠ b → e.Heeds t t.hints c x

structure Inside (e : Emitter) (t : Traversal) (b : BlockId) : Prop where
  within : t.Within e.procedure b
  tidy : e.Tidy t
  tracks : e.Tracks t b t.hints
  outer : ∀ entry ∈ t.frontier, entry.2 < t.openExits.length →
    ∃ d, d ≠ b ∧ e.procedure.analysis.ipdom? d = some entry.1

structure Silent (e : Emitter) (t : Traversal) (b : BlockId) : Prop where
  unlisted : ¬ (b ∈ t.hints ∨ b ∈ t.jumpTargets)
  entered : e.Entered t b
  quiet : e.procedure.Quiet b

structure Decides (e : Emitter) (t : Traversal) (b : BlockId) (printed : Bool) : Prop where
  silent : printed = false → e.Silent t b
  stray : ∀ c, e.procedure.Stray c b → b ∉ t.jumpTargets → b ∉ t.hints → printed = false

structure Finished (e : Emitter) (t : Traversal) (c : BlockId) : Prop where
  known : ∀ x ∈ e.procedure.succs c, e.Deals t c x
  stranded : ∀ x, e.procedure.Stray c x → x ∈ t.rendered ∧ x ∈ t.jumpTargets ∧ x ∉ t.printed

def Finishes (e : Emitter) (t t' : Traversal) : Prop :=
  ∀ c ∈ t'.rendered, c ∉ t.rendered → e.Finished t' c

structure Rendered (e : Emitter) (t t' : Traversal) (b : BlockId) : Prop where
  passes : t.Passes t'
  sound : t'.Sound e.procedure none
  tidy : e.Tidy t'
  rendered : b ∈ t'.rendered
  adds : t.Adds e.procedure t' [b]
  decides : e.Decides t b (b ∈ t'.printed)
  finishes : e.Finishes t t'

structure Reached (e : Emitter) (b : BlockId) (t t' : Traversal) (via : List BlockId) : Prop where
  inside : e.Inside t' b
  passes : t.Passes t'
  adds : t.Adds e.procedure t' via
  knows : ∀ x ∈ via, e.Deals t' b x
  finishes : e.Finishes t t'

/-- What is known of the target of an edge: a rendered target has its label printed unless it is unannounced or the edge
leads back to a loop test, and one that counts as jumped to has a label. -/
structure Known (e : Emitter) (t : Traversal) (b x : BlockId) : Prop where
  rendered : x ∈ t.rendered →
    (x ∈ t.printed ∨ e.procedure.Unannounced x ∨ e.procedure.Returns b x) ∧ e.IsLabelled x
  hinted : x ∈ t.hints → e.IsLabelled x

structure Lands (e : Emitter) (t t' : Traversal) (x : BlockId) : Prop where
  jumped : x ∈ t.rendered → x ∈ t'.jumpTargets
  entered : x ∉ t.rendered → t.isDeferred x = false → x ∈ t'.rendered ∧ e.Decides t x (x ∈ t'.printed)

def Renders (e : Emitter) (recurse : Recurse) (bound : Nat) : Prop :=
  ∀ (t : Traversal) (x : BlockId) (one : Bool), e.Fits t x → t.unrendered e.procedure ≤ bound →
    Ensures (recurse x one) t fun _ t' => e.Rendered t t' x

theorem Entered.mono (entered : e.Entered t x) (rendered : t.rendered ⊆ t'.rendered) : e.Entered t' x :=
  entered.imp id fun preds c edge => (preds c edge).imp (fun pred => pred.imp (fun old => rendered old) id) id

theorem Deals.mono (deals : e.Deals t b x) (knows : ∀ x, t.Knows x → t'.Knows x) : e.Deals t' b x :=
  deals.imp (knows x) id

theorem Heeds.mono {hints hints' : List BlockId} (heeds : e.Heeds t hints b x)
    (knows : ∀ x, t.Knows x → t'.Knows x) (subset : hints ⊆ hints') : e.Heeds t' hints' b x :=
  heeds.imp (fun deals => deals.mono knows) fun either => either.imp (fun hint => subset hint) id

theorem Finished.after (finished : e.Finished t b) (carries : t.Carries t')
    (knows : ∀ x, t.Knows x → t'.Knows x) : e.Finished t' b where
  known x edge := (finished.known x edge).mono knows
  stranded x stray := by
    obtain ⟨rendered, jumped, unprinted⟩ := finished.stranded x stray
    exact ⟨carries.rendered rendered, carries.jumpTargets jumped,
      fun printed => unprinted (carries.late x rendered printed)⟩

theorem Finishes.of_rendered_eq (rendered : t'.rendered = t.rendered) : e.Finishes t t' :=
  fun _ mem fresh => absurd (rendered ▸ mem) fresh

theorem Finishes.trans {t'' : Traversal} (first : e.Finishes t t') (second : e.Finishes t' t'')
    (carries : t'.Carries t'') (knows : ∀ x, t'.Knows x → t''.Knows x) : e.Finishes t t'' := by
  intro c mem fresh
  by_cases between : c ∈ t'.rendered
  · exact (first c between fresh).after carries knows
  · exact second c mem between

theorem Tracks.mono {hints hints' : List BlockId} (tracks : e.Tracks t b hints) (subset : hints ⊆ hints') :
    e.Tracks t b hints' :=
  fun c rendered ne x edge => (tracks c rendered ne x edge).mono (fun _ => id) subset

theorem Tracks.after {hints : List BlockId} (tracks : e.Tracks t b hints) (finishes : e.Finishes t t')
    (knows : ∀ x, t.Knows x → t'.Knows x) : e.Tracks t' b hints := by
  intro c rendered ne x edge
  by_cases old : c ∈ t.rendered
  · exact (tracks c old ne x edge).mono knows (.refl _)
  · exact .inl ((finishes c rendered old).known x edge)

theorem Reached.trans {t'' : Traversal} {more : List BlockId} (first : e.Reached b t t' via)
    (second : e.Reached b t' t'' more) : e.Reached b t t'' (via ++ more) where
  inside := second.inside
  passes := first.passes.trans second.passes
  adds := first.adds.trans first.passes.toCarries second.passes.toCarries second.adds
  knows x mem := by
    rcases List.mem_append.1 mem with early | late
    · exact (first.knows x early).mono fun _ => second.passes.knows
    · exact second.knows x late
  finishes := first.finishes.trans second.finishes second.passes.toCarries fun _ => second.passes.knows

theorem Reached.widen {more : List BlockId} (reached : e.Reached b t t' via) (subset : ∀ x ∈ via, x ∈ more)
    (onward : ∀ x ∈ more, x ∈ via) : e.Reached b t t' more :=
  { reached with adds := reached.adds.mono subset, knows := fun x edge => reached.knows x (onward x edge) }

theorem Apt.labelled_of_pred (apt : e.Apt) (edge : x ∈ e.procedure.succs b)
    (other : x = e.procedure.entry ∨ ∃ c, c ≠ b ∧ x ∈ e.procedure.succs c) : e.IsLabelled x := by
  obtain ⟨pass, assigned⟩ := apt.assigned
  exact apt.routed.label_of_pred assigned edge other

section Inside

variable (inside : e.Inside t b)
include inside

theorem Inside.refl (knows : ∀ x ∈ via, e.Deals t b x) : e.Reached b t t via where
  inside := inside
  passes := .refl t
  adds := .of_rendered_eq rfl fun _ old => .inr old
  knows := knows
  finishes := .of_rendered_eq rfl

theorem Inside.after (rendered : e.Rendered t t' x) : e.Inside t' b where
  within := inside.within.keeps rendered.passes.toKeeps rendered.sound
  tidy := rendered.tidy
  tracks := (inside.tracks.after rendered.finishes fun _ => rendered.passes.knows).mono
    rendered.passes.hints.symm.subset
  outer := by
    rw [rendered.passes.frontier, rendered.passes.openExits]
    exact inside.outer

theorem Rendered.reached (rendered : e.Rendered t t' x) : e.Reached b t t' [x] where
  inside := inside.after rendered
  passes := rendered.passes
  adds := rendered.adds
  knows _ mem := .inl (.inl (List.mem_singleton.1 mem ▸ rendered.rendered))
  finishes := rendered.finishes

theorem Inside.heeded (others : ∀ y ∈ e.procedure.succs b, y ≠ x → e.Heeds t t.hints b y) :
    ∀ c ∈ t.rendered, ∀ y ∈ e.procedure.succs c, y ≠ x → e.Heeds t t.hints c y := by
  intro c rendered y edge ne
  by_cases same : c = b
  · subst same
    exact others y edge ne
  · exact inside.tracks c rendered same y edge

theorem Inside.fits (edge : x ∈ e.procedure.succs b) (fresh : x ∉ t.rendered) (free : t.isDeferred x = false)
    (known : e.Known t b x) (others : ∀ y ∈ e.procedure.succs b, y ≠ x → e.Heeds t t.hints b y) : e.Fits t x :=
  ⟨inside.within.ready edge fresh free, inside.tidy, known.hinted, inside.heeded others⟩

/-! ## Edges -/

theorem Inside.jumpTo (edge : x ∈ e.procedure.succs b) (labelled : e.IsLabelled x)
    (printed : x ∈ t.rendered → x ∈ t.printed ∨ e.procedure.Unannounced x) : e.Reached b t (t.jumpTo x) [x] := by
  have sound := inside.within.sound
  have passes : t.Passes (t.jumpTo x) :=
    { Traversal.Passes.refl t with jumpTargets := fun target mem => mem_addNew.2 (.inr mem) }
  have same : (t.jumpTo x).rendered = t.rendered := rfl
  refine ⟨⟨⟨{ sound with targets := ?_ }, inside.within.rendered, inside.within.guard⟩,
    { inside.tidy with jumped := ?_, labelled := ?_ },
    inside.tracks.after (.of_rendered_eq same) fun _ => passes.knows, inside.outer⟩, passes,
    .of_rendered_eq same fun target mem => ?_, ?_, .of_rendered_eq same⟩
  · intro target mem
    rcases mem_addNew.1 mem with rfl | old
    · exact ⟨b, inside.within.rendered, edge⟩
    · exact sound.targets target old
  · intro target mem rendered
    rcases mem_addNew.1 mem with rfl | old
    · exact printed rendered
    · exact inside.tidy.jumped target old rendered
  · intro target mem
    rcases mem_addNew.1 mem with rfl | old
    · exact labelled
    · exact inside.tidy.labelled target old
  · exact (mem_addNew.1 mem).imp (fun named => List.mem_singleton.2 named) id
  · intro target mem
    exact .inl (.inr (.inl (mem_addNew.2 (.inl (List.mem_singleton.1 mem)))))

theorem Inside.jump_meets (nested : Bool) (edge : x ∈ e.procedure.succs b) (labelled : e.IsLabelled x)
    (printed : x ∈ t.rendered → x ∈ t.printed ∨ e.procedure.Unannounced x) :
    Ensures (e.jump x nested) t fun _ t' => e.Reached b t t' [x] ∧ x ∈ t'.jumpTargets := by
  obtain ⟨text, found⟩ := labelled
  unfold Emitter.jump
  apply Meets.of_ok found
  apply Meets.noteJump
  apply Meets.pure
  exact ⟨inside.jumpTo edge ⟨text, found⟩ printed, mem_addNew.2 (.inl rfl)⟩

theorem Inside.announced (known : e.Known t b x) (back : e.procedure.Returns b x → ¬ e.procedure.Implicit b x)
    (rendered : x ∈ t.rendered) : x ∈ t.printed ∨ e.procedure.Unannounced x := by
  rcases (known.rendered rendered).1 with printed | unannounced | returns
  · exact .inl printed
  · exact .inr unannounced
  · exact .inr (.returned (inside.within.sound.reachable b inside.within.rendered) returns (back returns))

theorem Inside.aside (deferred : t.isDeferred x = true) : e.Reached b t t [x] :=
  inside.refl (by simp [Deals, Traversal.Knows, deferred])

theorem Inside.leave_meets (apt : e.Apt) (nested : Bool) (edge : x ∈ e.procedure.succs b)
    (leaves : t.leavesOpenLoop x = true) :
    Ensures (e.jump x nested) t fun _ t' => e.Reached b t t' [x] := by
  obtain ⟨depth, mem, shallow⟩ := inside.within.sound.leavesOpenLoop_iff.1 leaves
  -- Another block had set the target aside, so another one leads there.
  obtain ⟨d, ne, ipdom⟩ := inside.outer _ mem shallow
  have leads : e.procedure.Leads d x := .inr ipdom
  apply (inside.jump_meets nested edge (apt.labelled_of_pred edge (.inr (leads.exists_pred ne)))
    fun rendered => absurd rendered (inside.within.sound.fresh _ mem)).mono
  exact fun _ _ done => done.1

theorem Inside.branch_meets (apt : e.Apt) (renders : e.Renders recurse bound)
    (enough : t.unrendered e.procedure ≤ bound) (edge : x ∈ e.procedure.succs b) (known : e.Known t b x)
    (back : e.procedure.Returns b x → ¬ e.procedure.Implicit b x)
    (others : ∀ y ∈ e.procedure.succs b, y ≠ x → e.Heeds t t.hints b y) :
    Ensures (e.branch recurse x) t fun _ t' => e.Reached b t t' [x] ∧ e.Lands t t' x := by
  unfold Emitter.branch
  apply Meets.traversal
  refine Meets.ite (fun deferred => ?_) fun free => ?_
  · have lands {t' : Traversal} : e.Lands t t' x :=
      ⟨fun rendered => absurd rendered (inside.within.sound.not_mem_of_isDeferred deferred),
        fun _ free => by simp [deferred] at free⟩
    refine Meets.ite (fun leaves => ?_) fun _ => Meets.pure ⟨inside.aside deferred, lands⟩
    exact (inside.leave_meets apt true edge leaves).mono fun _ _ reached => ⟨reached, lands⟩
  · refine Meets.ite (fun rendered => ?_) fun fresh => ?_
    · have rendered : x ∈ t.rendered := of_decide_eq_true rendered
      apply (inside.jump_meets true edge (known.rendered rendered).2 (inside.announced known back)).mono
      rintro _ t' ⟨reached, jumped⟩
      exact ⟨reached, fun _ => jumped, fun fresh => absurd rendered fresh⟩
    · have fresh : x ∉ t.rendered := of_decide_eq_false fresh
      apply (renders t x true (inside.fits edge fresh free known others) enough).mono
      intro _ t' done
      exact ⟨done.reached inside, fun old => absurd old fresh, fun _ _ => ⟨done.rendered, done.decides⟩⟩

end Inside

end Emitter

end Reflow
