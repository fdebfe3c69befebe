import Reflow.Emit.Block
import Reflow.Proofs.Analysis
import Reflow.Proofs.Emit.Logic

namespace Reflow

theorem mem_addNew {a b : BlockId} {bs : List BlockId} : a ∈ addNew b bs ↔ a = b ∨ a ∈ bs := by
  unfold addNew
  split
  · rename_i mem
    constructor
    · exact .inr
    · rintro (rfl | old)
      · exact mem
      · exact old
  · simp

def holdsLabel (stmts : List (Stmt × Kind)) : Bool :=
  stmts.any (·.2 = .label)

namespace Traversal

variable {p : Procedure} {t t' t'' : Traversal} {b x : BlockId} {coming : Option BlockId}

theorem isDeferred_iff : t.isDeferred b = true ↔ ∃ depth, (b, depth) ∈ t.frontier := by
  unfold isDeferred
  induction t.frontier with
  | nil => simp
  | cons entry rest ih =>
    obtain ⟨c, depth⟩ := entry
    by_cases same : b = c
    · subst same
      simp
    · simp [List.lookup_cons, same, ih, beq_eq_false_iff_ne.2 same]

theorem isDeferred_undefer_of_ne {join : BlockId} (aside : t.isDeferred x = true) (ne : x ≠ join) :
    (t.undefer join).isDeferred x = true := by
  obtain ⟨depth, mem⟩ := isDeferred_iff.1 aside
  exact isDeferred_iff.2 ⟨depth, List.mem_filter.2 ⟨mem, by simpa using ne⟩⟩

def Knows (t : Traversal) (x : BlockId) : Prop :=
  x ∈ t.rendered ∨ x ∈ t.jumpTargets ∨ t.isDeferred x = true

theorem Knows.undefer {join : BlockId} (knows : t.Knows x) (ne : x ≠ join) : (t.undefer join).Knows x := by
  rcases knows with rendered | jumped | aside
  · exact .inl rendered
  · exact .inr (.inl jumped)
  · exact .inr (.inr (isDeferred_undefer_of_ne aside ne))

structure Grows (t t' : Traversal) : Prop where
  rendered : t.rendered ⊆ t'.rendered
  printed : t.printed ⊆ t'.printed
  jumpTargets : t.jumpTargets ⊆ t'.jumpTargets

theorem Grows.refl (t : Traversal) : t.Grows t :=
  ⟨.refl _, .refl _, .refl _⟩

theorem Grows.trans (first : t.Grows t') (second : t'.Grows t'') : t.Grows t'' where
  rendered := List.Subset.trans first.rendered second.rendered
  printed := List.Subset.trans first.printed second.printed
  jumpTargets := List.Subset.trans first.jumpTargets second.jumpTargets

structure Keeps (t t' : Traversal) : Prop extends Grows t t' where
  frontier : t'.frontier = t.frontier
  openExits : t'.openExits = t.openExits

theorem Keeps.refl (t : Traversal) : t.Keeps t :=
  { Grows.refl t with frontier := rfl, openExits := rfl }

theorem Keeps.trans (first : t.Keeps t') (second : t'.Keeps t'') : t.Keeps t'' :=
  { first.toGrows.trans second.toGrows with
    frontier := second.frontier.trans first.frontier
    openExits := second.openExits.trans first.openExits }

def unrendered (p : Procedure) (t : Traversal) : Nat :=
  (p.blockIds.filter (· ∉ t.rendered)).length

theorem unrendered_le_blocks (p : Procedure) (t : Traversal) : t.unrendered p ≤ p.blocks.length := by
  have count : p.blockIds.length = p.blocks.length := by simp [Procedure.blockIds]
  exact (List.length_filter_le _ _).trans_eq count

theorem unrendered_sublist (p : Procedure) (rendered : t.rendered ⊆ t'.rendered) :
    (p.blockIds.filter (· ∉ t'.rendered)).Sublist (p.blockIds.filter (· ∉ t.rendered)) := by
  apply List.monotone_filter_right
  intro c absent
  rw [decide_eq_true_eq] at absent ⊢
  exact fun old => absent (rendered old)

theorem Grows.unrendered_le (grows : t.Grows t') : t'.unrendered p ≤ t.unrendered p :=
  (unrendered_sublist p grows.rendered).length_le

theorem unrendered_lt (listed : b ∈ p.blockIds) (fresh : b ∉ t.rendered) (rendered : t.rendered ⊆ t'.rendered)
    (new : b ∈ t'.rendered) : t'.unrendered p < t.unrendered p := by
  have fewer := unrendered_sublist p rendered
  apply lt_of_le_of_ne fewer.length_le
  intro same
  have mem : b ∈ p.blockIds.filter (· ∉ t.rendered) := by simp [listed, fresh]
  rw [← fewer.eq_of_length same] at mem
  simp [new] at mem

theorem unrendered_render_lt (listed : b ∈ p.blockIds) (fresh : b ∉ t.rendered) :
    (t.render b).unrendered p < t.unrendered p :=
  unrendered_lt listed fresh (fun _ old => mem_addNew.2 (.inr old)) (mem_addNew.2 (.inl rfl))

theorem subset_of_nextPending? (none : t.nextPending? = none) : t.jumpTargets ⊆ t.rendered := by
  intro x jumped
  rw [nextPending?, List.min?_eq_none_iff, List.filter_eq_nil_iff] at none
  simpa [isRendered] using none x jumped

theorem mem_of_nextPending? (some : t.nextPending? = some b) : b ∈ t.jumpTargets ∧ b ∉ t.rendered := by
  have mem := List.min?_mem some
  simpa [isRendered] using mem

theorem subset_of_nextUnlabelled? (none : t.nextUnlabelled? = none) : t.jumpTargets ⊆ t.printed := by
  intro x jumped
  rw [nextUnlabelled?, List.min?_eq_none_iff, List.filter_eq_nil_iff] at none
  simpa [isPrinted] using none x jumped

theorem mem_of_nextUnlabelled? (some : t.nextUnlabelled? = some b) : b ∈ t.jumpTargets ∧ b ∉ t.printed := by
  have mem := List.min?_mem some
  simpa [isPrinted] using mem

theorem nextUnlabelled?_le (some : t.nextUnlabelled? = some b) (jumped : x ∈ t.jumpTargets)
    (unprinted : x ∉ t.printed) : b ≤ x := by
  apply (List.min?_eq_some_iff.1 some).2 x
  simpa [isPrinted] using ⟨jumped, unprinted⟩

/-- The state of a traversal when no rendering is under way but that of `coming`, the join that was taken up again
last. -/
structure Sound (p : Procedure) (coming : Option BlockId) (t : Traversal) : Prop where
  nested : t.frontier.Pairwise fun inner outer =>
    outer.2 ≤ inner.2 ∧ p.PostDominates outer.1 inner.1 ∧ outer.1 ≠ inner.1
  depth : ∀ entry ∈ t.frontier, entry.2 ≤ t.openExits.length
  exits : ∀ entry ∈ t.frontier, p.CanExit entry.1
  fresh : ∀ entry ∈ t.frontier, entry.1 ∉ t.rendered
  aside : ∀ entry ∈ t.frontier, ∃ d ∈ t.rendered, p.analysis.ipdom? d = some entry.1
  printed : t.printed ⊆ t.rendered
  joins : ∀ b ∈ t.rendered, ∀ join, p.analysis.ipdom? b = some join →
    join ∈ t.rendered ∨ t.isDeferred join ∨ coming = some join
  origin : ∀ b ∈ t.rendered, b = p.entry ∨ ∃ c ∈ t.rendered, p.Leads c b
  reachable : ∀ b ∈ t.rendered, p.Reachable b
  dominators : ∀ b ∈ t.rendered, ∀ d, p.Dominates d b → d ∈ t.rendered
  targets : ∀ b ∈ t.jumpTargets, ∃ c ∈ t.rendered, b ∈ p.succs c
  hinted : ∀ b ∈ t.hints, ∃ c ∈ t.rendered, b ∈ p.succs c

theorem Sound.empty (p : Procedure) : Sound p none {} where
  nested := .nil
  depth := by simp
  exits := by simp
  fresh := by simp
  aside := by simp
  printed := by simp
  joins := by simp
  origin := by simp
  reachable := by simp
  dominators := by simp
  targets := by simp
  hinted := by simp

theorem Sound.depth_unique (sound : Sound p coming t) {depth depth' : Nat}
    (mem : (b, depth) ∈ t.frontier) (mem' : (b, depth') ∈ t.frontier) : depth = depth' := by
  have keys : (t.frontier.map (·.1)).Nodup :=
    List.pairwise_map.2 (sound.nested.imp fun nested => Ne.symm nested.2.2)
  exact congrArg (·.2) (List.inj_on_of_nodup_map keys mem mem' rfl)

theorem Sound.leavesOpenLoop_iff (sound : Sound p coming t) :
    t.leavesOpenLoop b = true ↔ ∃ depth, (b, depth) ∈ t.frontier ∧ depth < t.openExits.length := by
  have found (depth : Nat) : t.frontier.lookup b = some depth ↔ (b, depth) ∈ t.frontier :=
    lookup_eq_some_iff_mem fun _ _ => sound.depth_unique
  simp only [leavesOpenLoop, Option.any_eq_true, found, decide_eq_true_eq]

theorem Sound.visited (sound : Sound p none t) (rendered : b ∈ t.rendered) (visited : p.Visited b x) :
    x ∈ t.rendered ∨ t.isDeferred x = true := by
  have dominators := sound.dominators b rendered
  rcases visited with dominates | ⟨d, dominates, join⟩
  · exact .inl (dominators x dominates)
  · rcases sound.joins d (dominators d dominates) x join with rendered | deferred | same
    · exact .inl rendered
    · exact .inr deferred
    · simp at same

/-! ## A block about to be rendered -/

structure Ready (p : Procedure) (t : Traversal) (b : BlockId) : Prop where
  sound : Sound p (some b) t
  fresh : b ∉ t.rendered
  guard : ∀ entry ∈ t.frontier, p.PostDominates entry.1 b ∧ entry.1 ≠ b
  origin : b = p.entry ∨ ∃ c ∈ t.rendered, p.Leads c b

structure Within (p : Procedure) (t : Traversal) (b : BlockId) : Prop where
  sound : Sound p none t
  rendered : b ∈ t.rendered
  guard : ∀ entry ∈ t.frontier, p.PostDominates entry.1 b ∧ entry.1 ≠ b

def joinOf (p : Procedure) (t : Traversal) (b : BlockId) : Option BlockId :=
  (p.analysis.ipdom? b).filter fun join => !(t.isRendered join || t.isDeferred join)

def begun (p : Procedure) (t : Traversal) (b : BlockId) : Traversal :=
  ((t.render b).joinOf p b).elim (t.render b) (t.render b).defer

theorem Sound.ready (sound : Sound p none t) (frontier : t.frontier = []) (fresh : b ∉ t.rendered)
    (origin : b = p.entry ∨ ∃ c ∈ t.rendered, p.Leads c b) : t.Ready p b := by
  refine ⟨{ sound with joins := ?_ }, fresh, by simp [frontier], origin⟩
  intro c rendered join ipdom
  exact (sound.joins c rendered join ipdom).imp id fun either => either.imp id (by simp)

theorem Ready.reachable (ready : t.Ready p b) : p.Reachable b := by
  rcases ready.origin with rfl | ⟨c, rendered, leads⟩
  · exact Procedure.reachable_entry
  · exact leads.reachable (ready.sound.reachable c rendered)

theorem Ready.dominators (ready : t.Ready p b) {d : BlockId} (dominates : p.Dominates d b) :
    d = b ∨ d ∈ t.rendered := by
  by_cases same : d = b
  · exact .inl same
  · rcases ready.origin with rfl | ⟨c, rendered, leads⟩
    · -- The path that never leaves the entry visits no other block.
      exact absurd (List.mem_singleton.1 (dominates _ (.single _))) same
    · exact .inr (ready.sound.dominators c rendered d (dominates.of_leads same leads))

theorem filter_frontier (free : t.isDeferred b = false) : t.frontier.filter (·.1 ≠ b) = t.frontier := by
  rw [List.filter_eq_self]
  intro entry mem
  have ne : entry.1 ≠ b := by
    rintro rfl
    exact absurd (isDeferred_iff.2 ⟨entry.2, mem⟩) (by simp [free])
  simpa using ne

section Begun

variable (p t b)

theorem begun_cases : ((t.render b).joinOf p b = none ∧ t.begun p b = t.render b ∧
      ∀ join, p.analysis.ipdom? b = some join → join ∈ (t.render b).rendered ∨ t.isDeferred join) ∨
    ∃ join, (t.render b).joinOf p b = some join ∧ p.analysis.ipdom? b = some join ∧
      join ∉ (t.render b).rendered ∧ t.isDeferred join = false ∧
      t.begun p b = { t.render b with frontier := (join, t.openExits.length) :: t.frontier } := by
  cases found : (t.render b).joinOf p b with
  | none =>
    refine .inl ⟨rfl, by rw [begun, found, Option.elim_none], ?_⟩
    intro join ipdom
    rw [joinOf, ipdom, Option.filter_eq_none_iff] at found
    have either := found join rfl
    rw [Bool.not_eq_true, Bool.not_eq_false', Bool.or_eq_true] at either
    exact either.imp (by simp [isRendered]) id
  | some join =>
    refine .inr ⟨join, rfl, ?_⟩
    rw [joinOf, Option.filter_eq_some_iff] at found
    obtain ⟨ipdom, free⟩ := found
    rw [Bool.not_eq_true', Bool.or_eq_false_iff] at free
    have free' : t.isDeferred join = false := free.2
    refine ⟨ipdom, by simpa [isRendered] using free.1, free', ?_⟩
    have taken : (t.render b).joinOf p b = some join := by
      rw [joinOf, Option.filter_eq_some_iff]
      exact ⟨ipdom, by simp [free]⟩
    rw [begun, taken, Option.elim_some, defer]
    have same : (t.render b).frontier = t.frontier := rfl
    rw [same, filter_frontier free']
    rfl

theorem begun_eq : t.begun p b = { t.render b with frontier := (t.begun p b).frontier } := by
  rcases begun_cases p t b with ⟨-, same, -⟩ | ⟨join, -, -, -, -, same⟩ <;> rw [same]

@[simp]
theorem begun_rendered : (t.begun p b).rendered = addNew b t.rendered := by
  rw [begun_eq]
  rfl

@[simp]
theorem begun_hints : (t.begun p b).hints = t.hints := by
  rw [begun_eq]
  rfl

@[simp]
theorem begun_jumpTargets : (t.begun p b).jumpTargets = t.jumpTargets := by
  rw [begun_eq]
  rfl

@[simp]
theorem begun_printed : (t.begun p b).printed = t.printed := by
  rw [begun_eq]
  rfl

@[simp]
theorem begun_openExits : (t.begun p b).openExits = t.openExits := by
  rw [begun_eq]
  rfl

end Begun

def printIf (t : Traversal) (b : BlockId) (needed : Bool) : Traversal :=
  if needed then t.print b else t

theorem mem_printIf_printed {needed : Bool} :
    x ∈ (t.printIf b needed).printed ↔ needed = true ∧ x = b ∨ x ∈ t.printed := by
  cases needed <;> simp [printIf, print, mem_addNew]

section PrintIf

variable (t b) (needed : Bool)

theorem printIf_eq : t.printIf b needed = { t with printed := (t.printIf b needed).printed } := by
  cases needed <;> rfl

@[simp]
theorem printIf_rendered : (t.printIf b needed).rendered = t.rendered := by
  cases needed <;> rfl

@[simp]
theorem printIf_hints : (t.printIf b needed).hints = t.hints := by
  cases needed <;> rfl

@[simp]
theorem printIf_jumpTargets : (t.printIf b needed).jumpTargets = t.jumpTargets := by
  cases needed <;> rfl

@[simp]
theorem printIf_frontier : (t.printIf b needed).frontier = t.frontier := by
  cases needed <;> rfl

@[simp]
theorem printIf_openExits : (t.printIf b needed).openExits = t.openExits := by
  cases needed <;> rfl

theorem printIf_printIf (first second : Bool) :
    (t.printIf b first).printIf b second = t.printIf b (first || second) := by
  cases first with
  | false => rfl
  | true =>
    cases second with
    | false => rfl
    | true =>
      have listed : b ∈ (t.print b).printed := mem_addNew.2 (.inl rfl)
      simp only [printIf, if_true, Bool.or_self]
      rw [print, addNew, if_pos listed]

end PrintIf

theorem Ready.render_sound (ready : t.Ready p b)
    (joins : ∀ join, p.analysis.ipdom? b = some join → join ∈ (t.render b).rendered ∨
      t.isDeferred join ∨ coming = some join) : Sound p coming (t.render b) where
  nested := ready.sound.nested
  depth := ready.sound.depth
  exits := ready.sound.exits
  fresh := by
    intro entry mem rendered
    rcases mem_addNew.1 rendered with same | old
    · exact (ready.guard entry mem).2 same
    · exact ready.sound.fresh entry mem old
  aside := by
    intro entry mem
    obtain ⟨d, rendered, ipdom⟩ := ready.sound.aside entry mem
    exact ⟨d, mem_addNew.2 (.inr rendered), ipdom⟩
  printed := by
    intro c mem
    exact mem_addNew.2 (.inr (ready.sound.printed mem))
  joins := by
    intro c mem join ipdom
    rcases mem_addNew.1 mem with rfl | old
    · exact joins join ipdom
    · rcases ready.sound.joins c old join ipdom with rendered | deferred | same
      · exact .inl (mem_addNew.2 (.inr rendered))
      · exact .inr (.inl deferred)
      · exact .inl (mem_addNew.2 (.inl (Option.some.inj same).symm))
  origin := by
    have wider (c : BlockId) (known : c = p.entry ∨ ∃ d ∈ t.rendered, p.Leads d c) :
        c = p.entry ∨ ∃ d ∈ (t.render b).rendered, p.Leads d c :=
      known.imp id fun ⟨d, rendered, leads⟩ => ⟨d, mem_addNew.2 (.inr rendered), leads⟩
    intro c mem
    rcases mem_addNew.1 mem with rfl | old
    · exact wider c ready.origin
    · exact wider c (ready.sound.origin c old)
  reachable := by
    intro c mem
    rcases mem_addNew.1 mem with rfl | old
    · exact ready.reachable
    · exact ready.sound.reachable c old
  dominators := by
    intro c mem d dominates
    rcases mem_addNew.1 mem with rfl | old
    · exact mem_addNew.2 (ready.dominators dominates)
    · exact mem_addNew.2 (.inr (ready.sound.dominators c old d dominates))
  targets := by
    intro c mem
    obtain ⟨d, rendered, edge⟩ := ready.sound.targets c mem
    exact ⟨d, mem_addNew.2 (.inr rendered), edge⟩
  hinted := by
    intro c mem
    obtain ⟨d, rendered, edge⟩ := ready.sound.hinted c mem
    exact ⟨d, mem_addNew.2 (.inr rendered), edge⟩

theorem Sound.defer {join : BlockId} (sound : Sound p (some join) t) (exits : p.CanExit join)
    (rendered : b ∈ t.rendered) (ipdom : p.analysis.ipdom? b = some join) (fresh : join ∉ t.rendered)
    (outer : ∀ entry ∈ t.frontier, p.PostDominates entry.1 join ∧ entry.1 ≠ join) :
    Sound p none { t with frontier := (join, t.openExits.length) :: t.frontier } :=
  { sound with
    nested := by
      apply List.Pairwise.cons _ sound.nested
      intro entry mem
      exact ⟨sound.depth entry mem, outer entry mem⟩
    depth := List.forall_mem_cons.2 ⟨le_rfl, sound.depth⟩
    exits := List.forall_mem_cons.2 ⟨exits, sound.exits⟩
    fresh := List.forall_mem_cons.2 ⟨fresh, sound.fresh⟩
    aside := List.forall_mem_cons.2 ⟨⟨b, rendered, ipdom⟩, sound.aside⟩
    joins := by
      intro b rendered other ipdom
      have deferred (depth : Nat) (mem : (other, depth) ∈ (join, t.openExits.length) :: t.frontier) :
          isDeferred { t with frontier := (join, t.openExits.length) :: t.frontier } other = true :=
        isDeferred_iff.2 ⟨depth, mem⟩
      rcases sound.joins b rendered other ipdom with done | later | same
      · exact .inl done
      · obtain ⟨depth, mem⟩ := isDeferred_iff.1 later
        exact .inr (.inl (deferred depth (.tail _ mem)))
      · obtain rfl := Option.some.inj same
        exact .inr (.inl (deferred _ (.head _))) }

theorem Sound.undefer {join : BlockId} {depth : Nat} {outer : List (BlockId × Nat)}
    (sound : Sound p none t) (last : t.frontier = (join, depth) :: outer) :
    Sound p (some join) (t.undefer join) ∧ (t.undefer join).frontier = outer ∧
      ∀ entry ∈ outer, p.PostDominates entry.1 join ∧ entry.1 ≠ join := by
  have nested := sound.nested
  rw [last, List.pairwise_cons] at nested
  have others : ∀ entry ∈ outer, p.PostDominates entry.1 join ∧ entry.1 ≠ join :=
    fun entry mem => (nested.1 entry mem).2
  have rest : (t.undefer join).frontier = outer := by
    have kept : outer.filter (·.1 ≠ join) = outer := by
      rw [List.filter_eq_self]
      intro entry mem
      simpa using (others entry mem).2
    rw [Traversal.undefer, last, List.filter_cons_of_neg (by simp), kept]
  have older {entry : BlockId × Nat} (mem : entry ∈ (t.undefer join).frontier) :
      entry ∈ t.frontier := (List.mem_filter.1 mem).1
  refine ⟨?_, rest, others⟩
  exact { sound with
    nested := by
      rw [rest]
      exact nested.2
    depth := fun entry mem => sound.depth entry (older mem)
    exits := fun entry mem => sound.exits entry (older mem)
    fresh := fun entry mem => sound.fresh entry (older mem)
    aside := fun entry mem => sound.aside entry (older mem)
    joins := by
      intro b rendered other ipdom
      rcases sound.joins b rendered other ipdom with done | later | same
      · exact .inl done
      · obtain ⟨depth', mem⟩ := isDeferred_iff.1 later
        rw [last] at mem
        rcases List.mem_cons.1 mem with same | mem
        · exact .inr (.inr (congrArg some (congrArg (·.1) same).symm))
        · exact .inr (.inl (isDeferred_iff.2 ⟨depth', rest ▸ mem⟩))
      · exact absurd same (by simp) }

theorem Ready.begun_within (ready : t.Ready p b) : (t.begun p b).Within p b := by
  rcases begun_cases p t b with ⟨-, same, joins⟩ | ⟨join, -, ipdom, fresh, free, same⟩
  · rw [same]
    exact ⟨ready.render_sound fun join ipdom => (joins join ipdom).imp id .inl, mem_addNew.2 (.inl rfl), ready.guard⟩
  · have idom := Procedure.ipdom?_eq_some_iff.1 ipdom
    have ne : join ≠ b := by
      rintro rfl
      exact fresh (mem_addNew.2 (.inl rfl))
    have sound : Sound p (some join) (t.render b) := by
      apply ready.render_sound
      intro other ipdom'
      rw [ipdom] at ipdom'
      exact .inr (.inr ipdom')
    have outer : ∀ entry ∈ t.frontier, p.PostDominates entry.1 join ∧ entry.1 ≠ join := by
      intro entry mem
      obtain ⟨dominates, differs⟩ := ready.guard entry mem
      refine ⟨idom.closest (some entry.1) (by simpa using differs) dominates, ?_⟩
      rintro rfl
      exact absurd (isDeferred_iff.2 ⟨entry.2, mem⟩) (by simp [free])
    rw [same]
    have begun : b ∈ (t.render b).rendered := mem_addNew.2 (.inl rfl)
    refine ⟨sound.defer (idom.dominates.reaches idom.reached) begun ipdom fresh outer, begun, ?_⟩
    intro entry mem
    rcases List.mem_cons.1 mem with rfl | old
    · exact ⟨idom.dominates, ne⟩
    · exact ready.guard entry old

/-! ## A block begun -/

theorem Within.withPrinted (within : t.Within p b) {printed : List BlockId} (rendered : printed ⊆ t.rendered) :
    Within p { t with printed := printed } b :=
  ⟨{ within.sound with printed := rendered }, within.rendered, within.guard⟩

def started (p : Procedure) (t : Traversal) (b : BlockId) (needed : Bool) : Traversal :=
  (t.begun p b).printIf b needed

variable {needed : Bool}

theorem mem_started_printed : x ∈ (t.started p b needed).printed ↔ needed = true ∧ x = b ∨ x ∈ t.printed := by
  rw [started, mem_printIf_printed, begun_printed]

theorem mem_started_rendered : x ∈ (t.started p b needed).rendered ↔ x = b ∨ x ∈ t.rendered := by
  rw [started, printIf_rendered, begun_rendered, mem_addNew]

@[simp]
theorem started_jumpTargets : (t.started p b needed).jumpTargets = t.jumpTargets := by
  simp [started]

@[simp]
theorem started_hints : (t.started p b needed).hints = t.hints := by
  simp [started]

@[simp]
theorem started_openExits : (t.started p b needed).openExits = t.openExits := by
  simp [started]

@[simp]
theorem started_frontier : (t.started p b needed).frontier = (t.begun p b).frontier := by
  simp [started]

@[simp]
theorem started_unrendered : (t.started p b needed).unrendered p = (t.render b).unrendered p := by
  rw [unrendered, started, printIf_rendered, begun_rendered]
  rfl

theorem grows_started : t.Grows (t.started p b needed) where
  rendered _ mem := mem_started_rendered.2 (.inr mem)
  printed _ mem := mem_started_printed.2 (.inr mem)
  jumpTargets := by rw [started_jumpTargets]; exact .refl _

theorem Ready.started_within (ready : t.Ready p b) : (t.started p b needed).Within p b := by
  rw [started, printIf_eq]
  apply ready.begun_within.withPrinted
  intro x mem
  rw [begun_rendered, mem_addNew]
  rcases mem_started_printed.1 mem with ⟨-, rfl⟩ | old
  · exact .inl rfl
  · exact .inr (ready.sound.printed old)

/-! ## A block being rendered -/

section

variable (within : t.Within p b)
include within

theorem Within.keeps (keeps : t.Keeps t') (sound : Sound p none t') : t'.Within p b :=
  ⟨sound, keeps.rendered within.rendered, keeps.frontier ▸ within.guard⟩

theorem Within.ready (edge : x ∈ p.succs b) (fresh : x ∉ t.rendered) (free : t.isDeferred x = false) : t.Ready p x where
  sound := { within.sound with
    joins := fun c rendered join ipdom =>
      (within.sound.joins c rendered join ipdom).imp id fun either => either.imp id (by simp) }
  fresh := fresh
  guard := by
    intro entry mem
    obtain ⟨dominates, ne⟩ := within.guard entry mem
    refine ⟨dominates.succ ne (within.sound.reachable b within.rendered) edge, ?_⟩
    rintro rfl
    exact absurd (isDeferred_iff.2 ⟨entry.2, mem⟩) (by simp [free])
  origin := .inr ⟨b, within.rendered, .inl edge⟩

theorem Within.head_frontier (edge : x ∈ p.succs b) (deferred : t.isDeferred x = true)
    (stays : t.leavesOpenLoop x = false) : ∃ outer, t.frontier = (x, t.openExits.length) :: outer := by
  obtain ⟨depth, mem⟩ := isDeferred_iff.1 deferred
  have deep : depth = t.openExits.length := by
    apply le_antisymm (within.sound.depth _ mem)
    by_contra less
    have leaves := within.sound.leavesOpenLoop_iff.2 ⟨depth, mem, Nat.lt_of_not_le less⟩
    simp [leaves] at stays
  cases frontier : t.frontier with
  | nil => simp [frontier] at mem
  | cons entry outer =>
    have nested := within.sound.nested
    rw [frontier] at mem nested
    rcases List.mem_cons.1 mem with same | older
    · exact ⟨outer, by rw [← same, deep]⟩
    · -- The last join post-dominates `x` as a successor of `b`, and `x` post-dominates it as an older join.
      have last : entry ∈ t.frontier := by simp [frontier]
      obtain ⟨dominates, ne⟩ := within.guard entry last
      have first := dominates.succ ne (within.sound.reachable b within.rendered) edge
      obtain ⟨-, second, differs⟩ := (List.pairwise_cons.1 nested).1 _ older
      have exits := within.sound.exits _ (frontier ▸ List.mem_cons_of_mem entry older)
      exact absurd (first.antisymm exits second).symm differs

theorem Within.ipdom?_of_deferred (edge : x ∈ p.succs b) (deferred : t.isDeferred x = true) :
    p.analysis.ipdom? b = some x := by
  obtain ⟨depth, mem⟩ := isDeferred_iff.1 deferred
  obtain ⟨dominates, ne⟩ := within.guard _ mem
  have reach := within.sound.reachable b within.rendered
  have exits := within.sound.exits _ mem
  have above : p.CanExit b := exits.of_reaches reach (.of_edge edge)
  obtain ⟨join, ipdom, beyond⟩ := dominates.exists_ipdom ne above
  have idom := Procedure.ipdom?_eq_some_iff.1 ipdom
  have next : p.PostDominates join x :=
    Procedure.PostDominates.succ idom.dominates (by simpa using idom.ne) reach edge
  rwa [next.antisymm exits beyond] at ipdom

end

/-! ## Blocks in the body of a loop -/

theorem Ready.openLoop (ready : t.Ready p b) (exit : BlockId) : (t.openLoop exit).Ready p b :=
  ⟨{ ready.sound with depth := fun entry mem => (ready.sound.depth entry mem).trans (Nat.le_succ _) },
    ready.fresh, ready.guard, ready.origin⟩

theorem Keeps.closeLoop (keeps : (t.openLoop x).Keeps t') : t.Keeps t'.closeLoop := by
  refine { keeps with openExits := ?_ }
  rw [Traversal.closeLoop, keeps.openExits]
  rfl

theorem Sound.closeLoop (sound : Sound p none t') (keeps : t.Keeps t'.closeLoop) (outer : Sound p coming t) :
    Sound p none t'.closeLoop := by
  refine { sound with depth := ?_ }
  rw [keeps.openExits, keeps.frontier]
  exact outer.depth

theorem Sound.exists_between (sound : Sound p none t) (rendered : b ∈ t.rendered) (exits : p.CanExit b)
    {join : BlockId} (dominates : p.PostDominates join b) (fresh : join ∉ t.rendered) :
    ∃ entry ∈ t.frontier, p.PostDominates join entry.1 := by
  obtain ⟨nodes, path⟩ := exits
  -- The way from a block to the end gets shorter at its join.
  induction length : nodes.length using Nat.strong_induction_on generalizing b nodes with
  | _ n ih =>
    have ne : join ≠ b := by
      rintro rfl
      exact fresh rendered
    obtain ⟨next, ipdom, beyond⟩ := dominates.exists_ipdom ne ⟨nodes, path⟩
    have idom := Procedure.ipdom?_eq_some_iff.1 ipdom
    rcases sound.joins b rendered next ipdom with done | deferred | same
    · obtain ⟨before, after, toNext, onward, rfl, -⟩ := path.split_first (idom.dominates _ path)
      apply ih _ _ done beyond _ toNext rfl
      have longer : 1 < after.length := by
        cases onward with
        | single => exact absurd rfl idom.ne
        | step _ rest =>
          have := rest.length_pos
          simp only [List.length_cons]
          omega
      simp only [List.length_append, List.length_singleton] at length ⊢
      omega
    · obtain ⟨depth, mem⟩ := isDeferred_iff.1 deferred
      exact ⟨_, mem, beyond⟩
    · simp at same

structure Anchored (p : Procedure) (t : Traversal) (test : BlockId) : Prop where
  rendered : test ∈ t.rendered
  outer : ∀ join, p.PostDominates join test → join ∉ t.rendered → p.CanExit test →
    ∃ entry ∈ t.frontier, entry.2 < t.openExits.length ∧ p.PostDominates join entry.1
  exits : ∀ entry ∈ t.frontier, entry.2 = t.openExits.length → p.CanExit test

theorem Anchored.keeps {test : BlockId} (anchored : t.Anchored p test) (keeps : t.Keeps t') : t'.Anchored p test where
  rendered := keeps.rendered anchored.rendered
  outer := by
    intro join dominates fresh exits
    rw [keeps.frontier, keeps.openExits]
    exact anchored.outer join dominates (fun old => fresh (keeps.rendered old)) exits
  exits := by
    rw [keeps.frontier, keeps.openExits]
    exact anchored.exits

theorem Anchored.withPrinted {test : BlockId} (anchored : t.Anchored p test) (printed : List BlockId) :
    Anchored p { t with printed := printed } test :=
  ⟨anchored.rendered, anchored.outer, anchored.exits⟩

theorem Anchored.no_inner_join (within : t.Within p b) (anchored : t.Anchored p x)
    (edge : x ∈ p.succs b) {join : BlockId} {depth : Nat} {outer : List (BlockId × Nat)}
    (frontier : t.frontier = (join, depth) :: outer) : depth ≠ t.openExits.length := by
  intro deep
  have head : (join, depth) ∈ t.frontier := by simp [frontier]
  obtain ⟨dominates, ne⟩ := within.guard _ head
  have overTest := dominates.succ ne (within.sound.reachable b within.rendered) edge
  obtain ⟨entry, mem, shallow, above⟩ := anchored.outer join overTest (within.sound.fresh _ head)
    (anchored.exits _ head deep)
  have older : entry ∈ outer := by
    rw [frontier] at mem
    rcases List.mem_cons.1 mem with rfl | older
    · omega
    · exact older
  have nested := within.sound.nested
  rw [frontier, List.pairwise_cons] at nested
  obtain ⟨-, below, differs⟩ := nested.1 entry older
  exact differs (above.antisymm (within.sound.exits entry mem) below).symm

end Traversal

theorem Emitter.deferJoin_meets {e : Emitter} {t : Traversal} {b : BlockId} {allowed : EmitError → Prop}
    (facts : e.facts.ipdom? b = e.procedure.analysis.ipdom? b) :
    Emission.Meets allowed (e.deferJoin b) (t.render b) fun deferred t' =>
      deferred = (t.render b).joinOf e.procedure b ∧ t' = t.begun e.procedure b := by
  unfold Emitter.deferJoin Traversal.begun Traversal.joinOf
  apply Emission.Meets.traversal
  rw [facts]
  cases e.procedure.analysis.ipdom? b with
  | none => exact Emission.Meets.pure ⟨rfl, rfl⟩
  | some join =>
    cases known : (t.render b).isRendered join || (t.render b).isDeferred join with
    | true =>
      simp only [known, if_true]
      exact Emission.Meets.pure ⟨by simp [Option.filter, known], by simp [Option.filter, known]⟩
    | false =>
      simp only [known, Bool.false_eq_true, if_false]
      apply Emission.Meets.update
      exact Emission.Meets.pure ⟨by simp [Option.filter, known], by simp [Option.filter, known]⟩

end Reflow
