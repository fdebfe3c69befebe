import Reflow.Proofs.Structured.Constructs

namespace Reflow

open Program Emission FunctionOf

variable {f : Function} {e : f.Pass} {allowed : EmitError → Prop} {t t' u : Traversal} {start stop join after b : Nat}
  {exit : Statement Nat Nat} {tail : List String} {arms : List (Nat × Nat)} {arm : Nat × Nat} {direct : Prop}

structure Entering {f : Function} (e : f.Pass) (t : Traversal) (start stop : Nat) (exit : Statement Nat Nat)
    (tail : List String) : Prop where
  placed : e.procedure.Placed start stop exit.instr.targets
  known : start ∈ e.procedure.blockIds
  clear : t.Clear start stop
  calm : e.procedure.Calm t start false
  departs : Departs e t (stop - 1) exit tail

namespace Entering

theorem lt (entering : Entering e t start stop exit tail) : start < stop :=
  entering.placed.region.lt

section Fork

variable (entering : Entering e t start stop exit tail) (fork : e.procedure.Fork start join arms direct)
  (rest : e.procedure.Region join stop exit.instr.targets)

include entering fork rest

theorem fork_arm (mem : arm ∈ arms) (known : arm.1 ∈ e.procedure.blockIds) (clear : u.Clear arm.1 arm.2)
    (waits : u.Waits join) : Entering e u arm.1 arm.2 (Source.branch join) [] where
  placed := entering.placed.fork_arm fork rest mem
  known := known
  clear := clear
  calm := by
    have within := fork.tiles.within mem
    exact calm_of_single known u (fun c edge => entering.placed.fork_pred_arm fork rest mem edge) (by omega)
  departs := .joins waits

theorem fork_rest (known : join ∈ e.procedure.blockIds) (covers : t.Covers t' start join) :
    Entering e t' join stop exit tail where
  placed := entering.placed.fork_rest fork rest
  known := known
  clear := by
    have inner := fork.tiles.le
    exact (entering.clear.mono (by omega) le_rfl).covers covers (.inl le_rfl)
  calm := by
    right
    intro (c : Nat) mem
    obtain ⟨within, ipdom⟩ := entering.placed.fork_pred_join fork rest ((mem_procedure_preds known).1 mem)
    have ne : c ≠ join := by omega
    exact ⟨ipdom, .inl ⟨(covers.rendered c).2 (.inr within), ne⟩⟩
  departs := entering.departs.covers covers

end Fork

section Cycle

variable (entering : Entering e t start stop exit tail) (cycle : e.procedure.Cycle start after)
  (rest : e.procedure.Region after stop exit.instr.targets)

include entering cycle rest

theorem cycle_test_calm (known : start + 1 ∈ e.procedure.blockIds)
    (covers : t.Covers t' start (start + 1)) : e.procedure.Calm t' (start + 1) true := by
  have inner := cycle.body.lt
  right
  intro (c : Nat) mem
  rcases entering.placed.cycle_pred_test cycle rest ((mem_procedure_preds known).1 mem) with rfl | rfl
  · have ne : c ≠ c + 1 := by omega
    exact ⟨entering.placed.cycle_ipdom?_enter cycle rest,
      .inl ⟨(covers.rendered c).2 (.inr ⟨le_rfl, Nat.lt_succ_self c⟩), ne⟩⟩
  · exact ⟨(entering.placed.cycle_body cycle rest).ipdom?_last, .inr ⟨entering.placed.cycle_isFeedback cycle rest, rfl⟩⟩

theorem cycle_body {cond : Nat} {header : List (Statement Nat Nat)} (known : start + 2 ∈ e.procedure.blockIds)
    (test : f.HasBlock (start + 1) header ⟨none, .loop cond (start + 2) after⟩) (clear : u.Clear (start + 2) after)
    (rendered : start + 1 ∈ u.rendered) (free : u.isDeferred (start + 1) = false) :
    Entering e u (start + 2) after (Source.branch (start + 1)) (f.texts header) where
  placed := entering.placed.cycle_body cycle rest
  known := known
  clear := clear
  calm := by
    apply calm_of_single known u _ (Nat.succ_pos _)
    · exact start + 1
    · intro c edge
      have inner := cycle.body.lt
      have filled := rest.lt
      have := entering.placed.cycle_edge cycle rest edge (by omega) (by omega)
      omega
  departs := .repeats test rendered free (entering.placed.cycle_isFeedback cycle rest)

theorem cycle_rest (known : after ∈ e.procedure.blockIds) (covers : t.Covers t' start after) :
    Entering e t' after stop exit tail where
  placed := entering.placed.cycle_rest cycle rest
  known := known
  clear := by
    have inner := cycle.body.lt
    exact (entering.clear.mono (by omega) le_rfl).covers covers (.inl le_rfl)
  calm := by
    have inner := cycle.body.lt
    exact calm_of_single known t' (fun c edge => entering.placed.cycle_pred_exit cycle rest edge) (by omega)
  departs := entering.departs.covers covers

end Cycle

end Entering

namespace Source

theorem Holds.mem_blockIds {source : Source} {before : List Step}
    (holds : Holds f start (source.blocks start before exit)) (e : f.Pass) : start ∈ e.procedure.blockIds := by
  have filled : 0 < (source.blocks start before exit).length := by
    rw [source.length_blocks]
    exact source.size_pos
  obtain ⟨block, found, -⟩ := Option.map_eq_some_iff.1 (holds 0 _ (List.getElem?_eq_getElem filled))
  exact mem_blockIds_iff.2 ⟨block, found⟩

/-- Whether a run of blocks is a region whose rendering shows given lines, then those it takes to leave. -/
structure Renders {f : Function} (e : f.Pass) (allowed : EmitError → Prop) (fuel start stop : Nat)
    (exit : Statement Nat Nat) (texts : List String) : Prop where
  region : e.procedure.Region start stop exit.instr.targets
  known : start ∈ e.procedure.blockIds
  emits : ∀ braced t tail, Entering e t start stop exit tail →
    Meets allowed (e.emitter.emitWithin fuel start braced) t
      (Draws e.verbose t start stop (wrap braced (texts ++ tail)))

structure ArmsRender {f : Function} (e : f.Pass) (allowed : EmitError → Prop) (fuel start join : Nat) (arms : Arms) :
    Prop where
  region : ∀ arm ∈ arms.runs start, e.procedure.Region arm.1 arm.2 [join]
  known : ∀ arm ∈ arms.runs start, arm.1 ∈ e.procedure.blockIds
  emits : ∀ (b : Nat) (t : Traversal), e.procedure.analysis.ipdom? b = some join →
    (∀ arm ∈ arms.runs start, ∀ u : Traversal, u.Clear arm.1 arm.2 → u.Waits join →
      Entering e u arm.1 arm.2 (branch join) []) →
    t.Clear start (start + arms.size) → start + arms.size ≤ join → t.Waits join →
    Meets allowed (e.emitter.switchArms (e.emitter.emitWithin fuel) b (some join)
      ((arms.targets start).map fun arm => { labels := [arm.1], target := arm.2 })) t fun out t' =>
        out.2 = some join ∧ Draws e.verbose t start (start + arms.size) (arms.print f) out.1 t'

section Constructs

variable {fuel middle cond selector : Nat} {before header : List (Statement Nat Nat)} {last : Statement Nat Nat}
  {inner bodyTexts otherTexts restTexts : List String} {label : CaseLabel} {body : Source} {others : Arms}

section

variable (jumpless : Jumpless e)
include jumpless

theorem Renders.done (has : f.HasBlock start before exit) (all : Source.done.PrintsAll f (isFinal exit) before) :
    Renders e allowed (fuel + 1) start (start + 1) exit (f.texts before) where
  region := .leave fun x => has.mem_succs_iff
  known := has.mem_blockIds e
  emits braced t tail entering := by
    apply Emitter.emitWithin_meets entering.known (entering.clear.fresh start le_rfl entering.lt)
    exact jumpless.leaving_meets has entering.placed entering.clear entering.calm entering.departs all

theorem Renders.fork (has : f.HasBlock start before last) (kind : Kind)
    (ok : ∀ n, last.instr.kind n = .ok kind) (branching : kind.isBranching)
    (printed : last.instr.op ∉ [.vuse, .asm, .br, .goto]) (fork : e.procedure.Fork start join arms direct)
    (known : ∀ arm ∈ arms, arm.1 ∈ e.procedure.blockIds) (rest : Renders e allowed fuel join stop exit restTexts)
    (branches : ∀ t : Traversal, t.Waits join → t.Clear (start + 1) join →
      e.procedure.analysis.ipdom? start = some join →
      (∀ arm ∈ arms, e.procedure.analysis.isFeedback start arm.1 = false) →
      (∀ arm ∈ arms, ∀ u : Traversal, u.Clear arm.1 arm.2 → u.Waits join → Entering e u arm.1 arm.2 (branch join) []) →
      Meets allowed (e.emitter.continuation (e.emitter.emitWithin fuel) start false (some join) (some kind)) t
        fun out t' => out.2 = some join ∧ Draws e.verbose t (start + 1) join inner out.1 t') :
    Renders e allowed (fuel + 1) start stop exit (f.texts before ++ f.statementText last :: inner ++ restTexts) where
  region := fork.region rest.region
  known := has.mem_blockIds e
  emits braced t tail entering := by
    have filled := fork.tiles.le
    have ipdom := entering.placed.fork_ipdom? fork rest.region
    apply Emitter.emitWithin_meets entering.known (entering.clear.fresh start le_rfl entering.lt)
    rw [List.append_assoc]
    apply jumpless.branching_meets has kind ok branching printed ipdom (by omega) rest.region.lt
      entering.clear (entering.calm.of_false _)
    · intro u waits clear _ _
      apply branches u waits clear ipdom
      · exact fun arm mem => entering.placed.fork_isFeedback fork rest.region mem
      · exact fun arm mem u clear waits =>
          entering.fork_arm fork rest.region mem (known arm mem) clear waits
    · exact fun t' covers => rest.emits false t' tail (entering.fork_rest fork rest.region rest.known covers)

theorem Renders.ifThen (has : f.HasBlock start before ⟨none, .condbr cond (start + 1) join⟩)
    (body : Renders e allowed fuel (start + 1) join (branch join) bodyTexts)
    (rest : Renders e allowed fuel join stop exit restTexts) :
    Renders e allowed (fuel + 1) start stop exit
      (f.texts before ++ s!"if ({f.valueName cond})" :: braces bodyTexts ++ restTexts) := by
  have filled := body.region.lt
  apply Renders.fork jumpless has _ (fun _ => rfl) rfl (by simp [Instr.op]) (fork_ifThen has body.region)
    (by simpa using body.known) rest
  intro t waits clear _ _ entering
  have arm := body.emits true t [] (entering _ (.head _) t clear waits)
  rw [List.append_nil] at arm
  apply (Emitter.conditional_meets_then waits (clear.free _ le_rfl filled) (clear.fresh _ le_rfl filled) arm).andThen
  exact fun lines t' draws => Meets.pure ⟨rfl, draws⟩

theorem Renders.ifElse (has : f.HasBlock start before ⟨none, .condbr cond (start + 1) middle⟩)
    (yes : Renders e allowed fuel (start + 1) middle (branch join) bodyTexts)
    (no : Renders e allowed fuel middle join (branch join) otherTexts)
    (rest : Renders e allowed fuel join stop exit restTexts) :
    Renders e allowed (fuel + 1) start stop exit
      (f.texts before ++ s!"if ({f.valueName cond})" :: (braces bodyTexts ++ "else" :: braces otherTexts) ++
        restTexts) := by
  have filled := yes.region.lt
  have filled' := no.region.lt
  apply Renders.fork jumpless has _ (fun _ => rfl) rfl (by simp [Instr.op])
    (fork_ifElse has yes.region no.region) (by simpa using ⟨yes.known, no.known⟩) rest
  intro t waits clear _ forward entering
  apply Meets.bind
  have first := yes.emits true (t.hint middle) [] (entering _ (.head _) _
    ((clear.mono le_rfl filled'.le).hint (.inr le_rfl)) waits)
  rw [List.append_nil] at first
  apply (Emitter.conditional_meets_else (clear.mono le_rfl (by omega)) (clear.mono filled.le (by omega))
    (forward _ (.tail _ (.head _))) filled.le filled'.le (.inr le_rfl) first ?_).mono
  · exact fun lines t' draws => Meets.pure ⟨rfl, draws⟩
  · intro t' covers
    have second := no.emits true t' [] (entering _ (.tail _ (.head _)) t'
      ((clear.mono filled.le le_rfl).covers covers (.inl le_rfl)) (covers.waits waits))
    rwa [List.append_nil] at second

theorem Renders.loop (enter : f.HasBlock start before (branch (start + 1)))
    (test : f.HasBlock (start + 1) header ⟨none, .loop cond (start + 2) after⟩)
    (body : Renders e allowed fuel (start + 2) after (branch (start + 1)) bodyTexts)
    (rest : Renders e allowed fuel after stop exit restTexts) (all : f.texts (kept before) = f.texts before) :
    Renders e allowed (fuel + 2) start stop exit (f.texts before ++ (f.texts header ++
        s!"while ({f.valueName cond})" :: braces (bodyTexts ++ f.texts header) ++ restTexts)) where
  region := (cycle_loop enter test body.region).region rest.region
  known := enter.mem_blockIds e
  emits braced t tail entering := by
    have cycle := cycle_loop enter test body.region
    have filled := body.region.lt
    have filled' := rest.region.lt
    have isTest : e.procedure.isTest (start + 1) = true := by
      rw [Procedure.isTest, test.ending_eq jumpless.toBare e.base _ (fun _ => rfl) rfl]
    apply Emitter.emitWithin_meets entering.known (entering.clear.fresh start le_rfl entering.lt)
    rw [List.append_assoc]
    rw [← all]
    apply jumpless.passing_meets enter (entering.placed.cycle_ipdom?_enter cycle rest.region) rfl (by omega)
      entering.clear entering.calm (by simp)
    intro t' covers
    have clear : t'.Clear (start + 1) stop :=
      (entering.clear.mono (Nat.le_succ start) le_rfl).covers covers (.inl le_rfl)
    have calm := entering.cycle_test_calm cycle rest.region (test.mem_blockIds e) covers
    apply Emitter.emitWithin_meets (test.mem_blockIds e) (clear.fresh _ le_rfl (by omega))
    rw [List.append_assoc]
    show Meets allowed _ t' (Draws e.verbose t' (start + 1) stop (wrap false _))
    apply jumpless.branching_meets test _ (fun _ => rfl) rfl (by simp [Instr.op])
      (entering.placed.cycle_ipdom?_test cycle rest.region) (by omega) filled' clear (isTest ▸ calm)
    · intro u waits clear' rendered free
      apply Meets.bind
      have inner := body.emits true (u.openLoop after) (f.texts header) (entering.cycle_body cycle rest.region
        body.known test (clear'.openLoop after) rendered free)
      apply (Emitter.loop_meets_body waits (clear'.free _ le_rfl filled) (clear'.fresh _ le_rfl filled) inner).mono
      exact fun lines t' draws => Meets.pure ⟨rfl, draws⟩
    · intro t'' covers'
      exact rest.emits false t'' tail (entering.cycle_rest cycle rest.region rest.known
        (covers.trans covers' (Nat.le_succ start) (by omega)))

theorem Renders.switch (several : 1 < (others.runs 0).length)
    (has : f.HasBlock start before ⟨none, .switch selector (others.targets (start + 1))⟩)
    (arms : ArmsRender e allowed fuel (start + 1) (start + 1 + others.size) others)
    (rest : Renders e allowed fuel (start + 1 + others.size) stop exit restTexts) :
    Renders e allowed (fuel + 1) start stop exit
      (f.texts before ++ s!"switch ({f.valueName selector})" :: ("\x7b" :: others.print f ++ ["\x7d"]) ++
        restTexts) := by
  apply Renders.fork jumpless has _ (fun _ => rfl) rfl (by simp [Instr.op]) (fork_switch has several arms.region)
    arms.known rest
  intro t waits clear ipdom _ entering
  unfold Emitter.continuation Emitter.switch
  apply Meets.bind
  rw [others.groupArms_targets]
  apply (arms.emits start t ipdom entering clear le_rfl waits).mono
  rintro ⟨lines, deferred⟩ t' ⟨rfl, covers, shows⟩
  exact Meets.pure ⟨rfl, covers, .cons rfl rfl rfl (shows.append (.single rfl rfl rfl))⟩

end

theorem ArmsRender.nil : ArmsRender e allowed fuel start join .nil where
  region := by simp [Arms.runs]
  known := by simp [Arms.runs]
  emits b t _ _ _ _ _ := Meets.pure ⟨rfl, Traversal.Covers.refl t start, .nil⟩

theorem ArmsRender.cons (first : Renders e allowed fuel start (start + body.size) (branch join) (body.print f))
    (rest : ArmsRender e allowed fuel (start + body.size) join others) :
    ArmsRender e allowed fuel start join (.cons label body others) where
  region arm mem := by
    rcases List.mem_cons.1 mem with rfl | later
    · exact first.region
    · exact rest.region arm later
  known arm mem := by
    rcases List.mem_cons.1 mem with rfl | later
    · exact first.known
    · exact rest.known arm later
  emits b t ipdom entering clear before waits := by
    have filled := first.region.lt
    simp only [Arms.size, ← add_assoc] at clear before ⊢
    have clear' : t.Clear start (start + body.size) := clear.mono le_rfl (by omega)
    have arm := first.emits true t [] (entering _ (.head _) t clear' waits)
    rw [List.append_nil] at arm
    have apart : e.emitter.facts.ipdom? b ≠ some start := by
      intro same
      have : some start = some join := same.symm.trans ipdom
      have := Option.some.inj this
      omega
    unfold Emitter.switchArms
    apply (Emitter.switchArm_meets apart (clear'.free _ le_rfl filled) (clear'.fresh _ le_rfl filled) arm).andThen
    rintro ⟨lines, deferred⟩ t' ⟨rfl, covers, shows⟩
    apply (rest.emits b t' ipdom (fun arm mem => entering arm (.tail _ mem))
      ((clear.mono filled.le le_rfl).covers covers (.inl le_rfl)) before (covers.waits waits)).andThen
    rintro ⟨more, deferred⟩ t'' ⟨rfl, covers', shows'⟩
    apply Meets.pure
    refine ⟨rfl, covers.trans covers' filled.le (Nat.le_add_right _ _), ?_⟩
    have whole : Line.Shows e.verbose (.caseLabel label :: (lines ++ more)) _ :=
      .cons rfl rfl rfl (shows.append shows')
    simpa [Arms.print, wrap] using whole

end Constructs

mutual

theorem renders (source : Source) (jumpless : Jumpless e) {fuel start : Nat} {before : List Step}
    {exit : Statement Nat Nat} (holds : Holds f start (source.blocks start before exit))
    (divided : source.isDivided) (anchored : source.isAnchored (isFinal exit))
    (all : source.PrintsAll f (isFinal exit) (before.map (·.1))) (enough : source.size ≤ fuel) :
    Renders e allowed fuel start (start + source.size) exit (f.texts (before.map (·.1)) ++ source.print f) := by
  obtain ⟨fuel, rfl⟩ : ∃ n, fuel = n + 1 := ⟨fuel - 1, by have := source.size_pos; omega⟩
  cases source with
  | done =>
    rw [print, List.append_nil]
    exact .done jumpless holds.head all
  | step stmt rest =>
    have onward := all.concat anchored
    simp only [isAnchored, Bool.and_eq_true] at anchored
    have rendered := rest.renders jumpless holds divided anchored.2 (by simpa using onward) enough
    simpa [print, size] using rendered
  | ifThen cond body rest =>
    simp only [isDivided, isAnchored, Bool.and_eq_true] at divided anchored
    simp only [size] at enough
    obtain ⟨has, inner, onward⟩ := holds.ofIfThen
    have rendered := Renders.ifThen jumpless has
      (body.renders jumpless inner divided.1 anchored.1 (.inr rfl) (by omega))
      (rest.renders jumpless onward divided.2 anchored.2 (.inr rfl) (show rest.size ≤ fuel by omega))
    simpa [print, size, add_assoc] using rendered
  | ifElse cond yes no rest =>
    simp only [isDivided, isAnchored, Bool.and_eq_true] at divided anchored
    simp only [size] at enough
    obtain ⟨has, first, second, onward⟩ := holds.ofIfElse
    have rendered := Renders.ifElse jumpless has
      (yes.renders jumpless first divided.1.1 anchored.1.1 (.inr rfl) (by omega))
      (no.renders jumpless second divided.1.2 anchored.1.2 (.inr rfl) (by omega))
      (rest.renders jumpless onward divided.2 anchored.2 (.inr rfl) (show rest.size ≤ fuel by omega))
    simpa [print, size, add_assoc] using rendered
  | loop _ _ body rest =>
    simp only [isDivided, isAnchored, Bool.and_eq_true] at divided anchored
    simp only [size] at enough
    obtain ⟨fuel, rfl⟩ : ∃ n, fuel = n + 1 := ⟨fuel - 1, by have := body.size_pos; omega⟩
    obtain ⟨enter, test, inner, onward⟩ := holds.ofLoop
    have rendered := Renders.loop jumpless enter test
      (body.renders jumpless inner divided.1 anchored.1 (.inr rfl) (by omega))
      (rest.renders jumpless onward divided.2 anchored.2 (.inr rfl) (show rest.size ≤ fuel by omega))
      (all.resolve_left (by simp [anchors]))
    simpa [print, size, add_assoc] using rendered
  | switch _ arms rest =>
    simp only [isDivided, isAnchored, Bool.and_eq_true, decide_eq_true_eq] at divided anchored
    simp only [size] at enough
    obtain ⟨has, inner, onward⟩ := holds.ofSwitch
    have rendered := Renders.switch jumpless divided.1.1 has
      (arms.renders jumpless inner divided.1.2 anchored.1 (by omega))
      (rest.renders jumpless onward divided.2 anchored.2 (.inr rfl) (show rest.size ≤ fuel by omega))
    simpa [print, size, add_assoc] using rendered

theorem Arms.renders (arms : Arms) (jumpless : Jumpless e) {fuel start join : Nat}
    (holds : Holds f start (arms.blocks start join)) (divided : arms.isDivided) (anchored : arms.isAnchored)
    (enough : arms.size ≤ fuel) : ArmsRender e allowed fuel start join arms := by
  cases arms with
  | nil => exact .nil
  | cons _ body rest =>
    simp only [Arms.isDivided, Arms.isAnchored, Bool.and_eq_true] at divided anchored
    simp only [Arms.size] at enough
    have onward := Holds.right holds
    rw [length_blocks] at onward
    have first := body.renders jumpless (Holds.left holds) divided.1 anchored.1 (.inr rfl)
      (show body.size ≤ fuel by omega)
    exact .cons first (rest.renders jumpless onward divided.2 anchored.2 (by omega))

end

end Source

end Reflow
