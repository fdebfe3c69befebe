import Reflow.Proofs.Structured.Blocks

namespace Reflow

open Program Emission

theorem groupArms_of_nodup {arms : List (CaseLabel × BlockId)} (nodup : (arms.map (·.2)).Nodup) :
    groupArms arms = arms.map fun arm => { labels := [arm.1], target := arm.2 } := by
  rw [groupArms_eq, eraseDups_of_nodup nodup, List.map_map]
  apply List.map_congr_left
  intro arm mem
  have same : arms.filter (fun other => other.2 = arm.2) = [arm] := by
    induction arms with
    | nil => simp at mem
    | cons first arms ih =>
      obtain ⟨absent, rest⟩ := List.nodup_cons.1 nodup
      rcases List.mem_cons.1 mem with rfl | later
      · have none : arms.filter (fun other => other.2 = arm.2) = [] := by
          rw [List.filter_eq_nil_iff]
          intro other listed
          simpa using fun same : other.2 = arm.2 => absent (List.mem_map.2 ⟨other, listed, same⟩)
        rw [List.filter_cons_of_pos (by simp), none]
      · have ne : first.2 ≠ arm.2 := fun same => absent (List.mem_map.2 ⟨arm, later, same.symm⟩)
        rw [List.filter_cons_of_neg (by simpa using ne), ih rest later]
  simp [armTo, same]

theorem Tiles.pairwise {start stop : Nat} {arms : List (Nat × Nat)} (tiles : Tiles start arms stop) :
    (arms.map (·.1)).Pairwise (· < ·) := by
  induction arms generalizing start with
  | nil => exact .nil
  | cons arm arms ih =>
    obtain ⟨same, filled, rest⟩ := tiles
    refine List.pairwise_cons.2 ⟨fun other mem => ?_, ih rest⟩
    obtain ⟨later, listed, rfl⟩ := List.mem_map.1 mem
    have := (rest.within listed).1
    show arm.1 < later.1
    omega

theorem Source.Arms.groupArms_targets (arms : Arms) (start : Nat) : groupArms (arms.targets start) =
    (arms.targets start).map fun arm => { labels := [arm.1], target := arm.2 } := by
  apply groupArms_of_nodup
  rw [arms.map_snd_targets]
  exact (arms.tiles start).pairwise.imp Nat.ne_of_lt

namespace Emitter

variable {e : Emitter} {recurse : Recurse} {t : Traversal} {verbose : Bool} {allowed : EmitError → Prop}
  {b x y join start middle stop : Nat} {texts others : List String}
  {post : List Line → Traversal → Prop}

theorem branch_meets (free : t.isDeferred x = false) (fresh : x ∉ t.rendered)
    (meets : Meets allowed (recurse x true) t post) : Meets allowed (e.branch recurse x) t post := by
  unfold branch
  apply Meets.traversal
  rw [if_neg (by simp [free]), if_neg (by simpa [Traversal.isRendered] using fresh)]
  exact meets

theorem conditional_meets_then (waits : t.Waits join) (free : t.isDeferred x = false) (fresh : x ∉ t.rendered)
    (body : Meets allowed (recurse x true) t (Draws verbose t start stop texts)) :
    Meets allowed (e.conditional recurse b x join) t (Draws verbose t start stop texts) := by
  obtain ⟨deferred, stays⟩ := waits.stays
  unfold conditional
  apply Meets.traversal
  simp only [deferred, Bool.not_true, Bool.false_and, Bool.false_eq_true, if_false]
  apply (branch_meets free fresh body).andThen
  rintro lines t' ⟨covers, shows⟩
  apply Meets.bind
  unfold elseLines
  apply Meets.traversal
  obtain ⟨later, stays⟩ := (covers.waits waits).stays
  rw [if_pos later, if_neg (by simp [stays])]
  apply Meets.pure
  apply Meets.pure
  rw [List.append_nil]
  exact ⟨covers, shows⟩

theorem conditional_meets_else (clear : t.Clear x (x + 1)) (clear' : t.Clear y (y + 1))
    (forward : e.facts.isFeedback b y = false) (inner : start ≤ middle) (filled : middle ≤ stop)
    (outside : y < start ∨ middle ≤ y)
    (yes : Meets allowed (recurse x true) (t.hint y) (Draws verbose (t.hint y) start middle texts))
    (no : ∀ t', t.Covers t' start middle → Meets allowed (recurse y true) t' (Draws verbose t' middle stop others)) :
    Meets allowed (e.conditional recurse b x y) t (Draws verbose t start stop (texts ++ "else" :: others)) := by
  have free := clear'.free y le_rfl (Nat.lt_succ_self y)
  have noJump : t.isJumpTarget y = false := by simp [Traversal.isJumpTarget, clear'.jumpless]
  unfold conditional
  apply Meets.traversal
  simp only [free, noJump, Bool.not_false, Bool.and_self, if_true]
  apply Meets.update
  apply Meets.bind
  have fresh := clear.fresh x le_rfl (Nat.lt_succ_self x)
  have unclaimed : (t.hint y).isDeferred x = false := clear.free x le_rfl (Nat.lt_succ_self x)
  apply (branch_meets unclaimed fresh yes).mono
  rintro lines t' ⟨covers, shows⟩
  apply Meets.update
  have unhinted := covers.unhint
  have clear'' : (t'.unhint y).Clear y (y + 1) := clear'.covers unhinted (by omega)
  have free' := clear''.free y le_rfl (Nat.lt_succ_self y)
  apply Meets.bind
  unfold elseLines
  apply Meets.traversal
  rw [if_neg (by simp [free']), if_neg (by simp [forward])]
  apply (branch_meets free' (clear''.fresh y le_rfl (Nat.lt_succ_self y)) (no _ unhinted)).andThen
  rintro more t'' ⟨covers', shows'⟩
  apply Meets.pure
  apply Meets.pure
  exact ⟨unhinted.trans covers' inner filled, shows.append (.cons rfl rfl rfl shows')⟩

theorem loop_meets_body (waits : t.Waits join) (free : t.isDeferred x = false) (fresh : x ∉ t.rendered)
    (body : Meets allowed (recurse x true) (t.openLoop join) (Draws verbose (t.openLoop join) start stop texts)) :
    Meets allowed (e.loop recurse b x join) t (Draws verbose t start stop texts) := by
  obtain ⟨deferred, stays⟩ := waits.stays
  unfold loop loopBody
  apply Meets.bind
  apply Meets.traversal
  rw [if_neg (by simp [free]), if_neg (by simpa [Traversal.isRendered] using fresh)]
  apply Meets.update
  apply body.andThen
  rintro lines t' ⟨covers, shows⟩
  have closed := covers.closeLoop
  apply Meets.update
  apply Meets.pure
  apply Meets.bind
  unfold loopExit
  apply Meets.traversal
  obtain ⟨later, stays⟩ := (closed.waits waits).stays
  rw [if_pos later, if_neg (by simp [stays])]
  apply Meets.pure
  apply Meets.pure
  rw [List.append_nil]
  exact ⟨closed, shows⟩

theorem switchArm_meets {deferred : Option BlockId} {label : CaseLabel} (apart : e.facts.ipdom? b ≠ some x)
    (free : t.isDeferred x = false) (fresh : x ∉ t.rendered)
    (body : Meets allowed (recurse x true) t (Draws verbose t start stop texts)) :
    Meets allowed (e.switchArm recurse b deferred { labels := [label], target := x }) t fun out t' =>
      out.2 = deferred ∧ Draws verbose t start stop (texts ++ ["break;"]) out.1 t' := by
  unfold switchArm
  apply Meets.traversal
  have other : (e.facts.ipdom? b == some x) = false := by simpa using apart
  simp only [Traversal.leavesOpenLoop_of_free free, other, free, Bool.false_eq_true, if_false]
  rw [if_neg (by simpa [Traversal.isRendered] using fresh)]
  apply body.andThen
  rintro lines t' ⟨covers, shows⟩
  exact Meets.pure ⟨rfl, covers, shows.append (.single rfl rfl rfl)⟩

theorem emitWithin_meets {fuel : Nat} {braced : Bool}
    (known : b ∈ e.procedure.blockIds) (fresh : b ∉ t.rendered)
    (meets : Meets allowed (e.freshBlock (e.emitWithin fuel) b braced) t post) :
    Meets allowed (e.emitWithin (fuel + 1) b braced) t post := by
  unfold emitWithin
  rw [if_neg (not_not.2 known)]
  apply Meets.traversal
  rw [if_neg (by simpa [Traversal.isRendered] using fresh)]
  exact meets

end Emitter

theorem Procedure.Calm.mono {p : Procedure} {t t' : Traversal} {b : BlockId} {loopTest : Bool}
    (calm : p.Calm t b loopTest) (rendered : t.rendered ⊆ t'.rendered) : p.Calm t' b loopTest := by
  apply calm.imp id
  intro all c mem
  obtain ⟨ipdom, known⟩ := all c mem
  exact ⟨ipdom, known.imp (fun old => ⟨rendered old.1, old.2⟩) id⟩

theorem Procedure.Calm.of_false {p : Procedure} {t : Traversal} {b : BlockId} (calm : p.Calm t b false)
    (loopTest : Bool) : p.Calm t b loopTest := by
  apply calm.imp id
  intro all c mem
  obtain ⟨ipdom, known⟩ := all c mem
  exact ⟨ipdom, known.imp id fun back => absurd back.2 (by simp)⟩

namespace Program.FunctionOf

structure Jumpless {f : Function} (e : f.Pass) : Prop extends f.Bare where
  explicit : e.labels.jumpTargets = []

variable {f : Function} {e : f.Pass} {braced : Bool} {recurse : Recurse} {t t' : Traversal}
  {b x join stop low high : Nat} {body : List (Statement Nat Nat)} {last : Statement Nat Nat}
  {inner after tail : List String} {allowed : EmitError → Prop}

theorem HasBlock.mem_blockIds (has : f.HasBlock b body last) (e : f.Pass) : b ∈ e.procedure.blockIds := by
  obtain ⟨block, found, -⟩ := has.exists_block
  exact mem_blockIds_iff.2 ⟨block, found⟩

theorem HasBlock.ending_eq_none_iff (has : f.HasBlock b body (Source.branch x)) (bare : f.Bare) :
    e.procedure.ending b = none ↔ f.texts (kept body) = [] := by
  rw [f.texts_kept_eq_nil_iff]
  rcases has.ending_br bare e.base rfl with ⟨none, empty⟩ | ⟨plain, some⟩
  · simp [none, empty]
  · simp [plain, some]

theorem HasBlock.continuation_eq (has : f.HasBlock b body (Source.branch x)) (bare : f.Bare) (slot : Bool)
    (deferred : Option BlockId) : e.emitter.continuation recurse b slot deferred (e.procedure.ending b) = do
      return (← e.emitter.fallthroughTo recurse b x slot, deferred) := by
  have succs : e.emitter.procedure.succs b = [x] := has.succs_eq
  have falls : e.emitter.fallthrough recurse b slot = e.emitter.fallthroughTo recurse b x slot := by
    rw [Emitter.fallthrough, succs]
  rcases has.ending_br bare e.base rfl with ⟨none, -⟩ | ⟨plain, -⟩
  · rw [none, Emitter.continuation, falls]
  · rw [plain, Emitter.continuation, falls]

theorem calm_of_single (known : b ∈ e.procedure.blockIds) (t : Traversal) {a : Nat}
    (single : ∀ c : Nat, b ∈ e.procedure.succs c → c = a) (inner : 0 < b) : e.procedure.Calm t b false := by
  obtain ⟨block, found⟩ := mem_blockIds_iff.1 known
  have same : e.procedure.preds b = f.preds b := by
    rw [Procedure.preds, block?_of_get found]
    rfl
  have few : (f.preds b).length ≤ 1 := by
    have subset : f.preds b ⊆ [a] := fun c mem => List.mem_singleton.2 (single c (mem_preds_iff.1 mem))
    exact ((preds_nodup b).subperm subset).length_le
  left
  rw [Procedure.inDegree, same, if_neg (show b ≠ e.procedure.entry from inner.ne')]
  exact few

theorem Jumpless.isNeeded_eq (jumpless : Jumpless e) (has : f.HasBlock b body last) (noLabel : last.instr.op ≠ .label)
    (clear : t.Clear b (b + 1)) (calm : e.procedure.Calm t b (e.procedure.isTest b)) :
    e.labels.isNeeded e.procedure e.procedure.analysis.toFacts (t.begun e.procedure b) b (e.procedure.isTest b) =
      .ok false := by
  apply Labels.isNeeded_eq (classified_kinds jumpless.plain) (has.label?_eq_none e.base noLabel) jumpless.explicit
  · rw [Traversal.begun_jumpTargets, clear.jumpless]
  · rw [Traversal.begun_hints]
    exact clear.unhinted b le_rfl (Nat.lt_succ_self b)
  · apply calm.mono
    rw [Traversal.begun_rendered]
    exact fun _ old => mem_addNew.2 (.inr old)

theorem Jumpless.branching_meets (jumpless : Jumpless e) (has : f.HasBlock b body last) (kind : Kind)
    (ok : ∀ n, last.instr.kind n = .ok kind) (branching : kind.isBranching)
    (printed : last.instr.op ∉ [.vuse, .asm, .br, .goto])
    (ipdom : e.procedure.analysis.ipdom? b = some join) (before : b < join) (filled : join < stop)
    (clear : t.Clear b stop) (calm : e.procedure.Calm t b (e.procedure.isTest b))
    (branches : ∀ u : Traversal, u.Waits join → u.Clear (b + 1) join → b ∈ u.rendered → u.isDeferred b = false →
      Meets allowed (e.emitter.continuation recurse b false (some join) (some kind)) u fun out t' =>
        out.2 = some join ∧ Draws e.verbose u (b + 1) join inner out.1 t')
    (onward : ∀ t', t.Covers t' b join → Meets allowed (recurse join false) t' (Draws e.verbose t' join stop after)) :
    Meets allowed (e.emitter.freshBlock recurse b braced) t
      (Draws e.verbose t b stop (Source.wrap braced (f.texts body ++ f.statementText last :: inner ++ after))) := by
  have real : kind.isReal ∧ kind ≠ .label := by cases kind <;> simp_all [Kind.isBranching, Kind.isReal]
  have noLabel : last.instr.op ≠ .label := by
    intro label
    cases instr : last.instr <;> simp_all [Instr.op, Instr.kind]
  have ending := has.ending_eq jumpless.toBare e.base kind ok real.1
  have shaped : f.texts body ++ f.statementText last :: inner ++ after =
      f.texts body ++ [f.statementText last] ++ inner ++ after := by simp
  rw [shaped]
  apply jumpless.freshBlock_defers (jumpless.shows_bodyLines has kind ok real.1 real.2 printed)
    (jumpless.isNeeded_eq has noLabel (clear.mono le_rfl (by omega)) calm) ipdom before filled.le
    (clear.fresh join before.le filled) (clear.free join before.le filled) _ onward (by simp)
  rw [ending]
  apply branches _ Traversal.waits_defer (clear.begun filled.le)
  · exact mem_addNew.2 (.inl rfl)
  · rw [Bool.eq_false_iff, ne_eq, Traversal.isDeferred_defer]
    rintro (same | deferred)
    · omega
    · have free : (t.render b).isDeferred b = false := clear.free b le_rfl (by omega)
      simp [free] at deferred

theorem Jumpless.passing_meets (jumpless : Jumpless e) (has : f.HasBlock b body (Source.branch join))
    (ipdom : e.procedure.analysis.ipdom? b = some join) (next : join = b + 1) (filled : join < stop)
    (clear : t.Clear b stop) (calm : e.procedure.Calm t b false) (shown : after ≠ [])
    (onward : ∀ t', t.Covers t' b join → Meets allowed (recurse join false) t' (Draws e.verbose t' join stop after)) :
    Meets allowed (e.emitter.freshBlock recurse b braced) t
      (Draws e.verbose t b stop (Source.wrap braced (f.texts (kept body) ++ after))) := by
  have before : b < join := by omega
  have waits : ((t.render b).defer join).Waits join := Traversal.waits_defer
  obtain ⟨deferred, stays⟩ := waits.stays
  rw [← List.append_nil (f.texts (kept body))]
  apply jumpless.freshBlock_defers (jumpless.shows_bodyLines_br has rfl)
    (jumpless.isNeeded_eq has (by simp [Source.branch, Instr.op]) (clear.mono le_rfl (by omega)) (calm.of_false _))
    ipdom before filled.le (clear.fresh join before.le filled) (clear.free join before.le filled) _ onward
    (by simp [shown])
  rw [has.continuation_eq jumpless.toBare]
  apply Meets.bind
  unfold Emitter.fallthroughTo
  apply Meets.traversal
  rw [if_pos deferred, if_neg (by simp [stays])]
  apply Meets.pure
  exact Meets.pure ⟨rfl, next ▸ Traversal.Covers.refl _ _, .nil⟩

/-- How control leaves a run of blocks from its last block `b`, and the lines that this takes: it returns, it goes on
with a join that is set aside, or it goes back to a test, whose header is repeated. -/
inductive Departs {f : Function} (e : f.Pass) (t : Traversal) (b : Nat) : Statement Nat Nat → List String → Prop
  | returns (result : Option Nat) : Departs e t b ⟨none, .ret result⟩ [f.statementText ⟨none, .ret result⟩]
  | joins {x : Nat} (waits : t.Waits x) : Departs e t b (Source.branch x) []
  | repeats {x cond body exit : Nat} {header : List (Statement Nat Nat)}
      (test : f.HasBlock x header ⟨none, .loop cond body exit⟩) (rendered : x ∈ t.rendered)
      (free : t.isDeferred x = false) (feedback : e.procedure.analysis.isFeedback b x) :
      Departs e t b (Source.branch x) (f.texts header)

theorem Departs.covers (departs : Departs e t b last tail) (covers : t.Covers t' low high) :
    Departs e t' b last tail := by
  cases departs with
  | returns result => exact .returns result
  | joins waits => exact .joins (covers.waits waits)
  | repeats test rendered free feedback =>
    exact .repeats test ((covers.rendered _).2 (.inl rendered)) ((covers.isDeferred _).trans free) feedback

theorem Jumpless.leaving_meets (jumpless : Jumpless e) (has : f.HasBlock b body last)
    (placed : e.procedure.Placed b (b + 1) last.instr.targets) (clear : t.Clear b (b + 1))
    (calm : e.procedure.Calm t b false) (departs : Departs e t b last tail)
    (all : Source.done.PrintsAll f (Source.isFinal last) body) :
    Meets allowed (e.emitter.freshBlock recurse b braced) t (Draws e.verbose t b (b + 1)
      (Source.wrap braced (f.texts body ++ tail))) := by
  have calm := calm.of_false (e.procedure.isTest b)
  have bare := jumpless.toBare
  cases departs with
  | returns =>
    have ending := has.ending_eq bare e.base .plain (fun _ => rfl) rfl
    have last : e.emitter.procedure.succs b = [] := has.succs_eq
    have taken : (t.render b).joinOf e.procedure b = none := by
      rw [Traversal.joinOf, Procedure.ipdom?_of_succs_eq_nil (p := f.procedure e.base) last]
      rfl
    rw [← List.append_nil (f.texts body ++ _)]
    apply jumpless.freshBlock_leaves (bare.shows_bodyLines has .plain (fun _ => rfl) rfl (by simp) (by simp [Instr.op]))
      (jumpless.isNeeded_eq has (by simp [Instr.op]) clear calm) taken (by simp [ending])
    intro slot
    rw [ending, Emitter.continuation, Emitter.fallthrough, last]
    apply Meets.bind
    apply Meets.pure
    exact Meets.pure ⟨rfl, rfl, .inl ⟨rfl, rfl⟩⟩
  | @joins x waits =>
    rw [← all.resolve_left (by simp [Source.anchors])]
    obtain ⟨deferred, stays⟩ := waits.stays
    have ipdom : e.procedure.analysis.ipdom? b = some x := placed.ipdom?_last
    have later : (t.render b).isDeferred x = true := deferred
    have stays' : (t.render b).leavesOpenLoop x = false := stays
    have taken : (t.render b).joinOf e.procedure b = none := by
      simp [Traversal.joinOf, ipdom, Option.filter, later]
    apply jumpless.freshBlock_leaves (bare.shows_bodyLines_br has rfl)
      (jumpless.isNeeded_eq has (by simp [Source.branch, Instr.op]) clear calm) taken (has.ending_eq_none_iff bare)
    intro slot
    rw [has.continuation_eq bare]
    apply Meets.bind
    unfold Emitter.fallthroughTo
    apply Meets.traversal
    rw [if_pos later, if_neg (by simp [stays'])]
    apply Meets.pure
    exact Meets.pure ⟨rfl, rfl, .inl ⟨rfl, rfl⟩⟩
  | @repeats x cond inner outer header test rendered free feedback =>
    rw [← all.resolve_left (by simp [Source.anchors])]
    have ipdom : e.procedure.analysis.ipdom? b = some x := placed.ipdom?_last
    have old : (t.render b).isRendered x = true := by
      simp [Traversal.isRendered, Traversal.render, mem_addNew, rendered]
    have taken : (t.render b).joinOf e.procedure b = none := by
      simp [Traversal.joinOf, ipdom, Option.filter, old]
    apply jumpless.freshBlock_leaves (bare.shows_bodyLines_br has rfl)
      (jumpless.isNeeded_eq has (by simp [Source.branch, Instr.op]) clear calm) taken (has.ending_eq_none_iff bare)
    intro slot
    rw [has.continuation_eq bare]
    apply Meets.bind
    have isTest : e.procedure.isLoopTest x = .ok true := by
      rw [Procedure.isLoopTest, Procedure.lastRealKind_eq (classified_kinds bare.plain x),
        test.ending_eq bare e.base (.loop cond inner outer) (fun _ => rfl) rfl]
      rfl
    have back : e.emitter.facts.isFeedback b x = true := feedback
    have free' : (t.render b).isDeferred x = false := free
    unfold Emitter.fallthroughTo
    apply Meets.traversal
    rw [if_neg (by simp [free']), if_pos back]
    apply Meets.of_ok isTest
    rw [if_pos rfl]
    apply (bare.shows_headerLines test rfl).andThen
    rintro lines t' ⟨rfl, shows, empty⟩
    cases lines with
    | nil =>
      apply Meets.pure
      exact Meets.pure ⟨rfl, rfl, .inl ⟨empty.1 rfl, rfl⟩⟩
    | cons =>
      have some : f.texts header ≠ [] := fun none => absurd (empty.2 none) (by simp)
      rw [if_neg (by simp)]
      cases slot with
      | true =>
        rw [if_pos rfl]
        apply Meets.pure
        exact Meets.pure ⟨rfl, rfl, .inr ⟨some, shows.braces some, fun _ => rfl⟩⟩
      | false =>
        rw [if_neg (by simp)]
        apply Meets.pure
        exact Meets.pure ⟨rfl, rfl, .inr ⟨some, shows, by simp⟩⟩

end Program.FunctionOf

end Reflow
