import Reflow.Proofs.Emit.Arms

namespace Reflow.Setting

open Program Emission Reading

variable {s : Setting} {recurse : Recurse} {bound : Nat} {t t' t'' : Traversal} {b x y : BlockId}
  {goal : Nat → Resume → Prop} {code code' : Code}
  {body : List (Statement Nat Nat)} {last : Statement Nat Nat} {cond : Var}
  {lines : List Line}

def Fills (slot : Bool) (lines : List Line) (code : Code) : Prop :=
  lines = [] ∧ code = .skip ∨ Reads slot (Line.tokens lines) code

theorem Fills.gives (fills : Fills false lines code) :
    ∃ codes, code = Code.sequence codes ∧ Gives (Line.tokens lines) codes := by
  rcases fills with ⟨rfl, rfl⟩ | reads
  · exact ⟨[], rfl, Gives.nil⟩
  · exact reads

theorem fills_meets_of_one {step : Emission (List Line)} (slot : Bool) (meets : Yields step t fun lines t' => ∃ code,
      GivesOne (Line.tokens lines) code ∧ s.Reached b t t' goal code) :
    Yields step t fun lines t' => ∃ code, Fills slot lines code ∧ s.Reached b t t' goal code := by
  apply meets.mono
  rintro lines t' ⟨code, gives, reached⟩
  cases slot with
  | true => exact ⟨code, .inr gives, reached⟩
  | false =>
    exact ⟨Code.sequence [code], .inr ⟨[code], rfl, gives.gives⟩, { reached with means := reached.means.single }⟩

structure Continues (s : Setting) (slot : Bool) (b : BlockId) (last : Statement Nat Nat) (t : Traversal)
    (lines : List Line) (t' : Traversal) (code : Code) : Prop where
  reached : s.Reached b t t' (Leaves s.function last) code
  gives : slot = false → ∃ codes, code = Code.sequence codes ∧
    Gives (s.function.exitTokens s.name last ++ Line.tokens lines) codes
  fills : slot = true → Fills true lines code

theorem Reached.continues {codes : List Code}
    (reached : s.Reached b t t' (Leaves s.function last) (Code.sequence codes))
    (gives : Gives (s.function.exitTokens s.name last ++ Line.tokens lines) codes) :
    s.Continues false b last t lines t' (Code.sequence codes) where
  reached := reached
  gives _ := ⟨codes, rfl, gives⟩
  fills impossible := by simp at impossible

theorem Inside.fits_body (inside : s.Inside t b) (valid : s.Valid) (has : s.function.HasBlock b body last)
    (instr : last.instr = .loop cond x y) (fresh : x ∉ t.rendered) (free : t.isDeferred x = false) :
    s.Fits (t.openLoop y) x := by
  have edge : x ∈ s.procedure.succs b := has.mem_succs_iff.2 (by simp [instr, Instr.targets])
  have home : s.home x = some b := (valid.homes.inner b body last cond x y inside.reachable has instr).1
  have sound := inside.within.sound
  have shallow (entry : BlockId × Nat) (mem : entry ∈ t.frontier) : entry.2 < (t.openLoop y).openExits.length :=
    Nat.lt_succ_of_le (sound.depth entry mem)
  refine ⟨(inside.within.ready edge fresh free).openLoop y, ?_, ?_, ?_⟩
  · intro test mem
    obtain rfl : b = test := by simpa [home] using mem
    exact .of_edge edge
  · intro test mem
    obtain rfl : b = test := by simpa [home] using mem
    refine ⟨inside.within.rendered, ?_, ?_⟩
    · intro join dominates new exits
      obtain ⟨entry, listed, beyond⟩ := sound.exists_between inside.within.rendered exits dominates new
      exact ⟨entry, listed, shallow entry listed, beyond⟩
    · intro entry listed deep
      have := shallow entry listed
      omega
  · intro target mem
    rcases inside.pending target mem with rendered | deferred | outside
    · exact .inl rendered
    · exact .inr (.inl deferred)
    · exact .inr (.inr (.inl outside))

theorem Rendered.closeLoop (rendered : s.Rendered (t.openLoop y) t' x) (inside : s.Inside t b) :
    s.Inside t'.closeLoop b ∧ t.Keeps t'.closeLoop := by
  have keeps : t.Keeps t'.closeLoop := rendered.keeps.closeLoop
  have sound := rendered.sound.closeLoop keeps inside.within.sound
  refine ⟨⟨inside.within.keeps keeps sound, inside.reaches, ?_, rendered.pending⟩, keeps⟩
  exact fun test mem => (inside.anchored test mem).keeps keeps

section Continuations

variable (valid : s.Valid) (renders : s.Renders recurse bound) (has : s.function.HasBlock b body last)
  (inside : s.Inside t b) (enough : t.unrendered s.procedure ≤ bound)
include valid renders has inside enough

section

variable (instr : last.instr = .loop cond x y)
include instr

theorem Valid.loopBody_meets : Yields (Emitter.loopBody recurse b x y) t fun lines t' => ∃ code,
      GivesOne (Line.tokens lines) code ∧ s.Inside t' b ∧ t.Keeps t' ∧ x ∈ t'.rendered ∧
      Means s.function s.name t.printed t'.printed t'.jumpTargets (Arrives s.function y)
        (Leaves s.function last) (.loop (s.function.valueName cond) code) := by
  have edge : x ∈ s.procedure.succs b := has.mem_succs_iff.2 (by simp [instr, Instr.targets])
  obtain ⟨home, noJoin⟩ := valid.homes.inner b body last cond x y inside.reachable has instr
  have free : t.isDeferred x = false := by
    rw [Bool.eq_false_iff]
    exact fun deferred => noJoin (inside.within.ipdom?_of_deferred edge deferred)
  unfold Emitter.loopBody
  apply Meets.traversal
  simp only [free, Bool.false_eq_true, if_false]
  by_cases rendered : x ∈ t.rendered
  · rw [if_pos (by simpa [Traversal.isRendered] using rendered)]
    exact Meets.throw trivial
  · rw [if_neg (by simpa [Traversal.isRendered] using rendered)]
    apply Meets.update
    apply (renders (t.openLoop y) x true (inside.fits_body valid has instr rendered free) enough).andThen
    rintro lines t' ⟨done, code, reads, means⟩
    apply Meets.update
    apply Meets.pure
    obtain ⟨after, keeps⟩ := done.closeLoop inside
    refine ⟨code, reads, after, keeps, done.rendered, ?_⟩
    apply Means.loop instr
    apply means.mono (.refl _) _ fun _ _ follows => follows
    -- No join was set aside in the loop yet, so its test comes after its body.
    intro least resume leaves
    have outermost : ((t.openLoop y).frontier.head?.filter fun entry =>
        entry.2 = (t.openLoop y).openExits.length) = none := by
      rw [Option.filter_eq_none_iff]
      intro entry mem
      have shallow : entry.2 ≤ t.openExits.length :=
        inside.within.sound.depth entry (List.mem_of_mem_head? mem)
      have longer : (t.openLoop y).openExits.length = t.openExits.length + 1 := rfl
      simp only [longer, decide_eq_true_eq]
      omega
    rw [Next, outermost, home]
    intro test mem body' last' has'
    obtain rfl : b = test := by simpa using mem
    obtain ⟨-, rfl⟩ := has.unique has'
    exact leaves

theorem Valid.loopExit_meets (bodyDone : x ∈ t.rendered) :
    Yields (s.emitter.loopExit recurse y) t fun lines t' => ∃ codes, Gives (Line.tokens lines) codes ∧
      s.Reached b t t' (Arrives s.function y) (Code.sequence codes) := by
  have edge : y ∈ s.procedure.succs b := has.mem_succs_iff.2 (by simp [instr, Instr.targets])
  suffices meets : Yields (s.emitter.loopExit recurse y) t fun lines t' => ∃ code,
      Fills false lines code ∧ s.Reached b t t' (Arrives s.function y) code by
    apply meets.mono
    rintro lines t' ⟨code, fills, reached⟩
    obtain ⟨codes, rfl, gives⟩ := fills.gives
    exact ⟨codes, gives, reached⟩
  unfold Emitter.loopExit
  apply Meets.traversal
  refine Meets.ite (fun deferred => ?_) fun deferred => ?_
  · refine Meets.ite (fun leaves => ?_) fun leaves => ?_
    · exact fills_meets_of_one false (valid.jump_meets false inside edge (.inr (.inl deferred)))
    · exact Meets.pure ⟨.skip, .inl ⟨rfl, rfl⟩, inside.reached_join edge deferred leaves⟩
  · by_cases rendered : y ∈ t.rendered
    · rw [if_pos (by simpa [Traversal.isRendered] using rendered)]
      apply fills_meets_of_one false
      exact valid.jump_meets false inside edge (.inl rendered)
    · rw [if_neg (by simpa [Traversal.isRendered] using rendered)]
      have other : x ≠ y := by
        rintro rfl
        exact rendered bodyDone
      have place := valid.homes.edge b body last y inside.reachable has (by simp [instr, Instr.targets])
        (by simp [instr, other])
      obtain ⟨same, fits⟩ := inside.fits edge place rendered deferred
      apply (renders t y false fits enough).mono
      rintro lines t' ⟨done, code, reads, means⟩
      exact ⟨code, .inr reads, done.reached inside same means⟩

theorem Valid.loop_meets : Yields (s.emitter.loop recurse b x y) t fun lines t' => ∃ codes,
      Gives (.whileTest (s.function.valueName cond) :: Line.tokens lines) codes ∧
      s.Reached b t t' (Leaves s.function last) (Code.sequence codes) := by
  unfold Emitter.loop
  apply (valid.loopBody_meets renders has inside enough instr).andThen
  rintro lines t' ⟨code, gives, inside', keeps, bodyDone, means⟩
  apply (valid.loopExit_meets renders has inside' (keeps.unrendered_le.trans enough) instr bodyDone).andThen
  rintro more t'' ⟨codes, gives', reached⟩
  apply Meets.pure
  refine ⟨[.loop (s.function.valueName cond) code] ++ codes, ?_, reached.inside, keeps.trans reached.keeps, ?_⟩
  · rw [Line.tokens_append, ← List.cons_append]
    exact (Gives.loop gives).append gives'
  · have later := reached.means
    rw [next_keeps keeps] at later
    apply Means.append valid.branches.labelText_injective keeps.printed reached.keeps.printed _ later
    exact (means.mono reached.keeps.jumpTargets (fun _ _ next => next) fun _ _ leaves => leaves).single

end

theorem Valid.fallthroughTo_meets (slot : Bool) (instr : last.instr = .br x) :
    Yields (s.emitter.fallthroughTo recurse b x slot) t fun lines t' => ∃ code,
      Fills slot lines code ∧ s.Reached b t t' (Arrives s.function x) code := by
  have edge : x ∈ s.procedure.succs b := has.mem_succs_iff.2 (by simp [instr, Instr.targets])
  have onward (noBack : ¬ s.LeadsBack b x last) (free : t.isDeferred x = false) :
      Yields (if s.procedure.inDegree x == 1 && !t.isRendered x then recurse x slot
        else s.emitter.jump x slot) t fun lines t' => ∃ code,
          Fills slot lines code ∧ s.Reached b t t' (Arrives s.function x) code := by
    by_cases rendered : x ∈ t.rendered
    · rw [if_neg (by simp [Traversal.isRendered, rendered])]
      apply fills_meets_of_one slot
      exact valid.jump_meets slot inside edge (.inl rendered)
    · by_cases single : s.procedure.inDegree x = 1
      · rw [if_pos (by simp [Traversal.isRendered, rendered, single])]
        have place := valid.homes.edge b body last x inside.reachable has (by simp [instr, Instr.targets])
          (by simp [instr])
        obtain ⟨same, fits⟩ := inside.fits edge place rendered free
        apply (renders t x slot fits enough).mono
        rintro lines t' ⟨done, code, reads, means⟩
        exact ⟨code, .inr reads, done.reached inside same means⟩
      · rw [if_neg (by simp [single])]
        have pends := valid.homes.pend b body last x inside.reachable has (.inr (.inl ⟨instr, single⟩)) noBack
        exact fills_meets_of_one slot (valid.jump_meets slot inside edge (inside.place pends))
  unfold Emitter.fallthroughTo
  apply Meets.traversal
  refine Meets.ite (fun deferred => ?_) fun deferred => ?_
  · refine Meets.ite (fun leaves => ?_) fun leaves => ?_
    · exact fills_meets_of_one slot (valid.jump_meets slot inside edge (.inr (.inl deferred)))
    · exact Meets.pure ⟨.skip, .inl ⟨rfl, rfl⟩, inside.reached_join edge deferred leaves⟩
  · cases feedback : s.procedure.analysis.isFeedback b x with
    | false =>
      rw [if_neg (show ¬ s.emitter.facts.isFeedback b x = true by simp [feedback, FunctionOf.emitter])]
      exact onward (fun back => by simp [back.1] at feedback) deferred
    | true =>
      rw [if_pos (show s.emitter.facts.isFeedback b x = true from feedback)]
      rcases valid.back_cases inside.reachable has edge feedback (.inl instr) with
        ⟨isTest, header, test, cond', inner, outer, hasHeader, loop, home⟩ | ⟨noTest, noBack⟩
      · have reached := inside.reached_back edge home hasHeader
        apply Meets.of_ok isTest
        simp only [if_true]
        apply (valid.branches.headerLines_meets hasHeader loop).andThen
        rintro lines t' ⟨rfl, gives, empty⟩
        cases lines with
        | nil =>
          rw [empty rfl] at reached
          exact Meets.pure ⟨.skip, .inl ⟨rfl, rfl⟩, reached⟩
        | cons =>
          cases slot with
          | true =>
            apply Meets.pure
            refine ⟨_, .inr ?_, reached⟩
            simpa [Line.text, Token.ofText_openBrace, Token.ofText_closeBrace] using gives.braces.reads
          | false => exact Meets.pure ⟨_, .inr ⟨_, rfl, gives⟩, reached⟩
      · apply Meets.of_ok noTest
        exact onward noBack deferred

theorem Valid.fallthrough_meets (slot : Bool) (instr : last.instr = .br x) :
    Yields (s.emitter.fallthrough recurse b slot) t fun lines t' => ∃ code,
      s.Continues slot b last t lines t' code := by
  have single : s.procedure.succs b = [x] := by
    rw [has.succs_eq, instr]
    rfl
  have unfolded : s.emitter.fallthrough recurse b slot = s.emitter.fallthroughTo recurse b x slot := by
    rw [Emitter.fallthrough, show s.emitter.procedure.succs b = [x] from single]
  rw [unfolded]
  apply (valid.fallthroughTo_meets renders has inside enough slot instr).mono
  rintro lines t' ⟨code, fills, reached⟩
  refine ⟨code, ⟨reached.inside, reached.keeps, ?_⟩, ?_, ?_⟩
  · exact reached.means.mono (.refl _) (fun _ _ next => next) fun _ _ arrives => arrives.leaves (.inl instr)
  · rintro rfl
    rw [FunctionOf.exitTokens, instr]
    exact fills.gives
  · rintro rfl
    exact fills

theorem Valid.continuation_meets (slot : Bool) (deferred : Option BlockId) (exit : last.instr.isExit)
    (free : slot = true → s.procedure.ending b = none) :
    Yields (s.emitter.continuation recurse b slot deferred (s.procedure.ending b)) t
      fun result t' => result.2 = deferred ∧ ∃ code, s.Continues slot b last t result.1 t' code := by
  -- A block with a last statement that is printed has no slot to fill.
  have printed (kind : Kind) (ok : ∀ n, last.instr.kind n = .ok kind) (real : kind.isReal) :
      s.procedure.ending b = some kind ∧ slot = false := by
    have found := has.ending_eq valid.branches.bare s.base kind ok real
    refine ⟨found, ?_⟩
    cases slot with
    | false => rfl
    | true =>
      rw [free rfl] at found
      simp at found
  cases instr : last.instr with
  | br x =>
    have falls : s.emitter.continuation recurse b slot deferred (s.procedure.ending b) = do
          return (← s.emitter.fallthrough recurse b slot, deferred) := by
      rcases has.ending_br valid.branches.bare s.base instr with ⟨none, -⟩ | ⟨plain, -⟩
      · rw [none]
        rfl
      · rw [plain]
        rfl
    rw [falls]
    apply (valid.fallthrough_meets renders has inside enough slot instr).andThen
    rintro lines t' continues
    exact Meets.pure ⟨rfl, continues⟩
  | ret =>
    obtain ⟨found, rfl⟩ := printed .plain (by simp [instr, Instr.kind]) rfl
    have none : s.procedure.succs b = [] := by
      rw [has.succs_eq, instr]
      rfl
    have ends : s.emitter.fallthrough recurse b false = pure [] := by
      rw [Emitter.fallthrough, show s.emitter.procedure.succs b = [] from none]
    rw [found, Emitter.continuation, ends]
    apply Meets.bind
    apply Meets.pure
    apply Meets.pure
    have reached : s.Reached b t t (Leaves s.function last) (Code.sequence [.ret (s.function.statementText last)]) :=
      ⟨inside, .refl t, (Means.ret instr).single⟩
    refine ⟨rfl, _, reached.continues ?_⟩
    rw [FunctionOf.exitTokens, instr]
    exact (GivesOne.of_add fun r => rfl).gives
  | condbr cond y x =>
    obtain ⟨found, rfl⟩ := printed (.conditional cond y x) (by simp [instr, Instr.kind]) rfl
    rw [found]
    apply (valid.conditional_meets has instr inside renders enough).andThen
    rintro lines t' ⟨code, gives, reached⟩
    apply Meets.pure
    refine ⟨rfl, _, Reached.continues { reached with means := reached.means.single } ?_⟩
    simpa [FunctionOf.exitTokens, instr] using gives
  | multiif cond x arms otherwise =>
    cases otherwise with
    | none => simp [instr, Instr.isExit] at exit
    | some otherwise =>
      obtain ⟨found, rfl⟩ := printed (.multiway ((some cond, x) ::
        (arms.map fun arm => (some arm.1, arm.2)) ++ [(none, otherwise)])) (by simp [instr, Instr.kind]) rfl
      rw [found]
      apply (valid.multiway_meets renders inside enough has instr).andThen
      rintro lines t' ⟨code, gives, reached⟩
      apply Meets.pure
      refine ⟨rfl, _, Reached.continues { reached with means := reached.means.single } ?_⟩
      simpa [FunctionOf.exitTokens, instr] using gives
  | loop cond x y =>
    obtain ⟨found, rfl⟩ := printed (.loop cond x y) (by simp [instr, Instr.kind]) rfl
    rw [found]
    apply (valid.loop_meets renders has inside enough instr).andThen
    rintro lines t' ⟨codes, gives, reached⟩
    apply Meets.pure
    refine ⟨rfl, _, reached.continues ?_⟩
    simpa [FunctionOf.exitTokens, instr] using gives
  | goto x =>
    obtain ⟨found, rfl⟩ := printed (.jump [x]) (by simp [instr, Instr.kind]) rfl
    have edge : x ∈ s.procedure.succs b := has.mem_succs_iff.2 (by simp [instr, Instr.targets])
    have noBack : ¬ s.LeadsBack b x last := by
      rintro ⟨-, implicit, -⟩
      simp [instr] at implicit
    have pends := valid.homes.pend b body last x inside.reachable has (.inl instr) noBack
    obtain ⟨after, keeps⟩ := inside.jumpTo edge (inside.place pends)
    rw [found, Emitter.continuation, List.forM]
    apply Meets.bind
    apply Meets.noteJump
    apply Meets.pure
    apply Meets.pure
    have means : Means s.function s.name t.printed (t.jumpTo x).printed (t.jumpTo x).jumpTargets
        (s.Next (s.home b) t) (Leaves s.function last) (.goto (s.name x)) :=
      (Means.goto (mem_addNew.2 (.inl rfl))).mono (.refl _) (fun _ _ next => next)
        fun _ _ arrives => arrives.leaves (.inr instr)
    have reached : s.Reached b t (t.jumpTo x) (Leaves s.function last) (Code.sequence [.goto (s.name x)]) :=
      ⟨after, keeps, means.single⟩
    refine ⟨rfl, _, reached.continues ?_⟩
    rw [FunctionOf.exitTokens, instr]
    exact (GivesOne.of_add fun r => rfl).gives
  | _ => simp [instr, Instr.isExit] at exit

end Continuations

end Reflow.Setting
