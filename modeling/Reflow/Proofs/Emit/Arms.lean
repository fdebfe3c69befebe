import Reflow.Proofs.Emit.Edges

namespace Reflow.Setting

open Program Emission Reading

variable {s : Setting} {recurse : Recurse} {bound : Nat} {t t' t'' : Traversal} {b x y : BlockId}
  {hinted : List BlockId} {goal : Nat → Resume → Prop} {code code' : Code}

theorem Reached.withHints (reached : s.Reached b t t' goal code) (hints : List BlockId) {hints' : List BlockId}
    (subset : hints' ⊆ t'.hints) : s.Reached b { t with hints := hints } { t' with hints := hints' } goal code where
  inside := reached.inside.withHints fun _ mem => .inl (subset mem)
  keeps := { reached.keeps with }
  means := reached.means

theorem hints_arrived_subset : (arrived t hinted x).hints ⊆ t.hints := by
  unfold arrived
  split
  · exact List.erase_subset
  · exact .refl _

theorem Inside.arrived (inside : s.Inside t b) : s.Inside (arrived t hinted x) b := by
  rw [arrived_eq]
  exact inside.withHints fun y mem => .inl (hints_arrived_subset mem)

theorem unrendered_arrived {p : Procedure} : (arrived t hinted x).unrendered p = t.unrendered p := by
  rw [arrived_eq]
  rfl

theorem Reached.of_arrived (reached : s.Reached b (arrived t hinted x) t' goal code) : s.Reached b t t' goal code := by
  have whole := reached.withHints t.hints (.refl _)
  rw [arrived_eq] at whole
  exact whole

theorem Reached.choose (valid : s.Valid) {cond : Var} {otherwise : BlockId} {arms : List (Var × BlockId)}
    (first : s.Reached b t t' (Arrives s.function x) code)
    (rest : s.Reached b t' t'' (Chooses s.function otherwise arms) code') :
    s.Reached b t t'' (Chooses s.function otherwise ((cond, x) :: arms))
      (.ite (s.function.valueName cond) code code') where
  inside := rest.inside
  keeps := first.keeps.trans rest.keeps
  means := by
    have later := rest.means
    rw [next_keeps first.keeps] at later
    exact Means.ite valid.branches.labelText_injective first.keeps.printed rest.keeps.printed _
      (first.means.mono rest.keeps.jumpTargets (fun _ _ next => next) fun _ _ arrives => arrives) later

section Conditional

variable {body : List (Statement Nat Nat)} {last : Statement Nat Nat} {cond : Var}

theorem after_else_meets {step : Emission (List Line)} (meets : Yields step t fun lines t' => ∃ code,
      GivesOne (Line.tokens lines) code ∧ s.Reached b t t' goal code) :
    Yields (do return .elseBranch b :: (← step)) t fun lines t' => ∃ code,
      GivesElse (Line.tokens lines) code ∧ s.Reached b t t' goal code := by
  apply meets.andThen
  rintro lines t' ⟨code, gives, reached⟩
  apply Meets.pure
  refine ⟨code, ?_, reached⟩
  simpa [Line.text, Token.ofText_else] using GivesElse.one gives

variable (valid : s.Valid) (has : s.function.HasBlock b body last)
  (instr : last.instr = .condbr cond y x) (inside : s.Inside t b)
include valid has instr inside

theorem Valid.elseBack_meets (feedback : s.procedure.analysis.isFeedback b x) :
    Yields (s.emitter.elseBack b x) t fun lines t' => ∃ code,
      GivesElse (Line.tokens lines) code ∧ s.Reached b t t' (Arrives s.function x) code := by
  have edge : x ∈ s.procedure.succs b := has.mem_succs_iff.2 (by simp [instr, Instr.targets])
  unfold Emitter.elseBack
  rcases valid.back_cases inside.reachable has edge feedback (.inr ⟨cond, y, instr⟩) with
    ⟨isTest, header, test, cond', inner, outer, hasHeader, loop, home⟩ | ⟨noTest, noBack⟩
  · have reached := inside.reached_back edge home hasHeader
    apply Meets.of_ok isTest
    simp only [if_true]
    apply (valid.branches.headerLines_meets hasHeader loop).andThen
    rintro lines t' ⟨rfl, gives, empty⟩
    cases lines with
    | nil =>
      rw [empty rfl] at reached
      exact Meets.pure ⟨.skip, GivesElse.none, reached⟩
    | cons =>
      apply Meets.pure
      refine ⟨_, ?_, reached⟩
      simpa [Line.text, Token.ofText_else, Token.ofText_openBrace, Token.ofText_closeBrace]
        using GivesElse.one gives.braces
  · apply Meets.of_ok noTest
    simp only [Bool.false_eq_true, if_false]
    have pends := valid.homes.pend b body last x inside.reachable has (.inr (.inr ⟨cond, y, instr, feedback⟩)) noBack
    apply after_else_meets
    exact valid.jump_meets true inside edge (inside.place pends)

variable (renders : s.Renders recurse bound) (enough : t.unrendered s.procedure ≤ bound)
include renders enough

theorem Valid.elseLines_meets : Yields (s.emitter.elseLines recurse b x) t fun lines t' => ∃ code,
      GivesElse (Line.tokens lines) code ∧ s.Reached b t t' (Arrives s.function x) code := by
  have edge : x ∈ s.procedure.succs b := has.mem_succs_iff.2 (by simp [instr, Instr.targets])
  unfold Emitter.elseLines
  apply Meets.traversal
  refine Meets.ite (fun deferred => ?_) fun deferred => ?_
  · refine Meets.ite (fun leaves => ?_) fun leaves => ?_
    · exact after_else_meets (valid.jump_meets true inside edge (.inr (.inl deferred)))
    · exact Meets.pure ⟨.skip, GivesElse.none, inside.reached_join edge deferred leaves⟩
  · cases feedback : s.procedure.analysis.isFeedback b x with
    | true =>
      rw [if_pos (show s.emitter.facts.isFeedback b x = true from feedback)]
      exact valid.elseBack_meets has instr inside feedback
    | false =>
      rw [if_neg (show ¬ s.emitter.facts.isFeedback b x = true by simp [feedback, FunctionOf.emitter])]
      have place := valid.homes.edge b body last x inside.reachable has (by simp [instr, Instr.targets])
        (by simp [instr])
      exact after_else_meets (valid.branch_meets renders inside enough edge place)

theorem Valid.conditional_meets : Yields (s.emitter.conditional recurse b y x) t fun lines t' => ∃ code,
      Gives (.ifTest (s.function.valueName cond) :: Line.tokens lines) [code] ∧
      s.Reached b t t' (Leaves s.function last) code := by
  have targets : y ∈ last.instr.targets ∧ x ∈ last.instr.targets := by simp [instr, Instr.targets]
  have edge : y ∈ s.procedure.succs b := has.mem_succs_iff.2 targets.1
  have edge' : x ∈ s.procedure.succs b := has.mem_succs_iff.2 targets.2
  have place := valid.homes.edge b body last y inside.reachable has targets.1 (by simp [instr])
  -- The first arm is rendered while the target of the second one may be hinted.
  have first {hints : List BlockId} (listed : ∀ z ∈ hints, z ∈ t.hints ∨ z ∈ s.procedure.succs b) :
      Yields (s.emitter.branch recurse y) { t with hints := hints } fun lines t' => ∃ code,
        GivesOne (Line.tokens lines) code ∧ ∀ hints' ⊆ t'.hints,
          s.Reached b t { t' with hints := hints' } (Arrives s.function y) code := by
    apply (valid.branch_meets renders (inside.withHints listed) enough edge place).mono
    rintro lines t' ⟨code, gives, reached⟩
    exact ⟨code, gives, fun hints' subset => reached.withHints t.hints subset⟩
  have second {lines : List Line} {t' : Traversal} {code : Code} (gives : GivesOne (Line.tokens lines) code)
      (reached : s.Reached b t t' (Arrives s.function y) code) :
      Yields (do return lines ++ (← s.emitter.elseLines recurse b x)) t' fun lines t'' =>
        ∃ code, Gives (.ifTest (s.function.valueName cond) :: Line.tokens lines) [code] ∧
          s.Reached b t t'' (Leaves s.function last) code := by
    apply (valid.elseLines_meets has instr reached.inside renders (reached.keeps.unrendered_le.trans enough)).andThen
    rintro more t'' ⟨code', gives', reached'⟩
    apply Meets.pure
    refine ⟨.ite (s.function.valueName cond) code code', ?_, ?_⟩
    · rw [Line.tokens_append]
      exact Gives.test gives gives'
    · have chosen : s.Reached b t t'' (Chooses s.function x [(cond, y)]) _ :=
        reached.choose valid reached'
      exact { chosen with
        means := chosen.means.mono (.refl _) (fun _ _ next => next)
          fun _ _ chooses => chooses.leaves_condbr instr }
  unfold Emitter.conditional
  apply Meets.traversal
  cases hinted : !t.isDeferred x && !t.isJumpTarget x with
  | true =>
    have listed (z : BlockId) (mem : z ∈ x :: t.hints) : z ∈ t.hints ∨ z ∈ s.procedure.succs b := by
      rcases List.mem_cons.1 mem with rfl | old
      · exact .inr edge'
      · exact .inl old
    simp only [if_true]
    apply Meets.update
    apply (first listed).andThen
    rintro lines t' ⟨code, gives, reached⟩
    apply Meets.update
    exact second gives (reached _ List.erase_subset)
  | false =>
    simp only [Bool.false_eq_true, if_false]
    apply (first fun z mem => .inl mem).andThen
    rintro lines t' ⟨code, gives, reached⟩
    exact second gives (reached _ (.refl _))

end Conditional

section Multiway

variable (valid : s.Valid) (renders : s.Renders recurse bound) (inside : s.Inside t b)
  (enough : t.unrendered s.procedure ≤ bound)
include valid renders inside enough

variable {otherwise : BlockId} {arms : List (Var × BlockId)}

theorem Valid.arm_meets (cond : Var) {header : List Line}
    {rest : Emission (List Line)} (edge : x ∈ s.procedure.succs b)
    (place : s.home x = s.home b ∨ s.procedure.Visited b x)
    (follows : ∀ t', s.Inside t' b → t'.unrendered s.procedure ≤ bound →
      Yields rest t' fun lines t'' => ∃ code, GivesElse (Line.tokens lines) code ∧
        s.Reached b t' t'' (Chooses s.function otherwise arms) code) :
    Yields (do
      let lines ← s.emitter.branch recurse x
      let more ← rest
      return header ++ lines ++ more) t fun lines t'' => ∃ front back code code',
        lines = header ++ front ++ back ∧ GivesOne (Line.tokens front) code ∧
        GivesElse (Line.tokens back) code' ∧
        s.Reached b t t'' (Chooses s.function otherwise ((cond, x) :: arms))
          (.ite (s.function.valueName cond) code code') := by
  apply (valid.branch_meets renders inside enough edge place).andThen
  rintro front t' ⟨code, gives, reached⟩
  apply (follows t' reached.inside (reached.keeps.unrendered_le.trans enough)).andThen
  rintro back t'' ⟨code', gives', reached'⟩
  apply Meets.pure
  exact ⟨front, back, code, code', rfl, gives, gives', reached.choose valid reached'⟩

theorem Valid.multiwayArms_meets (arms : List (Var × BlockId))
    (edges : ∀ x ∈ arms.map (·.2) ++ [otherwise], x ∈ s.procedure.succs b)
    (words : ∀ arm ∈ arms, IsWord (s.function.valueName arm.1))
    (places : ∀ x ∈ arms.map (·.2) ++ [otherwise], s.home x = s.home b ∨ s.procedure.Visited b x) :
    Yields (s.emitter.multiwayArms recurse b false hinted
      (arms.map (fun arm => (some arm.1, arm.2)) ++ [(none, otherwise)])) t fun lines t' => ∃ code,
        GivesElse (Line.tokens lines) code ∧
        s.Reached b t t' (Chooses s.function otherwise arms) code := by
  induction arms generalizing t hinted with
  | nil =>
    have edge := edges otherwise (by simp)
    have place := places otherwise (by simp)
    have last {t' : Traversal} {code : Code}
        (reached : s.Reached b (Emission.arrived t hinted otherwise) t' (Arrives s.function otherwise) code) :
        s.Reached b t t' (Chooses s.function otherwise []) code :=
      reached.of_arrived
    simp only [List.map_nil, List.nil_append, Emitter.multiwayArms]
    apply arrive_meets
    apply Meets.traversal
    split
    · rename_i joins
      simp only [Bool.not_false, Bool.true_and, Bool.and_eq_true, Bool.not_eq_true'] at joins
      apply Meets.pure
      exact ⟨.skip, GivesElse.none, last (inside.arrived.reached_join edge joins.1.2 joins.2)⟩
    · apply (valid.branch_meets renders inside.arrived (unrendered_arrived.trans_le enough) edge place).andThen
      rintro lines t' ⟨code, gives, reached⟩
      apply Meets.bind
      apply Meets.pure
      apply Meets.pure
      refine ⟨code, ?_, last reached⟩
      simp only [Bool.false_eq_true, if_false, List.append_nil, List.singleton_append,
        Line.tokens_cons, Line.text, Token.ofText_else]
      exact GivesElse.one gives
  | cons arm arms ih =>
    obtain ⟨cond, target⟩ := arm
    simp only [List.map_cons, List.cons_append, Emitter.multiwayArms]
    apply arrive_meets
    apply Meets.traversal
    apply (valid.arm_meets renders inside.arrived (unrendered_arrived.trans_le enough) cond (edges target (by simp))
      (places target (by simp)) fun t' inside' enough' => ih inside' enough'
        (fun x mem => edges x (.tail _ mem)) (fun arm mem => words arm (.tail _ mem))
        fun x mem => places x (.tail _ mem)).mono
    rintro lines t' ⟨front, back, code, code', rfl, gives, gives', reached⟩
    refine ⟨.ite (s.function.valueName cond) code code', ?_, reached.of_arrived⟩
    have isWord := words (cond, target) (.head _)
    simp only [Bool.false_eq_true, if_false, Line.tokens_append, Line.tokens_cons, Line.tokens_nil,
      Line.text, List.append_nil]
    rw [show s.emitter.varName b cond = s.function.valueName cond from rfl, Token.ofText_elseIf isWord]
    exact GivesElse.test gives gives'

theorem Valid.multiway_meets {body : List (Statement Nat Nat)} {last : Statement Nat Nat} {cond : Var}
    (has : s.function.HasBlock b body last)
    (instr : last.instr = .multiif cond x arms (some otherwise)) :
    Yields (s.emitter.multiway recurse b
        ((some cond, x) :: (arms.map fun arm => (some arm.1, arm.2)) ++ [(none, otherwise)])) t
      fun lines t' => ∃ code, Gives (.ifTest (s.function.valueName cond) :: Line.tokens lines) [code] ∧
        s.Reached b t t' (Leaves s.function last) code := by
  have targets : last.instr.targets = x :: (arms.map (·.2) ++ [otherwise]) := by
    simp [instr, Instr.targets]
  have edges (z : BlockId) (mem : z ∈ x :: (arms.map (·.2) ++ [otherwise])) :
      z ∈ s.procedure.succs b := has.mem_succs_iff.2 (targets ▸ mem)
  have places (z : BlockId) (mem : z ∈ x :: (arms.map (·.2) ++ [otherwise])) :
      s.home z = s.home b ∨ s.procedure.Visited b z :=
    valid.homes.edge b body last z inside.reachable has (targets ▸ mem) (by simp [instr])
  obtain ⟨block, found, stmts⟩ := has.exists_block
  have words (arm : Var × BlockId) (mem : arm ∈ arms) : IsWord (s.function.valueName arm.1) := by
    apply valid.branches.wellFormed.isWord_read (List.mem_of_getElem? found) (show last ∈ block.stmts by simp [stmts])
    simp only [instr, Instr.reads, List.mem_cons, List.mem_map]
    exact .inr ⟨arm, mem, rfl⟩
  have placed : Emitter.misplacedArm? ((some cond, x) :: (arms.map fun arm => (some arm.1, arm.2)) ++
      [(none, otherwise)]) = none := Emitter.misplacedArm?_eq_none (cond, x) arms (some otherwise)
  unfold Emitter.multiway
  rw [placed]
  apply Meets.traversal
  apply Meets.update
  rw [foldl_hint]
  have later : (((some cond, x) :: (arms.map fun arm : Var × BlockId => ((some arm.1, arm.2) : Option Var × BlockId)) ++
        [(none, otherwise)]).drop 1).map (fun arm : Option Var × BlockId => arm.2) = arms.map (·.2) ++ [otherwise] := by
    simp
  rw [later]
  generalize same : ((arms.map (·.2) ++ [otherwise]).filter fun target =>
    !t.isDeferred target && !t.isJumpTarget target).eraseDups = hinted
  have within (z : BlockId) (mem : z ∈ hinted) : z ∈ arms.map (·.2) ++ [otherwise] := by
    rw [← same, List.mem_eraseDups, List.mem_filter] at mem
    exact mem.1
  have inside' : s.Inside { t with hints := hinted.reverse ++ t.hints } b := by
    apply inside.withHints
    intro z mem
    rcases List.mem_append.1 mem with hint | old
    · exact .inr (edges z (.tail _ (within z (List.mem_reverse.1 hint))))
    · exact .inl old
  simp only [List.cons_append, Emitter.multiwayArms]
  apply arrive_meets
  apply Meets.traversal
  apply (valid.arm_meets renders inside'.arrived (unrendered_arrived.trans_le enough) cond
    (edges x (.head _)) (places x (.head _)) fun t' inside'' enough' =>
      valid.multiwayArms_meets renders inside'' enough' arms (fun z mem => edges z (.tail _ mem)) words
        fun z mem => places z (.tail _ mem)).mono
  rintro lines t' ⟨front, back, code, code', rfl, gives, gives', reached⟩
  have whole := reached.of_arrived.withHints t.hints (.refl _)
  refine ⟨_, ?_, { whole with
    means := whole.means.mono (.refl _) (fun _ _ next => next)
      fun _ _ chooses => chooses.leaves_multiif instr }⟩
  rw [Line.tokens_append]
  exact Gives.test gives gives'

end Multiway

end Reflow.Setting
