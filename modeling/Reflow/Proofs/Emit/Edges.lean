import Reflow.Proofs.Emit.Setting

namespace Reflow

def Reading.Reads (one : Bool) (tokens : List Token) (code : Code) : Prop :=
  if one then GivesOne tokens code else ∃ codes, code = Code.sequence codes ∧ Gives tokens codes

theorem Reading.GivesOne.reads {tokens : List Token} {code : Code} (gives : GivesOne tokens code) :
    Reads true tokens code :=
  gives

namespace Setting

open Program Emission Reading

variable {s : Setting} {recurse : Recurse} {bound : Nat} {t t' t'' : Traversal} {b x : BlockId}
  {home : Option BlockId} {body : List (Statement Nat Nat)} {last : Statement Nat Nat}

def Next (s : Setting) (home : Option BlockId) (t : Traversal) (least : Nat) (resume : Resume) : Prop :=
  match t.frontier.head?.filter fun entry => entry.2 = t.openExits.length with
  | some (join, _) => Arrives s.function join least resume
  | none => ∀ test ∈ home, ∀ body last, s.function.HasBlock test body last →
      Leaves s.function last least resume

theorem next_congr (frontier : t'.frontier = t.frontier)
    (openExits : t'.openExits = t.openExits) : s.Next home t' = s.Next home t := by
  unfold Next
  rw [frontier, openExits]

theorem next_keeps (keeps : t.Keeps t') : s.Next home t' = s.Next home t :=
  next_congr keeps.frontier keeps.openExits

theorem next_join {outer : List (BlockId × Nat)} {least : Nat} {resume : Resume}
    (frontier : t.frontier = (x, t.openExits.length) :: outer) (next : s.Next home t least resume) :
    Arrives s.function x least resume := by
  simpa [Next, frontier, Option.filter] using next

structure Reached (s : Setting) (b : BlockId) (t t' : Traversal) (goal : Nat → Resume → Prop) (code : Code) : Prop where
  inside : s.Inside t' b
  keeps : t.Keeps t'
  means : Means s.function s.name t.printed t'.printed t'.jumpTargets (s.Next (s.home b) t) goal code

def Renders (s : Setting) (recurse : Recurse) (bound : Nat) : Prop :=
  ∀ (t : Traversal) (x : BlockId) (one : Bool), s.Fits t x → t.unrendered s.procedure ≤ bound →
    Yields (recurse x one) t fun lines t' => s.Rendered t t' x ∧ ∃ code, Reads one (Line.tokens lines) code ∧
      Means s.function s.name t.printed t'.printed t'.jumpTargets (s.Next (s.home x) t) (Follows s.function x) code

theorem Valid.name_of_label (valid : s.Valid) {text : String} (found : s.labels.label x = .ok text) : text = s.name x :=
  Procedure.eq_labelText (FunctionOf.classified_kinds valid.branches.plain) valid.assigned found

theorem Valid.jump_meets (valid : s.Valid) (nested : Bool) (inside : s.Inside t b)
    (edge : x ∈ s.procedure.succs b) (place : x ∈ t.rendered ∨ t.isDeferred x ∨ s.home x = none) :
    Yields (s.emitter.jump x nested) t fun lines t' => ∃ code,
      GivesOne (Line.tokens lines) code ∧ s.Reached b t t' (Arrives s.function x) code := by
  unfold Emitter.jump
  apply Meets.of_except _ fun _ _ => trivial
  intro label found
  obtain rfl := valid.name_of_label found
  apply Meets.noteJump
  apply Meets.pure
  obtain ⟨after, keeps⟩ := inside.jumpTo edge place
  refine ⟨.goto (s.name x), ?_, after, keeps, Means.goto (mem_addNew.2 (.inl rfl))⟩
  have token := Token.ofText_goto (valid.branches.isWord_labelText s.base s.pass x)
  simp only [Line.tokens_cons, Line.text, token, Line.tokens_nil, List.append_nil]
  exact GivesOne.of_add fun r => rfl

theorem Inside.reached_join (inside : s.Inside t b) (edge : x ∈ s.procedure.succs b) (deferred : t.isDeferred x = true)
    (stays : t.leavesOpenLoop x = false) : s.Reached b t t (Arrives s.function x) .skip := by
  obtain ⟨outer, frontier⟩ := inside.within.head_frontier edge deferred stays
  refine ⟨inside, .refl t, ?_⟩
  exact Means.skip.mono (.refl _) (fun _ _ => next_join frontier) fun _ _ arrives => arrives

theorem Rendered.reached (rendered : s.Rendered t t' x) (inside : s.Inside t b)
    (same : s.home x = s.home b) {code : Code}
    (means : Means s.function s.name t.printed t'.printed t'.jumpTargets (s.Next (s.home x) t)
      (Follows s.function x) code) :
    s.Reached b t t' (Arrives s.function x) code where
  inside := inside.after rendered
  keeps := rendered.keeps
  means := by
    rw [same] at means
    exact means.mono (.refl _) (fun _ _ next => next) fun _ _ follows => follows.arrives

theorem Valid.branch_meets (valid : s.Valid) (renders : s.Renders recurse bound)
    (inside : s.Inside t b) (enough : t.unrendered s.procedure ≤ bound) (edge : x ∈ s.procedure.succs b)
    (place : s.home x = s.home b ∨ s.procedure.Visited b x) :
    Yields (s.emitter.branch recurse x) t fun lines t' => ∃ code,
      GivesOne (Line.tokens lines) code ∧ s.Reached b t t' (Arrives s.function x) code := by
  unfold Emitter.branch
  apply Meets.traversal
  refine Meets.ite (fun deferred => ?_) fun deferred => ?_
  · refine Meets.ite (fun leaves => ?_) fun leaves => ?_
    · exact valid.jump_meets true inside edge (.inr (.inl deferred))
    · apply Meets.pure
      refine ⟨.skip, ?_, inside.reached_join edge deferred leaves⟩
      simp only [Line.tokens_cons, Line.text, Token.ofText_emptyBraces, Line.tokens_nil, List.append_nil]
      exact Gives.braces Gives.nil
  · cases rendered : t.isRendered x with
    | true =>
      have mem : x ∈ t.rendered := by simpa [Traversal.isRendered] using rendered
      simp only [if_true]
      exact valid.jump_meets true inside edge (.inl mem)
    | false =>
      have fresh : x ∉ t.rendered := by simpa [Traversal.isRendered] using rendered
      simp only [Bool.false_eq_true, if_false]
      obtain ⟨same, fits⟩ := inside.fits edge place fresh deferred
      apply (renders t x true fits enough).mono
      rintro lines t' ⟨rendered, code, reads, means⟩
      exact ⟨code, reads, rendered.reached inside same means⟩

theorem Valid.isLoopTest_eq (valid : s.Valid)
    (has : s.function.HasBlock x body last) (exit : last.instr.isExit) : ∃ test, s.procedure.isLoopTest x = .ok test ∧
        (test = true ↔ ∃ cond inner outer, last.instr = .loop cond inner outer) := by
  rw [Procedure.isLoopTest, Procedure.lastRealKind_eq (FunctionOf.classified_kinds valid.branches.plain x)]
  by_cases branch : last.instr.op = .br
  · obtain ⟨target, instr⟩ : ∃ target, last.instr = .br target := by
      cases instr : last.instr <;> simp [instr, Instr.op] at branch
      exact ⟨_, rfl⟩
    refine ⟨false, ?_, by simp [instr]⟩
    rcases has.ending_br valid.branches.bare s.base instr with ⟨none, -⟩ | ⟨plain, -⟩
    · rw [none]
      rfl
    · rw [plain]
      rfl
  · obtain ⟨kind, ok⟩ := FunctionOf.exists_kind_of_isExit exit branch
    have facts := FunctionOf.isReal_of_isExit exit (ok 0)
    rw [has.ending_eq valid.branches.bare s.base kind ok facts.1]
    refine ⟨_, rfl, ?_⟩
    cases instr : last.instr with
    | ret | condbr | loop | multiif | goto =>
      rw [instr] at ok
      obtain rfl := Except.ok.inj (ok 0)
      simp
    | br => simp [instr, Instr.op] at branch
    | _ => simp [instr, Instr.isExit] at exit

theorem Inside.reached_back (inside : s.Inside t b) (edge : x ∈ s.procedure.succs b) (home : s.home b = some x)
    (has : s.function.HasBlock x body last) :
    s.Reached b t t (Arrives s.function x) (Code.sequence (s.function.codes body)) := by
  refine ⟨inside, .refl t, ?_⟩
  apply (Means.statements has).mono (.refl _)
  · intro least resume next
    have anchored := inside.anchored x (by simp [home])
    have outermost : (t.frontier.head?.filter fun entry => entry.2 = t.openExits.length) = none := by
      cases frontier : t.frontier with
      | nil => rfl
      | cons =>
        have shallow := anchored.no_inner_join inside.within edge frontier
        simp [Option.filter, shallow]
    rw [Next, outermost] at next
    exact next x (by simp [home]) body last has
  · exact fun least resume follows => follows.arrives

theorem Valid.back_cases (valid : s.Valid)
    (reach : s.procedure.Reachable b) (has : s.function.HasBlock b body last) (edge : x ∈ s.procedure.succs b)
    (feedback : s.procedure.analysis.isFeedback b x)
    (implicit : last.instr = .br x ∨ ∃ cond y, last.instr = .condbr cond y x) :
    (s.procedure.isLoopTest x = .ok true ∧ ∃ header test cond inner outer,
      s.function.HasBlock x header test ∧ test.instr = .loop cond inner outer ∧ s.home b = some x) ∨
    s.procedure.isLoopTest x = .ok false ∧ ¬ s.LeadsBack b x last := by
  obtain ⟨block, found⟩ :=
    FunctionOf.mem_blockIds_iff.1 (valid.branches.wellFormed.mem_blockIds_of_edge edge)
  obtain ⟨header, test, hasHeader, -, exit⟩ := valid.branches.exists_block found
  obtain ⟨isTest, loopTest, iff⟩ := valid.isLoopTest_eq hasHeader exit
  cases isTest with
  | true =>
    obtain ⟨cond, inner, outer, loop⟩ := iff.1 rfl
    have back : s.LeadsBack b x last :=
      ⟨feedback, implicit, header, test, cond, inner, outer, hasHeader, loop⟩
    exact .inl ⟨loopTest, header, test, cond, inner, outer, hasHeader, loop,
      valid.homes.back b body last x reach has back⟩
  | false =>
    refine .inr ⟨loopTest, ?_⟩
    rintro ⟨-, -, header', test', cond, inner, outer, hasHeader', loop⟩
    obtain ⟨-, rfl⟩ := hasHeader.unique hasHeader'
    exact absurd (iff.2 ⟨cond, inner, outer, loop⟩) (by simp)

end Setting

end Reflow
