import Reflow.Proofs.Emit.Whole
import Reflow.Proofs.Total.Functions

/-!
# Bodies run as their functions do

The body of a function without phis and structured loops is always emitted, and the code that its text is read as runs
as the function does.
-/

namespace Reflow

namespace Program.FunctionOf

variable {f : Function}

def setting (f : Function) (base pass : Nat) (labels : Labels) (verbose : Bool) : Setting where
  function := f
  base := base
  pass := pass
  labels := labels
  verbose := verbose
  home _ := none

theorem Bare.exists_emit {base : Nat} {session : Session} {config : Config} {body : Body} (bare : f.Bare)
    (emitted : (session.emitBody config (f.procedure base) (f.procedure base).analysis.toFacts
      f.render).1 = .ok body) : ∃ labels lines progress,
      (f.procedure base).assignLabels (session.passesOf f.name + 1) = .ok labels ∧
      (f.emitter base labels config.verbose).emit {} = .ok lines progress ∧
      body.text = layOut config.indent lines := by
  obtain ⟨labels, copies, lines, progress, assigned, copied, printed, rfl, -⟩ := Session.exists_of_emitBody emitted
  rw [Procedure.copies_eq_empty (bare.phis_eq_nil base), Except.ok.injEq] at copied
  subst copied
  exact ⟨labels, lines, progress, assigned, printed, rfl⟩

section

variable (branches : f.Branches) (loopless : ∀ block ∈ f.blocks, ∀ stmt ∈ block.stmts, stmt.instr.op ≠ .loop)
include branches loopless

theorem Branches.valid_setting {base pass : Nat} {labels : Labels} (verbose : Bool)
    (assigned : (f.procedure base).assignLabels pass = .ok labels) :
    (f.setting base pass labels verbose).Valid := by
  have straightened (b : BlockId) (body : List (Statement Nat Nat)) (last : Statement Nat Nat)
      (has : f.HasBlock b body last) (cond : Var) (x y : BlockId) : last.instr ≠ .loop cond x y := by
    intro instr
    obtain ⟨block, found, stmts⟩ := has.exists_block
    exact loopless block (List.mem_of_getElem? found) last (by simp [stmts]) (by rw [instr]; rfl)
  refine ⟨branches, assigned, ⟨rfl, ?_, ?_, ?_, ?_, ?_⟩⟩
  · rintro b body last cond x y - has instr
    exact absurd instr (straightened b body last has cond x y)
  · rintro b body last x - - ⟨-, -, body', last', cond, inner, outer, has, instr⟩
    exact absurd instr (straightened x body' last' has cond inner outer)
  · exact fun _ _ _ _ _ _ _ _ => .inl rfl
  · exact fun _ _ _ _ => .inl rfl
  · exact fun _ _ _ _ _ _ _ _ => .inl rfl

theorem Branches.unlooped : f.Unlooped where
  wellFormed := branches.wellFormed
  free block mem stmt inBlock := by
    obtain ⟨body, last, stmts, straight, exit⟩ := branches.blocks block mem
    have noLoop := loopless block mem stmt inBlock
    rw [stmts] at inBlock
    rcases List.mem_append.1 inBlock with early | final
    · have := straight stmt early
      cases instr : stmt.instr <;> simp [instr, Instr.isStraight, Instr.isFree] at this ⊢
    · obtain rfl := List.mem_singleton.1 final
      cases instr : stmt.instr <;> simp_all [Instr.isExit, Instr.isFree, Instr.op]
  incoming b block found phi mem := by
    rw [branches.phis block (List.mem_of_getElem? found)] at mem
    simp at mem

/-- The body of a function without phis and structured loops runs as the function does. -/
theorem Branches.emitBody_sameRuns (session : Session) (config : Config) (base : Nat) : ∃ body code,
      (session.emitBody config (f.procedure base) (f.procedure base).analysis.toFacts
        f.render).1 = .ok body ∧
      Code.read? body.text = some code ∧
      ∀ outcomes, SameRuns (code.runUpTo · outcomes) (f.follow · 0 outcomes) := by
  have unlooped := branches.unlooped loopless
  rcases unlooped.loopless.emitBody_cases session config base with
    ⟨⟨body, emitted⟩, -⟩ | ⟨x, ⟨⟨b, stray⟩, -⟩, -⟩
  · obtain ⟨labels, lines, progress, assigned, printed, text⟩ := branches.bare.exists_emit emitted
    have valid := branches.valid_setting loopless config.verbose assigned
    obtain ⟨code, read, same⟩ := valid.sameRuns config.indent printed
    exact ⟨body, code, emitted, text ▸ read, same⟩
  · exact absurd stray unlooped.not_stray

end

def tangle : Function where
  name := "tangle"
  args := ["c", "d"]
  blocks :=
    [⟨"entry", [], [⟨none, .condbr 0 1 2⟩]⟩,
     ⟨"left", [], [⟨none, .call "step" []⟩, ⟨none, .condbr 1 2 3⟩]⟩,
     ⟨"right", [], [⟨none, .vuse 0⟩, ⟨none, .condbr 1 1 3⟩]⟩,
     ⟨"exit", [], [⟨none, .ret none⟩]⟩]

theorem tangle_isRead : tangle.IsRead :=
  .of_pieces ["tangle(%c, %d) \x7b\n", "entry:\n condbr %c, ^left, ^right\n",
      "left:\n call @step\n condbr %d, ^right, ^exit\n", "right:\n vuse %c\n condbr %d, ^left, ^exit\n",
      "exit:\n ret\n\x7d\n"] (by decide +kernel)

theorem tangle_branches : tangle.Branches where
  wellFormed := IsRead.wellFormed tangle_isRead
  phis := by decide
  blocks := by
    simp only [tangle, List.forall_mem_cons, List.not_mem_nil, false_implies, implies_true, and_true]
    exact ⟨⟨[], _, rfl, by simp, rfl⟩, ⟨[_], _, rfl, by simp [Instr.isStraight], rfl⟩,
      ⟨[_], _, rfl, by simp [Instr.isStraight], rfl⟩, ⟨[], _, rfl, by simp, rfl⟩⟩

theorem tangle_sameRuns : ∃ body code, (Session.emitBody { passes := [("tangle", 1)] } {} (tangle.procedure 0)
      (tangle.procedure 0).analysis.toFacts tangle.render).1 = .ok body ∧
    Code.read? body.text = some code ∧
    ∀ outcomes, SameRuns (code.runUpTo · outcomes) (tangle.follow · 0 outcomes) :=
  tangle_branches.emitBody_sameRuns (by decide) { passes := [("tangle", 1)] } {} 0

end Program.FunctionOf

end Reflow
