import Reflow.Proofs.Emit.Exits
import Reflow.Proofs.Emit.Frontier

namespace Reflow

open Program

structure Setting where
  function : Program.Function
  base : Nat
  pass : Nat
  labels : Labels
  verbose : Bool
  home : BlockId → Option BlockId

namespace Setting

variable (s : Setting)

abbrev procedure : Procedure :=
  s.function.procedure s.base

abbrev name : BlockId → String :=
  s.procedure.labelText s.pass

abbrev emitter : Emitter :=
  s.function.emitter s.base s.labels s.verbose

def MayPend (b x : BlockId) (last : Statement Nat Nat) : Prop :=
  last.instr = .goto x ∨ last.instr = .br x ∧ s.procedure.inDegree x ≠ 1 ∨
    ∃ cond y, last.instr = .condbr cond y x ∧ s.procedure.analysis.isFeedback b x

def LeadsBack (b x : BlockId) (last : Statement Nat Nat) : Prop :=
  s.procedure.analysis.isFeedback b x ∧ (last.instr = .br x ∨ ∃ cond y, last.instr = .condbr cond y x) ∧
    ∃ body last cond inner outer, s.function.HasBlock x body last ∧ last.instr = .loop cond inner outer

/-- Loops for the blocks such that each block is rendered in the body of its loop and edges back to a loop test come
from the body of that loop. -/
structure Homes : Prop where
  entry : s.home 0 = none
  inner : ∀ b body last cond x y, s.procedure.Reachable b → s.function.HasBlock b body last →
    last.instr = .loop cond x y → s.home x = some b ∧ s.procedure.analysis.ipdom? b ≠ some x
  back : ∀ b body last x, s.procedure.Reachable b → s.function.HasBlock b body last →
    s.LeadsBack b x last → s.home b = some x
  edge : ∀ b body last x, s.procedure.Reachable b → s.function.HasBlock b body last →
    x ∈ last.instr.targets → (∀ cond y, last.instr ≠ .loop cond x y) → s.home x = s.home b ∨ s.procedure.Visited b x
  join : ∀ b x, s.procedure.Reachable b → s.procedure.analysis.ipdom? b = some x →
    s.home x = s.home b ∨ s.procedure.Dominates x b ∨
      ∃ d, d ≠ b ∧ s.procedure.Dominates d b ∧ s.procedure.analysis.ipdom? d = some x
  pend : ∀ b body last x, s.procedure.Reachable b → s.function.HasBlock b body last →
    s.MayPend b x last → ¬ s.LeadsBack b x last → s.home x = none ∨ s.procedure.Visited b x

structure Valid : Prop where
  branches : s.function.Branches
  assigned : s.procedure.assignLabels s.pass = .ok s.labels
  homes : s.Homes

variable {s} {t t' t'' : Traversal} {b x y : BlockId}

structure Fits (s : Setting) (t : Traversal) (b : BlockId) : Prop where
  ready : t.Ready s.procedure b
  reaches : ∀ test ∈ s.home b, s.procedure.flow.Reaches test b
  anchored : ∀ test ∈ s.home b, t.Anchored s.procedure test
  pending : ∀ x ∈ t.jumpTargets, x ∈ t.rendered ∨ t.isDeferred x ∨ s.home x = none ∨ x = b

structure Inside (s : Setting) (t : Traversal) (b : BlockId) : Prop where
  within : t.Within s.procedure b
  reaches : ∀ test ∈ s.home b, s.procedure.flow.Reaches test b
  anchored : ∀ test ∈ s.home b, t.Anchored s.procedure test
  pending : ∀ x ∈ t.jumpTargets, x ∈ t.rendered ∨ t.isDeferred x ∨ s.home x = none

structure Rendered (s : Setting) (t t' : Traversal) (b : BlockId) : Prop where
  keeps : t.Keeps t'
  sound : t'.Sound s.procedure none
  pending : ∀ x ∈ t'.jumpTargets, x ∈ t'.rendered ∨ t'.isDeferred x ∨ s.home x = none
  rendered : b ∈ t'.rendered

section

variable (inside : s.Inside t b)
include inside

theorem Inside.reachable : s.procedure.Reachable b :=
  inside.within.sound.reachable b inside.within.rendered

theorem Inside.after (rendered : s.Rendered t t' x) : s.Inside t' b where
  within := inside.within.keeps rendered.keeps rendered.sound
  reaches := inside.reaches
  anchored test mem := (inside.anchored test mem).keeps rendered.keeps
  pending := rendered.pending

theorem Inside.place (pends : s.home x = none ∨ s.procedure.Visited b x) :
    x ∈ t.rendered ∨ t.isDeferred x ∨ s.home x = none := by
  rcases pends with outside | visited
  · exact .inr (.inr outside)
  · exact (inside.within.sound.visited inside.within.rendered visited).imp id .inl

theorem Inside.fits (edge : x ∈ s.procedure.succs b) (place : s.home x = s.home b ∨ s.procedure.Visited b x)
    (fresh : x ∉ t.rendered) (free : t.isDeferred x = false) : s.home x = s.home b ∧ s.Fits t x := by
  have same : s.home x = s.home b := by
    rcases place with same | visited
    · exact same
    · rcases inside.within.sound.visited inside.within.rendered visited with rendered | deferred
      · exact absurd rendered fresh
      · simp [free] at deferred
  refine ⟨same, inside.within.ready edge fresh free, ?_, ?_, ?_⟩
  · intro test mem
    exact (inside.reaches test (same ▸ mem)).trans (.of_edge edge)
  · intro test mem
    exact inside.anchored test (same ▸ mem)
  · intro target mem
    rcases inside.pending target mem with rendered | deferred | outside
    · exact .inl rendered
    · exact .inr (.inl deferred)
    · exact .inr (.inr (.inl outside))

theorem Inside.jumpTo (edge : x ∈ s.procedure.succs b) (place : x ∈ t.rendered ∨ t.isDeferred x ∨ s.home x = none) :
    s.Inside (t.jumpTo x) b ∧ t.Keeps (t.jumpTo x) := by
  have keeps : t.Keeps (t.jumpTo x) :=
    { Traversal.Keeps.refl t with jumpTargets := fun target mem => mem_addNew.2 (.inr mem) }
  have sound := inside.within.sound
  refine ⟨⟨inside.within.keeps keeps { sound with targets := ?_ }, inside.reaches,
    fun test mem => (inside.anchored test mem).keeps keeps, ?_⟩, keeps⟩
  · intro target mem
    rcases mem_addNew.1 mem with rfl | old
    · exact ⟨b, inside.within.rendered, edge⟩
    · exact sound.targets target old
  · intro target mem
    rcases mem_addNew.1 mem with rfl | old
    · exact place
    · exact inside.pending target old

theorem Inside.withHints {hints : List BlockId} (listed : ∀ x ∈ hints, x ∈ t.hints ∨ x ∈ s.procedure.succs b) :
    s.Inside { t with hints := hints } b where
  within := by
    refine ⟨{ inside.within.sound with hinted := ?_ }, inside.within.rendered, inside.within.guard⟩
    intro x mem
    rcases listed x mem with old | edge
    · exact inside.within.sound.hinted x old
    · exact ⟨b, inside.within.rendered, edge⟩
  reaches := inside.reaches
  anchored test mem :=
    ⟨(inside.anchored test mem).rendered, (inside.anchored test mem).outer, (inside.anchored test mem).exits⟩
  pending := inside.pending

end

end Setting

end Reflow
