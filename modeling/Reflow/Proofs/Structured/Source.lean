import Reflow.Proofs.Emit.Labels
import Reflow.Proofs.Structured.Placement

namespace Reflow

open Program

abbrev Step := { stmt : Statement Nat Nat // stmt.instr.isInner }

mutual

inductive Source
  | done
  | step (stmt : Step) (rest : Source)
  | ifThen (cond : Nat) (body rest : Source)
  | ifElse (cond : Nat) (yes no rest : Source)
  | loop (header : List Step) (cond : Nat) (body rest : Source)
  | switch (selector : Nat) (arms : Source.Arms) (rest : Source)

inductive Source.Arms
  | nil
  | cons (label : CaseLabel) (body : Source) (rest : Source.Arms)

end

namespace Source

mutual

def size : Source → Nat
  | done => 1
  | step _ rest => rest.size
  | ifThen _ body rest => 1 + body.size + rest.size
  | ifElse _ yes no rest => 1 + yes.size + no.size + rest.size
  | loop _ _ body rest => 2 + body.size + rest.size
  | switch _ arms rest => 1 + arms.size + rest.size

def Arms.size : Arms → Nat
  | .nil => 0
  | .cons _ body rest => body.size + rest.size

end

namespace Arms

def targets : Nat → Arms → List (CaseLabel × Nat)
  | _, .nil => []
  | start, .cons label body rest => (label, start) :: rest.targets (start + body.size)

def runs : Nat → Arms → List (Nat × Nat)
  | _, .nil => []
  | start, .cons _ body rest => (start, start + body.size) :: rest.runs (start + body.size)

end Arms

def branch (target : Nat) : Statement Nat Nat :=
  ⟨none, .br target⟩

def block (before : List Step) (last : Statement Nat Nat) : List (Statement Nat Nat) :=
  before.map (·.1) ++ [last]

mutual

/-- The statements of the blocks of a program from block `start` on, which holds `before` already, up to the statement
that leaves the program. -/
def blocks : Source → Nat → List Step → Statement Nat Nat → List (List (Statement Nat Nat))
  | done, _, before, exit => [block before exit]
  | step stmt rest, start, before, exit => rest.blocks start (before ++ [stmt]) exit
  | ifThen cond body rest, start, before, exit =>
    let join := start + 1 + body.size
    block before ⟨none, .condbr cond (start + 1) join⟩ ::
      (body.blocks (start + 1) [] (branch join) ++ rest.blocks join [] exit)
  | ifElse cond yes no rest, start, before, exit =>
    let middle := start + 1 + yes.size
    let join := middle + no.size
    block before ⟨none, .condbr cond (start + 1) middle⟩ ::
      (yes.blocks (start + 1) [] (branch join) ++ (no.blocks middle [] (branch join) ++ rest.blocks join [] exit))
  | loop header cond body rest, start, before, exit =>
    let after := start + 2 + body.size
    block before (branch (start + 1)) :: block header ⟨none, .loop cond (start + 2) after⟩ ::
      (body.blocks (start + 2) [] (branch (start + 1)) ++ rest.blocks after [] exit)
  | switch selector arms rest, start, before, exit =>
    let join := start + 1 + arms.size
    block before ⟨none, .switch selector (arms.targets (start + 1))⟩ ::
      (arms.blocks (start + 1) join ++ rest.blocks join [] exit)

def Arms.blocks : Arms → Nat → Nat → List (List (Statement Nat Nat))
  | .nil, _, _ => []
  | .cons _ body rest, start, join =>
    body.blocks start [] (branch join) ++ rest.blocks (start + body.size) join

end

def function (source : Source) (name : String) (args : List String) (result : Option Nat) : Function where
  name := name
  args := args
  blocks := (numberFrom 0 (source.blocks 0 [] ⟨none, .ret result⟩)).map fun block =>
    { name := s!"b{block.1}", phis := [], stmts := block.2 }

mutual

def isDivided : Source → Bool
  | done => true
  | step _ rest => rest.isDivided
  | ifThen _ body rest => body.isDivided && rest.isDivided
  | ifElse _ yes no rest => yes.isDivided && no.isDivided && rest.isDivided
  | loop _ _ body rest => body.isDivided && rest.isDivided
  | switch _ arms rest => 1 < (arms.runs 0).length && arms.isDivided && rest.isDivided

def Arms.isDivided : Arms → Bool
  | .nil => true
  | .cons _ body rest => body.isDivided && rest.isDivided

end

def isFinal (exit : Statement Nat Nat) : Bool :=
  exit.instr.op != .br

@[simp]
theorem isFinal_branch (target : Nat) : isFinal (branch target) = false :=
  rfl

@[simp]
theorem isFinal_ret (result : Option Nat) : isFinal ⟨none, .ret result⟩ = true :=
  rfl

/-- Whether a program goes on with a line in the same block, be it that of its end. -/
def anchors (final : Bool) : Source → Bool
  | done => final
  | step stmt rest => stmt.1.instr.innerKind.isReal || rest.anchors final
  | loop .. => false
  | _ => true

mutual

def isAnchored (final : Bool) : Source → Bool
  | done => true
  | step stmt rest => (stmt.1.instr.op != .init || rest.anchors final) && rest.isAnchored final
  | ifThen _ body rest => body.isAnchored false && rest.isAnchored final
  | ifElse _ yes no rest => yes.isAnchored false && no.isAnchored false && rest.isAnchored final
  | loop _ _ body rest => body.isAnchored false && rest.isAnchored final
  | switch _ arms rest => arms.isAnchored && rest.isAnchored final

def Arms.isAnchored : Arms → Bool
  | .nil => true
  | .cons _ body rest => body.isAnchored false && rest.isAnchored

end

def braces : List String → List String
  | [] => [";"]
  | line :: lines => "\x7b" :: line :: lines ++ ["\x7d"]

mutual

/-- The lines of a program under the names of a function. The header of a loop is repeated at the end of its body. -/
def print (f : Function) : Source → List String
  | done => []
  | step stmt rest => f.texts [stmt.1] ++ rest.print f
  | ifThen cond body rest => s!"if ({f.valueName cond})" :: braces (body.print f) ++ rest.print f
  | ifElse cond yes no rest =>
    s!"if ({f.valueName cond})" :: braces (yes.print f) ++ "else" :: braces (no.print f) ++ rest.print f
  | loop header cond body rest =>
    let lines := f.texts (header.map (·.1))
    lines ++ s!"while ({f.valueName cond})" :: braces (body.print f ++ lines) ++ rest.print f
  | switch selector arms rest =>
    s!"switch ({f.valueName selector})" :: "\x7b" :: arms.print f ++ "\x7d" :: rest.print f

def Arms.print (f : Function) : Arms → List String
  | .nil => []
  | .cons label body rest => (Line.caseLabel label).text :: braces (body.print f) ++ "break;" :: rest.print f

end

def PrintsAll (f : Function) (final : Bool) (source : Source) (before : List (Statement Nat Nat)) : Prop :=
  source.anchors final = true ∨ f.texts (FunctionOf.kept before) = f.texts before

theorem PrintsAll.concat {f : Function} {final : Bool} {stmt : Step} {rest : Source}
    {before : List (Statement Nat Nat)} (all : (step stmt rest).PrintsAll f final before)
    (anchored : (step stmt rest).isAnchored final) : rest.PrintsAll f final (before ++ [stmt.1]) := by
  by_cases later : rest.anchors final = true
  · exact .inl later
  · right
    rw [FunctionOf.kept_concat]
    split <;> rename_i real
    · rfl
    · -- A statement that is neither real nor an initialization has no text.
      have kept := all.resolve_left (by simp [anchors, real, later])
      have silent : f.texts [stmt.1] = [] := by
        obtain ⟨⟨result, instr⟩, inner⟩ := stmt
        cases instr <;> simp_all [isAnchored, Instr.innerKind, Instr.op, Kind.isReal, FunctionOf.texts]
      rw [kept, FunctionOf.texts_append, silent, List.append_nil]

theorem size_pos (source : Source) : 0 < source.size := by
  cases source with
  | step stmt rest => exact rest.size_pos
  | _ => simp only [size]; omega

theorem Arms.tiles (arms : Arms) (start : Nat) : Tiles start (arms.runs start) (start + arms.size) := by
  cases arms with
  | nil => rfl
  | cons _ body rest =>
    have filled := body.size_pos
    refine ⟨rfl, by omega, ?_⟩
    rw [Arms.size, ← add_assoc]
    exact rest.tiles (start + body.size)

theorem Arms.map_snd_targets (arms : Arms) (start : Nat) :
    (arms.targets start).map (·.2) = (arms.runs start).map (·.1) := by
  cases arms with
  | nil => rfl
  | cons _ _ rest =>
    simp only [Arms.targets, Arms.runs, List.map_cons, rest.map_snd_targets]

theorem Arms.length_runs (arms : Arms) (start other : Nat) : (arms.runs start).length = (arms.runs other).length := by
  cases arms with
  | nil => rfl
  | cons _ body rest =>
    simp only [Arms.runs, List.length_cons, rest.length_runs (start + body.size) (other + body.size)]

mutual

theorem length_blocks (source : Source) (start : Nat) (before : List Step) (exit : Statement Nat Nat) :
    (source.blocks start before exit).length = source.size := by
  cases source with
  | done => rfl
  | step stmt rest => exact rest.length_blocks start (before ++ [stmt]) exit
  | ifThen cond body rest =>
    simp only [blocks, size, List.length_cons, List.length_append, body.length_blocks, rest.length_blocks]
    omega
  | ifElse cond yes no rest =>
    simp only [blocks, size, List.length_cons, List.length_append, yes.length_blocks, no.length_blocks,
      rest.length_blocks]
    omega
  | loop _ _ body rest =>
    simp only [blocks, size, List.length_cons, List.length_append, body.length_blocks, rest.length_blocks]
    omega
  | switch _ arms rest =>
    simp only [blocks, size, List.length_cons, List.length_append, arms.length_blocks, rest.length_blocks]
    omega

theorem Arms.length_blocks (arms : Arms) (start join : Nat) : (arms.blocks start join).length = arms.size := by
  cases arms with
  | nil => rfl
  | cons _ body rest =>
    simp only [Arms.blocks, Arms.size, List.length_append, body.length_blocks, rest.length_blocks]

end

def Holds (f : Function) (start : Nat) (blocks : List (List (Statement Nat Nat))) : Prop :=
  ∀ i stmts, blocks[i]? = some stmts → f.blocks[start + i]?.map (·.stmts) = some stmts

namespace Holds

variable {f : Function} {base start : Nat} {before header : List Step}
  {exit last : Statement Nat Nat} {first : List (Statement Nat Nat)}
  {blocks more : List (List (Statement Nat Nat))} {cond selector : Nat} {body yes no rest : Source} {arms : Arms}

theorem head (holds : Holds f start (block before last :: blocks)) : f.HasBlock start (before.map (·.1)) last := by
  refine ⟨holds 0 _ rfl, ?_⟩
  intro stmt mem
  obtain ⟨stmt, -, rfl⟩ := List.mem_map.1 mem
  exact stmt.2

theorem tail (holds : Holds f start (first :: blocks)) : Holds f (start + 1) blocks := by
  intro i stmts found
  rw [add_assoc, add_comm 1 i]
  exact holds (i + 1) stmts found

theorem left (holds : Holds f start (blocks ++ more)) : Holds f start blocks := by
  intro i stmts found
  apply holds
  rw [List.getElem?_append_left (List.getElem?_eq_some_iff.1 found).1, found]

theorem right (holds : Holds f start (blocks ++ more)) : Holds f (start + blocks.length) more := by
  intro i stmts found
  rw [add_assoc]
  apply holds
  rw [List.getElem?_append_right (Nat.le_add_right _ _), Nat.add_sub_cancel_left, found]

theorem ofIfThen (holds : Holds f start ((ifThen cond body rest).blocks start before exit)) :
    f.HasBlock start (before.map (·.1)) ⟨none, .condbr cond (start + 1) (start + 1 + body.size)⟩ ∧
    Holds f (start + 1) (body.blocks (start + 1) [] (branch (start + 1 + body.size))) ∧
    Holds f (start + 1 + body.size) (rest.blocks (start + 1 + body.size) [] exit) := by
  have after := holds.tail.right
  rw [length_blocks] at after
  exact ⟨holds.head, holds.tail.left, after⟩

theorem ofIfElse (holds : Holds f start ((ifElse cond yes no rest).blocks start before exit)) :
    f.HasBlock start (before.map (·.1)) ⟨none, .condbr cond (start + 1) (start + 1 + yes.size)⟩ ∧
    Holds f (start + 1) (yes.blocks (start + 1) [] (branch (start + 1 + yes.size + no.size))) ∧
    Holds f (start + 1 + yes.size) (no.blocks (start + 1 + yes.size) [] (branch (start + 1 + yes.size + no.size))) ∧
    Holds f (start + 1 + yes.size + no.size) (rest.blocks (start + 1 + yes.size + no.size) [] exit) := by
  have middle := holds.tail.right
  rw [length_blocks] at middle
  have after := middle.right
  rw [length_blocks] at after
  exact ⟨holds.head, holds.tail.left, middle.left, after⟩

theorem ofLoop (holds : Holds f start ((loop header cond body rest).blocks start before exit)) :
    f.HasBlock start (before.map (·.1)) (branch (start + 1)) ∧
    f.HasBlock (start + 1) (header.map (·.1)) ⟨none, .loop cond (start + 2) (start + 2 + body.size)⟩ ∧
    Holds f (start + 2) (body.blocks (start + 2) [] (branch (start + 1))) ∧
    Holds f (start + 2 + body.size) (rest.blocks (start + 2 + body.size) [] exit) := by
  have after := holds.tail.tail.right
  rw [length_blocks] at after
  exact ⟨holds.head, holds.tail.head, holds.tail.tail.left, after⟩

theorem ofSwitch (holds : Holds f start ((switch selector arms rest).blocks start before exit)) :
    f.HasBlock start (before.map (·.1)) ⟨none, .switch selector (arms.targets (start + 1))⟩ ∧
    Holds f (start + 1) (arms.blocks (start + 1) (start + 1 + arms.size)) ∧
    Holds f (start + 1 + arms.size) (rest.blocks (start + 1 + arms.size) [] exit) := by
  have after := holds.tail.right
  rw [Arms.length_blocks] at after
  exact ⟨holds.head, holds.tail.left, after⟩

end Holds

section Regions

variable {f : Function} {base start join after : Nat} {before : List (Statement Nat Nat)}
  {header : List (Statement Nat Nat)} {cond selector middle : Nat} {arms : Arms}

theorem fork_ifThen (has : f.HasBlock start before ⟨none, .condbr cond (start + 1) join⟩)
    (inner : (f.procedure base).Region (start + 1) join [join]) :
    (f.procedure base).Fork start join [(start + 1, join)] True where
  succs x := by
    rw [has.mem_succs_iff]
    simp [Instr.targets]
  tiles := ⟨rfl, inner.lt, rfl⟩
  divided := .inl trivial
  inner arm mem := by
    obtain rfl := List.mem_singleton.1 mem
    exact inner

theorem fork_ifElse (has : f.HasBlock start before ⟨none, .condbr cond (start + 1) middle⟩)
    (yes : (f.procedure base).Region (start + 1) middle [join])
    (no : (f.procedure base).Region middle join [join]) :
    (f.procedure base).Fork start join [(start + 1, middle), (middle, join)] False where
  succs x := by
    rw [has.mem_succs_iff]
    simp [Instr.targets]
  tiles := ⟨rfl, yes.lt, rfl, no.lt, rfl⟩
  divided := by
    refine .inr ⟨_, .head _, _, .tail _ (.head _), fun same => ?_⟩
    have := congrArg (·.1) same
    have := yes.lt
    simp only at *
    omega
  inner arm mem := by
    rcases List.mem_cons.1 mem with rfl | later
    · exact yes
    · obtain rfl := List.mem_singleton.1 later
      exact no

theorem fork_switch (has : f.HasBlock start before ⟨none, .switch selector (arms.targets (start + 1))⟩)
    (several : 1 < (arms.runs 0).length)
    (inner : ∀ arm ∈ arms.runs (start + 1), (f.procedure base).Region arm.1 arm.2 [start + 1 + arms.size]) :
    (f.procedure base).Fork start (start + 1 + arms.size) (arms.runs (start + 1)) False where
  succs x := by
    rw [has.mem_succs_iff]
    simp only [Instr.targets, false_and, or_false]
    rw [arms.map_snd_targets]
  tiles := arms.tiles (start + 1)
  divided := by
    rw [arms.length_runs 0 (start + 1)] at several
    have tiles := arms.tiles (start + 1)
    cases found : arms.runs (start + 1) with
    | nil => simp [found] at several
    | cons first rest =>
      cases rest with
      | nil => simp [found] at several
      | cons second =>
        rw [found] at tiles
        obtain ⟨-, _, same, _, -⟩ := tiles
        refine .inr ⟨first, by simp, second, by simp, ?_⟩
        rintro rfl
        omega
  inner := inner

theorem cycle_loop (enter : f.HasBlock start before (branch (start + 1)))
    (test : f.HasBlock (start + 1) header ⟨none, .loop cond (start + 2) after⟩)
    (body : (f.procedure base).Region (start + 2) after [start + 1]) :
    (f.procedure base).Cycle start after where
  enter x := by
    rw [enter.mem_succs_iff]
    simp [branch, Instr.targets]
  test x := by
    rw [test.mem_succs_iff]
    simp [Instr.targets]
  body := body

end Regions

end Source

end Reflow
