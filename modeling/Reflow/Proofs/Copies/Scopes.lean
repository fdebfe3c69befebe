import Mathlib.Tactic
import Reflow.Copies.Rename

namespace Reflow.Rename

variable {stack : Stack} {v w : Var} {name other : String} {own : List (Var × String)}
  {outer frames : List (List (Var × String))} {scope : Scope}

theorem names_cons (u w : Var) (held : List String) (rest : Stack) :
    names ((u, held) :: rest) w = if w = u then held else names rest w := by
  unfold names
  rw [List.lookup_cons]
  by_cases same : w = u
  · simp [same]
  · have apart : (w == u) = false := by simpa using same
    rw [apart, if_neg same]

theorem names_push (v w : Var) (name : String) (stack : Stack) :
    names (push v name stack) w = if w = v then name :: names stack v else names stack w := by
  induction stack with
  | nil => rw [push, names_cons]; rfl
  | cons entry rest ih =>
    obtain ⟨u, held⟩ := entry
    rw [push, names_cons, names_cons]
    by_cases here : v = u
    · subst here
      rw [if_pos rfl, if_pos rfl, names_cons]
      by_cases same : w = v <;> simp [same]
    · rw [if_neg here, if_neg here, names_cons, ih]
      by_cases same : w = u
      · simp [same, Ne.symm here]
      · simp [same]

theorem mem_names_push (mem : name ∈ names stack w) : name ∈ names (push v other stack) w := by
  rw [names_push]
  split <;> rename_i same
  · exact List.mem_cons_of_mem _ (same ▸ mem)
  · exact mem

theorem forall_push {holds : String → Prop} (new : holds name) (old : ∀ entry ∈ stack, ∀ name ∈ entry.2, holds name) :
    ∀ entry ∈ push v name stack, ∀ name ∈ entry.2, holds name := by
  induction stack with
  | nil => simpa [push] using new
  | cons _ _ ih =>
    obtain ⟨here, later⟩ := List.forall_mem_cons.1 old
    rw [push]
    split
    · exact List.forall_mem_cons.2 ⟨List.forall_mem_cons.2 ⟨new, here⟩, later⟩
    · exact List.forall_mem_cons.2 ⟨here, ih later⟩

def Filled (stack : Stack) : Prop :=
  ∀ entry ∈ stack, entry.2 ≠ []

theorem Filled.push (filled : Filled stack) (v : Var) (name : String) : Filled (push v name stack) := by
  induction stack with
  | nil => simp [Rename.push, Filled]
  | cons _ _ ih =>
    obtain ⟨here, later⟩ := List.forall_mem_cons.1 filled
    rw [Rename.push]
    split
    · exact List.forall_mem_cons.2 ⟨List.cons_ne_nil _ _, later⟩
    · exact List.forall_mem_cons.2 ⟨here, ih later⟩

theorem Filled.pop_push (filled : Filled stack) (v : Var) (name : String) :
    pop v (Rename.push v name stack) = stack := by
  induction stack with
  | nil => simp [Rename.push, pop]
  | cons entry rest ih =>
    obtain ⟨w, held⟩ := entry
    obtain ⟨here, later⟩ := List.forall_mem_cons.1 filled
    by_cases same : v = w
    · obtain ⟨first, others, rfl⟩ := List.exists_cons_of_ne_nil here
      simp [Rename.push, pop, same]
    · simp [Rename.push, pop, same, ih later]

example : pop 1 (push 1 "a" [(1, [])]) = [] := by
  decide

def pushAll (pushes : List (Var × String)) (stack : Stack) : Stack :=
  pushes.foldr (fun entry => push entry.1 entry.2) stack

theorem pushAll_append (pushes more : List (Var × String)) (stack : Stack) :
    pushAll (pushes ++ more) stack = pushAll pushes (pushAll more stack) :=
  List.foldr_append

theorem Filled.pushAll (filled : Filled stack) (pushes : List (Var × String)) : Filled (pushAll pushes stack) := by
  induction pushes with
  | nil => exact filled
  | cons entry _ ih => exact ih.push entry.1 entry.2

theorem Filled.popAll (filled : Filled stack) (pushes : List (Var × String)) :
    (pushes.map (·.1)).foldl (fun stack v => pop v stack) (Rename.pushAll pushes stack) = stack := by
  induction pushes with
  | nil => rfl
  | cons entry pushes ih =>
    have popped : pop entry.1 (Rename.pushAll (entry :: pushes) stack) = Rename.pushAll pushes stack :=
      (filled.pushAll pushes).pop_push entry.1 entry.2
    rw [List.map_cons, List.foldl_cons, popped, ih]

theorem mem_names_pushAll {pushes : List (Var × String)} :
    name ∈ names (pushAll pushes stack) v ↔ (v, name) ∈ pushes ∨ name ∈ names stack v := by
  induction pushes with
  | nil => simp [pushAll]
  | cons entry pushes ih =>
    obtain ⟨w, first⟩ := entry
    change name ∈ names (push w first (pushAll pushes stack)) v ↔ _
    rw [names_push]
    by_cases same : v = w
    · subst same
      simp [ih, or_assoc]
    · simp [ih, same]

theorem top?_pushAll (pushes : List (Var × String)) (stack : Stack) (v : Var) :
    top? (pushAll pushes stack) v = (pushes.lookup v).or (top? stack v) := by
  induction pushes with
  | nil => rfl
  | cons entry pushes ih =>
    obtain ⟨w, first⟩ := entry
    change (names (push w first (pushAll pushes stack)) v).head? = _
    rw [names_push, List.lookup_cons]
    by_cases same : v = w
    · simp [same]
    · have apart : (v == w) = false := by simpa using same
      rw [if_neg same, apart]
      exact ih

theorem mem_names_of_top? (found : top? stack v = some name) : name ∈ names stack v :=
  List.mem_of_mem_head? found

theorem exists_entry_of_top? (found : top? stack v = some name) : ∃ entry ∈ stack, name ∈ entry.2 := by
  cases here : stack.lookup v with
  | none => simp [top?, names, here] at found
  | some held =>
    obtain ⟨before, after, rfl, -⟩ := List.lookup_eq_some_iff.1 here
    exact ⟨(v, held), by simp, by simpa [names, here] using mem_names_of_top? found⟩

theorem Filled.close_eq (filled : Filled stack) (pushes : List (Var × String)) :
    Scope.close ⟨Rename.pushAll pushes stack, pushes.map (·.1)⟩ = stack :=
  filled.popAll pushes

/-- The innermost of the scopes that are open over some stacks, with the names that were pushed in them while they are
open: those of the innermost scope first, and in each scope the last one first. -/
inductive Opened (stack : Stack) : Scope → List (List (Var × String)) → Prop
  | first : Opened stack (.enter stack) [[]]
  | nested {scope : Scope} {frames : List (List (Var × String))} (outer : Opened stack scope frames) :
      Opened stack (.enter scope.stack) ([] :: frames)
  | pushed {scope : Scope} {own : List (Var × String)} {frames : List (List (Var × String))} (v : Var) (name : String)
      (before : Opened stack scope (own :: frames)) : Opened stack (scope.push v name) (((v, name) :: own) :: frames)
  | left {scope inner : Scope} {own : List (Var × String)} {frames : List (List (Var × String))}
      (outer : Opened stack scope frames) (inside : Opened stack inner (own :: frames)) :
      Opened stack { scope with stack := inner.close } frames

/-- Stacks that can be come to from none through scopes. -/
def Reached (stack : Stack) : Prop :=
  ∃ scope frames, Opened [] scope frames ∧ stack = scope.stack

theorem Opened.eq (opened : Opened stack scope frames) (filled : Filled stack) :
    ∃ own outer, frames = own :: outer ∧ scope = ⟨pushAll (own ++ outer.flatten) stack, own.map (·.1)⟩ := by
  induction opened with
  | first => exact ⟨[], [], rfl, rfl⟩
  | nested _ ih =>
    obtain ⟨own, outer, rfl, rfl⟩ := ih
    exact ⟨[], own :: outer, rfl, rfl⟩
  | pushed _ _ _ ih =>
    obtain ⟨own, outer, same, rfl⟩ := ih
    obtain ⟨rfl, rfl⟩ := List.cons.inj same
    exact ⟨_, _, rfl, rfl⟩
  | left _ _ ihOuter ihInside =>
    obtain ⟨own, outer, rfl, rfl⟩ := ihOuter
    obtain ⟨own', _, same, rfl⟩ := ihInside
    obtain ⟨rfl, rfl⟩ := List.cons.inj same
    refine ⟨own, outer, rfl, ?_⟩
    rw [pushAll_append, (filled.pushAll _).close_eq]
    rfl

theorem Opened.eq_of_cons (opened : Opened stack scope (own :: outer)) (filled : Filled stack) :
    scope = ⟨pushAll own (pushAll outer.flatten stack), own.map (·.1)⟩ := by
  obtain ⟨own', outer', same, rfl⟩ := opened.eq filled
  obtain ⟨rfl, rfl⟩ := List.cons.inj same
  rw [pushAll_append]

theorem Opened.stack_eq (opened : Opened stack scope frames) (filled : Filled stack) :
    scope.stack = pushAll frames.flatten stack := by
  obtain ⟨own, outer, rfl, rfl⟩ := opened.eq filled
  rfl

theorem Opened.close_eq (opened : Opened stack scope (own :: outer)) (filled : Filled stack) :
    scope.close = pushAll outer.flatten stack := by
  rw [opened.eq_of_cons filled, (filled.pushAll _).close_eq]

theorem Reached.filled (reached : Reached stack) : Filled stack := by
  obtain ⟨scope, frames, opened, rfl⟩ := reached
  have none : Filled [] := List.forall_mem_nil _
  exact opened.stack_eq none ▸ none.pushAll _

def Step.pushes : Step → List (Var × String)
  | .push v name => [(v, name)]
  | _ => []

def pushesOf (steps : List Step) : List (Var × String) :=
  (steps.reverse.map Step.pushes).flatten

mutual

theorem Opened.step {scope : Scope} {own : List (Var × String)} {outer : List (List (Var × String))}
    (opened : Opened stack scope (own :: outer)) (step : Step) :
    Opened stack (scope.step step).1 ((step.pushes ++ own) :: outer) := by
  cases step with
  | push v name => exact opened.pushed v name
  | top v => exact opened
  | has v => exact opened
  | enter steps => exact .left opened (opened.nested.run steps)

theorem Opened.run {scope : Scope} {own : List (Var × String)} {outer : List (List (Var × String))}
    (opened : Opened stack scope (own :: outer)) (steps : List Step) :
    Opened stack (scope.run steps).1 ((pushesOf steps ++ own) :: outer) := by
  cases steps with
  | nil => exact opened
  | cons step rest => simpa [pushesOf, Scope.run] using (opened.step step).run rest

end

/-- The name in force for a variable is the one pushed last in a scope that is still open, or else the one from before
all scopes, and the innermost scope has pushed what was pushed in it and not in scopes inside. -/
theorem scopes_balanced (reached : Reached stack) (opened : Opened stack scope (own :: outer)) :
    (∀ v, top? scope.stack v = ((own :: outer).flatten.lookup v).or (top? stack v)) ∧
    (∀ v, scope.hasPushed v = true ↔ ∃ name, (v, name) ∈ own) ∧
    (∀ entry ∈ scope.stack, entry.2 ≠ []) ∧
    (outer = [] → scope.close = stack) ∧ (∀ around, Opened stack around outer → scope.close = around.stack) ∧
    (∀ steps, Opened stack (scope.run steps).1 ((pushesOf steps ++ own) :: outer)) ∧
    ∀ steps, ((Scope.enter scope.stack).run steps).1.close = scope.stack ∧ (scope.step (.enter steps)).1 = scope := by
  have filled := reached.filled
  refine ⟨fun v => ?_, fun v => ?_, ?_, ?_, fun around encloses => ?_, opened.run, fun steps => ⟨?_, ?_⟩⟩
  · rw [opened.stack_eq filled, top?_pushAll]
  · rw [opened.eq_of_cons filled]
    simp [Scope.hasPushed]
  · exact opened.stack_eq filled ▸ filled.pushAll _
  · rintro rfl
    exact opened.close_eq filled
  · rw [opened.close_eq filled, encloses.stack_eq filled]
  · exact ((opened.nested.run steps).close_eq filled).trans (opened.stack_eq filled).symm
  · rw [(opened.step (.enter steps)).eq_of_cons filled, opened.eq_of_cons filled]
    rfl

theorem shadowing_balanced :
    let inner : List Step := [.push 1 "c", .enter [.push 2 "d", .push 1 "e"]]
    let scope := ((Scope.enter [(1, ["z"])]).run [.push 1 "a", .push 2 "b", .enter inner]).1
    Reached [(1, ["z"])] ∧ Opened [(1, ["z"])] scope [[(2, "b"), (1, "a")]] ∧ top? scope.stack 1 = some "a" ∧
      scope.hasPushed 2 = true ∧ scope.close = [(1, ["z"])] ∧ (scope.step (.enter inner)).1 = scope := by
  intro inner scope
  have reached : Reached [(1, ["z"])] := ⟨_, _, .pushed 1 "z" .first, rfl⟩
  obtain ⟨-, -, -, -, -, runs, -⟩ := scopes_balanced reached .first
  have opened := runs [.push 1 "a", .push 2 "b", .enter inner]
  obtain ⟨top, pushed, -, closed, -, -, nested⟩ := scopes_balanced reached opened
  exact ⟨reached, opened, top 1, (pushed 2).2 ⟨"b", .head _⟩, closed rfl, (nested inner).2⟩

end Reflow.Rename
