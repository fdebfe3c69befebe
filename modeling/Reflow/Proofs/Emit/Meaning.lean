import Reflow.Proofs.Program.Follow

namespace Reflow

open Program

variable {f : Program.Function} {name : BlockId → String} {b : BlockId} {body : List (Statement Nat Nat)}
  {last : Statement Nat Nat} {cond : Var} {limit least less : Nat} {jump : String → Resume} {resume : Resume}

def Follows (f : Program.Function) (b : BlockId) (least : Nat) (resume : Resume) : Prop :=
  ∀ outcomes, ∃ n, least ≤ n ∧ resume outcomes = f.follow n b outcomes

def Arrives (f : Program.Function) (b : BlockId) (least : Nat) (resume : Resume) : Prop :=
  Follows f b (least - 1) resume

def Leaves (f : Program.Function) (last : Statement Nat Nat) (least : Nat) (resume : Resume) : Prop :=
  ∀ outcomes, ∃ n, least ≤ n + 1 ∧ resume outcomes = f.followStatements (f.follow n) [last] outcomes

def JumpsTo (f : Program.Function) (name : BlockId → String) (targets : List BlockId) (least : Nat)
    (jump : String → Resume) : Prop :=
  ∀ b ∈ targets, Arrives f b least (jump (name b))

theorem Follows.mono (le : less ≤ least) (follows : Follows f b least resume) : Follows f b less resume := by
  intro outcomes
  obtain ⟨n, bound, same⟩ := follows outcomes
  exact ⟨n, le.trans bound, same⟩

theorem Follows.arrives (follows : Follows f b least resume) : Arrives f b least resume :=
  follows.mono (Nat.sub_le least 1)

theorem JumpsTo.mono {targets fewer : List BlockId} (subset : fewer ⊆ targets) (le : less ≤ least)
    (jumps : JumpsTo f name targets least jump) : JumpsTo f name fewer less jump := by
  intro b mem
  exact (jumps b (subset mem)).mono (by omega)

structure Program.FunctionOf.HasBlock (f : Program.Function) (b : BlockId)
    (body : List (Statement Nat Nat)) (last : Statement Nat Nat) : Prop where
  found : f.blocks[b]?.map (·.stmts) = some (body ++ [last])
  inner : ∀ stmt ∈ body, stmt.instr.isInner

theorem Program.FunctionOf.HasBlock.unique {body' : List (Statement Nat Nat)} {last' : Statement Nat Nat}
    (has : f.HasBlock b body last) (has' : f.HasBlock b body' last') : body = body' ∧ last = last' := by
  have same := has.found.symm.trans has'.found
  simpa using List.append_inj' (Option.some.inj same) rfl

theorem Leaves.follows (block : f.HasBlock b body last) (leaves : Leaves f last least resume) :
    Follows f b least ((Code.sequence (f.codes body)).run limit jump resume) := by
  intro outcomes
  obtain ⟨n, bound, same⟩ := leaves outcomes
  refine ⟨n + 1, bound, ?_⟩
  obtain ⟨view, found, stmts⟩ := Option.map_eq_some_iff.1 block.found
  rw [FunctionOf.follow, found, Option.elim_some, stmts, FunctionOf.followStatements_append block.inner _ _ limit jump]
  exact FunctionOf.run_codes_congr same

/-- A piece of code that prints the labels of the blocks in `printed'` and not in `printed`, each in front of its block,
and that reaches `goal` if what comes after it satisfies `next`. -/
structure Means (f : Program.Function) (name : BlockId → String) (printed printed' targets : List BlockId)
    (next goal : Nat → Resume → Prop) (code : Code) : Prop where
  labels : ∀ label ∈ code.labels, ∃ b ∈ printed', b ∉ printed ∧ label = name b
  enters : ∀ limit least jump resume, least ≤ limit → JumpsTo f name targets least jump →
    next least resume → ∀ b ∈ printed', b ∉ printed → ∃ entered,
      code.enter limit jump (name b) resume = some entered ∧ Follows f b least entered
  runs : ∀ limit least jump resume, least ≤ limit → JumpsTo f name targets least jump →
    next least resume → goal least (code.run limit jump resume)

namespace Means

variable {printed printed' printed'' targets more : List BlockId}
  {next next' middle goal goal' : Nat → Resume → Prop} {code code' : Code} {codes codes' : List Code}

theorem mono (means : Means f name printed printed' targets next goal code) (subset : targets ⊆ more)
    (before : ∀ least resume, next' least resume → next least resume)
    (after : ∀ least resume, goal least resume → goal' least resume) :
    Means f name printed printed' more next' goal' code where
  labels := means.labels
  enters limit least jump resume le jumps comes :=
    means.enters limit least jump resume le (jumps.mono subset le_rfl) (before _ _ comes)
  runs limit least jump resume le jumps comes :=
    after _ _ (means.runs limit least jump resume le (jumps.mono subset le_rfl) (before _ _ comes))

theorem unlabelled (none : code.labels = [])
    (runs : ∀ limit least jump resume, least ≤ limit → JumpsTo f name targets least jump →
      next least resume → goal least (code.run limit jump resume)) :
    Means f name printed printed targets next goal code where
  labels := by simp [none]
  enters _ _ _ _ _ _ _ b mem fresh := absurd mem fresh
  runs := runs

theorem skip : Means f name printed printed targets next next .skip :=
  unlabelled rfl fun _ _ _ _ _ _ comes => comes

theorem goto (mem : b ∈ targets) : Means f name printed printed targets next (Arrives f b) (.goto (name b)) :=
  unlabelled rfl fun _ _ _ _ _ jumps _ => jumps b mem

theorem congr (means : Means f name printed printed' targets next goal code) (alike : code'.Alike code) :
    Means f name printed printed' targets next goal code' where
  labels := alike.labels ▸ means.labels
  enters limit least jump resume le jumps comes b inside fresh :=
    alike.enter limit jump _ resume ▸ means.enters limit least jump resume le jumps comes b inside fresh
  runs limit least jump resume le jumps comes :=
    alike.run limit jump resume ▸ means.runs limit least jump resume le jumps comes

theorem single (means : Means f name printed printed' targets next goal code) :
    Means f name printed printed' targets next goal (Code.sequence [code]) :=
  means.congr (Code.alike_sequence_singleton code)

section Pieces

variable (injective : Function.Injective name) (grows : printed ⊆ printed') (grows' : printed' ⊆ printed'')

include injective in
theorem exists_enter_or (first : Means f name printed printed' targets middle goal code)
    (second : Means f name printed' printed'' targets next goal' code') {inner outer : Resume} (le : least ≤ limit)
    (jumps : JumpsTo f name targets least jump) (between : middle least inner) (comes : next least outer)
    (inside : b ∈ printed'') (fresh : b ∉ printed) : ∃ entered, (code.enter limit jump (name b) inner).or
      (code'.enter limit jump (name b) outer) = some entered ∧ Follows f b least entered := by
  by_cases early : b ∈ printed'
  · obtain ⟨entered, found, follows⟩ := first.enters limit least jump inner le jumps between b early fresh
    exact ⟨entered, by rw [found, Option.some_or], follows⟩
  · obtain ⟨entered, found, follows⟩ := second.enters limit least jump outer le jumps comes b inside early
    refine ⟨entered, ?_, follows⟩
    rw [Code.enter_eq_none, Option.none_or, found]
    intro mem
    obtain ⟨c, placed, -, same⟩ := first.labels _ mem
    exact early (injective same ▸ placed)

include grows grows'

theorem labels_append (first : Means f name printed printed' targets middle goal code)
    (second : Means f name printed' printed'' targets next goal' code') :
    ∀ label ∈ code.labels ++ code'.labels, ∃ b ∈ printed'', b ∉ printed ∧ label = name b := by
  intro label mem
  rcases List.mem_append.1 mem with left | right
  · obtain ⟨b, inside, fresh, same⟩ := first.labels label left
    exact ⟨b, grows' inside, fresh, same⟩
  · obtain ⟨b, inside, fresh, same⟩ := second.labels label right
    exact ⟨b, inside, fun old => fresh (grows old), same⟩

include injective

theorem seq (first : Means f name printed printed' targets middle goal code)
    (second : Means f name printed' printed'' targets next middle code') :
    Means f name printed printed'' targets next goal (.seq code code') where
  labels := labels_append grows grows' first second
  enters limit least jump resume le jumps comes _ inside fresh :=
    exists_enter_or injective first second le jumps (second.runs limit least jump resume le jumps comes) comes
      inside fresh
  runs limit least jump resume le jumps comes :=
    first.runs limit least jump _ le jumps (second.runs limit least jump resume le jumps comes)

theorem append (first : Means f name printed printed' targets middle goal (Code.sequence codes))
    (second : Means f name printed' printed'' targets next middle (Code.sequence codes')) :
    Means f name printed printed'' targets next goal (Code.sequence (codes ++ codes')) :=
  (first.seq injective grows grows' second).congr (Code.alike_sequence_append codes codes')

theorem ite (cond : String) (first : Means f name printed printed' targets next goal code)
    (second : Means f name printed' printed'' targets next goal' code') :
    Means f name printed printed'' targets next (fun least resume => ∃ yes no, goal least yes ∧
      goal' least no ∧ resume = .test cond yes no) (.ite cond code code') where
  labels := labels_append grows grows' first second
  enters _ _ _ _ le jumps comes _ inside fresh :=
    exists_enter_or injective first second le jumps comes comes inside fresh
  runs limit least jump resume le jumps comes :=
    ⟨_, _, first.runs limit least jump resume le jumps comes, second.runs limit least jump resume le jumps comes, rfl⟩

end Pieces

theorem label (mem : b ∈ printed') (single : ∀ c ∈ printed', c ∉ printed → c = b) (fresh : b ∉ printed) :
    Means f name printed printed' targets (Follows f b) (Follows f b) (.label (name b)) where
  labels := by
    intro label found
    rw [Code.labels, List.mem_singleton] at found
    exact ⟨b, mem, fresh, found⟩
  enters := by
    intro limit least jump resume _ _ comes c inside unprinted
    obtain rfl := single c inside unprinted
    exact ⟨resume, by simp [Code.enter], comes⟩
  runs _ _ _ _ _ _ comes := comes

theorem statements (block : f.HasBlock b body last) :
    Means f name printed printed targets (Leaves f last) (Follows f b) (Code.sequence (f.codes body)) :=
  unlabelled (FunctionOf.labels_codes f body) fun _ _ _ _ _ _ comes => comes.follows block

theorem ret {result : Option Var} (instr : last.instr = .ret result) :
    Means f name printed printed targets next (Leaves f last) (.ret (f.statementText last)) := by
  apply unlabelled rfl
  intro limit least jump resume _ _ _ outcomes
  refine ⟨least, by omega, ?_⟩
  rw [FunctionOf.followStatements, instr]
  rfl

end Means

variable {arms : List (Var × BlockId)}

theorem Arrives.leaves {target : BlockId} (instr : last.instr = .br target ∨ last.instr = .goto target)
    (arrives : Arrives f target least resume) : Leaves f last least resume := by
  intro outcomes
  obtain ⟨n, bound, same⟩ := arrives outcomes
  refine ⟨n, by omega, ?_⟩
  rw [same, FunctionOf.followStatements]
  rcases instr with instr | instr <;> rw [instr]

def Chooses (f : Program.Function) (otherwise : BlockId) : List (Var × BlockId) → Nat → Resume → Prop
  | [], least, resume => Arrives f otherwise least resume
  | (cond, target) :: arms, least, resume => ∃ yes no, Arrives f target least yes ∧
      Chooses f otherwise arms least no ∧ resume = .test (f.valueName cond) yes no

theorem Chooses.follows {otherwise : BlockId}
    (chooses : Chooses f otherwise arms least resume) (outcomes : Stream' Bool) :
    ∃ n, least ≤ n + 1 ∧ resume outcomes = f.followArms (f.follow n) (f.follow n otherwise) arms outcomes := by
  induction arms generalizing resume outcomes with
  | nil =>
    obtain ⟨n, bound, same⟩ := chooses outcomes
    exact ⟨n, by omega, same⟩
  | cons _ _ ih =>
    obtain ⟨yes, no, first, second, rfl⟩ := chooses
    cases head : outcomes.head with
    | true =>
      obtain ⟨n, bound, same⟩ := first outcomes.tail
      exact ⟨n, by omega, by simp [FunctionOf.followArms, Resume.test, head, same]⟩
    | false =>
      obtain ⟨n, bound, same⟩ := ih second outcomes.tail
      exact ⟨n, bound, by simp [FunctionOf.followArms, Resume.test, head, same]⟩

theorem Chooses.leaves_condbr {thenBlock elseBlock : BlockId} (instr : last.instr = .condbr cond thenBlock elseBlock)
    (chooses : Chooses f elseBlock [(cond, thenBlock)] least resume) : Leaves f last least resume := by
  intro outcomes
  obtain ⟨n, bound, same⟩ := chooses.follows outcomes
  refine ⟨n, bound, ?_⟩
  rw [same, FunctionOf.followStatements, instr]
  rfl

theorem Chooses.leaves_multiif {target otherwise : BlockId}
    (instr : last.instr = .multiif cond target arms (some otherwise))
    (chooses : Chooses f otherwise ((cond, target) :: arms) least resume) : Leaves f last least resume := by
  intro outcomes
  obtain ⟨n, bound, same⟩ := chooses.follows outcomes
  refine ⟨n, bound, ?_⟩
  rw [same, FunctionOf.followStatements, instr]
  rfl

section Loop

variable {printed printed' targets : List BlockId} {body exit : BlockId} {code : Code}

section

variable (instr : last.instr = .loop cond body exit)
  (means : Means f name printed printed' targets (Leaves f last) (Follows f body) code)
include instr means

theorem rounds_leaves (le : least ≤ limit) (jumps : JumpsTo f name targets least jump)
    (arrives : Arrives f exit least resume) (count : Nat) :
    Leaves f last (min count least) (Resume.rounds (f.valueName cond) (code.run limit jump) resume count) := by
  have steps (n : Nat) : f.followStatements (f.follow n) [last] =
      .test (f.valueName cond) (f.follow n body) (f.follow n exit) := by
    rw [FunctionOf.followStatements, instr]
  induction count with
  | zero =>
    intro outcomes
    cases head : outcomes.head with
    | true =>
      refine ⟨0, by omega, ?_⟩
      rw [steps]
      simp [Resume.rounds, Resume.test, head, FunctionOf.follow]
    | false =>
      obtain ⟨n, bound, same⟩ := arrives outcomes.tail
      exact ⟨n, by omega, by simp [steps, Resume.rounds, Resume.test, head, same]⟩
  | succ count ih =>
    intro outcomes
    cases head : outcomes.head with
    | true =>
      obtain ⟨n, bound, same⟩ := means.runs limit (min count least) jump _ (by omega)
        (jumps.mono (.refl _) (by omega)) ih outcomes.tail
      exact ⟨n, by omega, by simp [steps, Resume.rounds, Resume.test, head, same]⟩
    | false =>
      obtain ⟨n, bound, same⟩ := arrives outcomes.tail
      exact ⟨n, by omega, by simp [steps, Resume.rounds, Resume.test, head, same]⟩

theorem Means.loop :
    Means f name printed printed' targets (Arrives f exit) (Leaves f last) (.loop (f.valueName cond) code) where
  labels := means.labels
  enters limit least jump resume le jumps comes := by
    have test := rounds_leaves instr means le jumps comes limit
    rw [min_eq_right le] at test
    exact means.enters limit least jump _ le jumps test
  runs limit least jump resume le jumps comes := by
    have test := rounds_leaves instr means le jumps comes limit
    rw [min_eq_right le] at test
    exact test

end

end Loop

variable {entry : BlockId}

theorem Means.runUpTo {printed targets : List BlockId} {code : Code}
    (means : Means f name [] printed targets (fun _ _ => True) (Follows f entry) code)
    (subset : targets ⊆ printed) (limit : Nat) : Follows f entry limit (code.runUpTo limit) := by
  have jumps : JumpsTo f name targets limit (code.jumpIn limit) := by
    induction limit with
    | zero =>
      intro b _ outcomes
      exact ⟨0, le_rfl, rfl⟩
    | succ limit ih =>
      intro b mem
      obtain ⟨entered, found, follows⟩ := means.enters limit limit (code.jumpIn limit) (.stop .fellOff)
        le_rfl ih trivial b (subset mem) (by simp)
      rw [Code.jumpIn, found]
      exact follows
  exact means.runs limit limit (code.jumpIn limit) (.stop .fellOff) le_rfl jumps trivial

theorem sameRuns_of_follows {code : Code}
    (follows : ∀ limit, Follows f entry limit (code.runUpTo limit)) (outcomes : Stream' Bool) :
    SameRuns (code.runUpTo · outcomes) (f.follow · entry outcomes) where
  forth limit := by
    obtain ⟨n, -, same⟩ := follows limit outcomes
    exact ⟨n, same ▸ .refl _⟩
  back n := by
    obtain ⟨m, le, same⟩ := follows n outcomes
    exact ⟨n, same ▸ FunctionOf.follow_goesOnAs le entry outcomes⟩

end Reflow
