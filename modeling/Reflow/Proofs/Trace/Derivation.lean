import Reflow.Proofs.Trace.Moves

namespace Reflow

open Emission Relation Traversal

def Progress.counted (progress : Progress) : Nat × Nat :=
  (progress.jumps, progress.labels)

@[simp] theorem Progress.counted_traversal (progress : Progress) (t : Traversal) :
    ({ progress with traversal := t } : Progress).counted = progress.counted :=
  rfl

def Kind.jumps : Kind → Nat
  | .jump targets => targets.length
  | _ => 0

abbrev Line.isQuiet : Line → Bool
  | .stmt .. | .jump .. | .label .. => false
  | _ => true

namespace Emitter

variable {e : Emitter} {recurse : Recurse} {bound : Nat} {here after : Progress} {b x : BlockId} {task : Task}
  {lines more : List Line} {deferred : Option BlockId} {way : Way} {count : List Line → Nat × Nat}

/-! ## Counted lines -/

structure Counts (e : Emitter) (count : List Line → Nat × Nat) : Prop where
  append : ∀ lines more, count (lines ++ more) = count lines + count more
  quiet : ∀ lines, lines.all Line.isQuiet = true → count lines = 0
  jump : ∀ x label nested, count [.jump x label nested] = (1, 0)
  label : ∀ b text, count [.label b text] = (0, 1)
  header : ∀ b lines, e.HeaderLines b lines → count lines = 0
  body : ∀ b stmts lines, e.procedure.classified b = .ok stmts → e.BodyLines b (upToLastReal stmts) lines →
    count lines = (((endOf stmts).map Kind.jumps).getD 0, 0)

namespace Counts

variable (counts : e.Counts count)
include counts

theorem nil : count [] = 0 :=
  counts.quiet [] rfl

theorem cons {line : Line} (quiet : line.isQuiet = true) : count (line :: lines) = count lines := by
  rw [← List.singleton_append, counts.append, counts.quiet [line] (by simpa using quiet), zero_add]

theorem around (way : Way) : count (way.around b lines) = count lines := by
  cases way with
  | otherwise => exact counts.cons rfl
  | _ => rfl

theorem leaving (way : Way) : count way.leaving = 0 := by
  cases way <;> exact counts.quiet _ rfl

theorem again (way : Way) (quiet : count lines = 0) : count (way.again b lines) = 0 := by
  unfold Way.again
  split
  · split <;> simp [counts.append, counts.cons, counts.nil, quiet]
  · split <;> simp [counts.append, counts.cons, counts.nil, quiet]
  · exact quiet

theorem copies (b : BlockId) (copies : List Copy) : count (copies.map (.copy b)) = 0 :=
  counts.quiet _ (by simp)

theorem armHead (first : Bool) (cond : Option Var) : count (e.armHead b first cond) = 0 := by
  cases first <;> cases cond <;> exact counts.quiet _ rfl

theorem mark (b : BlockId) : count (e.mark b) = 0 := by
  unfold Emitter.mark
  split <;> exact counts.quiet _ rfl

theorem filler (wanted : Bool) (lines : List Line) : count (filler wanted lines) = 0 := by
  unfold Emitter.filler
  split <;> exact counts.quiet _ rfl

theorem wrap (opened : Bool) (lines : List Line) : count (wrap opened lines) = count lines := by
  cases opened <;> simp [Emitter.wrap, counts.append, counts.cons, counts.nil]

end Counts

def Task.counted : Task → Nat × Nat
  | .rest _ _ _ ending _ => ((ending.map Kind.jumps).getD 0, 0)
  | _ => 0

structure Laid (e : Emitter) (task : Task) (here : Progress) (lines : List Line) (after : Progress) : Prop where
  lays : e.Lays task here.traversal lines after.traversal
  counted : ∀ count, e.Counts count → after.counted = here.counted + task.counted + count lines

/-! ## Single steps -/

abbrev Follows (e : Emitter) {α : Type} (step : Emission α) (here : Progress) (post : α → Progress → Prop) : Prop :=
  step.Goes e.Move e.Permits post here

def Guards (e : Emitter) (recurse : Recurse) (bound : Nat) : Prop :=
  ∀ x braced here, e.Sound here.traversal → here.traversal.unrendered e.procedure ≤ bound →
    here.traversal.isDeferred x = false → x ∉ here.traversal.rendered → (e.procedure.Linked → e.Led here.traversal x) →
    e.Follows (recurse x braced) here (e.Laid (.block x braced) here)

theorem Laid.passed (aside : here.traversal.isDeferred x = true) : e.Laid (.edge b x way) here way.passed here where
  lays := .passed aside
  counted count counts := by
    have quiet : count way.passed = 0 := by cases way <;> exact counts.quiet _ rfl
    simp [quiet, Task.counted]

theorem jump_follows (inside : e.Amid bound b here) (leads : e.Leads b x) (way : Way) (may : way.mayJump = true) :
    e.Follows (e.jump x way.isNested) here fun lines => e.Laid (.edge b x way) here (way.around b lines) := by
  apply Goes.of_except fun _ failed => .of_label failed
  intro label labelled
  refine ⟨.jump (inside.led leads), .jumped may labelled, fun count counts => ?_⟩
  rw [counts.around, counts.jump]
  rfl

theorem headerLines_follows : e.Follows (e.headerLines x) here fun lines after =>
    after = here ∧ e.HeaderLines x lines := by
  apply Goes.of_except fun _ failed => .of_given (.inr (Procedure.refuses_of_classified failed))
  intro stmts ok
  have texts (stmts : List (Stmt × Kind)) : e.Follows (stmts.mapM fun stmt => do
      return Line.stmt x stmt.1.id ((← e.renderStmt x stmt.1) ++ "\n")) here fun body after => after = here ∧
        List.Forall₂ (fun stmt line => ∃ text, e.render stmt.1.id (e.names x) = .ok text ∧
          line = Line.stmt x stmt.1.id (text ++ "\n")) stmts body := by
    induction stmts with
    | nil => exact ⟨rfl, .nil⟩
    | cons _ _ ih =>
      rw [List.mapM_cons, bind_assoc]
      apply Goes.of_except fun _ failed => .of_given (.inl ⟨_, _, failed⟩)
      intro text rendered
      refine ih.bind fun body after _ ⟨same, shown⟩ => ?_
      exact ⟨same, .cons ⟨text, rendered, rfl⟩ shown⟩
  refine (texts _).bind fun body after _ ⟨same, shown⟩ => ?_
  exact ⟨same, stmts, body, ok, shown, rfl⟩

theorem Laid.returned (may : way.mayReturn = true) (feedback : e.facts.isFeedback b x = true)
    (test : e.procedure.isLoopTest x = .ok true) (header : e.HeaderLines x lines) :
    e.Laid (.edge b x way) here (way.again b lines) here where
  lays := .returned may feedback test header
  counted count counts := by simp [counts.again way (counts.header _ _ header), Task.counted]

theorem noteJumps_follows (targets : List BlockId) (inside : e.Amid bound b here)
    (leads : ∀ x ∈ targets, e.Leads b x) : e.Follows (targets.forM noteJump) here fun _ after =>
      after.traversal = targets.foldl .jumpTo here.traversal ∧ after.counted = here.counted + (targets.length, 0) := by
  induction targets generalizing here with
  | nil => exact ⟨rfl, rfl⟩
  | cons x _ ih =>
    have jumped : e.Move here.traversal (here.traversal.jumpTo x) := .jump (inside.led (leads x (.head _)))
    refine ⟨jumped, (ih (inside.of_moves (.single jumped)) fun y mem => leads y (.tail _ mem)).mono ?_⟩
    rintro _ after _ ⟨state, counted⟩
    refine ⟨state, counted.trans ?_⟩
    simp [Progress.counted]
    omega

theorem hints_move (e : Emitter) (t : Traversal) (targets : List BlockId) : e.Move t (targets.foldl .hint t) := by
  rw [foldl_hint]
  exact .other rfl rfl rfl rfl

/-! ## Edges of a block -/

section Guards

variable (guards : e.Guards recurse bound) (inside : e.Amid bound b here)
include guards inside

section

variable (leads : e.Leads b x)
include leads

theorem Guards.enter (free : here.traversal.isDeferred x = false) (fresh : ¬ here.traversal.isRendered x = true)
    (way : Way) :
    e.Follows (recurse x way.isSingle) { here with traversal := way.entered here.traversal } fun lines after =>
      e.Laid (.edge b x way) here (way.around b lines ++ way.leaving)
        { after with traversal := way.left after.traversal } := by
  have entered : e.Move here.traversal (way.entered here.traversal) := by
    cases way <;> exact .other rfl rfl rfl rfl
  have within := inside.moved entered
  rw [isRendered_iff] at fresh
  refine (guards x way.isSingle _ within.sound within.enough ?_ ?_ (within.led leads)).mono fun lines after _ laid => ?_
  · cases way <;> exact free
  · cases way <;> exact fresh
  · refine ⟨.entered free laid.lays, fun count counts => ?_⟩
    simp [laid.counted count counts, counts.append, counts.around, counts.leaving, Task.counted]

theorem Guards.onward (free : here.traversal.isDeferred x = false) (way : Way) (may : way.mayJump = true)
    (stays : way.leaving = []) :
    e.Follows (if here.traversal.isRendered x then e.jump x way.isNested else recurse x way.isSingle) here fun lines =>
      e.Laid (.edge b x way) here (way.around b lines) := by
  split
  · exact jump_follows inside leads way may
  · rename_i fresh
    have entered := guards.enter inside leads free fresh way
    simp only [stays, List.append_nil] at entered
    cases way with
    | body => exact nomatch may
    | _ => exact entered

theorem Guards.take (way : Way) (may : way.mayJump = true) (stays : way.leaving = [])
    (bare : ∀ lines, way.around b lines = lines) :
    e.Follows (do
      let t ← traversal
      if t.isDeferred x then
        if t.leavesOpenLoop x then e.jump x way.isNested else return way.passed
      else if t.isRendered x then e.jump x way.isNested
      else recurse x way.isSingle) here (e.Laid (.edge b x way) here) := by
  apply Goes.traversal
  cases aside : here.traversal.isDeferred x with
  | false =>
    rw [if_neg Bool.false_ne_true]
    simpa only [bare] using guards.onward inside leads aside way may stays
  | true =>
    rw [if_pos rfl]
    split
    · simpa only [bare] using jump_follows inside leads way may
    · exact .passed aside

theorem Guards.branch : e.Follows (e.branch recurse x) here (e.Laid (.edge b x .arm) here) :=
  guards.take inside leads .arm rfl rfl fun _ => rfl

theorem Guards.elseLines : e.Follows (e.elseLines recurse b x) here (e.Laid (.edge b x .otherwise) here) := by
  have jumps : e.Follows (do return Line.elseBranch b :: (← e.jump x true)) here (e.Laid (.edge b x .otherwise) here) :=
    (jump_follows inside leads .otherwise rfl).bind fun _ _ _ laid => laid
  apply Goes.traversal
  cases aside : here.traversal.isDeferred x with
  | true =>
    rw [if_pos rfl]
    split
    · exact jumps
    · exact .passed aside
  | false =>
    rw [if_neg Bool.false_ne_true]
    split
    · rename_i feedback
      apply Goes.of_except fun _ failed => .of_given (.inr (Procedure.refuses_of_isLoopTest failed))
      intro test isTest
      cases test with
      | false => exact jumps
      | true =>
        refine headerLines_follows.bind fun lines after _ ⟨same, header⟩ => ?_
        subst same
        have laid : e.Laid (.edge b x .otherwise) after _ after := .returned rfl feedback isTest header
        cases lines <;> exact laid
    · have onward : e.Follows (e.branch recurse x) here fun lines =>
          e.Laid (.edge b x .otherwise) here (.elseBranch b :: lines) := by
        apply Goes.traversal
        rw [aside, if_neg Bool.false_ne_true]
        exact guards.onward inside leads aside .otherwise rfl rfl
      exact onward.bind fun _ _ _ laid => laid

end

/-! ## Branches -/

theorem Guards.conditional {y : BlockId} (first : e.Leads b y) (second : e.Leads b x) (slot : Bool)
    (deferred : Option BlockId) (cond : Var) :
    e.Follows (e.conditional recurse b y x) here
      (e.Laid (.rest b slot deferred (some (.conditional cond y x)) deferred) here) := by
  apply Goes.traversal
  have hinted := hintedAt_singleton here.traversal x
  -- The two arms, whatever hint is given before the first and taken back behind it.
  have arms (given : List BlockId) (same : hintedAt here.traversal [x] = given) (taken : Traversal → Traversal)
      (unhints : ∀ t, taken t = arrived t given x) :
      e.Follows (e.branch recurse y) { here with traversal := given.foldl .hint here.traversal } fun lines after =>
        e.Follows (do return lines ++ (← e.elseLines recurse b x)) { after with traversal := taken after.traversal }
          (e.Laid (.rest b slot deferred (some (.conditional cond y x)) deferred) here) := by
    subst same
    have within := inside.moved (hints_move e here.traversal (hintedAt here.traversal [x]))
    refine (guards.branch within first).mono fun lines after moves before => ?_
    rw [unhints]
    have unhinted : e.Move after.traversal (arrived after.traversal (hintedAt here.traversal [x]) x) := by
      rw [arrived_eq]
      exact .other rfl rfl rfl rfl
    refine (guards.elseLines ((within.of_moves moves).moved unhinted) second).bind fun more last _ behind => ?_
    refine ⟨.conditional before.lays behind.lays, fun count counts => ?_⟩
    simp [behind.counted count counts, before.counted count counts, counts.append, Task.counted, Kind.jumps, add_assoc]
  cases given : !here.traversal.isDeferred x && !here.traversal.isJumpTarget x with
  | true =>
    rw [given, if_pos rfl] at hinted
    apply Goes.update (.other rfl rfl rfl rfl)
    refine (arms [x] hinted (·.unhint x) fun t => by simp [arrived]).bind fun lines after _ rest => ?_
    exact Goes.update (.other rfl rfl rfl rfl) rest
  | false =>
    rw [given, if_neg Bool.false_ne_true] at hinted
    exact (arms [] hinted id fun t => by simp [arrived]).bind fun lines after _ rest => rest

theorem Guards.loop {body exit : BlockId} (inner : e.Leads b body) (outer : e.Leads b exit) (slot : Bool)
    (deferred : Option BlockId) (cond : Var) :
    e.Follows (e.loop recurse b body exit) here
      (e.Laid (.rest b slot deferred (some (.loop cond body exit)) deferred) here) := by
  have within : e.Follows (loopBody recurse b body exit) here (e.Laid (.edge b body (.body exit)) here) := by
    apply Goes.traversal
    cases aside : here.traversal.isDeferred body with
    | true => exact .passed aside
    | false =>
      rw [if_neg Bool.false_ne_true]
      split
      · exact Permits.of_ne (by simp)
      · rename_i fresh
        apply Goes.update (.other rfl rfl rfl rfl)
        refine (guards.enter inside inner aside fresh (.body exit)).bind fun lines after _ laid => ?_
        apply Goes.update (.other rfl rfl rfl rfl)
        simp only [Way.around, Way.leaving, List.append_nil] at laid
        exact laid
  refine within.bind fun lines after moves first => ?_
  have behind : e.Follows (e.loopExit recurse exit) after (e.Laid (.edge b exit .after) after) :=
    guards.take (inside.of_moves moves) outer .after rfl rfl fun _ => rfl
  refine behind.bind fun more last _ second => ?_
  refine ⟨.loop first.lays second.lays, fun count counts => ?_⟩
  simp [second.counted count counts, first.counted count counts, counts.append, Task.counted, Kind.jumps, add_assoc]

theorem Guards.multiwayArms (arms : List (Option Var × BlockId)) (first : Bool) (hinted : List BlockId)
    (leads : ∀ arm ∈ arms, e.Leads b arm.2) :
    e.Follows (e.multiwayArms recurse b first hinted arms) here (e.Laid (.arms b first hinted arms) here) := by
  induction arms generalizing first hinted here with
  | nil => exact ⟨.armsDone, fun count counts => by simp [counts.nil, Task.counted]⟩
  | cons arm arms ih =>
    obtain ⟨cond, x⟩ := arm
    unfold Emitter.multiwayArms
    refine Goes.arrive (fun _ => .other rfl rfl rfl rfl) fun moves => Goes.traversal ?_
    have within : e.Amid bound b { here with traversal := arrived here.traversal hinted x } := inside.of_moves moves
    have later {after : Progress} (inside : e.Amid bound b after) :=
      ih inside false (hinted.erase x) fun arm mem => leads arm (.tail _ mem)
    have printed (head : List Line) (same : head = e.armHead b first cond) : e.Follows (do
        let lines ← e.branch recurse x
        return head ++ lines ++ (← e.multiwayArms recurse b false (hinted.erase x) arms))
        { here with traversal := arrived here.traversal hinted x }
        (e.Laid (.arms b first hinted ((cond, x) :: arms)) here) := by
      subst same
      refine (guards.branch within (leads _ (.head _))).bind fun lines after moves here => ?_
      refine (later (within.of_moves moves)).bind fun more last _ rest => ?_
      refine ⟨.arm here.lays rest.lays, fun count counts => ?_⟩
      simp [rest.counted count counts, here.counted count counts, counts.append, counts.armHead, Task.counted,
        add_assoc]
    cases cond with
    | none =>
      dsimp only
      split
      · rename_i skipped
        simp only [Bool.and_eq_true, Bool.not_eq_true', beq_iff_eq] at skipped
        obtain ⟨notFirst, ⟨ipdom, aside⟩, -⟩ := skipped
        subst notFirst
        exact (later within).mono fun _ _ _ rest => ⟨.elided ipdom aside rest.lays, rest.counted⟩
      · exact printed _ (by cases first <;> rfl)
    | some v => exact printed _ (by cases first <;> rfl)

theorem Guards.multiway (arms : List (Option Var × BlockId)) (leads : ∀ arm ∈ arms, e.Leads b arm.2) (slot : Bool)
    (deferred : Option BlockId) : e.Follows (e.multiway recurse b arms) here
      (e.Laid (.rest b slot deferred (some (.multiway arms)) deferred) here) := by
  unfold Emitter.multiway
  cases ordered : misplacedArm? arms with
  | some => exact Permits.of_ne (by simp)
  | none =>
    refine Goes.traversal (Goes.update (hints_move ..) ?_)
    refine (guards.multiwayArms (inside.moved (hints_move ..)) arms true _ leads).mono fun _ _ _ rest => ?_
    exact ⟨.multiway ordered rest.lays, rest.counted⟩

/-! ## Switches -/

theorem Guards.switchArms (arms : List SwitchArm) (deferred : Option BlockId)
    (leads : ∀ arm ∈ arms, e.Leads b arm.target) :
    e.Follows (e.switchArms recurse b deferred arms) here fun result =>
      e.Laid (.cases b deferred arms result.2) here result.1 := by
  induction arms generalizing deferred here with
  | nil => exact ⟨.casesDone, fun count counts => by simp [counts.nil, Task.counted]⟩
  | cons arm arms ih =>
    have labels {count : List Line → Nat × Nat} (counts : e.Counts count) : count (arm.labels.map .caseLabel) = 0 :=
      counts.quiet _ (by simp)
    have later (deferred : Option BlockId) {after : Progress} (inside : e.Amid bound b after) :=
      ih inside deferred fun arm mem => leads arm (.tail _ mem)
    -- What comes behind an arm that leaves the join to the block.
    have behind (lines : List Line) (after : Progress) (moves : ReflTransGen e.Move here.traversal after.traversal)
        (first : e.Laid (.edge b arm.target .case) here lines after) : e.Follows (do
          let rest ← e.switchArms recurse b deferred arms
          return (arm.labels.map Line.caseLabel ++ lines ++ rest.1, rest.2)) after fun result =>
            e.Laid (.cases b deferred (arm :: arms) result.2) here result.1 := by
      refine (later deferred (inside.of_moves moves)).bind fun result last _ rest => ?_
      refine ⟨.case first.lays rest.lays, fun count counts => ?_⟩
      simp [rest.counted count counts, first.counted count counts, counts.append, labels counts, Task.counted,
        add_assoc]
    have leads := leads arm (.head _)
    have jumps := jump_follows inside leads .case rfl
    unfold Emitter.switchArms
    apply Goes.chain
    apply Goes.traversal
    dsimp only
    split
    · exact jumps.bind behind
    · split
      · rename_i joins
        have ipdom : e.facts.ipdom? b = some arm.target := by simpa using joins
        split
        · rename_i taken
          simp only [Bool.and_eq_true, beq_iff_eq, Option.isNone_iff_eq_none] at taken
          obtain ⟨⟨⟨default, none⟩, aside⟩, idom⟩ := taken
          subst none
          have claims : e.Move here.traversal (here.traversal.claim arm.target) := .claim inside.rendered idom
          refine Goes.update claims ((later (some arm.target) (inside.moved claims)).bind fun result last _ rest => ?_)
          refine ⟨.claimed default ipdom idom aside rest.lays, fun count counts => ?_⟩
          simp [rest.counted count counts, counts.append, counts.cons, labels counts, Task.counted]
        · refine behind _ here .refl ⟨.joined ipdom, fun count counts => ?_⟩
          simp [counts.quiet [.leaveSwitch] rfl, Task.counted]
      · split
        · rename_i aside
          exact behind _ here .refl (.passed aside)
        · rename_i free
          split
          · exact jumps.bind behind
          · rename_i fresh
            exact (guards.enter inside leads (by simpa using free) fresh .case).bind fun _ => behind _

/-! ## Blocks without a branch -/

theorem Guards.fallthroughTo (leads : e.Leads b x) (slot : Bool) :
    e.Follows (e.fallthroughTo recurse b x slot) here (e.Laid (.edge b x (.fall slot)) here) := by
  have jumps := jump_follows inside leads (.fall slot) rfl
  apply Goes.traversal
  cases aside : here.traversal.isDeferred x with
  | true =>
    rw [if_pos rfl]
    split
    · exact jumps
    · exact .passed aside
  | false =>
    rw [if_neg Bool.false_ne_true]
    have onward : e.Follows (if e.procedure.inDegree x == 1 && !here.traversal.isRendered x then recurse x slot
        else e.jump x slot) here (e.Laid (.edge b x (.fall slot)) here) := by
      split
      · rename_i alone
        rw [Bool.and_eq_true, Bool.not_eq_true'] at alone
        have entered := guards.enter inside leads aside (Bool.eq_false_iff.1 alone.2) (.fall slot)
        simp only [Way.around, Way.leaving, List.append_nil] at entered
        exact entered
      · exact jumps
    cases feedback : e.facts.isFeedback b x with
    | false => exact onward
    | true =>
      apply Goes.of_except fun _ failed => .of_given (.inr (Procedure.refuses_of_isLoopTest failed))
      intro test isTest
      cases test with
      | false => exact onward
      | true =>
        refine headerLines_follows.bind fun lines after _ ⟨same, header⟩ => ?_
        subst same
        have laid : e.Laid (.edge b x (.fall slot)) after _ after := .returned rfl feedback isTest header
        cases slot <;> cases lines <;> exact laid

theorem Guards.fallthrough (slot : Bool) (deferred : Option BlockId) {ending : Option Kind} (passes : PassesOn ending) :
    e.Follows (do return (← e.fallthrough recurse b slot, deferred)) here fun result =>
      e.Laid (.rest b slot deferred ending result.2) here result.1 := by
  have quiet : (ending.map Kind.jumps).getD 0 = 0 := by
    cases ending with
    | none => rfl
    | some kind => cases kind <;> first | rfl | exact passes.elim
  apply Goes.chain
  unfold Emitter.fallthrough
  cases succs : e.procedure.succs b with
  | nil => exact ⟨.ends passes succs, fun count counts => by simp [counts.nil, Task.counted, quiet]⟩
  | cons x others =>
    cases others with
    | nil =>
      have leads : e.Leads b x := fun _ => .inl (succs ▸ (.head _))
      refine (guards.fallthroughTo inside leads slot).mono fun lines after _ laid => ?_
      refine ⟨.falls passes succs laid.lays, fun count counts => ?_⟩
      simp [laid.counted count counts, Task.counted, quiet]
    | cons => exact Permits.of_ne (by simp)

theorem Guards.continuation (slot : Bool) (deferred : Option BlockId) (ending : Option Kind)
    (leads : ∀ kind, ending = some kind → kind.isBranching = true → ∀ x ∈ kind.targets, e.Leads b x) :
    e.Follows (e.continuation recurse b slot deferred ending) here fun result =>
      e.Laid (.rest b slot deferred ending result.2) here result.1 := by
  have plain {ending : Option Kind} (passes : PassesOn ending) := guards.fallthrough inside slot deferred passes
  cases ending with
  | none => exact plain trivial
  | some kind =>
    replace leads := leads kind rfl
    cases kind with
    | plain | init | virtual | label => exact plain trivial
    | conditional cond y x =>
      have two := leads rfl
      exact (guards.conditional inside (two y (by simp [Kind.targets])) (two x (by simp [Kind.targets])) slot deferred
        cond).bind fun _ _ _ laid => laid
    | loop cond body exit =>
      have two := leads rfl
      exact (guards.loop inside (two body (by simp [Kind.targets])) (two exit (by simp [Kind.targets])) slot deferred
        cond).bind fun _ _ _ laid => laid
    | multiway arms =>
      exact (guards.multiway inside arms (fun arm mem => leads rfl _ (List.mem_map_of_mem mem)) slot
        deferred).bind fun _ _ _ laid => laid
    | switch _ arms =>
      refine (guards.switchArms inside arms deferred fun arm mem =>
        leads rfl _ (List.mem_map_of_mem mem)).bind fun result after _ laid => ?_
      refine ⟨.switch laid.lays, fun count counts => ?_⟩
      simp [laid.counted count counts, counts.append, counts.cons, counts.nil, Task.counted, Kind.jumps]
    | jump targets =>
      refine (noteJumps_follows targets inside (leads rfl)).bind fun _ after _ ⟨state, counted⟩ => ?_
      refine ⟨state ▸ .jumps, fun count counts => ?_⟩
      simp [counted, counts.nil, Task.counted, Kind.jumps]

theorem Guards.joinLines (joins : e.Joins b deferred)
    (claimed : ∀ join, deferred = some join → join ∈ here.traversal.rendered → join ∈ here.traversal.claimed) :
    e.Follows (Emitter.joinLines recurse b deferred) here (e.Laid (.join b deferred) here) := by
  cases deferred with
  | none => exact ⟨.noJoin, fun count counts => by simp [counts.nil, Task.counted]⟩
  | some join =>
    have undeferred : e.Move here.traversal (here.traversal.undefer join) := .undefer join
    refine Goes.update undeferred (Goes.traversal ?_)
    split
    · rename_i rendered
      have taken := claimed join rfl (isRendered_iff.1 rendered)
      have isTaken : (here.traversal.undefer join).isClaimed join = true := decide_eq_true taken
      rw [if_pos isTaken]
      exact ⟨.settled (isRendered_iff.1 rendered) taken, fun count counts => by simp [counts.nil, Task.counted]⟩
    · rename_i fresh
      rw [isRendered_iff] at fresh
      have within := inside.moved undeferred
      have led := within.led fun _ => .inr (joins join rfl)
      have free := isDeferred_undefer here.traversal join
      refine (guards join false _ within.sound within.enough free fresh led).mono fun _ _ _ laid => ?_
      exact ⟨.followed fresh laid.lays, laid.counted⟩

end Guards

/-! ## Blocks -/

theorem stmtLines_follows (stmt : Stmt × Kind) : e.Follows (e.stmtLines b stmt) here fun lines after =>
    e.StmtLine b stmt lines ∧ after = { here with traversal := here.traversal.printIf b (stmt.2 = .label) } := by
  obtain ⟨stmt, kind⟩ := stmt
  by_cases isVirtual : kind = .virtual
  · subst isVirtual
    exact ⟨by simp [StmtLine], by simp [Traversal.printIf]⟩
  · have body : e.Follows (do
        let text ← e.renderStmt b stmt
        if kind = .label then update (·.print b)
        return [.stmt b stmt.id text]) here fun lines after => e.StmtLine b (stmt, kind) lines ∧
          after = { here with traversal := here.traversal.printIf b (kind = .label) } := by
      apply Goes.of_except fun _ failed => .of_given (.inl ⟨_, _, failed⟩)
      intro text rendered
      have line : e.StmtLine b (stmt, kind) [.stmt b stmt.id text] := by
        unfold StmtLine
        rw [if_neg isVirtual]
        exact ⟨text, rendered, rfl⟩
      split
      · rename_i isLabel
        exact Goes.update (.other rfl rfl rfl rfl) ⟨line, by simp [Traversal.printIf, isLabel]⟩
      · rename_i noLabel
        exact ⟨line, by simp [Traversal.printIf, noLabel]⟩
    cases kind with
    | virtual => exact absurd rfl isVirtual
    | _ => exact body

theorem concat_follows (stmts : List (Stmt × Kind)) :
    e.Follows (concat (stmts.map (e.stmtLines b))) here fun lines after => e.StmtLines b stmts lines ∧
      after = { here with traversal := here.traversal.printIf b (holdsLabel stmts) } := by
  induction stmts generalizing here with
  | nil => exact ⟨⟨[], .nil, rfl⟩, rfl⟩
  | cons stmt _ ih =>
    refine (stmtLines_follows stmt).bind fun lines after _ ⟨first, same⟩ => ih.bind fun more last _ ⟨rest, same'⟩ => ?_
    obtain ⟨parts, each, rfl⟩ := rest
    subst same same'
    refine ⟨⟨lines :: parts, .cons first each, rfl⟩, ?_⟩
    rw [Traversal.printIf_printIf, holdsLabel, holdsLabel, List.any_cons]

theorem bodyLines_follows (stmts : List (Stmt × Kind)) :
    e.Follows (e.bodyLines b stmts) here fun lines after => e.BodyLines b stmts lines ∧
      after = { here with traversal := here.traversal.printIf b (holdsLabel stmts) } := by
  unfold bodyLines
  cases stmts using List.reverseRecOn with
  | nil => exact ⟨.empty, rfl⟩
  | append_singleton stmts last =>
    rw [List.getLast?_concat, List.dropLast_concat]
    refine (concat_follows stmts).bind fun lines after _ ⟨before, same⟩ => ?_
    subst same
    refine (stmtLines_follows last).bind fun lastLines after _ ⟨printed, same⟩ => ?_
    subst same
    rw [Traversal.printIf_printIf, holdsLabel, holdsLabel, List.any_append, List.any_cons, List.any_nil, Bool.or_false]
    split
    · rename_i branches
      exact ⟨.branching branches before printed, rfl⟩
    · rename_i passes
      exact ⟨.passing (by simpa using passes) before printed, rfl⟩

theorem deferJoin_follows (here : Progress) (b : BlockId) :
    e.Follows (e.deferJoin b) { here with traversal := here.traversal.render b } fun deferred after =>
      deferred = e.setAside here.traversal b ∧ after = { here with traversal := e.begun here.traversal b } := by
  unfold deferJoin begun setAside
  apply Goes.traversal
  cases e.facts.ipdom? b with
  | none => exact ⟨rfl, rfl⟩
  | some join =>
    have same : (here.traversal.render b).isDeferred join = here.traversal.isDeferred join := rfl
    dsimp only
    rw [same]
    cases known : (here.traversal.render b).isRendered join || here.traversal.isDeferred join with
    | true => exact ⟨by simp [Option.filter, known], by simp [Option.filter, known]⟩
    | false =>
      rw [if_neg Bool.false_ne_true]
      have fresh := Bool.eq_false_iff.1 (Bool.or_eq_false_iff.1 known).1
      rw [ne_eq, isRendered_iff] at fresh
      refine Goes.update (.defer fresh) ?_
      exact ⟨by simp [Option.filter, known], by simp [Option.filter, known]⟩

theorem Guards.freshBlock (guards : e.Guards recurse bound) (listed : b ∈ e.procedure.blockIds)
    (sound : e.Sound here.traversal) (free : here.traversal.isDeferred b = false) (fresh : b ∉ here.traversal.rendered)
    (enough : here.traversal.unrendered e.procedure ≤ bound + 1) (led : e.procedure.Linked → e.Led here.traversal b)
    (braced : Bool) : e.Follows (e.freshBlock recurse b braced) here (e.Laid (.block b braced) here) := by
  have begins : e.Move here.traversal (here.traversal.render b) := .render listed fresh free led
  have inside : e.Amid bound b { here with traversal := here.traversal.render b } := by
    refine ⟨begins.sound sound, ?_, mem_addNew.2 (.inl rfl)⟩
    exact Nat.le_of_lt_succ ((unrendered_render_lt listed fresh).trans_le enough)
  unfold Emitter.freshBlock
  apply Goes.update begins
  apply Goes.of_except fun _ failed => .of_given (.inr (Procedure.refuses_of_classified failed))
  intro stmts ok
  refine (deferJoin_follows here b).bind fun deferred after moves ⟨same, state⟩ => ?_
  subst same state
  replace inside := inside.of_moves moves
  apply Goes.traversal
  apply Goes.of_except fun _ failed => .of_given (.inr (Procedure.refuses_of_isNeeded failed))
  intro needed decided
  have edges kind (isEnd : endOf stmts = some kind) (branching : kind.isBranching = true) (x : BlockId)
      (mem : x ∈ kind.targets) : e.Leads b x :=
    fun linked => .inl ((linked b stmts kind ok isEnd branching x).1 mem)
  -- Behind the label, if there is one.
  have behind (label : String) (labelled : needed = true → e.labels.label b = .ok label) (shown : List Line)
      (same : shown = if needed then [.label b label] else []) (after : Progress) (inside : e.Amid bound b after)
      (state : after.traversal = (e.begun here.traversal b).printIf b needed)
      (counted : ∀ count, e.Counts count → after.counted = here.counted + count shown) : e.Follows (do
        let body ← e.bodyLines b (upToLastReal stmts)
        let rest ← e.continuation recurse b (braced && !e.opens here.traversal b braced needed (endOf stmts))
          (e.setAside here.traversal b) (endOf stmts)
        let join ← Emitter.joinLines recurse b rest.2
        return e.mark b ++ wrap (e.opens here.traversal b braced needed (endOf stmts))
          (shown ++ e.saveLines b ++ body ++ rest.1 ++
            filler (braced && !e.opens here.traversal b braced needed (endOf stmts))
              (shown ++ e.saveLines b ++ body ++ rest.1) ++ join)) after (e.Laid (.block b braced) here) := by
    refine (bodyLines_follows _).bind fun body middle moves ⟨printed, same'⟩ => ?_
    subst same'
    refine (guards.continuation (inside.of_moves moves) _ _ _ edges).bind fun rest last moves' follows => ?_
    replace inside := (inside.of_moves moves).of_moves moves'
    have lays := follows.lays
    simp only [state] at lays
    have joins := lays.joins fun join aside => (setAside_eq_some aside).1
    refine (guards.joinLines inside joins (lays.claimed_of_rendered sound free fresh)).bind fun join final _ laid => ?_
    subst same
    refine ⟨.block listed fresh ok decided labelled printed lays laid.lays, fun count counts => ?_⟩
    simp [laid.counted count counts, follows.counted count counts, counted count counts, counts.append, counts.mark,
      counts.wrap, counts.filler, saveLines, counts.copies, counts.body _ _ _ ok printed, Task.counted,
      add_assoc]
  cases needed with
  | false =>
    exact behind "" (by simp) [] rfl _ inside rfl fun count counts => by simp [counts.nil]
  | true =>
    have prints : e.Move (e.begun here.traversal b) ((e.begun here.traversal b).print b) := .other rfl rfl rfl rfl
    unfold labelLines
    rw [if_pos rfl, bind_assoc]
    apply Goes.of_except fun _ failed => .of_label failed
    intro label labelled
    refine ⟨prints, behind label (fun _ => labelled) _ rfl _ (inside.of_moves (.single prints)) rfl ?_⟩
    exact fun count counts => by simp [counts.label, Progress.counted]

theorem emitWithin_guards (e : Emitter) (fuel : Nat) : e.Guards (e.emitWithin fuel) fuel := by
  induction fuel with
  | zero =>
    intro b braced here sound enough free fresh led
    unfold emitWithin
    split
    · exact Permits.of_ne (by simp)
    · rename_i listed
      have less := Traversal.unrendered_render_lt (not_not.1 listed) fresh
      omega
  | succ fuel ih =>
    intro b braced here sound enough free fresh led
    unfold emitWithin
    split
    · exact Permits.of_ne (by simp)
    · rename_i listed
      apply Goes.traversal
      rw [if_neg (by rwa [isRendered_iff])]
      exact ih.freshBlock (not_not.1 listed) sound free fresh enough led braced

/-! ## Whole emissions -/

theorem isDeferred_of_nil {t : Traversal} (empty : t.frontier = []) (b : BlockId) : t.isDeferred b = false := by
  rw [isDeferred, empty]
  rfl

theorem emitBlock_follows (sound : e.Sound here.traversal) (empty : here.traversal.frontier = [])
    (fresh : b ∉ here.traversal.rendered) (braced : Bool) (led : e.procedure.Linked → e.Led here.traversal b) :
    e.Follows (e.emitBlock b braced) here fun lines after =>
      e.Laid (.block b braced) here lines after ∧ after.traversal.frontier = [] := by
  have free := isDeferred_of_nil empty b
  refine (e.emitWithin_guards _ b braced here sound (unrendered_le_blocks e.procedure _) free fresh led).mono ?_
  intro lines after _ laid
  refine ⟨laid, ?_⟩
  rw [laid.lays.settles free sound.apart, empty, List.filter_nil]

theorem emitPending_follows (rounds : Nat) (sound : e.Sound here.traversal) (empty : here.traversal.frontier = [])
    (led : e.procedure.Linked → ∀ x ∈ here.traversal.jumpTargets, e.Led here.traversal x) :
    e.Follows (e.emitPending rounds) here fun lines after => after.traversal.frontier = [] ∧
      (∀ count, e.Counts count → after.counted = here.counted + count lines) ∧
      (here.traversal.unrendered e.procedure < rounds → e.Drains here.traversal lines after.traversal) := by
  induction rounds generalizing here with
  | zero => exact ⟨empty, fun count counts => by simp [counts.nil], fun less => by omega⟩
  | succ _ ih =>
    apply Goes.traversal
    cases pending : here.traversal.nextPending? with
    | none => exact ⟨empty, fun count counts => by simp [counts.nil], fun _ => .done pending⟩
    | some b =>
      obtain ⟨jumped, fresh⟩ := Traversal.mem_of_nextPending? pending
      refine (emitBlock_follows sound empty fresh false fun linked => led linked b jumped).bind ?_
      rintro lines after moves ⟨laid, empty'⟩
      refine (ih (sound.of_moves moves) empty' fun linked => led_of_mem_jumpTargets linked (led linked) moves).bind ?_
      rintro more last _ ⟨empty'', counted, drains⟩
      have fewer := laid.lays.unrendered_lt
      refine ⟨empty'', fun count counts => ?_, fun enough => .next pending laid.lays (drains (by omega))⟩
      simp [counted count counts, laid.counted count counts, counts.append, Task.counted, add_assoc]

def drive (e : Emitter) (rounds : Nat) : Emission (List Line) := do
  let lines ← e.emitBlock e.procedure.entry false
  return lines ++ (← e.emitPending rounds)

theorem drive_follows (e : Emitter) (rounds : Nat) : e.Follows (e.drive rounds) {} fun lines after =>
    after.traversal.frontier = [] ∧ (∀ count, e.Counts count → after.counted = count lines) ∧
      (e.procedure.blocks.length ≤ rounds → after.traversal.nextUnlabelled? = none →
        e.Writes lines after.traversal) := by
  refine (emitBlock_follows (.empty e) rfl (by simp) false fun _ => .inl rfl).bind ?_
  rintro lines after moves ⟨laid, empty⟩
  refine (emitPending_follows rounds ((Sound.empty e).of_moves moves) empty fun linked =>
    led_of_mem_jumpTargets linked (by simp) moves).bind fun more last _ ⟨empty', counted, drains⟩ => ?_
  refine ⟨empty', fun count counts => ?_, fun enough labelled => .whole laid.lays (drains ?_) labelled⟩
  · simp [counted count counts, laid.counted count counts, counts.append, Task.counted]
    rfl
  · have fewer := laid.lays.unrendered_lt
    have all := unrendered_le_blocks e.procedure {}
    exact (fewer.trans_le all).trans_le enough

theorem emit_eq (e : Emitter) : e.emit = (do
    let lines ← e.drive e.procedure.blocks.length
    e.checkJumps
    return lines) := by
  unfold emit drive
  simp only [bind_assoc, pure_bind]

theorem emit_follows (e : Emitter) : e.Follows e.emit {} fun lines after =>
    e.Writes lines after.traversal ∧ ∀ count, e.Counts count → after.counted = count lines := by
  rw [emit_eq]
  refine (e.drive_follows _).bind fun lines after _ ⟨_, counted, writes⟩ => ?_
  apply Goes.chain
  apply Goes.traversal
  cases labelled : after.traversal.nextUnlabelled? with
  | none => exact ⟨writes le_rfl labelled, counted⟩
  | some x => exact Goes.of_except (fun _ failed => .of_label failed) fun _ _ => Permits.of_ne (by simp)

theorem emit_runs (e : Emitter) : e.Runs e.emit {} :=
  e.emit_follows.makes

theorem writes_of_emit (start : here = {}) (emitted : e.emit here = .ok lines after) :
    e.Writes lines after.traversal := by
  subst start
  exact (e.emit_follows.of_ok emitted).1

theorem rendered_of_emit (linked : e.procedure.Linked) (facts : e.facts = e.procedure.analysis.toFacts)
    (printed : e.emit {} = .ok lines after) :
    (∀ b, b ∈ after.traversal.rendered ↔ e.procedure.Reachable b) ∧
      after.traversal.rendered.Perm e.procedure.analysis.order := by
  have moves := e.emit_runs.moves_of_ok printed
  have reached (b : BlockId) : b ∈ after.traversal.rendered ↔ e.procedure.Reachable b :=
    ⟨reachable_of_moves linked facts moves b, (writes_of_emit rfl printed).mem_rendered linked facts⟩
  refine ⟨reached, (List.perm_ext_iff_of_nodup ((Sound.empty e).of_moves moves).nodup Procedure.order_nodup).2 ?_⟩
  exact fun b => (reached b).trans Procedure.mem_order_iff.symm

end Emitter

end Reflow
