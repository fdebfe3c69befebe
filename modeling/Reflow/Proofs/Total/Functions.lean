import Reflow.Proofs.Body
import Reflow.Proofs.Copies.Failure
import Reflow.Proofs.Program.Kinds
import Reflow.Proofs.Total.Whole

/-!
# Functions that are always emitted

A function without inline assembly whose phis take values only from predecessors is emitted, or an unannounced block
is jumped to without its label.
-/

namespace Reflow

open Program

def Instr.isFree : Instr Nat Nat → Bool
  | asm | loop .. => false
  | multiif cond target arms otherwise =>
    decide (multiif cond target arms otherwise : Instr Nat Nat).targets.Nodup
  | _ => true

theorem Kind.isBranching_of_mem_targets {kind : Kind} {x : BlockId} (mem : x ∈ kind.targets) :
    kind.isBranching = true := by
  cases kind with
  | plain | init | virtual | label => simp [targets] at mem
  | _ => rfl

namespace Program

variable {f : Function} {base : Nat} {b x : BlockId} {block : Block Nat Nat}

namespace FunctionOf

/-- A function without inline assembly in which the tests of structured loops dominate the bodies, which are not the
tests themselves. -/
structure Headed (f : Function) : Prop where
  wellFormed : f.WellFormed
  plain : ∀ block ∈ f.blocks, ∀ stmt ∈ block.stmts, stmt.instr.op ≠ .asm
  loops : ∀ base b cond body exit, (f.procedure base).ending b = some (.loop cond body exit) →
    (f.procedure base).Reachable b → body ≠ b ∧ (f.procedure base).Dominates b body
  incoming : ∀ b block, f.blocks[b]? = some block → ∀ phi ∈ block.phis, phi.isVirtual = false →
    ∀ slot ∈ phi.incoming, slot.1 ∈ f.preds b

theorem exists_instr_of_ending (plain : ∀ block ∈ f.blocks, ∀ stmt ∈ block.stmts, stmt.instr.op ≠ .asm)
    {kind : Kind} (ending : (f.procedure base).ending b = some kind) :
    ∃ block, f.blocks[b]? = some block ∧ ∃ stmt ∈ block.stmts, ∃ n, stmt.instr.kind n = .ok kind := by
  obtain ⟨stmt, mem⟩ := Procedure.mem_kinds_of_ending ending
  obtain ⟨block, found, view, -, inBlock, -, ok⟩ := exists_view_of_kind plain mem
  exact ⟨block, found, view.2, inBlock, _, ok⟩

namespace Headed

theorem exists_text {instr : Instr Nat Nat} {names : Names} {dest : String} {n : Nat} {kind : Kind}
    (ok : instr.kind n = .ok kind) (real : kind ≠ .virtual)
    (labelled : ∀ x, kind = .jump [x] → ∃ text, names.label x = .ok text) :
    ∃ text, renderInstr names dest instr = .ok text := by
  cases instr with
  | vuse | br | asm => simp [Instr.kind] at ok real; try exact absurd ok.symm real
  | goto x =>
    obtain rfl := Except.ok.inj ok
    obtain ⟨text, found⟩ := labelled x rfl
    exact ⟨_, by rw [renderInstr, found]; rfl⟩
  | ret result =>
    cases result with
    | none => exact ⟨_, rfl⟩
    | some v => exact ⟨_, rfl⟩
  | _ => exact ⟨_, rfl⟩

variable (headed : f.Headed)
include headed

theorem kinds_eq (found : f.blocks[b]? = some block) :
    (f.procedure base).kinds b = (f.views b block).filterMap (classify? base) :=
  kinds_of_get found (headed.plain block (List.mem_of_getElem? found))

theorem mem_targets_iff {kind : Kind} (ending : (f.procedure base).ending b = some kind)
    (branches : kind.isBranching = true) : x ∈ kind.targets ↔ x ∈ (f.procedure base).succs b := by
  obtain ⟨block, found, stmt, inBlock, n, ok⟩ := exists_instr_of_ending headed.plain ending
  rw [← headed.wellFormed.eraseDups_targets_of_kind found inBlock ok branches, List.mem_eraseDups]

theorem succs_length_le (falls : ∀ kind, (f.procedure base).ending b = some kind → kind.isBranching = false) :
    ((f.procedure base).succs b).length ≤ 1 := by
  cases found : f.blocks[b]? with
  | none => simp [Procedure.succs, block?_procedure, found]
  | some block =>
    have shaped := headed.wellFormed.blocks block (List.mem_of_getElem? found)
    rw [succs_of_get found, Block.succs, shaped.targets_eq]
    rcases List.eq_nil_or_concat' block.stmts with empty | ⟨front, last, stmts⟩
    · simp [empty]
    · -- A last statement with several targets is branching, and nothing real comes after it.
      have branches (kind : Kind) (ok : ∀ n, last.instr.kind n = .ok kind)
          (real : kind.isReal = true) (branching : kind.isBranching = true) : False := by
        have ending : (f.procedure base).ending b = some kind := by
          have entry (n : Nat) : classify? base (n, last) = some (last.view base n, kind) :=
            classify?_eq_some_iff.2 ⟨ok _, rfl⟩
          rw [Procedure.ending, headed.kinds_eq found, views, stmts, numberFrom_concat, List.filterMap_append,
            List.filterMap_cons_some (entry _), List.filterMap_nil, upToLastReal_concat, if_pos real,
            List.getLast?_concat]
          rfl
        rw [falls kind ending] at branching
        simp at branching
      rw [stmts, List.getLast?_concat, Option.map_some, Option.getD_some]
      cases instr : last.instr with
      | br | goto => exact le_rfl
      | condbr | multiif | switch | loop => exact (branches _ (fun _ => by rw [instr]; rfl) rfl rfl).elim
      | _ => simp [Instr.targets]

theorem routed (base : Nat) : (f.procedure base).Routed where
  classified := classified_kinds headed.plain
  entry := by
    apply mem_blockIds_iff.2
    exact ⟨_, List.getElem?_eq_getElem (List.length_pos_of_ne_nil headed.wellFormed.nonempty)⟩
  known b x edge := headed.wellFormed.mem_blockIds_of_edge edge
  preds x known b := mem_procedure_preds known
  once x known := by
    obtain ⟨block, found⟩ := mem_blockIds_iff.1 known
    rw [Procedure.preds, block?_of_get found, Option.elim_some]
    exact preds_nodup x
  label b labelled := by
    cases found : f.blocks[b]? with
    | none => simp [Procedure.label?, block?_procedure, found] at labelled
    | some block =>
      rw [Procedure.label?, block?_of_get found, Option.bind_some, Block.view] at labelled
      cases stmts : block.stmts with
      | nil => simp [Block.label?, stmts] at labelled
      | cons stmt =>
        obtain ⟨result, instr⟩ := stmt
        cases instr with
        | label =>
          rw [headed.kinds_eq found, views, stmts, numberFrom]
          exact ⟨_, List.mem_filterMap.2 ⟨_, .head _, rfl⟩, rfl⟩
        | _ => simp [Block.label?, stmts] at labelled
  loops := headed.loops base
  targets b kind ending x mem :=
    (headed.mem_targets_iff ending (Kind.isBranching_of_mem_targets mem)).1 mem
  onward b kind ending branches x edge := (headed.mem_targets_iff ending branches).2 edge
  falls b := headed.succs_length_le
  placed b arms ending := by
    obtain ⟨block, found, stmt, mem, n, ok⟩ := exists_instr_of_ending headed.plain ending
    cases instr : stmt.instr with
    | multiif cond target tests otherwise =>
      rw [instr] at ok
      obtain rfl := Kind.multiway.inj (Except.ok.inj ok)
      exact Emitter.misplacedArm?_eq_none (cond, target) tests otherwise
    | _ => simp [instr, Instr.kind] at ok
  cases b selector arms ending := by
    obtain ⟨block, found, stmt, mem, n, ok⟩ := exists_instr_of_ending headed.plain ending
    cases instr : stmt.instr with
    | switch _ cases =>
      rw [instr] at ok
      obtain ⟨-, rfl⟩ := Kind.switch.inj (Except.ok.inj ok)
      exact targets_groupArms cases ▸ eraseDups_nodup (cases.map (·.2))
    | _ => simp [instr, Instr.kind] at ok

theorem apt {pass : Nat} {labels : Labels} (copies : Copies) (verbose : Bool)
    (assigned : (f.procedure base).assignLabels pass = .ok labels) :
    Emitter.Apt {
      procedure := f.procedure base
      facts := (f.procedure base).analysis.toFacts
      render := f.render
      labels := labels
      copies := copies
      verbose := verbose } where
  routed := headed.routed base
  facts := rfl
  assigned := ⟨pass, assigned⟩
  text b stmt mem real := by
    obtain ⟨stmt, kind⟩ := stmt
    obtain ⟨block, found, view, listed, -, rfl, ok⟩ := exists_view_of_kind headed.plain mem
    have value := value_of_view found listed
    simp only [render, Statement.view, value]
    apply exists_text ok real
    rintro x rfl
    have known : b ∈ (f.procedure base).blockIds := mem_blockIds_iff.2 ⟨block, found⟩
    have routed := headed.routed base
    exact routed.label_of_isExplicitTarget assigned (routed.isExplicitTarget_of_jump assigned known mem (by simp))

theorem exists_copies (base : Nat) :
    ∃ copies, (f.procedure base).copies (f.procedure base).analysis.toFacts = .ok copies := by
  rw [Procedure.exists_copies_iff]
  rintro ⟨b, succ, phi, incoming, -, edge, mem, real, taken, unknown⟩
  obtain ⟨slot, listed, rfl⟩ := List.mem_map.1 taken
  have known := headed.wellFormed.mem_blockIds_of_edge edge
  obtain ⟨block, i, source, found, named, rfl, -⟩ := exists_phi_of_mem mem
  rw [mem_procedure_preds known] at unknown
  exact unknown (mem_preds_iff.1 (headed.incoming succ block found source (List.mem_of_getElem? named) real slot
    listed))

theorem emitBody_cases (session : Session) (config : Config) (base : Nat) :
    let p := f.procedure base
    let result := (session.emitBody config p p.analysis.toFacts f.render).1
    (∃ body, result = .ok body) ∧ (∀ b x, ¬ p.Stray b x) ∨
      ∃ x, (p.Quiet x ∧ p.Unannounced x) ∧ (∀ b y, p.Stray b y → x ≤ y) ∧
        result = .error (.danglingJump x (p.labelText (session.passesOf f.name + 1) x)) := by
  have ok := (headed.routed base).classified
  have assigned := Procedure.assignLabels_eq ok (session.passesOf (f.procedure base).name + 1)
  obtain ⟨copies, copied⟩ := headed.exists_copies base
  rcases Emission.Meets.ok_or_error {} (headed.apt copies config.verbose assigned).emit_meets with
    ⟨lines, progress, emitted, strayless⟩ | ⟨error, progress, failed, x, text, unannounced, least, found, rfl⟩
  · exact .inl ⟨⟨_, Session.emitBody_eq_ok assigned copied emitted⟩, strayless⟩
  · refine .inr ⟨x, unannounced, least, ?_⟩
    have same := Procedure.eq_labelText ok assigned found
    rw [Session.emitBody_eq_error assigned copied failed, same]
    rfl

end Headed

/-- The body of a function without inline assembly, in which the tests of structured loops dominate the bodies, is
emitted unless an unannounced block is jumped to without its label. -/
theorem Headed.emitBody_ok_or_unannounced (headed : f.Headed) (session : Session) (config : Config) (base : Nat) :
    let p := f.procedure base
    let result := (session.emitBody config p p.analysis.toFacts f.render).1
    (∃ body, result = .ok body) ∨ ∃ x, p.Quiet x ∧ p.Unannounced x ∧
      result = .error (.danglingJump x (p.labelText (session.passesOf f.name + 1) x)) := by
  rcases headed.emitBody_cases session config base with ⟨emitted, -⟩ | ⟨x, ⟨quiet, unannounced⟩, -, failed⟩
  · exact .inl emitted
  · exact .inr ⟨x, quiet, unannounced, failed⟩

def spin : Function where
  name := "spin"
  args := ["c", "d"]
  blocks :=
    [⟨"test", [], [⟨none, .call "poll" []⟩, ⟨none, .loop 0 1 3⟩]⟩,
     ⟨"body", [], [⟨none, .condbr 1 0 2⟩]⟩,
     ⟨"work", [], [⟨none, .call "work" []⟩, ⟨none, .br 0⟩]⟩,
     ⟨"exit", [], [⟨none, .ret none⟩]⟩]

theorem spin_isRead : spin.IsRead :=
  .of_pieces
    ["spin(%c, %d) \x7b\n", "test:\n call @poll\n loop %c, ^body, ^exit\n", "body:\n condbr %d, ^test, ^work\n",
      "work:\n call @work\n br ^test\n", "exit:\n ret\n\x7d\n"] (by decide +kernel)

theorem spin_headed : spin.Headed where
  wellFormed := IsRead.wellFormed spin_isRead
  plain := by decide
  loops base b cond body exit ending _ := by
    match b with
    | 0 =>
      obtain ⟨-, rfl, -⟩ := Kind.loop.inj (Option.some.inj ending)
      exact ⟨by decide, Digraph.Dominates.root_dominates 1⟩
    | 1 | 2 | 3 => exact nomatch Option.some.inj ending
    | b + 4 =>
      obtain ⟨block, found, -⟩ := exists_instr_of_ending (by decide) ending
      simp [spin] at found
  incoming b block found := by
    have none : ∀ block ∈ spin.blocks, block.phis = [] := by decide
    simp [none block (List.mem_of_getElem? found)]

theorem spin_emitBody_unannounced :
    let p := spin.procedure 0
    p.Quiet 0 ∧ p.Unannounced 0 ∧
      (Session.emitBody {} {} p p.analysis.toFacts spin.render).1 = .error (.danglingJump 0 "BB_LABEL_0") := by
  have failed : ((Session.emitBody {} {} (spin.procedure 0) (spin.procedure 0).analysis.toFacts spin.render).1 matches
    .error (.danglingJump 0 _)) = true := by decide
  rcases Headed.emitBody_ok_or_unannounced spin_headed {} {} 0 with
    ⟨body, emitted⟩ | ⟨x, quiet, unannounced, dangling⟩
  · simp [emitted] at failed
  · rw [dangling] at failed
    match x with
    | 0 => exact ⟨quiet, unannounced, dangling⟩

/-- A function without inline assembly and structured loops, whatever the targets of its branches. -/
structure Loopless (f : Function) : Prop where
  wellFormed : f.WellFormed
  plain : ∀ block ∈ f.blocks, ∀ stmt ∈ block.stmts, stmt.instr.op ≠ .asm
  loopless : ∀ block ∈ f.blocks, ∀ stmt ∈ block.stmts, stmt.instr.op ≠ .loop
  incoming : ∀ b block, f.blocks[b]? = some block → ∀ phi ∈ block.phis, phi.isVirtual = false →
    ∀ slot ∈ phi.incoming, slot.1 ∈ f.preds b

namespace Loopless

variable (loopless : f.Loopless)
include loopless

theorem ending_ne {cond : Var} {body exit : BlockId} :
    (f.procedure base).ending b ≠ some (.loop cond body exit) := by
  intro ending
  obtain ⟨block, found, stmt, mem, n, ok⟩ := exists_instr_of_ending loopless.plain ending
  have noLoop := loopless.loopless block (List.mem_of_getElem? found) stmt mem
  cases instr : stmt.instr <;> simp [instr, Instr.kind, Instr.op] at ok noLoop

theorem headed : f.Headed :=
  { loopless with loops := fun _ _ _ _ _ ending => absurd ending loopless.ending_ne }

theorem exists_stray (unannounced : (f.procedure base).Unannounced x) : ∃ b, (f.procedure base).Stray b x :=
  unannounced.exists_stray fun _ _ _ _ => loopless.ending_ne

theorem emitBody_cases (session : Session) (config : Config) (base : Nat) :
    let p := f.procedure base
    let result := (session.emitBody config p p.analysis.toFacts f.render).1
    (∃ body, result = .ok body) ∧ (∀ b x, ¬ p.Stray b x) ∨
      ∃ x, p.FirstStray x ∧ result = .error (.danglingJump x (p.labelText (session.passesOf f.name + 1) x)) := by
  refine (loopless.headed.emitBody_cases session config base).imp id ?_
  rintro ⟨x, ⟨-, unannounced⟩, least, failed⟩
  exact ⟨x, ⟨loopless.exists_stray unannounced, least⟩, failed⟩

end Loopless

/-- The body of a function without inline assembly and structured loops is emitted exactly if it has no stray block:
none that one chain of tests names twice while nothing else leads to it or asks for its label. -/
theorem Loopless.emitBody_ok_iff (loopless : f.Loopless) (session : Session) (config : Config) (base : Nat) :
    let p := f.procedure base
    let result := (session.emitBody config p p.analysis.toFacts f.render).1
    ((∃ body, result = .ok body) ↔ ∀ b x, ¬ p.Stray b x) ∧ ∀ error, result = .error error ↔ ∃ x, p.FirstStray x ∧
        error = .danglingJump x (p.labelText (session.passesOf f.name + 1) x) := by
  intro p result
  rcases loopless.emitBody_cases session config base with
    ⟨⟨body, emitted⟩, strayless⟩ | ⟨x, first, failed⟩
  · have ok : result = .ok body := emitted
    refine ⟨⟨fun _ => strayless, fun _ => ⟨body, ok⟩⟩, fun error => ?_⟩
    rw [ok]
    refine ⟨fun same => by simp at same, ?_⟩
    rintro ⟨y, ⟨⟨b, stray⟩, -⟩, -⟩
    exact absurd stray (strayless b y)
  · have dangling : result = .error _ := failed
    rw [dangling]
    refine ⟨⟨fun ⟨_, same⟩ => by simp at same, fun strayless => ?_⟩, fun error => ⟨fun same => ?_, ?_⟩⟩
    · obtain ⟨b, stray⟩ := first.1
      exact absurd stray (strayless b x)
    · exact ⟨x, first, (Except.error.inj same).symm⟩
    · rintro ⟨y, first', rfl⟩
      rw [first.unique first']

def relay : Function where
  name := "relay"
  args := ["c", "d"]
  blocks :=
    [⟨"entry", [], [⟨none, .multiif 0 1 [(1, 1), (0, 2), (1, 2)] (some 3)⟩]⟩,
     ⟨"shared", [], [⟨none, .ret none⟩]⟩,
     ⟨"own", [], [⟨none, .call "own" []⟩, ⟨none, .ret none⟩]⟩,
     ⟨"other", [], [⟨none, .br 1⟩]⟩]

theorem relay_isRead : relay.IsRead :=
  .of_pieces
    ["relay(%c, %d) \x7b\n", "entry:\n multiif [%c, ^shared], [%d, ^shared], [%c, ^own], [%d, ^own], [^other]\n",
      "shared:\n ret\n", "own:\n call @own\n ret\n", "other:\n br ^shared\n\x7d\n"] (by decide +kernel)

theorem relay_loopless : relay.Loopless where
  wellFormed := IsRead.wellFormed relay_isRead
  plain := by decide
  loopless := by decide
  incoming b block found := by
    have none : ∀ block ∈ relay.blocks, block.phis = [] := by decide
    simp [none block (List.mem_of_getElem? found)]

theorem relay_firstStray : (relay.procedure 0).FirstStray 2 := by
  constructor
  · exact ⟨0, Procedure.reachable_entry, ⟨_, rfl, by decide⟩, by decide, by decide, by decide, by decide⟩
  · intro b x stray
    have inner : x ≠ 0 := stray.ne_entry ((Loopless.headed relay_loopless).routed 0)
    have unshared : x ≠ 1 := by
      rintro rfl
      exact absurd stray.alone (by decide)
    exact Nat.lt_of_le_of_ne (Nat.pos_of_ne_zero inner) (Ne.symm unshared)

theorem relay_emitBody_ok_iff :
    ¬ (∃ body, (Session.emitBody {} {} (relay.procedure 0) (relay.procedure 0).analysis.toFacts
      relay.render).1 = .ok body) ∧
    (Session.emitBody {} {} (relay.procedure 0) (relay.procedure 0).analysis.toFacts relay.render).1 =
      .error (.danglingJump 2 "BB_LABEL_2") := by
  obtain ⟨ok_iff, error_iff⟩ := Loopless.emitBody_ok_iff relay_loopless {} {} 0
  obtain ⟨b, stray⟩ := relay_firstStray.1
  exact ⟨fun emitted => ok_iff.1 emitted b 2 stray, (error_iff _).2 ⟨2, relay_firstStray, rfl⟩⟩

structure Unlooped (f : Function) : Prop where
  wellFormed : f.WellFormed
  free : ∀ block ∈ f.blocks, ∀ stmt ∈ block.stmts, stmt.instr.isFree
  incoming : ∀ b block, f.blocks[b]? = some block → ∀ phi ∈ block.phis, phi.isVirtual = false →
    ∀ slot ∈ phi.incoming, slot.1 ∈ f.preds b

namespace Unlooped

theorem loopless (unlooped : f.Unlooped) : f.Loopless where
  wellFormed := unlooped.wellFormed
  plain block mem stmt inBlock := by
    have free := unlooped.free block mem stmt inBlock
    cases instr : stmt.instr <;> simp [instr, Instr.op, Instr.isFree] at free ⊢
  loopless block mem stmt inBlock := by
    have free := unlooped.free block mem stmt inBlock
    cases instr : stmt.instr <;> simp [instr, Instr.op, Instr.isFree] at free ⊢
  incoming := unlooped.incoming

theorem not_stray (unlooped : f.Unlooped) : ¬ (f.procedure base).Stray b x := by
  intro stray
  obtain ⟨arms, ending, twice⟩ := stray.repeated
  obtain ⟨block, found, stmt, mem, n, ok⟩ := exists_instr_of_ending unlooped.loopless.plain ending
  have free := unlooped.free block (List.mem_of_getElem? found) stmt mem
  cases instr : stmt.instr with
  | multiif =>
    rw [instr] at ok free
    obtain rfl := Kind.multiway.inj (Except.ok.inj ok)
    refine not_mem_repeats ?_ twice
    simpa [Instr.targets, Function.comp_def] using of_decide_eq_true free
  | _ => simp [instr, Instr.kind] at ok

/-- The body of a function without inline assembly and structured loops is emitted on every pass of every session. -/
theorem exists_emitBody (unlooped : f.Unlooped) (session : Session) (config : Config) (base : Nat) :
    ∃ body, (session.emitBody config (f.procedure base)
      (f.procedure base).analysis.toFacts f.render).1 = .ok body := by
  rcases unlooped.loopless.emitBody_cases session config base with ⟨emitted, -⟩ | ⟨x, ⟨⟨b, stray⟩, -⟩, -⟩
  · exact emitted
  · exact absurd stray unlooped.not_stray

end Unlooped

def maze : Function where
  name := "maze"
  args := ["c", "v"]
  blocks :=
    [⟨"entry", [], [⟨none, .condbr 0 1 2⟩]⟩,
     ⟨"left", [⟨"x", false, [(0, 1), (2, 5)]⟩], [⟨none, .switch 1 [(.value 1, 2), (.otherwise, 4)]⟩]⟩,
     ⟨"right", [⟨"y", false, [(0, 0), (1, 3)]⟩], [⟨none, .multiif 0 1 [(1, 3)] (some 4)⟩]⟩,
     ⟨"spin", [], [⟨none, .goto 3⟩]⟩,
     ⟨"exit", [], [⟨none, .ret none⟩]⟩]

theorem maze_isRead : maze.IsRead :=
  .of_pieces ["maze(%c, %v) \x7b\n", "entry:\n condbr %c, ^left, ^right\n",
      "left:\n %x = phi [^entry, %v], [^right, %y]\n switch %v, [1, ^right], [default, ^exit]\n",
      "right:\n %y = phi [^entry, %c], [^left, %x]\n multiif [%c, ^left], [%v, ^spin], [^exit]\n",
      "spin:\n goto ^spin\n", "exit:\n ret\n\x7d\n"] (by decide +kernel)

theorem maze_unlooped : maze.Unlooped where
  wellFormed := IsRead.wellFormed maze_isRead
  free := by decide
  incoming b block found := by
    have listed : ∀ entry ∈ numberFrom 0 maze.blocks, ∀ phi ∈ entry.2.phis, phi.isVirtual = false →
        ∀ slot ∈ phi.incoming, slot.1 ∈ maze.preds entry.1 := by decide
    exact listed (b, block) (mem_numberFrom_iff.2 ⟨b, found, by simp⟩)

theorem maze_exists_emitBody : ∃ body,
    (Session.emitBody { passes := [("maze", 1)] } { verbose := true } (maze.procedure 7)
      (maze.procedure 7).analysis.toFacts maze.render).1 = .ok body :=
  maze_unlooped.exists_emitBody { passes := [("maze", 1)] } { verbose := true } 7

end FunctionOf

end Program

end Reflow
