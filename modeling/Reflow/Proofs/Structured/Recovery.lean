import Reflow.Proofs.Structured.Rendering

/-!
# Structured programs come back structured

The body of a structured program, compiled block by block, is always emitted, and its text is that of the program, where
every switch has two arms or more and every initialization a line behind it in its block.
-/

namespace Reflow.Source

open Program Emission FunctionOf

variable {source : Source} {name : String} {args : List String} {result : Option Nat}
  {e : (source.function name args result).Pass} {allowed : EmitError → Prop} {before : List Step}
  {last stmt : Statement Nat Nat}

def listing (source : Source) (name : String) (args : List String) (result : Option Nat) : List String :=
  let f := source.function name args result
  source.print f ++ [f.statementText ⟨none, .ret result⟩]

theorem op_of_mem_block (final : last.instr.op ∉ [.asm, .goto]) (mem : stmt ∈ block before last) :
    stmt.instr.op ∉ [.asm, .goto] := by
  rcases List.mem_append.1 mem with early | late
  · obtain ⟨⟨stmt, inner⟩, -, rfl⟩ := List.mem_map.1 early
    cases instr : stmt.instr <;> simp [instr, Instr.isInner, Instr.isStraight, Instr.op] at inner ⊢
  · rwa [List.mem_singleton.1 late]

mutual

theorem op_of_mem_blocks (source : Source) {start : Nat} {before : List Step} {exit : Statement Nat Nat}
    (final : exit.instr.op ∉ [.asm, .goto]) :
    ∀ stmts ∈ source.blocks start before exit, ∀ stmt ∈ stmts, stmt.instr.op ∉ [.asm, .goto] := by
  have branching {target : Nat} : (branch target).instr.op ∉ [.asm, .goto] := by simp [branch, Instr.op]
  intro stmts listed stmt mem
  cases source with
  | done =>
    rw [blocks, List.mem_singleton] at listed
    exact op_of_mem_block final (listed ▸ mem)
  | step _ rest => exact rest.op_of_mem_blocks final stmts listed stmt mem
  | ifThen cond body rest =>
    simp only [blocks, List.mem_cons, List.mem_append] at listed
    rcases listed with rfl | inner | onward
    · exact op_of_mem_block (by simp [Instr.op]) mem
    · exact body.op_of_mem_blocks branching stmts inner stmt mem
    · exact rest.op_of_mem_blocks final stmts onward stmt mem
  | ifElse cond yes no rest =>
    simp only [blocks, List.mem_cons, List.mem_append] at listed
    rcases listed with rfl | first | second | onward
    · exact op_of_mem_block (by simp [Instr.op]) mem
    · exact yes.op_of_mem_blocks branching stmts first stmt mem
    · exact no.op_of_mem_blocks branching stmts second stmt mem
    · exact rest.op_of_mem_blocks final stmts onward stmt mem
  | loop _ _ body rest =>
    simp only [blocks, List.mem_cons, List.mem_append] at listed
    rcases listed with rfl | rfl | inner | onward
    · exact op_of_mem_block branching mem
    · exact op_of_mem_block (by simp [Instr.op]) mem
    · exact body.op_of_mem_blocks branching stmts inner stmt mem
    · exact rest.op_of_mem_blocks final stmts onward stmt mem
  | switch _ arms rest =>
    simp only [blocks, List.mem_cons, List.mem_append] at listed
    rcases listed with rfl | inner | onward
    · exact op_of_mem_block (by simp [Instr.op]) mem
    · exact arms.op_of_mem_blocks stmts inner stmt mem
    · exact rest.op_of_mem_blocks final stmts onward stmt mem

theorem Arms.op_of_mem_blocks (arms : Arms) {start join : Nat} :
    ∀ stmts ∈ arms.blocks start join, ∀ stmt ∈ stmts, stmt.instr.op ∉ [.asm, .goto] := by
  intro stmts listed stmt mem
  cases arms with
  | nil => simp [Arms.blocks] at listed
  | cons _ body rest =>
    rcases List.mem_append.1 listed with inner | onward
    · exact body.op_of_mem_blocks (by simp [branch, Instr.op]) stmts inner stmt mem
    · exact rest.op_of_mem_blocks stmts onward stmt mem

end

theorem function_holds (source : Source) (name : String) (args : List String) (result : Option Nat) :
    Holds (source.function name args result) 0 (source.blocks 0 [] ⟨none, .ret result⟩) := by
  intro i stmts found
  simp [function, getElem?_numberFrom, found]

theorem op_of_mem_function {block : Program.Block Nat Nat} (listed : block ∈ (source.function name args result).blocks)
    (mem : stmt ∈ block.stmts) : stmt.instr.op ∉ [.asm, .goto] := by
  obtain ⟨⟨i, stmts⟩, numbered, rfl⟩ := List.mem_map.1 listed
  obtain ⟨j, found, -⟩ := mem_numberFrom_iff.1 numbered
  exact source.op_of_mem_blocks (by simp [Instr.op]) stmts (List.mem_of_getElem? found) stmt mem

theorem function_bare (source : Source) (name : String) (args : List String) (result : Option Nat) :
    (source.function name args result).Bare where
  phis block listed := by
    obtain ⟨entry, -, rfl⟩ := List.mem_map.1 listed
    rfl
  plain block listed stmt mem assembly := op_of_mem_function listed mem (by simp [assembly])

theorem function_length (source : Source) (name : String) (args : List String) (result : Option Nat) :
    (source.function name args result).blocks.length = source.size := by
  have numbered (blocks : List (List (Statement Nat Nat))) (start : Nat) :
      (numberFrom start blocks).length = blocks.length := by
    rw [← List.length_map (·.2), map_snd_numberFrom]
  rw [function, List.length_map, numbered, source.length_blocks]

theorem function_jumpless {pass : Nat} (assigned : e.procedure.assignLabels pass = .ok e.labels) : Jumpless e := by
  have bare := source.function_bare name args result
  refine ⟨bare, ?_⟩
  rw [Procedure.assignLabels_eq (classified_kinds bare.plain), Except.ok.injEq] at assigned
  rw [← assigned]
  simp only [List.flatMap_eq_nil_iff, Procedure.explicitTargets]
  rintro b - ⟨stmt, kind⟩ mem
  obtain ⟨block, found, view, -, inBlock, -, ok⟩ := exists_view_of_kind bare.plain mem
  have op := op_of_mem_function (List.mem_of_getElem? found) inBlock
  cases kind with
  | jump =>
    cases instr : view.2.instr <;> simp [instr, Instr.kind] at ok
    simp [instr, Instr.op] at op
  | _ => rfl

theorem function_entering (region : e.procedure.Region 0 source.size []) :
    Entering e {} 0 source.size ⟨none, .ret result⟩
      [(source.function name args result).statementText ⟨none, .ret result⟩] := by
  have inside {b x : Nat} (edge : x ∈ e.procedure.succs b) : b < source.size := by
    obtain ⟨block, found, -⟩ := exists_block_of_edge edge
    rw [← source.function_length name args result]
    exact (List.getElem?_eq_some_iff.1 found).1
  have known := (source.function_holds name args result).mem_blockIds e
  refine ⟨⟨region, ?_, by simp [Instr.targets], Procedure.reachable_entry, by simp [Instr.targets],
    fun b entry => entry.le⟩, known, ⟨by simp, by simp [Traversal.isDeferred], by simp, rfl⟩, ?_, .returns result⟩
  · exact fun b x edge _ _ => ⟨Nat.zero_le b, inside edge⟩
  · -- Nothing leads to the first block.
    right
    intro (c : Nat) mem
    have edge := (mem_procedure_preds known).1 mem
    rcases region.edge (Nat.zero_le c) (inside edge) edge with ⟨impossible, -⟩ | ⟨impossible, -⟩
    · exact absurd impossible (lt_irrefl 0)
    · exact absurd impossible List.not_mem_nil

theorem emitPending_meets {e : Emitter} {t : Traversal} (jumpless : t.jumpTargets = []) (fuel : Nat) :
    Meets allowed (e.emitPending fuel) t fun lines t' => t' = t ∧ lines = [] := by
  have none : t.nextPending? = none := by simp [Traversal.nextPending?, jumpless]
  cases fuel with
  | zero => exact Meets.pure ⟨rfl, rfl⟩
  | succ =>
    unfold Emitter.emitPending
    apply Meets.traversal
    rw [none]
    exact Meets.pure ⟨rfl, rfl⟩

theorem emit_meets (divided : source.isDivided) (anchored : source.isAnchored true) {pass : Nat}
    (assigned : e.procedure.assignLabels pass = .ok e.labels) :
    Meets allowed e.emitter.emit {} fun lines _ => Line.Shows e.verbose lines (source.listing name args result) := by
  have holds := source.function_holds name args result
  have jumpless := function_jumpless assigned
  have length : e.procedure.blocks.length = source.size :=
    (length_viewBlocks 0 args.length _).trans (source.function_length name args result)
  have rendered : Renders e allowed source.size 0 _ _ _ :=
    source.renders jumpless holds divided anchored (.inr rfl) le_rfl
  rw [Nat.zero_add] at rendered
  have entry := rendered.emits false {} _ (function_entering rendered.region)
  rw [← length] at entry
  unfold Emitter.emit
  apply entry.andThen
  rintro lines t ⟨covers, shows⟩
  have noJumps : t.jumpTargets = [] := covers.jumpTargets
  apply (emitPending_meets noJumps _).andThen
  rintro more t' ⟨rfl, rfl⟩
  have labelled : t'.nextUnlabelled? = none := by simp [Traversal.nextUnlabelled?, noJumps]
  apply Meets.bind
  unfold Emitter.checkJumps
  apply Meets.traversal
  rw [labelled]
  apply Meets.pure
  apply Meets.pure
  simpa [wrap, listing] using shows

/-- The body of a structured program is emitted on every pass of every session. -/
theorem emitBody_shows (source : Source) (divided : source.isDivided) (anchored : source.isAnchored true)
    (name : String) (args : List String) (result : Option Nat) (session : Session) (config : Config) (base : Nat) :
    ∃ lines, (session.emitBody config ((source.function name args result).procedure base)
        ((source.function name args result).procedure base).analysis.toFacts
        (source.function name args result).render).1 = .ok { temporaries := [], text := layOut config.indent lines } ∧
      Line.Shows config.verbose lines (source.listing name args result) ∧
      (config.verbose = false → layOut config.indent lines =
        Layout.layOut config.indent ((source.listing name args result).map fun text => { text })) := by
  have bare := source.function_bare name args result
  have assigned := Procedure.assignLabels_eq (p := (source.function name args result).procedure base)
    (classified_kinds bare.plain)
    (session.passesOf ((source.function name args result).procedure base).name + 1)
  have copied := Procedure.copies_eq_empty (bare.phis_eq_nil base)
  obtain ⟨lines, progress, emitted, shows⟩ := Meets.exists_ok {}
    (emit_meets (e := ⟨base, _, config.verbose⟩) divided anchored assigned) fun _ => id
  refine ⟨lines, Session.emitBody_eq_ok assigned copied emitted, shows, fun quiet => ?_⟩
  rw [quiet] at shows
  exact shows.layOut_eq config.indent

def call (callee : String) : Step :=
  ⟨⟨none, .call callee []⟩, rfl⟩

def init (var : Nat) (n : Int) : Step :=
  ⟨⟨none, .init var n⟩, rfl⟩

def nest : Source :=
  .step (call "begin") <|
  .ifElse 0 (.step (init 1 2) (.step (call "keep") (.step ⟨⟨none, .vuse 1⟩, rfl⟩ .done))) (.step (init 1 3) <|
      .switch 1 (.cons (.value 4) (.loop [call "read", init 1 5] 0 (.ifThen 1 (.step (call "use") .done) .done) .done)
          (.cons .otherwise (.step (call "skip") .done) .nil))
        .done)
    (.step (call "finish") .done)

theorem nest_emitBody_shows : nest.isDivided = true ∧ nest.isAnchored true = true ∧
    ∃ lines, (Session.emitBody { passes := [("nest", 1)] } { verbose := true }
        ((nest.function "nest" ["c", "v"] (some 1)).procedure 7)
        ((nest.function "nest" ["c", "v"] (some 1)).procedure 7).analysis.toFacts
        (nest.function "nest" ["c", "v"] (some 1)).render).1 = .ok { temporaries := [], text := layOut 3 lines } ∧
      Line.Shows true lines (nest.listing "nest" ["c", "v"] (some 1)) ∧
      (true = false → layOut 3 lines =
        Layout.layOut 3 ((nest.listing "nest" ["c", "v"] (some 1)).map fun text => { text })) :=
  ⟨rfl, rfl, nest.emitBody_shows rfl rfl "nest" ["c", "v"] (some 1) { passes := [("nest", 1)] } { verbose := true } 7⟩

example : nest.listing "nest" ["c", "v"] (some 1) =
    ["begin();", "if (c)", "\x7b", "v = 2;", "keep();", "\x7d", "else", "\x7b", "v = 3;", "switch (v)", "\x7b",
      "case 4:", "\x7b", "read();", "v = 5;", "while (c)", "\x7b", "if (v)", "\x7b", "use();", "\x7d",
      "read();", "v = 5;", "\x7d", "\x7d", "break;",
      "default:", "\x7b", "skip();", "\x7d", "break;", "\x7d", "\x7d", "finish();", "return v;"] := by
  decide

def lone : Source :=
  .step (call "s") <|
  .switch 0 (.cons .otherwise (.step (call "a") .done) .nil) <|
  .step (call "z") .done

/-- The one arm of a switch is its join: its lines come after the switch instead of in it. -/
theorem lone_emitBody : (Session.emitBody {} {} ((lone.function "f" ["v"] none).procedure 0)
      ((lone.function "f" ["v"] none).procedure 0).analysis.toFacts (lone.function "f" ["v"] none).render).1 =
        .ok { temporaries := [], text :=
          "s();\nswitch (v)\n\x7b\n   default:\n   break;\n\x7d\na();\nz();\nreturn;\n" } ∧
    ¬ ∃ lines, "s();\nswitch (v)\n\x7b\n   default:\n   break;\n\x7d\na();\nz();\nreturn;\n" = layOut 3 lines ∧
      Line.Shows false lines (lone.listing "f" ["v"] none) := by
  refine ⟨by decide +kernel, ?_⟩
  rintro ⟨lines, same, shows⟩
  rw [shows.layOut_eq] at same
  exact absurd same (by decide +kernel)

end Reflow.Source
