import Reflow.Proofs.Program.LabelTexts
import Reflow.Proofs.Trace.Jumps

namespace Reflow

namespace Procedure

theorem assignLabels_cases (p : Procedure) : (∃ cause, ∀ pass, p.assignLabels pass = .error cause) ∨
    ∃ blocks jumpTargets : List BlockId, ∀ pass,
      p.assignLabels pass = .ok { texts := blocks.map fun b => (b, p.labelText pass b), jumpTargets } := by
  cases listed : p.blockIds.mapM fun b => (p.classified b).map fun stmts => (b, stmts) with
  | error cause =>
    refine .inl ⟨cause, fun pass => ?_⟩
    rw [assignLabels, listed]
    rfl
  | ok blocks =>
    refine .inr ⟨(blocks.flatMap fun entry => p.labelled entry.1 entry.2).eraseDups,
      blocks.flatMap fun entry => explicitTargets entry.2, fun pass => ?_⟩
    rw [assignLabels, listed]
    rfl

end Procedure

theorem Labels.label_map (blocks jumpTargets : List BlockId) (text : BlockId → String) (b : BlockId) :
    Labels.label { texts := blocks.map fun b => (b, text b), jumpTargets } b =
      if b ∈ blocks then .ok (text b) else .error (.missingLabel b) := by
  rw [Labels.label, lookup_map_pair]
  split
  · rename_i found
    split at found
    · rename_i mem
      rw [if_pos mem, Option.some.inj found]
    · simp at found
  · rename_i missing
    split at missing
    · simp at missing
    · rename_i other
      rw [if_neg other]

theorem Labels.isNeeded_congr {labels labels' : Labels} (same : labels'.jumpTargets = labels.jumpTargets)
    {p : Procedure} {facts : Facts} {t : Traversal} {b : BlockId} {loopTest : Bool} :
    labels'.isNeeded p facts t b loopTest = labels.isNeeded p facts t b loopTest := by
  rw [isNeeded, isNeeded, isExplicitTarget, isExplicitTarget, same]

namespace Line

def mayName : Line → Bool
  | .label .. | .jump .. | .stmt .. => true
  | _ => false

def SameRows (line line' : Line) : Prop :=
  rows line.text = rows line'.text ∧ line.isNested = line'.isNested

theorem layOut_congr {lines lines' : List Line} (same : List.Forall₂ SameRows lines lines') (indent : Nat) :
    layOut indent lines = layOut indent lines' := by
  have general (level : Nat) : Layout.layPieces indent level (lines.map piece) =
      Layout.layPieces indent level (lines'.map piece) := by
    induction same generalizing level with
    | nil => rfl
    | @cons line line' lines _ here _ ih =>
      have rows : line.piece.lines = line'.piece.lines := here.1
      have extra : line.piece.extra = line'.piece.extra := by simp only [piece, here.2]
      simp only [List.map_cons, Layout.layPieces, Layout.Piece.levelAfter, rows, extra, ih]
  rw [layOut, layOut, Layout.layOut, Layout.layOut, general]

theorem rows_lineFeed {text : String} {c : Char} (last : text.toList.getLast? = some c) (ends : c ≠ '\n' ∧ c ≠ '\r') :
    rows (text ++ "\n") = rows text := by
  have some : text.toList ≠ [] := by
    intro none
    simp [none] at last
  rw [rows, rows, String.toList_append, show "\n".toList = ['\n'] from rfl,
    Text.lines_concat_lineFeed some (by simpa [last] using ends.1) (by simpa [last] using ends.2)]

end Line

namespace Program.FunctionOf

variable {f : Function} {base pass pass' : Nat} {b x : BlockId} {id : StmtId} {text : String} {line line' : Line}

def labelIn (f : Function) (pass : Nat) (b : BlockId) : String :=
  (f.sourceLabel? b).getD (madeLabel pass b)

def relabelled (f : Function) (pass : Nat) : Line → Line
  | .label b _ => .label b (f.labelIn pass b)
  | .jump x _ nested => .jump x (f.labelIn pass x) nested
  | .stmt b id text =>
    match f.jumpOf? (.stmt b id text) with
    | some x => .stmt b id ("goto " ++ f.labelIn pass x ++ ";")
    | none => .stmt b id text
  | line => line

def unlabelled (f : Function) : Line → Line
  | .label b _ => .label b ""
  | .jump x _ nested => .jump x "" nested
  | .stmt b id text => .stmt b id (if (f.jumpOf? (.stmt b id text)).isSome && !text.isEmpty then "goto" else text)
  | line => line

theorem isEmpty_text_unlabelled (f : Function) (line : Line) :
    (f.unlabelled line).text.isEmpty = line.text.isEmpty := by
  cases line with
  | label b text | jump _ text => rw [Bool.eq_iff_iff]; simp [unlabelled, Line.text]
  | stmt b id text =>
    simp only [unlabelled, Line.text]
    split
    · rename_i jumps
      have some : text.isEmpty = false := by simpa using (Bool.and_eq_true_iff.1 jumps).2
      rw [some]
      rfl
    · rfl
  | _ => rfl

theorem tells_unlabelled (f : Function) : Line.Tells fun line => some (f.unlabelled line) where
  shown _ _ := rfl
  silent line line' same _ := by
    rw [← f.isEmpty_text_unlabelled line, ← f.isEmpty_text_unlabelled line', Option.some.inj same]

theorem eq_of_unlabelled_eq (pass : Nat) (same : f.unlabelled line = f.unlabelled line')
    (silent : line'.mayName = false) : line = line' ∧ f.relabelled pass line = line := by
  have keeps (line : Line) : (f.unlabelled line).mayName = line.mayName := by cases line <;> rfl
  have stays (line : Line) (silent : line.mayName = false) :
      f.unlabelled line = line ∧ f.relabelled pass line = line := by
    cases line with
    | label | jump | stmt => simp [Line.mayName] at silent
    | _ => exact ⟨rfl, rfl⟩
  have silent' : line.mayName = false := by rw [← keeps, same, keeps, silent]
  exact ⟨by rw [← (stays line silent').1, same, (stays line' silent).1], (stays line silent').2⟩

def emitterIn (f : Function) (base : Nat) (facts : Facts) (copies : Copies) (verbose : Bool)
    (blocks jumpTargets : List BlockId) (pass : Nat) : Emitter where
  procedure := f.procedure base
  facts := facts
  render := f.render
  labels := { texts := blocks.map fun b => (b, (f.procedure base).labelText pass b), jumpTargets }
  copies := copies
  verbose := verbose

/-- Errors of two passes that differ at most in the label of a block that is jumped to. -/
def SameCause (f : Function) (pass pass' : Nat) (cause cause' : EmitError) : Prop :=
  cause' = cause ∨ ∃ b, cause = .danglingJump b (f.labelIn pass b) ∧ cause' = .danglingJump b (f.labelIn pass' b)

section Passes

variable {facts : Facts} {copies : Copies} {verbose : Bool} {blocks jumpTargets : List BlockId}

theorem label_emitterIn (pass : Nat) (b : BlockId) :
    (f.emitterIn base facts copies verbose blocks jumpTargets pass).labels.label b =
      if b ∈ blocks then .ok (f.labelIn pass b) else .error (.missingLabel b) := by
  rw [labelIn, ← labelText_procedure f base]
  exact Labels.label_map blocks jumpTargets _ b

theorem render_of_jumpOf? (jump : f.jumpOf? (.stmt b id text) = some x) (pass : Nat) :
    f.render id ((f.emitterIn base facts copies verbose blocks jumpTargets pass).names b) =
      if x ∈ blocks then .ok ("goto " ++ f.labelIn pass x ++ ";") else .error (.missingLabel x) := by
  simp only [jumpOf?] at jump
  split at jump
  · rename_i result target value
    obtain rfl := Option.some.inj jump
    simp only [render, value, renderInstr, Emitter.names, label_emitterIn]
    split <;> rfl
  · simp at jump

theorem renderInstr_congr {instr : Instr Nat Nat} (passes : instr.op ≠ .goto) (var : Var → String) (dest : String)
    (label label' : BlockId → Except EmitError String) :
    renderInstr ⟨var, label'⟩ dest instr = renderInstr ⟨var, label⟩ dest instr := by
  cases instr with
  | goto => exact absurd rfl passes
  | ret result => cases result <;> rfl
  | _ => rfl

theorem render_of_jumpOf?_eq_none (passes : f.jumpOf? (.stmt b id text) = none) (pass pass' : Nat) :
    f.render id ((f.emitterIn base facts copies verbose blocks jumpTargets pass').names b) =
      f.render id ((f.emitterIn base facts copies verbose blocks jumpTargets pass).names b) := by
  unfold render
  split
  · rename_i stmt value
    refine renderInstr_congr ?_ _ _ _ _
    intro jumps
    obtain ⟨result, instr⟩ := stmt
    cases instr <;> simp [Instr.op] at jumps
    simp [jumpOf?, value] at passes
  · rfl
  · rfl

theorem twins_passes (f : Function) (base : Nat) (facts : Facts) (copies : Copies) (verbose : Bool)
    (blocks jumpTargets : List BlockId) (pass pass' : Nat) :
    Emitter.Twins (f.SameCause pass pass') (fun line => some (f.unlabelled line)) 0
      (f.emitterIn base facts copies verbose blocks jumpTargets pass)
      (f.emitterIn base facts copies verbose blocks jumpTargets pass') where
  shifts cause := .inl cause.shift_zero
  procedure := (Procedure.shift_zero _).symm
  idom := rfl
  ipdom := rfl
  feedback := rfl
  saved := rfl
  tail := rfl
  varName _ _ := by
    rw [Nat.zero_add]
    rfl
  isNeeded _ _ _ := by
    rw [Labels.isNeeded_congr rfl]
    exact .of_eq (fun _ => .inl rfl) fun _ => rfl
  label b := by
    rw [label_emitterIn, label_emitterIn]
    split
    · exact .ok ⟨rfl, fun _ => rfl, .inr ⟨b, rfl, rfl⟩⟩
    · exact .error (.inl rfl)
  render b id := by
    simp only [Nat.zero_add]
    change Except.Agree _ _ (f.render id _) (f.render id _)
    cases jump : f.jumpOf? (.stmt b id "") with
    | none =>
      rw [render_of_jumpOf?_eq_none jump pass pass']
      exact .of_eq (fun _ => .inl rfl) fun _ => ⟨rfl, rfl⟩
    | some x =>
      have hides (text : String) (some : text.isEmpty = false) :
          f.unlabelled (.stmt b id text) = .stmt b id "goto" := by
        have jumps : f.jumpOf? (.stmt b id text) = Option.some x := jump
        simp [unlabelled, jumps, some]
      have loud (label : String) : ("goto " ++ label ++ ";").isEmpty = false := by
        rw [← Bool.not_eq_true]
        simp
      have loudly (label : String) : ("goto " ++ label ++ ";" ++ "\n").isEmpty = false := by
        rw [← Bool.not_eq_true]
        simp
      rw [render_of_jumpOf? jump, render_of_jumpOf? jump]
      split
      · refine .ok ⟨?_, ?_⟩
        · rw [hides _ (loud _), hides _ (loud _)]
        · rw [hides _ (loudly _), hides _ (loudly _)]
      · exact .error (.inl rfl)
  comments := .inl rfl
  tells := f.tells_unlabelled

theorem sameRows_relabelled
    (isLine : (f.emitterIn base facts copies verbose blocks jumpTargets pass).IsLine line')
    (same : f.unlabelled line = f.unlabelled line') : Line.SameRows (f.relabelled pass line) line' := by
  have named {x : BlockId} {name : String}
      (labelled : (f.emitterIn base facts copies verbose blocks jumpTargets pass).labels.label x = .ok name) :
      name = f.labelIn pass x := by
    rw [label_emitterIn] at labelled
    split at labelled
    · exact (Except.ok.inj labelled).symm
    · simp at labelled
  have stmt {b : BlockId} {id : StmtId} {text shown : String}
      (rendered : f.render id ((f.emitterIn base facts copies verbose blocks jumpTargets pass).names b) = .ok text)
      (ends : shown = text ∨ shown = text ++ "\n") (same : f.unlabelled line = f.unlabelled (.stmt b id shown)) :
      Line.SameRows (f.relabelled pass line) (.stmt b id shown) := by
    cases line with
    | stmt b' id' text' =>
      obtain ⟨rfl, rfl, texts⟩ : b' = b ∧ id' = id ∧ _ := by simpa only [unlabelled, Line.stmt.injEq] using same
      cases jump : f.jumpOf? (.stmt b' id' text') with
      | none =>
        have jump' : f.jumpOf? (.stmt b' id' shown) = none := jump
        simp only [jump, jump', Option.isSome_none, Bool.false_and, Bool.false_eq_true, if_false] at texts
        rw [relabelled, jump, texts]
        exact ⟨rfl, rfl⟩
      | some x =>
        rw [render_of_jumpOf? jump] at rendered
        obtain rfl : "goto " ++ f.labelIn pass x ++ ";" = text := by
          split at rendered
          · exact Except.ok.inj rendered
          · simp at rendered
        rw [relabelled, jump]
        refine ⟨?_, rfl⟩
        rcases ends with rfl | rfl
        · rfl
        · refine (Line.rows_lineFeed (c := ';') ?_ (by decide)).symm
          rw [Line.text, String.toList_append]
          exact List.getLast?_concat
    | _ => simp [unlabelled] at same
  have plain (silent : line'.mayName = false) : Line.SameRows (f.relabelled pass line) line' := by
    obtain ⟨rfl, kept⟩ := eq_of_unlabelled_eq pass same silent
    rw [kept]
    exact ⟨rfl, rfl⟩
  cases isLine with
  | stmt _ _ rendered => exact stmt rendered (.inl rfl) same
  | again _ _ rendered => exact stmt rendered (.inr rfl) same
  | label labelled =>
    cases line with
    | label b' =>
      obtain rfl : b' = _ := by simpa [unlabelled] using same
      rw [relabelled, named labelled]
      exact ⟨rfl, rfl⟩
    | _ => simp [unlabelled] at same
  | jump labelled =>
    cases line with
    | jump x' _ nested' =>
      obtain ⟨rfl, rfl⟩ : x' = _ ∧ nested' = _ := by simpa [unlabelled] using same
      rw [relabelled, named labelled]
      exact ⟨rfl, rfl⟩
    | _ => simp [unlabelled] at same
  | _ => exact plain rfl

end Passes

variable {facts : Facts} {config : Config} {session session' : Session}

theorem layOut_relabelled {copies : Copies} {verbose : Bool} {blocks jumpTargets : List BlockId}
    {lines lines' : List Line} (indent : Nat)
    (isLine : ∀ line ∈ lines', (f.emitterIn base facts copies verbose blocks jumpTargets pass).IsLine line)
    (same : lines.map f.unlabelled = lines'.map f.unlabelled) :
    layOut indent lines' = layOut indent (lines.map (f.relabelled pass)) := by
  refine (Line.layOut_congr ?_ indent).symm
  induction lines' generalizing lines with
  | nil =>
    obtain rfl : lines = [] := by simpa using same
    exact .nil
  | cons line' _ ih =>
    cases lines with
    | nil => simp at same
    | cons line =>
      obtain ⟨first, rest⟩ := List.cons.inj same
      exact .cons (sameRows_relabelled (isLine line' (.head _)) first)
        (ih (fun line mem => isLine line (.tail _ mem)) rest)

/-- An emission depends on the session only through the number of the pass, and on that number only through the labels
made for blocks: a second session gets the lines of the first under its own labels, or the error of the first, in which
the label of a jump that leads nowhere is its own. -/
theorem emitBody_relabelled (f : Function) (base : Nat) (facts : Facts) (config : Config)
    (session session' : Session) :
    let p := f.procedure base
    let pass := session.passesOf f.name + 1
    let pass' := session'.passesOf f.name + 1
    (pass = pass' → (session.emitBody config p facts f.render).1 = (session'.emitBody config p facts f.render).1) ∧
    match (session.emitBody config p facts f.render).1, (session'.emitBody config p facts f.render).1 with
    | .ok body, .ok body' => body'.temporaries = body.temporaries ∧
        ∃ lines, session.Prints config p facts f.render body lines ∧
          body'.text = layOut config.indent (lines.map (f.relabelled pass'))
    | .error cause, .error cause' => f.SameCause pass pass' cause cause'
    | _, _ => False := by
  intro p pass pass'
  constructor
  · intro same
    rw [Session.emitBody_fst, Session.emitBody_fst]
    rw [show session.passesOf p.name + 1 = session'.passesOf p.name + 1 from same]
  · rcases p.assignLabels_cases with ⟨cause, failed⟩ | ⟨blocks, jumpTargets, assigned⟩
    · rw [Session.emitBody_fst, Session.emitBody_fst, failed, failed]
      exact .inl rfl
    · cases copied : p.copies facts with
      | error =>
        rw [Session.emitBody_fst, Session.emitBody_fst, assigned, assigned, copied]
        exact .inl rfl
      | ok copies =>
        rcases (f.twins_passes base facts copies config.verbose blocks jumpTargets pass pass').emit.outcome {} with
          ⟨cause, cause', progress, failed, failed', alike⟩ | ⟨lines, lines', progress, emitted, emitted', alike⟩
        · rw [Session.emitBody_eq_error (assigned _) copied failed,
            Session.emitBody_eq_error (assigned _) copied failed']
          exact alike
        · rw [Session.emitBody_eq_ok (assigned _) copied emitted, Session.emitBody_eq_ok (assigned _) copied emitted']
          have same : lines.map f.unlabelled = lines'.map f.unlabelled := by
            simpa [Line.Alike, List.filterMap_eq_map'] using alike
          exact ⟨rfl, lines, ⟨_, copies, progress, assigned _, copied, emitted, rfl⟩,
            layOut_relabelled config.indent (Emitter.writes_of_emit rfl emitted').isLine same⟩

def jumpBack : Function where
  name := "back"
  args := []
  blocks :=
    [⟨"entry", [], [⟨none, .goto 1⟩]⟩,
     ⟨"head", [], [⟨some "c", .any []⟩, ⟨none, .condbr 1 1 2⟩]⟩,
     ⟨"exit", [], [⟨none, .ret none⟩]⟩]

theorem jumpBack_relabelled :
    let emitted (session : Session) :=
      (session.emitBody {} (jumpBack.procedure 0) (jumpBack.procedure 0).analysis.toFacts jumpBack.render).1
    emitted {} = emitted { passes := [("other", 3)] } ∧
    ∃ lines, layOut 3 lines = "goto BB_LABEL_1;\nBB_LABEL_1:;\nc = any();\nif (c)\n   goto BB_LABEL_1;\nreturn;\n" ∧
      layOut 3 (lines.map (jumpBack.relabelled 2)) =
        "goto BB_LABEL_1_2;\nBB_LABEL_1_2:;\nc = any();\nif (c)\n   goto BB_LABEL_1_2;\nreturn;\n" := by
  intro emitted
  have first : emitted {} = .ok { temporaries := [], text :=
      "goto BB_LABEL_1;\nBB_LABEL_1:;\nc = any();\nif (c)\n   goto BB_LABEL_1;\nreturn;\n" } := by decide +kernel
  have second : emitted { passes := [("back", 1)] } = .ok { temporaries := [], text :=
      "goto BB_LABEL_1_2;\nBB_LABEL_1_2:;\nc = any();\nif (c)\n   goto BB_LABEL_1_2;\nreturn;\n" } := by
    decide +kernel
  -- No more of the facts is needed than the two texts.
  simp only [emitted] at first second ⊢
  generalize (jumpBack.procedure 0).analysis.toFacts = facts at first second ⊢
  refine ⟨(jumpBack.emitBody_relabelled 0 facts {} {} { passes := [("other", 3)] }).1 rfl, ?_⟩
  have passes := (jumpBack.emitBody_relabelled 0 facts {} {} { passes := [("back", 1)] }).2
  rw [first, second] at passes
  obtain ⟨-, lines, ⟨_, _, _, -, -, -, text⟩, relabelled⟩ := passes
  exact ⟨lines, text.symm, relabelled.symm⟩

end Program.FunctionOf

end Reflow
