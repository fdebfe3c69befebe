import Reflow.Body
import Reflow.Proofs.Emit.Lockstep

namespace Reflow

variable {k : Nat}

def Line.unnumbered : Line → Line
  | stmt b _ text => stmt b 0 text
  | line => line

theorem Line.piece_unnumbered (line : Line) : line.unnumbered.piece = line.piece := by
  cases line <;> rfl

theorem Line.tells_unnumbered : Tells fun line => some line.unnumbered where
  shown _ _ := rfl
  silent line line' same _ := by
    have pieces := congrArg Line.piece (Option.some.inj same)
    rw [line.piece_unnumbered, line'.piece_unnumbered] at pieces
    exact congrArg (·.text.isEmpty) pieces

theorem layOut_eq_of_unnumbered {lines lines' : List Line} {indent : Nat}
    (same : lines.filterMap (fun line => some line.unnumbered) = lines'.filterMap fun line => some line.unnumbered) :
    layOut indent lines' = layOut indent lines := by
  have pieces (lines : List Line) :
      lines.map Line.piece = (lines.filterMap fun line => some line.unnumbered).map Line.piece := by
    rw [List.filterMap_eq_map', List.map_map]
    exact List.map_congr_left fun line _ => line.piece_unnumbered.symm
  rw [layOut, layOut, pieces lines', ← same, ← pieces]

def Renderer.Shifts (k : Nat) (render render' : Renderer) : Prop :=
  ∀ (id : StmtId) (names names' : Names), (∀ v, names'.var (k + v) = names.var v) →
    (∀ b, names'.label b = shiftResult k (fun text => text) (names.label b)) →
    render' (k + id) names' = shiftResult k (fun text => text) (render id names)

theorem Labels.label_shift (labels : Labels) (b : BlockId) :
    labels.label b = shiftResult k (fun text => text) (labels.label b) := by
  rw [label]
  cases labels.texts.lookup b <;> rfl

theorem Copies.namesIn_shift (copies : Copies) (b : BlockId) :
    (copies.shift k).namesIn b = Rename.shift k (copies.namesIn b) := by
  rw [namesIn, namesIn, shift]
  induction copies.renamings with
  | nil => rfl
  | cons entry _ ih =>
    rw [List.map_cons, List.lookup_cons, List.lookup_cons]
    cases b == entry.1 with
    | true => rfl
    | false => exact ih

namespace Emitter

def shift (k : Nat) (e : Emitter) (render : Renderer) : Emitter :=
  { e with
    procedure := e.procedure.shift k
    facts := e.facts.shift k
    render
    copies := e.copies.shift k }

theorem varName_shift (e : Emitter) (render : Renderer) (b : BlockId) (v : Var) :
    (e.shift k render).varName b (k + v) = e.varName b v := by
  change (Rename.top? ((e.copies.shift k).namesIn b) (k + v)).getD
    ((e.procedure.shift k).varName (k + v)) = _
  rw [Copies.namesIn_shift, Rename.top?_shift, Procedure.varName_shift]
  rfl

theorem twins_shift (e : Emitter) {render : Renderer} (renders : Renderer.Shifts k e.render render) :
    Twins (fun cause cause' => cause' = cause.shift k) (fun line => some line.unnumbered) k e
      (e.shift k render) where
  shifts _ := rfl
  procedure := rfl
  idom := rfl
  ipdom := rfl
  feedback := rfl
  saved := rfl
  tail := rfl
  varName := e.varName_shift render
  isNeeded t b loopTest := by
    have needed : e.labels.isNeeded (e.procedure.shift k) (e.facts.shift k) t b loopTest =
        shiftResult k id (e.labels.isNeeded e.procedure e.facts t b loopTest) :=
      e.labels.isNeeded_shift k e.procedure e.facts (e.facts.shift k).liveIns t b loopTest
    change Except.Agree _ _ _ (e.labels.isNeeded (e.procedure.shift k) (e.facts.shift k) t b loopTest)
    rw [needed]
    exact .of_shift (fun _ => rfl) fun _ => rfl
  label b := by
    change Except.Agree _ _ (e.labels.label b) (e.labels.label b)
    rw [Labels.label]
    cases e.labels.texts.lookup b with
    | none => exact .error rfl
    | some => exact .ok ⟨rfl, fun _ => rfl, rfl⟩
  render b id := by
    have text := renders id (e.names b) ((e.shift k render).names b) (e.varName_shift render b) e.labels.label_shift
    change Except.Agree _ _ _ (render (k + id) _)
    rw [text]
    exact .of_shift (fun _ => rfl) fun _ => ⟨rfl, rfl⟩
  comments := .inl rfl
  tells := Line.tells_unnumbered

end Emitter

def Body.shift (k : Nat) (body : Body) : Body :=
  { body with temporaries := body.temporaries.map (Temporary.shift k) }

theorem shiftResult_body_add (m n : Nat) (result : Except EmitError Body) :
    shiftResult (m + n) (Body.shift (m + n)) result =
      shiftResult m (Body.shift m) (shiftResult n (Body.shift n) result) := by
  cases result with
  | ok => simp [shiftResult, Body.shift, Temporary.shift, Function.comp_def, Nat.add_assoc]
  | error cause =>
    cases cause with
    | unsupported what => cases what <;> simp [shiftResult, EmitError.shift, Nat.add_assoc]
    | _ => simp [shiftResult, EmitError.shift, Nat.add_assoc]

namespace Session

variable {session session' : Session} {config : Config} {p : Procedure} {facts : Facts} {render render' : Renderer}

/-- A shifted procedure is emitted like the procedure itself, with the same text, statistics and causes of failure. -/
theorem emitBody_shift (renders : Renderer.Shifts k render render') :
    session.emitBody config (p.shift k) (facts.shift k) render' =
      Prod.map (shiftResult k (Body.shift k)) id (session.emitBody config p facts render) := by
  have lines (session : Session) (labels : Labels) (copies : Copies) :
      session.emitLines config (p.shift k) (facts.shift k) render' labels (copies.shift k) =
        Prod.map (shiftResult k (Body.shift k)) id (session.emitLines config p facts render labels copies) := by
    have twins := Emitter.twins_shift
      { procedure := p, facts, render, labels, copies, verbose := config.verbose } renders
    rw [emitLines, emitLines]
    dsimp only
    rcases twins.emit.outcome {} with ⟨cause, cause', after, failed, failed', rfl⟩ |
      ⟨lines, lines', after, emitted, emitted', same⟩
    · dsimp only [Emitter.shift] at failed'
      rw [failed, failed']
      rfl
    · dsimp only [Emitter.shift] at emitted'
      rw [emitted, emitted']
      dsimp only
      rw [layOut_eq_of_unnumbered same]
      rfl
  have begins : session.begin (p.shift k).name = session.begin p.name := rfl
  rw [emitBody, emitBody, begins]
  dsimp only
  rw [p.assignLabels_shift]
  cases p.assignLabels _ with
  | error => rfl
  | ok labels =>
    dsimp only [shiftResult, id]
    rw [p.copies_shift]
    cases p.copies facts with
    | error => rfl
    | ok copies =>
      have count : (copies.shift k).temporaries.length = copies.temporaries.length := List.length_map ..
      dsimp only [shiftResult]
      rw [count]
      exact lines _ labels copies

theorem emitPasses_shift (renders : Renderer.Shifts k render render') (passes : Nat) :
    session.emitPasses config (p.shift k) (facts.shift k) render' passes =
      Prod.map (List.map (shiftResult k (Body.shift k))) id
        (session.emitPasses config p facts render passes) := by
  induction passes generalizing session with
  | zero => rfl
  | succ _ ih =>
    simp only [emitPasses, emitBody_shift renders, Prod.map_snd, Prod.map_fst, id_eq, ih]
    rfl

end Session

end Reflow
