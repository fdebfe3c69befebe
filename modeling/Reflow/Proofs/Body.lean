import Reflow.Body
import Reflow.Proofs.Copies.Walk
import Reflow.Proofs.Layout

namespace Reflow

namespace Procedure

variable {p : Procedure} {facts : Facts} {b : BlockId} {walk last : CopyWalk}

theorem edgePairs_of_phis_eq_nil (none : ∀ b, p.phis b = []) (b : BlockId) : p.edgePairs b = .ok [] := by
  have empty (succs : List BlockId) :
      (succs.mapM fun succ => p.phiPairs b succ (p.phis succ)).map List.flatten = .ok [] := by
    induction succs with
    | nil => rfl
    | cons succ succs ih =>
      cases rest : succs.mapM fun succ => p.phiPairs b succ (p.phis succ) with
      | error => simp [rest, Except.map] at ih
      | ok =>
        simp only [rest, Except.map, Except.ok.injEq] at ih
        simp [rest, none succ, phiPairs, Bind.bind, Except.bind, Pure.pure, Except.pure, Except.map, ih]
  exact empty (p.succs b)

theorem placeNames_of_phis_eq_nil (none : ∀ b, p.phis b = []) (b : BlockId) (walk : CopyWalk) :
    p.placeNames facts b [] walk = .ok ([], { walk with visited := b :: walk.visited }) := by
  simp [placeNames, placeCopies, Except.map, schedule, edgePairs_of_phis_eq_nil none, Bind.bind, Except.bind, Pure.pure,
    Except.pure, Schedule.start, Schedule.runWithin, Rename.Scope.enter]

theorem copies_eq_empty (none : ∀ b, p.phis b = []) : p.copies p.analysis.toFacts = .ok {} := by
  obtain ⟨c, found⟩ := exists_copies_ok (p := p) fun b _ => ⟨[], edgePairs_of_phis_eq_nil none b⟩
  obtain ⟨last, walked, rfl⟩ := copies_eq_ok found
  have kept := walkBelow_keeps (fun _ => True) (fun stack walk => stack = [] ∧ walk.copies = {})
    (fun _ _ _ _ => trivial) ?_ trivial ⟨rfl, rfl⟩ walked [] ⟨rfl, rfl⟩
  · rw [found, kept.2]
  · rintro b _ walk names next - ⟨rfl, same⟩ placed
    rw [placeNames_of_phis_eq_nil none, Except.ok.injEq, Prod.mk.injEq] at placed
    obtain ⟨rfl, rfl⟩ := placed
    exact ⟨⟨rfl, same⟩, fun above kept => ⟨kept.1, same⟩⟩

end Procedure

def Line.rows (text : String) : List (List Char) :=
  (Text.lines text.toList).map Text.trim

theorem rows_layOut (indent : Nat) (lines : List Line) :
    Line.rows (layOut indent lines) = lines.flatMap fun line => Line.rows line.text := by
  rw [Line.rows, layOut, Layout.lines_layOut, List.flatMap_map]
  rfl

namespace Session

variable {session : Session} {config : Config} {p : Procedure} {facts : Facts} {render : Renderer}
  {labels : Labels} {copies : Copies}

theorem emitBody_fst : (session.emitBody config p facts render).1 = (do
        let labels ← p.assignLabels (session.passesOf p.name + 1)
        let copies ← p.copies facts
        match Emitter.emit { procedure := p, facts, render, labels, copies, verbose := config.verbose } {} with
        | .ok lines _ => .ok { temporaries := copies.temporaries, text := layOut config.indent lines }
        | .error cause _ => .error cause) := by
  have pass : (session.begin p.name).1 = session.passesOf p.name + 1 := rfl
  simp only [emitBody, pass]
  cases p.assignLabels (session.passesOf p.name + 1) with
  | error => rfl
  | ok labels =>
    cases p.copies facts with
    | error => rfl
    | ok copies =>
      simp only [emitLines, Bind.bind, Except.bind]
      cases Emitter.emit { procedure := p, facts, render, labels, copies, verbose := config.verbose } {} <;> rfl

theorem passesOf_emitBody :
    (session.emitBody config p facts render).2.passesOf p.name = session.passesOf p.name + 1 := by
  have begun : (session.begin p.name).2.passesOf p.name = session.passesOf p.name + 1 := by
    simp [begin, passesOf]
  have lines (session : Session) (labels : Labels) (copies : Copies) :
      (session.emitLines config p facts render labels copies).2.passesOf p.name = session.passesOf p.name := by
    rw [emitLines]
    dsimp only
    split <;> rfl
  rw [emitBody]
  dsimp only
  split
  · exact begun
  · split
    · exact begun
    · exact (lines _ _ _).trans begun

theorem emitPasses_fst {session' : Session} (pass : session'.passesOf p.name = session.passesOf p.name) (passes : Nat) :
    (session'.emitPasses config p facts render passes).1 = (session.emitPasses config p facts render passes).1 := by
  induction passes generalizing session session' with
  | zero => rfl
  | succ _ ih =>
    have next : (session'.emitBody config p facts render).2.passesOf p.name =
        (session.emitBody config p facts render).2.passesOf p.name := by
      rw [passesOf_emitBody, passesOf_emitBody, pass]
    rw [emitPasses, emitPasses]
    dsimp only
    rw [ih next, emitBody_fst, emitBody_fst, pass]

section

variable (assigned : p.assignLabels (session.passesOf p.name + 1) = .ok labels) (copied : p.copies facts = .ok copies)
include assigned copied

variable {progress : Progress}

theorem emitBody_eq_ok {lines : List Line}
    (emitted : Emitter.emit { procedure := p, facts, render, labels, copies, verbose := config.verbose } {} =
      .ok lines progress) :
    (session.emitBody config p facts render).1 =
      .ok { temporaries := copies.temporaries, text := layOut config.indent lines } := by
  have pass : (session.begin p.name).1 = session.passesOf p.name + 1 := rfl
  rw [emitBody]
  simp only [pass, assigned, copied, emitLines, emitted]

theorem emitBody_eq_error {error : EmitError}
    (failed : Emitter.emit { procedure := p, facts, render, labels, copies, verbose := config.verbose } {} =
      .error error progress) :
    (session.emitBody config p facts render).1 = .error error := by
  have pass : (session.begin p.name).1 = session.passesOf p.name + 1 := rfl
  rw [emitBody]
  simp only [pass, assigned, copied, emitLines, failed]

end

theorem exists_of_emitBody {body : Body} (emitted : (session.emitBody config p facts render).1 = .ok body) :
    ∃ labels copies lines progress, p.assignLabels (session.passesOf p.name + 1) = .ok labels ∧
      p.copies facts = .ok copies ∧
      Emitter.emit { procedure := p, facts, render, labels, copies, verbose := config.verbose } {} =
        .ok lines progress ∧
      body = { temporaries := copies.temporaries, text := layOut config.indent lines } ∧
      (session.emitBody config p facts render).2.stats.blocks =
        session.stats.blocks + progress.traversal.rendered.length := by
  have pass : (session.begin p.name).1 = session.passesOf p.name + 1 := rfl
  rw [emitBody] at emitted ⊢
  simp only [pass] at emitted ⊢
  cases assigned : p.assignLabels (session.passesOf p.name + 1) with
  | error => simp [assigned] at emitted
  | ok labels =>
    cases copied : p.copies facts with
    | error => simp [assigned, copied] at emitted
    | ok copies =>
      simp only [assigned, copied, emitLines] at emitted ⊢
      cases printed : Emitter.emit { procedure := p, facts, render, labels, copies, verbose := config.verbose } {} with
      | error cause progress => simp [printed] at emitted
      | ok lines progress =>
        simp only [printed] at emitted ⊢
        refine ⟨labels, copies, lines, progress, rfl, rfl, printed, (Except.ok.inj emitted).symm, ?_⟩
        unfold Stats.addFunction
        split <;> rfl

end Session

end Reflow
