import Reflow.Proofs.Trace.Functions
import Reflow.Proofs.Trace.Jumps

namespace Reflow

def Line.isOf (b : BlockId) : Line → Bool
  | .label c _ | .copy c _ | .stmt c _ _ => c == b
  | _ => false

namespace Emitter

open Emission Traversal

variable (e : Emitter) (b : BlockId)

inductive OwnLines : List Line → Prop
  | intro {stmts : List (Stmt × Kind)} {needed : Bool} {label : String} {body : List Line}
      (ok : e.procedure.classified b = .ok stmts) (unlabelled : needed = true → e.procedure.label? b = none)
      (printed : e.BodyLines b (upToLastReal stmts) body) :
      OwnLines ((if needed then [.label b label] else []) ++ e.saveLines b ++ body.filter (·.isOf b))

inductive Echoes : List Line → Prop
  | nil : Echoes []
  | again {header lines : List Line} (test : e.procedure.isLoopTest b = .ok true)
      (printed : e.HeaderLines b header) (others : Echoes lines) : Echoes (header ++ lines)

inductive Places (old : List BlockId) (lines : List Line) (now : List BlockId) : Prop
  | here {before own after : List Line} (fresh : b ∉ old) (rendered : b ∈ now) (earlier : e.Echoes b before)
      (shown : e.OwnLines b own) (later : e.Echoes b after) (split : lines.filter (·.isOf b) = before ++ own ++ after)
  | elsewhere (same : b ∈ now → b ∈ old) (echoes : e.Echoes b (lines.filter (·.isOf b)))

variable {e b} {task : Task} {t t' : Traversal} {x : BlockId} {lines more : List Line} {old now later : List BlockId}
  {stmts : List (Stmt × Kind)}

theorem Echoes.append (first : e.Echoes b lines) (second : e.Echoes b more) : e.Echoes b (lines ++ more) := by
  induction first with
  | nil => exact second
  | again test printed _ ih =>
    rw [List.append_assoc]
    exact .again test printed ih

theorem Places.trans (first : e.Places b old lines now) (second : e.Places b now more later) (grows : old ⊆ now)
    (grows' : now ⊆ later) : e.Places b old (lines ++ more) later := by
  cases first with
  | here fresh rendered earlier shown after split =>
    cases second with
    | here fresh' => exact absurd rendered fresh'
    | elsewhere same echoes =>
      refine .here fresh (grows' rendered) earlier shown (after.append echoes) ?_
      rw [List.filter_append, split, List.append_assoc]
  | elsewhere same echoes =>
    cases second with
    | here fresh rendered earlier shown after split =>
      refine .here (fun before => fresh (grows before)) rendered (echoes.append earlier) shown after ?_
      rw [List.filter_append, split]
      simp only [List.append_assoc]
    | elsewhere same' echoes' =>
      refine .elsewhere (fun rendered => same (same' rendered)) ?_
      rw [List.filter_append]
      exact echoes.append echoes'

theorem Places.congr (places : e.Places b old lines now)
    (same : more.filter (·.isOf b) = lines.filter (·.isOf b)) : e.Places b old more now := by
  cases places with
  | here fresh rendered earlier shown after split =>
    exact .here fresh rendered earlier shown after (same.trans split)
  | elsewhere known echoes => exact .elsewhere known (same ▸ echoes)

theorem Places.quiet (same : b ∈ now → b ∈ old) (none : lines.filter (·.isOf b) = []) : e.Places b old lines now :=
  .elsewhere same (by rw [none]; exact .nil)

theorem filter_isOf_copies (copies : List Copy) :
    (copies.map (Line.copy x)).filter (·.isOf b) = if x = b then copies.map (Line.copy x) else [] := by
  split
  · rename_i same
    simp [List.filter_eq_self, Line.isOf, same]
  · rename_i other
    simp [List.filter_eq_nil_iff, Line.isOf, other]

theorem BodyLines.filter_isOf (printed : e.BodyLines x stmts lines) (other : x ≠ b) :
    lines.filter (·.isOf b) = [] := by
  rw [List.filter_eq_nil_iff]
  intro line mem
  rcases printed.cases mem with ⟨stmt, -, -, text, -, rfl⟩ | rfl | tail
  · simp [Line.isOf, other]
  · simp [Line.isOf]
  · obtain ⟨copy, -, rfl⟩ := List.mem_map.1 tail
    simp [Line.isOf, other]

theorem HeaderLines.filter_isOf (printed : e.HeaderLines x lines) :
    lines.filter (·.isOf b) = if x = b then lines else [] := by
  have each (line : Line) (mem : line ∈ lines) : line.isOf b = decide (x = b) := by
    rcases printed.cases mem with ⟨stmts, -, stmt, -, text, -, rfl⟩ | ⟨copy, rfl⟩ <;> rfl
  split
  · rename_i same
    rw [List.filter_eq_self]
    intro line mem
    simp [each line mem, same]
  · rename_i other
    rw [List.filter_eq_nil_iff]
    intro line mem
    simp [each line mem, other]

theorem places_started {needed : Bool} {label : String} {body : List Line}
    (fresh : x ∉ t.rendered) (ok : e.procedure.classified x = .ok stmts)
    (unlabelled : needed = true → e.procedure.label? x = none) (printed : e.BodyLines x (upToLastReal stmts) body) :
    e.Places b t.rendered ((if needed then [.label x label] else []) ++ e.saveLines x ++ body)
      (e.started t x needed (upToLastReal stmts)).rendered := by
  by_cases same : x = b
  · subst same
    have shown : e.OwnLines x ((if needed then [.label x label] else []) ++ e.saveLines x ++ body.filter (·.isOf x)) :=
      .intro ok unlabelled printed
    refine .here fresh (mem_started_rendered.2 (.inl rfl)) .nil shown .nil ?_
    have first : (if needed then [Line.label x label] else []).filter (·.isOf x) =
        if needed then [Line.label x label] else [] := by
      split <;> simp [Line.isOf]
    rw [List.filter_append, List.filter_append, first, saveLines, filter_isOf_copies, if_pos rfl]
    simp
  · refine .quiet (fun rendered => (mem_started_rendered.1 rendered).resolve_left (Ne.symm same)) ?_
    have first : (if needed then [Line.label x label] else []).filter (·.isOf b) = [] := by
      split <;> simp [Line.isOf, same]
    rw [List.filter_append, List.filter_append, first, saveLines, filter_isOf_copies, if_neg same,
      printed.filter_isOf same]
    rfl

theorem Puts.places (puts : e.Puts t lines t') (b : BlockId) : e.Places b t.rendered lines t'.rendered := by
  induction puts with
  | keeps rendered => exact .quiet (by rw [rendered]; exact id) rfl
  | @layout _ line _ isLayout =>
    have none : line.isOf b = false := by
      cases line <;> first | rfl | simp [Line.isLayout] at isLayout
    exact .quiet id (by simp [none])
  | jump => exact .quiet id rfl
  | @again t x lines test header =>
    refine .elsewhere id ?_
    rw [header.filter_isOf]
    split
    · rename_i same
      subst same
      rw [← List.append_nil lines]
      exact .again test header .nil
    · exact .nil
  | @block t _ x opened needed _ label body _ fresh ok decided _ printed _ follows ih =>
    have unlabelled (isNeeded : needed = true) : e.procedure.label? x = none :=
      label?_eq_none_of_isNeeded (isNeeded ▸ decided)
    have start : e.Places b t.rendered ((if needed then [.label x label] else []) ++ e.saveLines x ++ body) _ :=
      places_started fresh ok unlabelled printed
    refine (start.trans ih (e.grows_started ..).rendered follows.grows.rendered).congr ?_
    have mark : (e.mark x).filter (·.isOf b) = [] := by
      unfold mark
      split <;> rfl
    have opening : (if opened then [Line.openBrace] else []).filter (·.isOf b) = [] := by
      split <;> rfl
    simp only [List.filter_append, mark, opening, List.nil_append]
  | append first second ihFirst ihSecond =>
    exact ihFirst.trans ihSecond first.grows.rendered second.grows.rendered

theorem Writes.places (writes : e.Writes lines t) (rendered : b ∈ t.rendered) : ∃ before own after,
    lines.filter (·.isOf b) = before ++ own ++ after ∧ e.Echoes b before ∧ e.OwnLines b own ∧ e.Echoes b after := by
  cases writes.puts.places b with
  | here _ _ earlier shown after split => exact ⟨_, _, _, split, earlier, shown, after⟩
  | elsewhere same => exact absurd (same rendered) List.not_mem_nil

end Emitter

end Reflow
