import Reflow.Proofs.Body
import Reflow.Proofs.Emit.Exits
import Reflow.Proofs.Emit.Lockstep
import Reflow.Proofs.Structured.Source

namespace Reflow

namespace Line

def isUnstructured : Line → Bool
  | .jump .. | .label .. => true
  | _ => false

structure Shows (verbose : Bool) (lines : List Line) (texts : List String) : Prop where
  structured : ∀ line ∈ lines, line.isUnstructured = false
  quiet : verbose = false → ∀ line ∈ lines, line.isComment = false
  rows : (lines.filter fun line => !line.isComment).flatMap (fun line => rows line.text) =
    texts.flatMap Line.rows

namespace Shows

variable {verbose : Bool} {lines more : List Line} {texts others : List String} {line : Line}

theorem nil : Shows verbose [] [] :=
  ⟨by simp, by simp, rfl⟩

theorem append (first : Shows verbose lines texts) (second : Shows verbose more others) :
    Shows verbose (lines ++ more) (texts ++ others) where
  structured line mem := by
    rcases List.mem_append.1 mem with early | late
    · exact first.structured line early
    · exact second.structured line late
  quiet silent line mem := by
    rcases List.mem_append.1 mem with early | late
    · exact first.quiet silent line early
    · exact second.quiet silent line late
  rows := by
    rw [List.filter_append, List.flatMap_append, List.flatMap_append, first.rows, second.rows]

theorem comment_append (silent : Shows verbose lines []) (shows : Shows verbose more texts) :
    Shows verbose (lines ++ more) texts :=
  silent.append shows

theorem single {text : String} (structured : line.isUnstructured = false) (noComment : line.isComment = false)
    (same : Line.rows line.text = Line.rows text) : Shows verbose [line] [text] where
  structured := by simpa using structured
  quiet := by simpa using fun _ => noComment
  rows := by simp [noComment, same]

theorem cons {text : String} (structured : line.isUnstructured = false) (noComment : line.isComment = false)
    (same : Line.rows line.text = Line.rows text) (rest : Shows verbose lines texts) :
    Shows verbose (line :: lines) (text :: texts) :=
  (single structured noComment same).append rest

theorem comment (verbose : Bool) (text : String) : Shows verbose (if verbose then [.comment text] else []) [] := by
  cases verbose with
  | false => exact nil
  | true => exact ⟨by simp [isUnstructured], by simp, by simp [isComment]⟩

theorem braces (shows : Shows verbose lines texts) (some : texts ≠ []) :
    Shows verbose (.openBrace :: lines ++ [.closeBrace]) (Source.braces texts) := by
  have whole : Shows verbose (.openBrace :: (lines ++ [.closeBrace])) ("\x7b" :: (texts ++ ["\x7d"])) :=
    .cons rfl rfl rfl (shows.append (.single rfl rfl rfl))
  cases texts with
  | nil => exact absurd rfl some
  | cons => exact whole

theorem semicolon : Shows verbose [.emptyStmt] (Source.braces []) :=
  .single rfl rfl rfl

theorem layOut_eq (shows : Shows false lines texts) (indent : Nat) :
    layOut indent lines = Layout.layOut indent (texts.map fun text => { text }) := by
  have flat : ∀ piece ∈ lines.map Line.piece, piece.extra = 0 := by
    intro piece mem
    obtain ⟨line, listed, rfl⟩ := List.mem_map.1 mem
    have structured := shows.structured line listed
    cases line <;> simp [isUnstructured, piece, isNested] at structured ⊢
  have all : lines.filter (fun line => !line.isComment) = lines := by
    rw [List.filter_eq_self]
    intro line mem
    simp [shows.quiet rfl line mem]
  have rows := shows.rows
  rw [all] at rows
  rw [layOut, Layout.layOut, Layout.layOut, Layout.flatten_layPieces indent 0 flat,
    Layout.flatten_layPieces indent 0 (by simp), List.flatMap_map, List.flatMap_map]
  exact congrArg (fun rows => String.ofList (Layout.layLines indent 0 0 rows)) rows

end Shows

end Line

namespace Program.FunctionOf

open Emission

/-- A pass over a function: the number of its first value, its labels, and whether comments are printed. -/
structure Pass (f : Function) where
  base : Nat
  labels : Labels
  verbose : Bool

abbrev Pass.procedure {f : Function} (e : f.Pass) : Procedure :=
  f.procedure e.base

abbrev Pass.emitter {f : Function} (e : f.Pass) : Emitter :=
  f.emitter e.base e.labels e.verbose

variable {f : Function} {e : f.Pass} {b x : BlockId} {t : Traversal}
  {body : List (Statement Nat Nat)} {last stmt : Statement Nat Nat} {allowed : EmitError → Prop}

theorem getLast?_statementText (f : Function) (inner : stmt.instr.isInner)
    (real : stmt.instr.op ≠ .vuse) : (f.statementText stmt).toList.getLast? = some ';' := by
  obtain ⟨result, instr⟩ := stmt
  cases instr with
  | any | const | binary | copy | init => simp [statementText, renderInstr, toString, List.getLast?_cons]
  | call =>
    simp only [statementText, renderInstr]
    split <;> simp [toString, List.getLast?_cons]
  | vuse => exact absurd rfl real
  | _ => exact absurd inner (by simp [Instr.isInner, Instr.isStraight])

theorem rows_statementText (f : Function) (inner : stmt.instr.isInner) (real : stmt.instr.op ≠ .vuse) :
    Line.rows (f.statementText stmt ++ "\n") = Line.rows (f.statementText stmt) := by
  have last := f.getLast?_statementText inner real
  have some : (f.statementText stmt).toList ≠ [] := by
    intro empty
    simp [empty] at last
  have feed : (f.statementText stmt ++ "\n").toList = (f.statementText stmt).toList ++ ['\n'] := by simp
  rw [Line.rows, Line.rows, feed, Text.lines_concat_lineFeed some (by simp [last]) (by simp [last])]

theorem shows_printed (f : Function) (verbose : Bool) (b : BlockId) (views : List (Nat × Statement Nat Nat)) :
    Line.Shows verbose (f.printed verbose b views) (f.texts (views.map (·.2))) := by
  induction views with
  | nil => exact .nil
  | cons view views ih =>
    have split : f.printed verbose b (view :: views) = f.printed verbose b [view] ++ f.printed verbose b views := by
      simp [printed]
    have head : f.texts ((view :: views).map (·.2)) = f.texts [view.2] ++ f.texts (views.map (·.2)) :=
      f.texts_append [view.2] _
    rw [split, head]
    refine .append ?_ ih
    by_cases isVirtual : view.2.instr.op = .vuse
    · simpa [printed, texts, isVirtual] using Line.Shows.comment verbose "(removed virtual statement)"
    · simpa [printed, texts, isVirtual] using .single rfl rfl rfl

theorem shows_repeated (f : Function) (verbose : Bool) (b : BlockId) (views : List (Nat × Statement Nat Nat))
    (inner : ∀ view ∈ views, view.2.instr.isInner) :
    Line.Shows verbose (f.repeated b views) (f.texts (views.map (·.2))) := by
  induction views with
  | nil => exact .nil
  | cons view _ ih =>
    have rest := ih fun view mem => inner view (.tail _ mem)
    by_cases isVirtual : view.2.instr.op = .vuse
    · simpa [repeated, texts, isVirtual] using rest
    · have here := f.rows_statementText (inner view (.head _)) isVirtual
      simpa [repeated, texts, isVirtual] using .cons rfl rfl here rest

def PrintsBody (e : f.Pass) (allowed : EmitError → Prop) (b : BlockId) (texts : List String) : Prop :=
  ∀ t, Meets allowed (e.emitter.bodyLines b (upToLastReal (e.procedure.kinds b))) t fun lines t' =>
    t' = t ∧ Line.Shows e.verbose lines texts ∧ (e.procedure.ending b = none → lines = [])

section

variable (bare : f.Bare) (has : f.HasBlock b body last)
include bare has

theorem Bare.shows_bodyLines_br (instr : last.instr = .br x) : PrintsBody e allowed b (f.texts (kept body)) := by
  intro t
  apply (bare.bodyLines_br_meets has instr).mono
  rintro lines t' ⟨rfl, rfl⟩
  have shows := f.shows_printed e.verbose b (f.numbered b (kept body))
  rw [numbered, map_snd_numberFrom] at shows
  refine ⟨rfl, shows, fun none => ?_⟩
  rcases has.ending_br bare e.base instr with ⟨-, empty⟩ | ⟨plain, -⟩
  · rw [empty]
    rfl
  · simp [none] at plain

theorem Bare.shows_bodyLines (kind : Kind) (ok : ∀ n, last.instr.kind n = .ok kind) (real : kind.isReal)
    (noLabel : kind ≠ .label) (printed : last.instr.op ∉ [.vuse, .asm, .br, .goto]) :
    PrintsBody e allowed b (f.texts body ++ [f.statementText last]) := by
  intro t
  have same := renderInstr_eq (f := f) printed e.labels.label
  apply (bare.bodyLines_meets has kind ok real noLabel (by simp [same])).mono
  rintro lines t' ⟨rfl, text, rendered, rfl⟩
  obtain rfl := Except.ok.inj (same.symm.trans rendered)
  have shows := f.shows_printed e.verbose b (f.numbered b body)
  rw [numbered, map_snd_numberFrom] at shows
  have ending := has.ending_eq bare e.base kind ok real
  exact ⟨rfl, shows.append (.single rfl rfl rfl), by simp [ending]⟩

theorem Bare.shows_headerLines {cond : Var} {inner outer : BlockId} (instr : last.instr = .loop cond inner outer) :
    Meets allowed (e.emitter.headerLines b) t fun lines t' =>
      t' = t ∧ Line.Shows e.verbose lines (f.texts body) ∧ (lines = [] ↔ f.texts body = []) := by
  apply (bare.headerLines_meets has instr).mono
  rintro lines t' ⟨rfl, rfl⟩
  have shows := f.shows_repeated e.verbose b (f.numbered b body) fun view mem => has.inner _ (mem_of_mem_numbered mem)
  have empty : f.repeated b (f.numbered b body) = [] ↔ _ := repeated_eq_nil_iff
  rw [numbered, map_snd_numberFrom] at shows empty
  exact ⟨rfl, shows, empty⟩

end

end Program.FunctionOf

end Reflow
