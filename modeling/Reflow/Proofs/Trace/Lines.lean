import Reflow.Proofs.Code.Mark
import Reflow.Proofs.Emit.Lockstep
import Reflow.Proofs.Trace.Derivation

namespace Reflow

def Line.isLayout : Line → Bool
  | .openBrace | .closeBrace | .emptyBraces | .emptyStmt | .leaveSwitch => true
  | .elseBranch _ | .elseIf .. | .caseLabel _ => true
  | _ => false

namespace Emitter

open Emission

variable (e : Emitter)

inductive IsLine : Line → Prop
  | mark {b : BlockId} : IsLine (.comment s!"Basic block {e.procedure.number b}")
  | removed : IsLine (.comment "(removed virtual statement)")
  | label {b : BlockId} {name : String} (labelled : e.labels.label b = .ok name) : IsLine (.label b name)
  | copy {b : BlockId} {copy : Copy} (listed : copy ∈ e.copies.saved b ∨ copy ∈ e.copies.tail b) : IsLine (.copy b copy)
  | stmt {b : BlockId} {stmts : List (Stmt × Kind)} {stmt : Stmt × Kind} {text : String}
      (ok : e.procedure.classified b = .ok stmts) (listed : stmt ∈ stmts)
      (rendered : e.render stmt.1.id (e.names b) = .ok text) : IsLine (.stmt b stmt.1.id text)
  | again {b : BlockId} {stmts : List (Stmt × Kind)} {stmt : Stmt × Kind} {text : String}
      (ok : e.procedure.classified b = .ok stmts) (listed : stmt ∈ repeated stmts)
      (rendered : e.render stmt.1.id (e.names b) = .ok text) : IsLine (.stmt b stmt.1.id (text ++ "\n"))
  | jump {x : BlockId} {name : String} {nested : Bool} (labelled : e.labels.label x = .ok name) :
      IsLine (.jump x name nested)
  | openBrace : IsLine .openBrace
  | closeBrace : IsLine .closeBrace
  | emptyBraces : IsLine .emptyBraces
  | emptyStmt : IsLine .emptyStmt
  | leaveSwitch : IsLine .leaveSwitch
  | elseBranch {b : BlockId} : IsLine (.elseBranch b)
  | elseIf {b : BlockId} {stmts : List (Stmt × Kind)} {stmt : Stmt} {arms : List (Option Var × BlockId)} {x : BlockId}
      {v : Var} (ok : e.procedure.classified b = .ok stmts) (listed : (stmt, .multiway arms) ∈ stmts)
      (tested : (some v, x) ∈ arms) : IsLine (.elseIf b (e.varName b v))
  | caseLabel {label : CaseLabel} : IsLine (.caseLabel label)

def Task.Sourced : Task → Prop
  | .arms b _ _ left => ∃ stmts stmt all, e.procedure.classified b = .ok stmts ∧ (stmt, .multiway all) ∈ stmts ∧
      left ⊆ all
  | .cases b _ left _ => ∃ stmts stmt selector all, e.procedure.classified b = .ok stmts ∧
      (stmt, .switch selector all) ∈ stmts ∧ left ⊆ all
  | .rest b _ _ ending _ => ∀ kind ∈ ending, ∃ stmts stmt, e.procedure.classified b = .ok stmts ∧ (stmt, kind) ∈ stmts
  | _ => True

variable {e} {task : Task} {t t' t'' : Traversal} {b x : BlockId} {stmts : List (Stmt × Kind)}
  {lines : List Line} {line : Line}

theorem sourced_endOf (ok : e.procedure.classified b = .ok stmts) (slot : Bool)
    (deferred deferred' : Option BlockId) : (Task.rest b slot deferred (endOf stmts) deferred').Sourced e := by
  intro kind ending
  obtain ⟨stmt, last, rfl⟩ := Option.map_eq_some_iff.1 ending
  exact ⟨stmts, stmt.1, ok, upToLastReal_subset _ (List.mem_of_getLast? last)⟩

theorem IsLine.of_isText {some : List (Stmt × Kind)} (isText : e.IsText b some line)
    (ok : e.procedure.classified b = .ok stmts) (all : some ⊆ stmts) : e.IsLine line := by
  obtain ⟨stmt, listed, -, text, rendered, rfl⟩ := isText
  exact .stmt ok (all listed) rendered

theorem isLine_of_mem_saveLines (mem : line ∈ e.saveLines b) : e.IsLine line := by
  obtain ⟨copy, listed, rfl⟩ := List.mem_map.1 mem
  exact .copy (.inl listed)

theorem isLine_of_mem_tailLines (mem : line ∈ e.tailLines b) : e.IsLine line := by
  obtain ⟨copy, listed, rfl⟩ := List.mem_map.1 mem
  exact .copy (.inr listed)

theorem BodyLines.isLine (ok : e.procedure.classified b = .ok stmts)
    (printed : e.BodyLines b (upToLastReal stmts) lines) (mem : line ∈ lines) : e.IsLine line := by
  rcases printed.cases mem with isText | rfl | tail
  · exact .of_isText isText ok (upToLastReal_subset stmts)
  · exact .removed
  · exact isLine_of_mem_tailLines tail

theorem HeaderLines.isLine (printed : e.HeaderLines b lines) (mem : line ∈ lines) : e.IsLine line := by
  obtain ⟨stmts, body, ok, each, rfl⟩ := printed
  rcases List.mem_append.1 mem with front | tail
  · rcases List.mem_append.1 front with save | stmt
    · exact isLine_of_mem_saveLines save
    · obtain ⟨i, lt, rfl⟩ := List.mem_iff_getElem.1 stmt
      have bound : i < (repeated stmts).length := each.length_eq ▸ lt
      obtain ⟨text, rendered, same⟩ := (List.forall₂_iff_get.1 each).2 i bound lt
      rw [List.get_eq_getElem] at same
      rw [same]
      exact .again ok (List.getElem_mem bound) rendered
  · exact isLine_of_mem_tailLines tail

theorem isLine_of_mem_mark (mem : line ∈ e.mark b) : e.IsLine line := by
  unfold mark at mem
  split at mem
  · rw [List.mem_singleton.1 mem]
    exact .mark
  · simp at mem

variable (e) in
inductive Puts : Traversal → List Line → Traversal → Prop
  | keeps {t t' : Traversal} (rendered : t'.rendered = t.rendered) (printed : t'.printed = t.printed)
      (jumpTargets : t.jumpTargets ⊆ t'.jumpTargets) : Puts t [] t'
  | layout {t : Traversal} {line : Line} (isLine : e.IsLine line) (isLayout : line.isLayout = true) : Puts t [line] t
  | jump {t : Traversal} {x : BlockId} {name : String} {nested : Bool} (labelled : e.labels.label x = .ok name) :
      Puts t [.jump x name nested] (t.jumpTo x)
  | again {t : Traversal} {b : BlockId} {lines : List Line} (test : e.procedure.isLoopTest b = .ok true)
      (header : e.HeaderLines b lines) : Puts t lines t
  | block {t t' : Traversal} {b : BlockId} (opened : Bool) {needed : Bool} {stmts : List (Stmt × Kind)} {label : String}
      {body rest : List Line} (fresh : b ∉ t.rendered) (ok : e.procedure.classified b = .ok stmts)
      (decided : e.labels.isNeeded e.procedure e.facts (e.begun t b) b (isLoop (endOf stmts)) = .ok needed)
      (labelled : needed = true → e.labels.label b = .ok label) (printed : e.BodyLines b (upToLastReal stmts) body)
      (noted : ∀ x, endOf stmts = some (.jump [x]) → x ∈ t'.jumpTargets)
      (follows : Puts (e.started t b needed (upToLastReal stmts)) rest t') :
      Puts t (e.mark b ++ (if opened then [.openBrace] else []) ++
        ((if needed then [.label b label] else []) ++ e.saveLines b ++ body ++ rest)) t'
  | append {t t' t'' : Traversal} {lines more : List Line} (first : Puts t lines t') (second : Puts t' more t'') :
      Puts t (lines ++ more) t''

theorem Puts.nil : e.Puts t [] t :=
  .keeps rfl rfl (.refl _)

theorem Puts.after (first : e.Puts t [] t') (second : e.Puts t' lines t'') : e.Puts t lines t'' :=
  first.append second

theorem Puts.labels (labels : List CaseLabel) : e.Puts t (labels.map .caseLabel) t := by
  induction labels with
  | nil => exact .nil
  | cons _ _ ih => exact .append (.layout .caseLabel rfl) ih

theorem Puts.filler {wanted : Bool} : e.Puts t (filler wanted lines) t := by
  unfold Emitter.filler
  split
  · exact .layout .emptyStmt rfl
  · exact .nil

theorem Puts.braces (inner : e.Puts t lines t') : e.Puts t (.openBrace :: lines ++ [.closeBrace]) t' :=
  .append (.append (.layout .openBrace rfl) inner) (.layout .closeBrace rfl)

theorem Puts.wrap {mark inner fill join : List Line} (opened : Bool)
    (front : e.Puts t (mark ++ (if opened then [.openBrace] else []) ++ inner) t') (filled : e.Puts t' fill t')
    (joined : e.Puts t' join t'') : e.Puts t (mark ++ wrap opened (inner ++ fill ++ join)) t'' := by
  have whole := (front.append filled).append joined
  cases opened with
  | true => simpa [Emitter.wrap] using whole.append (.layout .closeBrace rfl)
  | false => simpa [Emitter.wrap] using whole

theorem Puts.arrived (t : Traversal) (hinted : List BlockId) (x : BlockId) : e.Puts t [] (arrived t hinted x) := by
  rw [arrived_eq]
  exact .keeps rfl rfl (.refl _)

theorem Puts.hints (t : Traversal) (hinted : List BlockId) : e.Puts t [] (hinted.foldl .hint t) := by
  rw [foldl_hint]
  exact .keeps rfl rfl (.refl _)

theorem Puts.undefer (t : Traversal) (join : BlockId) : e.Puts t [] (t.undefer join) :=
  .keeps rfl rfl (.refl _)

theorem Lays.mem_jumpTargets {slot : Bool} {deferred deferred' : Option BlockId}
    (lays : e.Lays (.rest b slot deferred (some (.jump [x])) deferred') t lines t') : x ∈ t'.jumpTargets := by
  cases lays with
  | jumps => exact Traversal.mem_jumps.2 (.inl (.head _))
  | ends passes => exact passes.elim
  | falls passes => exact passes.elim

theorem Lays.puts (lays : e.Lays task t lines t') (sourced : task.Sourced e) : e.Puts t lines t' := by
  induction lays with
  | @block _ t' _ _ _ _ stmts _ _ _ _ _ _ fresh ok decided labelled printed follows _ ihFollows ihJoins =>
      have noted (x : BlockId) (ending : endOf stmts = some (.jump [x])) : x ∈ t'.jumpTargets := by
        rw [ending] at follows
        exact follows.mem_jumpTargets
      exact .wrap _ (.block _ fresh ok decided labelled printed noted
        (ihFollows (sourced_endOf ok _ _ _))) .filler (ihJoins trivial)
  | @passed _ _ _ way =>
    cases way with
    | arm | body => exact .layout .emptyBraces rfl
    | case => exact .layout .leaveSwitch rfl
    | otherwise | after | fall => exact .nil
  | joined => exact .layout .leaveSwitch rfl
  | @jumped _ _ _ way _ _ labelled =>
    cases way with
    | otherwise => exact .append (.layout .elseBranch rfl) (.jump labelled)
    | _ => exact .jump labelled
  | @returned t b _ _ lines _ _ test header =>
    have inner : e.Puts t lines t := .again test header
    unfold Way.again
    split
    · split
      · exact .nil
      · have other : e.Puts t [.elseBranch b] t := .layout .elseBranch rfl
        exact other.append inner.braces
    · split
      · exact .nil
      · exact inner.braces
    · exact inner
  | @entered t t' _ _ way _ _ _ ih =>
    have start : e.Puts t [] (way.entered t) := by cases way <;> exact .keeps rfl rfl (.refl _)
    have last : e.Puts t' [] (way.left t') := by cases way <;> exact .keeps rfl rfl (.refl _)
    have whole := (start.after (ih trivial)).append last
    rw [List.append_nil] at whole
    cases way with
    | otherwise => simpa [Way.around, Way.leaving] using Puts.append (.layout .elseBranch rfl) whole
    | case => exact whole.append (.layout .leaveSwitch rfl)
    | _ => simpa [Way.around, Way.leaving] using whole
  | armsDone | casesDone | ends | noJoin => exact .nil
  | @arm t _ _ b x first hinted cond _ _ _ _ _ ihHere ihLater =>
    obtain ⟨stmts, stmt, all, ok, listed, among⟩ := sourced
    have head : e.Puts t (e.armHead b first cond) t := by
      cases first with
      | true => exact .nil
      | false =>
        cases cond with
        | none => exact .layout .elseBranch rfl
        | some v => exact .layout (.elseIf ok listed (among (.head _))) rfl
    exact (head.append (.after (.arrived t hinted x) (ihHere trivial))).append
      (ihLater ⟨stmts, stmt, all, ok, listed, List.subset_of_cons_subset among⟩)
  | elided _ _ _ ih =>
    obtain ⟨stmts, stmt, all, ok, listed, among⟩ := sourced
    exact .after (.arrived ..) (ih ⟨stmts, stmt, all, ok, listed, List.subset_of_cons_subset among⟩)
  | case _ _ ihHere ihLater =>
    obtain ⟨stmts, stmt, selector, all, ok, listed, among⟩ := sourced
    exact (Puts.append (.labels _) (ihHere trivial)).append
      (ihLater ⟨stmts, stmt, selector, all, ok, listed, List.subset_of_cons_subset among⟩)
  | @claimed t _ _ _ arm _ _ _ _ _ _ _ ih =>
    obtain ⟨stmts, stmt, selector, all, ok, listed, among⟩ := sourced
    have rest := ih ⟨stmts, stmt, selector, all, ok, listed, List.subset_of_cons_subset among⟩
    have claim : e.Puts t [] (t.claim arm.target) := .keeps rfl rfl (.refl _)
    exact (Puts.append (.labels _) (.layout .leaveSwitch rfl)).append (claim.after rest)
  | conditional _ _ ihFirst ihSecond =>
    exact (Puts.after (.hints ..) (ihFirst trivial)).append (.after (.arrived ..) (ihSecond trivial))
  | loop _ _ ihInner ihOuter => exact (ihInner trivial).append (ihOuter trivial)
  | multiway _ _ ih =>
    obtain ⟨stmts, stmt, ok, listed⟩ := sourced _ rfl
    exact .after (.hints ..) (ih ⟨stmts, stmt, _, ok, listed, .refl _⟩)
  | switch _ ih =>
    obtain ⟨stmts, stmt, ok, listed⟩ := sourced _ rfl
    exact (ih ⟨stmts, stmt, _, _, ok, listed, .refl _⟩).braces
  | @jumps t _ _ _ targets =>
    have grows := Traversal.grows_jumps targets t
    exact .keeps (by rw [Traversal.jumps_eq]) (by rw [Traversal.jumps_eq]) grows.jumpTargets
  | falls _ _ _ ih => exact ih trivial
  | settled => exact .undefer ..
  | followed _ _ ih => exact .after (.undefer ..) (ih trivial)

theorem Drains.puts (drains : e.Drains t lines t') : e.Puts t lines t' := by
  induction drains with
  | done => exact .nil
  | next _ here _ ih => exact (here.puts trivial).append ih

theorem Writes.puts (writes : e.Writes lines t) : e.Puts {} lines t := by
  cases writes with
  | whole entry pending => exact (entry.puts trivial).append pending.puts

theorem Puts.grows (puts : e.Puts t lines t') : t.Grows t' := by
  induction puts with
  | keeps rendered printed jumpTargets => exact ⟨rendered ▸ .refl _, printed ▸ .refl _, jumpTargets⟩
  | layout | again => exact .refl _
  | jump => exact Traversal.grows_jumpTo ..
  | block _ _ _ _ _ _ _ _ ih => exact (e.grows_started ..).trans ih
  | append _ _ ihFirst ihSecond => exact ihFirst.trans ihSecond

theorem Puts.isLine (puts : e.Puts t lines t') : ∀ line ∈ lines, e.IsLine line := by
  induction puts with
  | keeps => simp
  | layout isLine => simpa using isLine
  | jump labelled => simpa using IsLine.jump labelled
  | again test header => exact fun line => header.isLine
  | @block t t' b opened needed stmts label body rest fresh ok decided labelled printed noted follows ih =>
    intro line mem
    simp only [List.mem_append] at mem
    rcases mem with (inMark | opening) | ((head | save) | inBody) | inRest
    · exact isLine_of_mem_mark inMark
    · split at opening
      · exact List.mem_singleton.1 opening ▸ .openBrace
      · simp at opening
    · split at head
      · exact List.mem_singleton.1 head ▸ .label (labelled ‹_›)
      · simp at head
    · exact isLine_of_mem_saveLines save
    · exact printed.isLine ok inBody
    · exact ih line inRest
  | append _ _ ihFirst ihSecond =>
    exact fun line mem => (List.mem_append.1 mem).elim (ihFirst line) (ihSecond line)

theorem Writes.isLine (writes : e.Writes lines t) : ∀ line ∈ lines, e.IsLine line :=
  writes.puts.isLine

variable {named : String → Prop} {stmt : Stmt × Kind}

theorem exists_upToLastReal_append (stmts : List (Stmt × Kind)) : ∃ rest, upToLastReal stmts ++ rest = stmts := by
  obtain ⟨skipped, whole⟩ := List.dropWhile_suffix (fun stmt => !stmt.2.isReal) (l := stmts.reverse)
  refine ⟨skipped.reverse, ?_⟩
  rw [upToLastReal, ← List.reverse_append, whole, List.reverse_reverse]

theorem dropLast_upToLastReal_subset (stmts : List (Stmt × Kind)) : (upToLastReal stmts).dropLast ⊆ stmts.dropLast := by
  obtain ⟨rest, whole⟩ := exists_upToLastReal_append stmts
  rcases List.eq_nil_or_concat' (upToLastReal stmts) with empty | ⟨front, last, real⟩
  · simp [empty]
  · rw [real] at whole ⊢
    rw [← whole, List.dropLast_concat, List.append_assoc, List.dropLast_append_of_ne_nil (by simp)]
    exact List.subset_append_left _ _

section

variable (legible : e.Legible named) (ok : e.procedure.classified b = .ok stmts)
include legible ok

theorem Legible.passing_of_repeated (mem : stmt ∈ repeated stmts) :
    stmt ∈ stmts ∧ (stmt.2 = .plain ∨ stmt.2 = .init) := by
  obtain ⟨listed, real⟩ := List.mem_filter.1 mem
  have early := dropLast_upToLastReal_subset stmts listed
  have passes := legible.last ok stmt early
  refine ⟨List.dropLast_subset _ early, ?_⟩
  cases kind : stmt.2 with
  | plain => exact .inl rfl
  | init => exact .inr rfl
  | virtual | label => simp [kind] at real
  | conditional | loop | multiway | switch | jump => simp [kind, Kind.isBranching] at passes

theorem Legible.isPassing_of_repeated (mem : stmt ∈ repeated stmts) {text : String}
    (rendered : e.render stmt.1.id (e.names b) = .ok text) : IsPassing named text := by
  obtain ⟨listed, passes⟩ := legible.passing_of_repeated ok mem
  have spelled := legible.texts ok stmt listed rendered
  rcases passes with plain | init
  · rwa [plain] at spelled
  · rwa [init] at spelled

theorem Legible.endOf_eq (mem : stmt ∈ stmts) (branches : stmt.2.isBranching = true) : endOf stmts = some stmt.2 := by
  rcases List.eq_nil_or_concat' stmts with rfl | ⟨front, last, rfl⟩
  · exact absurd mem List.not_mem_nil
  · rcases List.mem_append.1 mem with early | final
    · have passes := legible.last ok stmt (by simpa using early)
      rw [branches] at passes
      simp at passes
    · obtain rfl := List.mem_singleton.1 final
      have real : stmt.2.isReal = true := by
        cases kind : stmt.2 <;> simp [kind, Kind.isBranching, Kind.isReal] at branches ⊢
      rw [endOf, upToLastReal_concat, if_pos real]
      simp

end

theorem ofRow_comment (reserved : List String) (cs : List Char) : Mark.ofRow reserved ('/' :: cs) = none := by
  have slash : Text.continuesName '/' = false := by decide
  simp [Mark.ofRow, slash, Mark.ofPunctuation]

theorem IsLine.exists_row_of_isComment (isLine : e.IsLine line) (comment : line.isComment = true) :
    ∃ cs, Line.rows line.text = ['/' :: '/' :: cs] := by
  cases isLine with
  | @mark b =>
    refine ⟨("Basic block " ++ toString (e.procedure.number b)).toList, ?_⟩
    have single := (Program.FunctionOf.oneLine_blockComment (e.procedure.number b)).lines_eq
    rw [Line.rows]
    refine single.trans ?_
    rw [String.toList_append]
    rfl
  | removed => exact ⟨"(removed virtual statement)".toList, by decide⟩
  | _ => simp [Line.isComment] at comment

theorem IsLine.exists_mark (legible : e.Legible named) {reserved : List String}
    (isName : ∀ {name}, named name → Mark.isName reserved name = true) (isLine : e.IsLine line)
    (real : line.isComment = false) : ∃ mark, line.IsMarked reserved mark := by
  cases isLine with
  | mark | removed => simp [Line.isComment] at real
  | label labelled => exact ⟨_, Line.isMarked_label (isName (legible.label labelled).1)⟩
  | copy listed =>
    refine ⟨_, Line.isMarked_copy isName ?_⟩
    rcases listed with save | tail
    · exact legible.copies.mem_saved save
    · exact legible.copies.mem_tail tail
  | stmt ok listed rendered =>
    exact Kind.Shows.exists_mark (legible.shows isName ok listed rendered)
  | again ok listed rendered =>
    exact ⟨_, Line.isMarked_again isName (legible.isPassing_of_repeated ok listed rendered)⟩
  | jump labelled => exact ⟨_, Line.isMarked_jump (isName (legible.label labelled).1) _⟩
  | openBrace => exact ⟨_, Line.isMarked_openBrace⟩
  | closeBrace => exact ⟨_, Line.isMarked_closeBrace⟩
  | emptyBraces => exact ⟨_, Line.isMarked_emptyBraces⟩
  | emptyStmt => exact ⟨_, Line.isMarked_emptyStmt⟩
  | leaveSwitch => exact ⟨_, Line.isMarked_leaveSwitch⟩
  | elseBranch => exact ⟨_, Line.isMarked_elseBranch⟩
  | elseIf ok listed tested =>
    exact ⟨_, Line.isMarked_elseIf (isName ((legible.arms ok listed).2 _ tested _ rfl))⟩
  | caseLabel => exact ⟨_, Line.isMarked_caseLabel _⟩

end Emitter

def Session.Prints (session : Session) (config : Config) (p : Procedure) (facts : Facts) (render : Renderer)
    (body : Body)
    (lines : List Line) : Prop :=
  ∃ labels copies progress, p.assignLabels (session.passesOf p.name + 1) = .ok labels ∧ p.copies facts = .ok copies ∧
    Emitter.emit { procedure := p, facts, render, labels, copies, verbose := config.verbose } {} = .ok lines progress ∧
    body.text = layOut config.indent lines

variable {session : Session} {config : Config} {facts : Facts} {body : Body} {lines : List Line}
  {f : Program.Function}

theorem Session.exists_prints {p : Procedure} {render : Renderer}
    (emitted : (session.emitBody config p facts render).1 = .ok body) :
    ∃ lines, session.Prints config p facts render body lines := by
  obtain ⟨labels, copies, lines, progress, assigned, copied, printed, rfl, -⟩ := exists_of_emitBody emitted
  exact ⟨lines, labels, copies, progress, assigned, copied, printed, rfl⟩

def Emitter.IsOf (f : Program.Function) (e : Emitter) : Prop :=
  ∀ b stmts, e.procedure.classified b = .ok stmts → ∀ stmt ∈ stmts, ∃ source n,
    f.values[stmt.1.id]? = some (.statement source) ∧ source.instr.kind n = .ok stmt.2

theorem Program.FunctionOf.isOf_of_assignLabels {base pass : Nat} {labels : Labels}
    {copies : Copies} {verbose : Bool} (assigned : (f.procedure base).assignLabels pass = .ok labels) :
    Emitter.IsOf f { procedure := f.procedure base, facts, render := f.render, labels, copies, verbose } := by
  intro b stmts ok stmt mem
  obtain ⟨block, source, -, -, value, kind⟩ := exists_of_classified (plain_of_assignLabels assigned) ok mem
  exact ⟨source, _, value, kind⟩

theorem Program.FunctionOf.IsRead.exists_writes {base : Nat} {named : String → Prop}
    (read : f.IsRead) (shows : f.ShowsOnly named)
    (prints : session.Prints config (f.procedure base) facts f.render body lines) :
    ∃ e : Emitter, ∃ t, e.Legible named ∧ e.IsOf f ∧ e.Writes lines t := by
  obtain ⟨labels, copies, progress, assigned, copied, printed, -⟩ := prints
  exact ⟨_, _, read.legible shows assigned copied, isOf_of_assignLabels assigned, Emitter.writes_of_emit rfl printed⟩

end Reflow
