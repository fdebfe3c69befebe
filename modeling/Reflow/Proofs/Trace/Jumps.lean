import Reflow.Proofs.Trace.Lines

namespace Reflow

namespace Program.FunctionOf

variable (f : Function)

def labelOf? : Line → Option BlockId
  | .label b _ => some b
  | .stmt b id _ =>
    match f.values[id]? with
    | some (.statement ⟨_, .label _⟩) => some b
    | _ => none
  | _ => none

def jumpOf? : Line → Option BlockId
  | .jump x _ _ => some x
  | .stmt _ id _ =>
    match f.values[id]? with
    | some (.statement ⟨_, .goto x⟩) => some x
    | _ => none
  | _ => none

variable {f} {b x : BlockId} {id : StmtId} {text : String} {source : Statement Nat Nat} {n : Nat} {kind : Kind}

section

variable (value : f.values[id]? = some (.statement source)) (ok : source.instr.kind n = .ok kind)
include value ok

theorem labelOf?_stmt : f.labelOf? (.stmt b id text) = if kind = .label then some b else none := by
  obtain ⟨result, instr⟩ := source
  cases instr with
  | asm | br => simp [Instr.kind] at ok
  | _ =>
    obtain rfl := Except.ok.inj ok
    simp [labelOf?, value]

theorem jumpOf?_stmt : f.jumpOf? (.stmt b id text) = some x ↔ kind = .jump [x] := by
  obtain ⟨result, instr⟩ := source
  cases instr with
  | asm | br => simp [Instr.kind] at ok
  | _ =>
    obtain rfl := Except.ok.inj ok
    simp [jumpOf?, value]

end

end Program.FunctionOf

open Program (Function Statement IsWord)

namespace Emitter

open Emission Traversal

variable {e : Emitter} {f : Function} {named : String → Prop} {task : Task} {t t' t'' : Traversal} {b x : BlockId}
  {stmts : List (Stmt × Kind)} {stmt : Stmt × Kind} {lines more : List Line} {text : String}

theorem labels_copies (b : BlockId) (copies : List Copy) : (copies.map (Line.copy b)).filterMap f.labelOf? = [] := by
  simp [Program.FunctionOf.labelOf?]

section Block

variable (isOf : e.IsOf f) (ok : e.procedure.classified b = .ok stmts)
include isOf ok

theorem IsOf.labelOf?_eq (mem : stmt ∈ stmts) :
    f.labelOf? (.stmt b stmt.1.id text) = if stmt.2 = .label then some b else none := by
  obtain ⟨source, n, value, kind⟩ := isOf b stmts ok stmt mem
  exact Program.FunctionOf.labelOf?_stmt value kind

theorem IsOf.jumpOf?_eq_some_iff (mem : stmt ∈ stmts) :
    f.jumpOf? (.stmt b stmt.1.id text) = some x ↔ stmt.2 = .jump [x] := by
  obtain ⟨source, n, value, kind⟩ := isOf b stmts ok stmt mem
  exact Program.FunctionOf.jumpOf?_stmt value kind

theorem StmtLine.labels (mem : stmt ∈ stmts) (printed : e.StmtLine b stmt lines) :
    lines.filterMap f.labelOf? = if stmt.2 = .label then [b] else [] := by
  rw [StmtLine] at printed
  split at printed
  · rename_i virtual
    subst printed
    cases e.verbose <;> simp [virtual, Program.FunctionOf.labelOf?]
  · obtain ⟨text, -, rfl⟩ := printed
    rw [List.filterMap_cons, isOf.labelOf?_eq ok mem]
    split <;> simp_all

theorem StmtLines.labels {some : List (Stmt × Kind)} (among : some ⊆ stmts) (printed : e.StmtLines b some lines) :
    lines.filterMap f.labelOf? = (some.filter (·.2 = .label)).map fun _ => b := by
  obtain ⟨parts, each, rfl⟩ := printed
  induction each with
  | nil => rfl
  | @cons stmt _ _ _ here _ ih =>
    rw [List.flatten_cons, List.filterMap_append, ih (List.subset_of_cons_subset among),
      here.labels isOf ok (among (.head _)), List.filter_cons]
    by_cases isLabel : stmt.2 = .label
    · simp [isLabel]
    · simp [isLabel]

theorem BodyLines.labels {some : List (Stmt × Kind)} (among : some ⊆ stmts) (printed : e.BodyLines b some lines) :
    lines.filterMap f.labelOf? = (some.filter (·.2 = .label)).map fun _ => b := by
  cases printed with
  | empty => exact labels_copies b _
  | branching _ before here | passing _ before here =>
    have inner := before.labels isOf ok fun stmt mem => among (List.mem_append_left _ mem)
    have last := here.labels isOf ok (among (by simp))
    rw [List.filterMap_append, List.filterMap_append, inner, last, tailLines, labels_copies]
    split <;> simp [*]

end Block

theorem label?_eq_none_of_isNeeded {loopTest : Bool}
    (decided : e.labels.isNeeded e.procedure e.facts t b loopTest = .ok true) : e.procedure.label? b = none := by
  rw [Labels.isNeeded] at decided
  split at decided
  · simp at decided
  · rename_i none
    simpa using none

theorem Legible.labels_own (legible : e.Legible named) (isOf : e.IsOf f)
    (ok : e.procedure.classified b = .ok stmts) {needed loopTest : Bool} {label : String}
    (decided : e.labels.isNeeded e.procedure e.facts t b loopTest = .ok needed)
    (printed : e.BodyLines b (upToLastReal stmts) lines) :
    ((if needed then [Line.label b label] else []) ++ e.saveLines b ++ lines).filterMap f.labelOf? =
      if needed || holdsLabel (upToLastReal stmts) then [b] else [] := by
  have body := printed.labels isOf ok (upToLastReal_subset stmts)
  have saves : (e.saveLines b).filterMap f.labelOf? = [] := labels_copies b _
  rw [List.filterMap_append, List.filterMap_append, body, saves]
  cases needed with
  | true =>
    have none : (upToLastReal stmts).filter (·.2 = .label) = [] := by
      rw [List.filter_eq_nil_iff]
      intro stmt mem isLabel
      have own := legible.own ok stmt (upToLastReal_subset stmts mem) (by simpa using isLabel)
      rw [label?_eq_none_of_isNeeded decided] at own
      simp at own
    simp only [none, List.map_nil, List.append_nil, Bool.true_or, if_true]
    rfl
  | false =>
    cases stmts' : upToLastReal stmts with
    | nil => rfl
    | cons first rest =>
      have later : ∀ stmt ∈ rest, stmt.2 ≠ .label := by
        intro stmt mem
        obtain ⟨more, whole⟩ := exists_upToLastReal_append stmts
        have tail : stmts.tail = rest ++ more := by rw [← whole, stmts']; rfl
        exact legible.first ok stmt (tail ▸ List.mem_append_left _ mem)
      have none : rest.filter (·.2 = .label) = [] :=
        List.filter_eq_nil_iff.2 fun stmt mem => by simpa using later stmt mem
      have quiet : holdsLabel rest = false := by
        simpa [holdsLabel] using later
      by_cases isLabel : first.2 = .label
      · simp [isLabel, none, holdsLabel]
      · simp only [holdsLabel] at quiet
        simp [isLabel, none, holdsLabel, quiet]

structure PrintsLabels (f : Function) (t : Traversal) (lines : List Line) (t' : Traversal) : Prop where
  fresh : ∀ x ∈ lines.filterMap f.labelOf?, x ∉ t.rendered ∧ x ∈ t'.rendered
  once : (lines.filterMap f.labelOf?).Nodup
  printed : ∀ x ∈ t'.printed, x ∈ t.printed ∨ x ∈ lines.filterMap f.labelOf?

theorem PrintsLabels.trans (first : PrintsLabels f t lines t') (second : PrintsLabels f t' more t'')
    (grows : t.Grows t')
    (grows' : t'.Grows t'') : PrintsLabels f t (lines ++ more) t'' where
  fresh := by
    intro x mem
    rw [List.filterMap_append, List.mem_append] at mem
    rcases mem with early | late
    · exact ⟨(first.fresh x early).1, grows'.rendered (first.fresh x early).2⟩
    · exact ⟨fun before => (second.fresh x late).1 (grows.rendered before), (second.fresh x late).2⟩
  once := by
    rw [List.filterMap_append]
    refine first.once.append second.once ?_
    intro x early late
    exact (second.fresh x late).1 (first.fresh x early).2
  printed := by
    intro x mem
    rw [List.filterMap_append, List.mem_append]
    rcases second.printed x mem with old | new
    · exact (first.printed x old).imp_right .inl
    · exact .inr (.inr new)

theorem PrintsLabels.none (quiet : lines.filterMap f.labelOf? = []) (same : t'.printed = t.printed) :
    PrintsLabels f t lines t' := by
  refine ⟨?_, ?_, ?_⟩
  · simp [quiet]
  · simp [quiet]
  · intro x mem
    exact .inl (same ▸ mem)

theorem PrintsLabels.congr (prints : PrintsLabels f t lines t')
    (same : more.filterMap f.labelOf? = lines.filterMap f.labelOf?) : PrintsLabels f t more t' := by
  refine ⟨?_, ?_, ?_⟩
  · rw [same]
    exact prints.fresh
  · rw [same]
    exact prints.once
  · rw [same]
    exact prints.printed

theorem printsLabels_started {needed : Bool} (fresh : b ∉ t.rendered)
    (own : lines.filterMap f.labelOf? = if needed || holdsLabel stmts then [b] else []) :
    PrintsLabels f t lines (e.started t b needed stmts) where
  fresh := by
    intro x mem
    have same : x = b := by
      rw [own] at mem
      split at mem
      · exact List.mem_singleton.1 mem
      · simp at mem
    rw [same]
    exact ⟨fresh, mem_started_rendered.2 (.inl rfl)⟩
  once := by
    rw [own]
    split <;> simp
  printed := by
    intro x mem
    rw [started, Traversal.mem_printIf_printed, Traversal.mem_printIf_printed, begun_eq] at mem
    rw [own]
    rcases mem with ⟨holds, rfl⟩ | ⟨wanted, rfl⟩ | old
    · simp [holds]
    · simp [wanted]
    · exact .inl old

theorem HeaderLines.labels (isOf : e.IsOf f) (legible : e.Legible named) (printed : e.HeaderLines b lines) :
    lines.filterMap f.labelOf? = [] := by
  rw [List.filterMap_eq_nil_iff]
  intro line mem
  rcases printed.cases mem with ⟨stmts, ok, stmt, listed, text, -, rfl⟩ | ⟨copy, rfl⟩
  · obtain ⟨listed, passes⟩ := legible.passing_of_repeated ok listed
    rw [isOf.labelOf?_eq ok listed, if_neg]
    rcases passes with plain | init
    · simp [plain]
    · simp [init]
  · rfl

theorem labelOf?_layout {line : Line} (isLayout : line.isLayout = true) : f.labelOf? line = none := by
  cases line <;> first | rfl | simp [Line.isLayout] at isLayout

theorem Puts.printsLabels (isOf : e.IsOf f) (legible : e.Legible named) (puts : e.Puts t lines t') :
    PrintsLabels f t lines t' := by
  induction puts with
  | keeps _ printed => exact .none rfl printed
  | layout _ isLayout => exact .none (by simp [labelOf?_layout isLayout]) rfl
  | jump => exact .none rfl rfl
  | again test header => exact .none (header.labels isOf legible) rfl
  | @block t _ b opened needed stmts label body _ fresh ok decided _ printed _ follows ih =>
    have start : PrintsLabels f t ((if needed then [Line.label b label] else []) ++ e.saveLines b ++ body)
        (e.started t b needed (upToLastReal stmts)) :=
      printsLabels_started fresh (legible.labels_own isOf ok decided printed)
    refine (start.trans ih (e.grows_started ..) follows.grows).congr ?_
    have mark : (e.mark b).filterMap f.labelOf? = [] := by
      unfold mark
      split <;> rfl
    have opening : (if opened then [Line.openBrace] else []).filterMap f.labelOf? = [] := by
      split <;> rfl
    simp only [List.filterMap_append, mark, opening, List.nil_append]
  | append first second ihFirst ihSecond => exact ihFirst.trans ihSecond first.grows second.grows

def NotesJumps (f : Function) (lines : List Line) (t : Traversal) : Prop :=
  ∀ line ∈ lines, ∀ x, f.jumpOf? line = some x → x ∈ t.jumpTargets

theorem NotesJumps.none (quiet : ∀ line ∈ lines, f.jumpOf? line = none) : NotesJumps f lines t := by
  intro line mem x jump
  simp [quiet line mem] at jump

theorem NotesJumps.append (first : NotesJumps f lines t) (second : NotesJumps f more t) :
    NotesJumps f (lines ++ more) t :=
  fun line mem => (List.mem_append.1 mem).elim (first line) (second line)

theorem NotesJumps.mono (notes : NotesJumps f lines t) (grows : t.Grows t') : NotesJumps f lines t' :=
  fun line mem x jump => grows.jumpTargets (notes line mem x jump)

theorem HeaderLines.notesJumps (isOf : e.IsOf f) (legible : e.Legible named) (printed : e.HeaderLines b lines) :
    NotesJumps f lines t := by
  refine .none fun line mem => ?_
  rcases printed.cases mem with ⟨stmts, ok, stmt, listed, text, -, rfl⟩ | ⟨copy, rfl⟩
  · obtain ⟨listed, passes⟩ := legible.passing_of_repeated ok listed
    rw [Option.eq_none_iff_forall_ne_some]
    intro x jump
    rw [isOf.jumpOf?_eq_some_iff ok listed] at jump
    rcases passes with plain | init
    · simp [plain] at jump
    · simp [init] at jump
  · rfl

theorem BodyLines.notesJumps (isOf : e.IsOf f) (legible : e.Legible named)
    (ok : e.procedure.classified b = .ok stmts) (printed : e.BodyLines b (upToLastReal stmts) lines)
    (noted : ∀ x, endOf stmts = some (.jump [x]) → x ∈ t.jumpTargets) : NotesJumps f lines t := by
  intro line mem x jump
  rcases printed.cases mem with ⟨stmt, listed, -, text, -, rfl⟩ | rfl | tail
  · have listed := upToLastReal_subset stmts listed
    have kind := (isOf.jumpOf?_eq_some_iff ok listed).1 jump
    exact noted x (kind ▸ legible.endOf_eq ok listed (by rw [kind]; rfl))
  · simp [Program.FunctionOf.jumpOf?] at jump
  · obtain ⟨copy, -, rfl⟩ := List.mem_map.1 tail
    simp [Program.FunctionOf.jumpOf?] at jump

theorem jumpOf?_layout {line : Line} (isLayout : line.isLayout = true) : f.jumpOf? line = none := by
  cases line <;> first | rfl | simp [Line.isLayout] at isLayout

theorem Puts.notesJumps (isOf : e.IsOf f) (legible : e.Legible named) (puts : e.Puts t lines t') :
    NotesJumps f lines t' := by
  induction puts with
  | keeps => exact .none (by simp)
  | layout _ isLayout => exact .none (by simpa using jumpOf?_layout isLayout)
  | jump =>
    intro line mem y jump
    rw [List.mem_singleton.1 mem] at jump
    obtain rfl := Option.some.inj jump
    exact mem_addNew.2 (.inl rfl)
  | again test header => exact header.notesJumps isOf legible
  | block _ _ ok _ _ printed noted _ ih =>
    have inBody := printed.notesJumps isOf legible ok noted
    refine .append (.none ?_) (((NotesJumps.none ?_).append inBody).append ih)
    · intro line mem
      unfold mark at mem
      rcases List.mem_append.1 mem with front | opening
      · split at front
        · rw [List.mem_singleton.1 front]
          rfl
        · simp at front
      · split at opening
        · rw [List.mem_singleton.1 opening]
          rfl
        · simp at opening
    · intro line mem
      rcases List.mem_append.1 mem with head | save
      · split at head
        · rw [List.mem_singleton.1 head]
          rfl
        · simp at head
      · obtain ⟨copy, -, rfl⟩ := List.mem_map.1 save
        rfl
  | append _ second ihFirst ihSecond => exact (ihFirst.mono second.grows).append ihSecond

theorem Writes.jumps (isOf : e.IsOf f) (legible : e.Legible named) (writes : e.Writes lines t) :
    (lines.filterMap f.labelOf?).Nodup ∧
      ∀ line ∈ lines, ∀ x, f.jumpOf? line = some x → ∃ line' ∈ lines, f.labelOf? line' = some x := by
  have prints := writes.puts.printsLabels isOf legible
  have labelled : t.nextUnlabelled? = none := by
    cases writes with
    | whole _ _ labelled => exact labelled
  refine ⟨prints.once, ?_⟩
  intro line mem x jump
  have noted := subset_of_nextUnlabelled? labelled (writes.puts.notesJumps isOf legible line mem x jump)
  rcases prints.printed x noted with never | labelLine
  · exact absurd never List.not_mem_nil
  · exact List.mem_filterMap.1 labelLine

end Emitter

end Reflow
