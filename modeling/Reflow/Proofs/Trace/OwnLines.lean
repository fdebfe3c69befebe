import Reflow.Proofs.Program.LabelTexts
import Reflow.Proofs.Trace.Placement

namespace Reflow

open Program (Function Statement)

def Line.isStmt : Line → Bool
  | .stmt .. => true
  | _ => false

theorem upToLastReal_cons (stmt : Stmt × Kind) (stmts : List (Stmt × Kind)) :
    upToLastReal (stmt :: stmts) = if (stmt :: stmts).any (·.2.isReal) then stmt :: upToLastReal stmts else [] := by
  have front (real : stmts.any (·.2.isReal) = true) : upToLastReal (stmt :: stmts) = stmt :: upToLastReal stmts := by
    have kept : (stmts.reverse.dropWhile fun stmt => !stmt.2.isReal) ≠ [] := by
      rw [ne_eq, List.dropWhile_eq_nil_iff]
      intro unreal
      obtain ⟨other, mem, isReal⟩ := List.any_eq_true.1 real
      simpa [isReal] using unreal other (List.mem_reverse.2 mem)
    rw [upToLastReal, List.reverse_cons, List.dropWhile_append, if_neg (by simpa using kept), List.reverse_append]
    rfl
  have last (unreal : stmts.any (·.2.isReal) = false) : upToLastReal stmts = [] ∧
      upToLastReal (stmt :: stmts) = if stmt.2.isReal then [stmt] else [] := by
    have none : (stmts.reverse.dropWhile fun stmt => !stmt.2.isReal) = [] := by
      rw [List.dropWhile_eq_nil_iff]
      intro other mem
      simpa using List.any_eq_false.1 unreal other (List.mem_reverse.1 mem)
    refine ⟨by rw [upToLastReal, none, List.reverse_nil], ?_⟩
    rw [upToLastReal, List.reverse_cons, List.dropWhile_append, none]
    cases real : stmt.2.isReal <;> simp [real]
  cases later : stmts.any (·.2.isReal) with
  | true => simp [front later, later]
  | false =>
    obtain ⟨none, here⟩ := last later
    simp [here, none, later]

namespace Emitter

variable {e : Emitter} {f : Function} {named : String → Prop} {b : BlockId} {stmts : List (Stmt × Kind)}
  {stmt : Stmt × Kind} {lines own : List Line} {line : Line}

/-! ## Labels -/

theorem isOf_of_labelOf? (label : f.labelOf? line = some b) : line.isOf b = true := by
  cases line with
  | label =>
    obtain rfl := Option.some.inj label
    simp [Line.isOf]
  | stmt =>
    simp only [Program.FunctionOf.labelOf?] at label
    split at label
    · obtain rfl := Option.some.inj label
      simp [Line.isOf]
    · simp at label
  | _ => simp [Program.FunctionOf.labelOf?] at label

theorem Echoes.labelOf?_eq_none (isOf : e.IsOf f) (echoes : e.Echoes b lines) (mem : line ∈ lines) :
    f.labelOf? line = none := by
  induction echoes with
  | nil => exact absurd mem List.not_mem_nil
  | again _ printed _ ih =>
    rcases List.mem_append.1 mem with here | there
    · rcases printed.cases here with ⟨stmts, ok, stmt, listed, text, -, rfl⟩ | ⟨copy, rfl⟩
      · obtain ⟨listed, real⟩ := List.mem_filter.1 listed
        have inBlock := upToLastReal_subset stmts (List.dropLast_subset _ listed)
        rw [isOf.labelOf?_eq ok inBlock, if_neg]
        rintro isLabel
        simp [isLabel] at real
      · rfl
    · exact ih there

theorem BodyLines.exists_cons (printed : e.BodyLines b (stmt :: stmts) lines) (real : stmt.2 ≠ .virtual)
    (passes : stmt.2.isBranching = false) : ∃ text rest, e.render stmt.1.id (e.names b) = .ok text ∧
      lines = .stmt b stmt.1.id text :: rest := by
  have first {part : List Line} (here : e.StmtLine b stmt part) :
      ∃ text, e.render stmt.1.id (e.names b) = .ok text ∧ part = [.stmt b stmt.1.id text] := by
    rwa [StmtLine, if_neg real] at here
  generalize whole : stmt :: stmts = all at printed
  cases printed with
  | empty => simp at whole
  | @branching front _ _ _ branches before =>
    cases front with
    | nil =>
      obtain ⟨rfl, -⟩ := List.cons.inj whole
      rw [passes] at branches
      simp at branches
    | cons =>
      obtain ⟨rfl, -⟩ := List.cons.inj whole
      obtain ⟨parts, each, rfl⟩ := before
      cases each with
      | cons start =>
        obtain ⟨text, rendered, rfl⟩ := first start
        exact ⟨text, _, rendered, rfl⟩
  | @passing front _ _ _ _ before here =>
    obtain ⟨parts, each, rfl⟩ := before
    cases front with
    | nil =>
      obtain ⟨rfl, -⟩ := List.cons.inj whole
      cases each
      obtain ⟨text, rendered, rfl⟩ := first here
      exact ⟨text, _, rendered, rfl⟩
    | cons =>
      obtain ⟨rfl, -⟩ := List.cons.inj whole
      cases each with
      | cons start =>
        obtain ⟨text, rendered, rfl⟩ := first start
        exact ⟨text, _, rendered, rfl⟩

theorem Legible.upToLastReal_eq_cons (legible : e.Legible named) (ok : e.procedure.classified b = .ok stmts)
    (listed : stmt ∈ upToLastReal stmts) (isLabel : stmt.2 = .label) : ∃ more, upToLastReal stmts = stmt :: more := by
  cases upTo : upToLastReal stmts with
  | nil => simp [upTo] at listed
  | cons first more =>
    rw [upTo] at listed
    rcases List.mem_cons.1 listed with rfl | later
    · exact ⟨more, rfl⟩
    · obtain ⟨left, whole⟩ := exists_upToLastReal_append stmts
      have behind : stmt ∈ stmts.tail := by
        rw [← whole, upTo]
        exact List.mem_append_left _ later
      exact absurd isLabel (legible.first ok stmt behind)

theorem OwnLines.exists_rest (isOf : e.IsOf f) (legible : e.Legible named) (shown : e.OwnLines b own)
    (mem : line ∈ own) (label : f.labelOf? line = some b) :
    ∃ rest, own = (if (e.procedure.label? b).isSome then e.saveLines b else []) ++ line :: rest := by
  cases shown with
  | @intro stmts needed text body ok unlabelled printed =>
    rw [List.append_assoc] at mem
    rcases List.mem_append.1 mem with made | rest
    · -- A made label.
      cases needed with
      | false => exact absurd made List.not_mem_nil
      | true =>
        obtain rfl := List.mem_singleton.1 made
        exact ⟨e.saveLines b ++ body.filter (·.isOf b), by simp [unlabelled rfl]⟩
    rcases List.mem_append.1 rest with save | inBody
    · obtain ⟨copy, -, rfl⟩ := List.mem_map.1 save
      simp [Program.FunctionOf.labelOf?] at label
    -- A label of the source, which is the first statement of the block.
    rcases printed.cases (List.mem_filter.1 inBody).1 with ⟨stmt, listed, -, text', rendered, rfl⟩ | rfl | tail
    · have inBlock := upToLastReal_subset stmts listed
      have isLabel : stmt.2 = .label := by
        by_contra other
        rw [isOf.labelOf?_eq ok inBlock, if_neg other] at label
        simp at label
      have given : (e.procedure.label? b).isSome = true := legible.own ok stmt inBlock isLabel
      have unneeded : needed = false := by
        cases needed with
        | false => rfl
        | true =>
          rw [unlabelled rfl] at given
          simp at given
      subst unneeded
      obtain ⟨more, upTo⟩ := legible.upToLastReal_eq_cons ok listed isLabel
      rw [upTo] at printed
      obtain ⟨text'', left, rendered', rfl⟩ := printed.exists_cons (by simp [isLabel]) (by rw [isLabel]; rfl)
      rw [rendered] at rendered'
      obtain rfl := Except.ok.inj rendered'
      exact ⟨left.filter (·.isOf b), by simp [given, Line.isOf]⟩
    · simp [Program.FunctionOf.labelOf?] at label
    · obtain ⟨copy, -, rfl⟩ := List.mem_map.1 tail
      simp [Program.FunctionOf.labelOf?] at label

/-! ## Statements -/

def Spells (e : Emitter) (b : BlockId) (id : StmtId) (line : Line) : Prop :=
  ∃ text, e.render id (e.names b) = .ok text ∧ line = .stmt b id text

theorem StmtLine.spells (printed : e.StmtLine b stmt lines) :
    List.Forall₂ (fun stmt line => e.Spells b stmt.1.id line) ([stmt].filter (·.2 ≠ .virtual))
      (lines.filter (·.isStmt)) := by
  rw [StmtLine] at printed
  split at printed
  · rename_i virtual
    subst printed
    cases e.verbose <;> simp [virtual, Line.isStmt]
  · rename_i real
    obtain ⟨text, rendered, rfl⟩ := printed
    simpa [real, Line.isStmt] using ⟨text, rendered, rfl⟩

theorem StmtLines.spells (printed : e.StmtLines b stmts lines) :
    List.Forall₂ (fun stmt line => e.Spells b stmt.1.id line) (stmts.filter (·.2 ≠ .virtual))
      (lines.filter (·.isStmt)) := by
  obtain ⟨parts, each, rfl⟩ := printed
  induction each with
  | nil => exact .nil
  | @cons _ _ _ _ here _ ih =>
    rw [← List.singleton_append, List.filter_append, List.flatten_cons, List.filter_append]
    exact List.rel_append here.spells ih

theorem filter_isStmt_copies (copies : List Copy) : (copies.map (Line.copy b)).filter (·.isStmt) = [] := by
  simp [List.filter_eq_nil_iff, Line.isStmt]

theorem BodyLines.spells (printed : e.BodyLines b stmts lines) :
    List.Forall₂ (fun stmt line => e.Spells b stmt.1.id line) (stmts.filter (·.2 ≠ .virtual))
      (lines.filter (·.isStmt)) := by
  cases printed with
  | empty =>
    rw [tailLines, filter_isStmt_copies]
    exact .nil
  | branching _ before here | passing _ before here =>
    rw [List.filter_append, List.filter_append, List.filter_append, tailLines, filter_isStmt_copies, List.append_nil]
    exact List.rel_append before.spells here.spells

theorem OwnLines.spells (shown : e.OwnLines b own) : ∃ stmts, e.procedure.classified b = .ok stmts ∧
    List.Forall₂ (fun stmt line => e.Spells b stmt.1.id line) ((upToLastReal stmts).filter (·.2 ≠ .virtual))
      (own.filter (·.isStmt)) := by
  cases shown with
  | @intro stmts needed label body ok _ printed =>
    refine ⟨stmts, ok, ?_⟩
    have first : (if needed then [Line.label b label] else []).filter (·.isStmt) = [] := by
      split <;> rfl
    have same : (body.filter (·.isOf b)).filter (·.isStmt) = body.filter (·.isStmt) := by
      rw [List.filter_filter]
      apply List.filter_congr
      intro line mem
      rcases printed.cases mem with ⟨stmt, -, -, text, -, rfl⟩ | rfl | tail
      · simp [Line.isOf, Line.isStmt]
      · rfl
      · obtain ⟨copy, -, rfl⟩ := List.mem_map.1 tail
        simp [Line.isStmt]
    rw [List.filter_append, List.filter_append, first, saveLines, filter_isStmt_copies, same]
    exact printed.spells

end Emitter

def Instr.isReal (instr : Instr Nat Nat) : Bool :=
  instr.op != .br && instr.op != .vuse && instr.op != .init

theorem Instr.isReal_of_kind {instr : Instr Nat Nat} {n : Nat} {kind : Kind} (ok : instr.kind n = .ok kind) :
    kind.isReal = instr.isReal ∧ (kind = .virtual ↔ instr.op = .vuse) := by
  cases instr with
  | asm | br => simp [Instr.kind] at ok
  | _ =>
    obtain rfl := Except.ok.inj ok
    simp [Instr.isReal, Kind.isReal, Instr.op]

namespace Program

variable {f : Function} {base : Nat} {b : BlockId} {block : Block Nat Nat} {views : List (Nat × Statement Nat Nat)}

/-- The statements of a block that are printed: of plain branches and virtual uses none, and of initializations those
with a real statement behind them. -/
def shown : List (Nat × Statement Nat Nat) → List (Nat × Statement Nat Nat)
  | [] => []
  | view :: views =>
    if view.2.instr.isReal || view.2.instr.op == .init && views.any (·.2.instr.isReal) then view :: shown views
    else shown views

theorem shown_eq_nil (none : views.any (·.2.instr.isReal) = false) : shown views = [] := by
  induction views with
  | nil => rfl
  | cons _ _ ih =>
    rw [List.any_cons, Bool.or_eq_false_iff] at none
    rw [shown, none.1, none.2]
    simpa using ih none.2

theorem classify?_cases {view : Nat × Statement Nat Nat} (plain : view.2.instr.op ≠ .asm) (base : Nat) :
    view.2.instr.op = .br ∧ classify? base view = none ∨
    ∃ kind, classify? base view = some (view.2.view base view.1, kind) ∧
      kind.isReal = view.2.instr.isReal ∧ (kind = .virtual ↔ view.2.instr.op = .vuse) ∧ view.2.instr.op ≠ .br := by
  by_cases branch : view.2.instr.op = .br
  · refine .inl ⟨branch, ?_⟩
    cases instr : view.2.instr <;> simp [instr, Instr.op] at branch
    simp [classify?, instr, Instr.kind]
  · obtain ⟨kind, known⟩ := exists_kind branch plain
    obtain ⟨real, virtual⟩ := Instr.isReal_of_kind (known 0)
    exact .inr ⟨kind, classify?_eq_some_iff.2 ⟨known _, rfl⟩, real, virtual, branch⟩

theorem any_isReal_classify? (plain : ∀ view ∈ views, view.2.instr.op ≠ .asm) (base : Nat) :
    (views.filterMap (classify? base)).any (·.2.isReal) = views.any (·.2.instr.isReal) := by
  induction views with
  | nil => rfl
  | cons view _ ih =>
    have rest := ih fun view mem => plain view (.tail _ mem)
    rcases classify?_cases (plain view (.head _)) base with ⟨branch, none⟩ | ⟨kind, some, real, -⟩
    · rw [List.filterMap_cons_none none, List.any_cons, rest, Instr.isReal, branch]
      rfl
    · rw [List.filterMap_cons_some some, List.any_cons, List.any_cons, rest, real]

theorem map_fst_shown (plain : ∀ view ∈ views, view.2.instr.op ≠ .asm) (base : Nat) :
    ((upToLastReal (views.filterMap (classify? base))).filter (·.2 ≠ .virtual)).map (·.1.id) =
      (shown views).map (·.1) := by
  induction views with
  | nil => rfl
  | cons view views ih =>
    have plain' (view : Nat × Statement Nat Nat) (mem : view ∈ views) := plain view (.tail _ mem)
    have rest := ih plain'
    have reals := any_isReal_classify? plain' base
    rcases classify?_cases (plain view (.head _)) base with
      ⟨branch, none⟩ | ⟨kind, some, real, virtual, branch⟩
    · rw [List.filterMap_cons_none none, rest, shown, if_neg (by simp [Instr.isReal, branch])]
    · rw [List.filterMap_cons_some some, upToLastReal_cons, List.any_cons, reals, real, shown]
      cases isReal : view.2.instr.isReal with
      | true =>
        have visible : kind ≠ .virtual := by
          rintro rfl
          simp [Kind.isReal, isReal] at real
        simp [visible, ← rest, Statement.view]
      | false =>
        cases later : views.any (·.2.instr.isReal) with
        | false => simp [shown_eq_nil later]
        | true =>
          -- What is not real is a virtual use or an initialization.
          by_cases use : view.2.instr.op = .vuse
          · simp [virtual.2 use, use, ← rest]
          · have init : view.2.instr.op = .init := by
              simpa [Instr.isReal, branch, use] using isReal
            have visible : kind ≠ .virtual := fun same => use (virtual.1 same)
            simp [visible, init, ← rest, Statement.view]

/-! ## Functions -/

namespace FunctionOf

variable {session : Session} {config : Config} {body : Body}

/-- The label of a block, if it is printed, is the first of the block's own lines, but for the saves that stand before a
label of the source. -/
theorem IsRead.emitBody_label_first (read : f.IsRead) (emitted : (session.emitBody config (f.procedure base)
      (f.procedure base).analysis.toFacts f.render).1 = .ok body) :
    ∃ labels copies lines progress,
      let p := f.procedure base
      let e : Emitter :=
        { procedure := p, facts := p.analysis.toFacts, render := f.render, labels, copies, verbose := config.verbose }
      p.assignLabels (session.passesOf f.name + 1) = .ok labels ∧ p.copies p.analysis.toFacts = .ok copies ∧
      e.emit {} = .ok lines progress ∧ body.text = layOut config.indent lines ∧
      ∀ b, p.Reachable b → ∃ before own after, lines.filter (·.isOf b) = before ++ own ++ after ∧
        e.Echoes b before ∧ e.OwnLines b own ∧ e.Echoes b after ∧
        ∀ line ∈ lines, f.labelOf? line = some b → ∃ rest,
          own = (if (f.sourceLabel? b).isSome then e.saveLines b else []) ++ line :: rest := by
  obtain ⟨labels, copies, lines, progress, assigned, copied, printed, rfl, -⟩ := Session.exists_of_emitBody emitted
  refine ⟨labels, copies, lines, progress, assigned, copied, printed, rfl, ?_⟩
  intro b reach
  have writes := Emitter.writes_of_emit rfl printed
  obtain ⟨before, own, after, split, earlier, shown, later⟩ :=
    writes.places (writes.mem_rendered (read.wellFormed.linked base) rfl reach)
  refine ⟨before, own, after, split, earlier, shown, later, ?_⟩
  intro line mem label
  have shows := read.showsWords
  have listed : line ∈ before ++ own ++ after := by
    rw [← split]
    exact List.mem_filter.2 ⟨mem, Emitter.isOf_of_labelOf? label⟩
  rw [← label?_procedure f base b]
  rcases List.mem_append.1 listed with front | echo
  · rcases List.mem_append.1 front with echo | inOwn
    · simp [earlier.labelOf?_eq_none (isOf_of_assignLabels assigned) echo] at label
    · exact shown.exists_rest (isOf_of_assignLabels assigned) (read.legible shows assigned copied) inOwn label
  · simp [later.labelOf?_eq_none (isOf_of_assignLabels assigned) echo] at label

def repeatAgain : Function where
  name := "again"
  args := ["a"]
  blocks :=
    [⟨"entry", [], [⟨none, .br 1⟩]⟩,
     ⟨"head", [⟨"v", false, [(0, 0), (1, 4)]⟩], [⟨none, .label "again"⟩, ⟨some "w", .any []⟩, ⟨none, .condbr 4 1 2⟩]⟩,
     ⟨"exit", [], [⟨none, .ret (some 2)⟩]⟩]

theorem repeatAgain_isRead : repeatAgain.IsRead :=
  .of_pieces ["again(%a) \x7b\n", "entry:\n br ^head\n",
      "head:\n %v = phi [^entry, %a], [^head, %w]\n label again\n %w = any\n condbr %w, ^head, ^exit\n",
      "exit:\n ret %v\n\x7d\n"] (by decide +kernel)

theorem repeatAgain_label_first : ∃ body labels copies lines progress before rest after,
    (Session.emitBody {} {} (repeatAgain.procedure 0) (repeatAgain.procedure 0).analysis.toFacts
      repeatAgain.render).1 = .ok body ∧
    Emitter.emit {
      procedure := repeatAgain.procedure 0, facts := (repeatAgain.procedure 0).analysis.toFacts
      render := repeatAgain.render, labels, copies, verbose := false } {} = .ok lines progress ∧
    body.text = layOut 3 lines ∧
    lines.filter (·.isOf 1) = before ++ (.copy 1 ⟨"__t__0_0", "v"⟩ :: .stmt 1 3 "again:;" :: rest) ++ after := by
  have emitted : (Session.emitBody {} {} (repeatAgain.procedure 0) (repeatAgain.procedure 0).analysis.toFacts
      repeatAgain.render).1 = .ok { temporaries := [⟨"__t__0_0", 2⟩], text :=
        "v = a;\n__t__0_0 = v;\nagain:;\nw = any();\nv = w;\nif (w)\n   goto again;\nreturn __t__0_0;\n" } := by
    decide +kernel
  obtain ⟨labels, copies, lines, progress, assigned, copied, printed, text, shows⟩ :=
    IsRead.emitBody_label_first repeatAgain_isRead emitted
  have computed : (((repeatAgain.procedure 0).assignLabels 1).toOption.bind fun labels =>
      ((repeatAgain.procedure 0).copies (repeatAgain.procedure 0).analysis.toFacts).toOption.bind fun copies =>
      match Emitter.emit {
        procedure := repeatAgain.procedure 0, facts := (repeatAgain.procedure 0).analysis.toFacts
        render := repeatAgain.render, labels, copies, verbose := false } {} with
      | .error .. => none
      | .ok lines _ => some (copies.saved 1, decide (.stmt 1 3 "again:;" ∈ lines))) =
        some ([⟨"__t__0_0", "v"⟩], true) := by decide +kernel
  have assigned' : (repeatAgain.procedure 0).assignLabels 1 = .ok labels := assigned
  rw [assigned', copied] at computed
  simp only [Except.toOption, Option.bind_some, printed, Option.some.injEq, Prod.mk.injEq,
    decide_eq_true_eq] at computed
  obtain ⟨saved, mem⟩ := computed
  have reach : (repeatAgain.procedure 0).Reachable 1 := Procedure.reachable_entry.succ (by decide)
  obtain ⟨before, own, after, split, -, -, -, first⟩ := shows 1 reach
  obtain ⟨rest, rfl⟩ := first _ mem (by decide)
  refine ⟨_, labels, copies, lines, progress, before, rest, after, emitted, printed, text, ?_⟩
  rw [split, if_pos (by decide), Emitter.saveLines, saved]
  rfl

/-- The own lines of a block hold the texts of its statements in their order, of all but plain branches, virtual uses
and initializations with nothing real behind them. -/
theorem WellFormed.emitBody_statements (wf : f.WellFormed)
    (emitted : (session.emitBody config (f.procedure base)
      (f.procedure base).analysis.toFacts f.render).1 = .ok body) :
    ∃ labels copies lines progress,
      let p := f.procedure base
      let e : Emitter :=
        { procedure := p, facts := p.analysis.toFacts, render := f.render, labels, copies, verbose := config.verbose }
      p.assignLabels (session.passesOf f.name + 1) = .ok labels ∧ p.copies p.analysis.toFacts = .ok copies ∧
      e.emit {} = .ok lines progress ∧ body.text = layOut config.indent lines ∧
      ∀ b block, p.Reachable b → f.blocks[b]? = some block → ∃ before own after,
        lines.filter (·.isOf b) = before ++ own ++ after ∧ e.Echoes b before ∧ e.OwnLines b own ∧ e.Echoes b after ∧
        List.Forall₂ (fun view line => e.Spells b view.1 line) (shown (f.views b block)) (own.filter (·.isStmt)) := by
  obtain ⟨labels, copies, lines, progress, assigned, copied, printed, rfl, -⟩ := Session.exists_of_emitBody emitted
  refine ⟨labels, copies, lines, progress, assigned, copied, printed, rfl, ?_⟩
  intro b block reach found
  have writes := Emitter.writes_of_emit rfl printed
  obtain ⟨before, own, after, split, earlier, isOwn, later⟩ :=
    writes.places (writes.mem_rendered (wf.linked base) rfl reach)
  refine ⟨before, own, after, split, earlier, isOwn, later, ?_⟩
  obtain ⟨stmts, ok, spells⟩ := isOwn.spells
  have plain := plain_of_assignLabels assigned block (List.mem_of_getElem? found)
  rw [classified_of_get found plain] at ok
  obtain rfl := Except.ok.inj ok
  have inViews (view : Nat × Statement Nat Nat) (mem : view ∈ f.views b block) : view.2.instr.op ≠ .asm := by
    obtain ⟨i, inBlock, -⟩ := mem_numberFrom_iff.1 (show (view.1, view.2) ∈ f.views b block from mem)
    exact plain view.2 (List.mem_of_getElem? inBlock)
  have ids := List.forall₂_map_left_iff.2 spells
  rw [map_fst_shown inViews base] at ids
  exact List.forall₂_map_left_iff.1 ids

def prepare : Function where
  name := "prepare"
  args := ["v"]
  blocks :=
    [⟨"start", [], [⟨none, .init 0 1⟩, ⟨none, .call "a" []⟩, ⟨none, .vuse 0⟩, ⟨none, .init 0 7⟩, ⟨none, .br 1⟩]⟩,
     ⟨"end", [], [⟨none, .ret none⟩]⟩]

theorem prepare_isRead : prepare.IsRead :=
  .of_pieces ["prepare(%v) \x7b\n", "start:\n init %v, 1\n call @a\n vuse %v\n init %v, 7\n br ^end\n",
      "end:\n ret\n\x7d\n"] (by decide)

theorem prepare_emitBody_statements : ∃ body labels copies lines progress before own after first second,
    (Session.emitBody {} {} (prepare.procedure 0) (prepare.procedure 0).analysis.toFacts prepare.render).1 = .ok body ∧
    Emitter.emit {
      procedure := prepare.procedure 0, facts := (prepare.procedure 0).analysis.toFacts
      render := prepare.render, labels, copies, verbose := false } {} = .ok lines progress ∧
    body.text = layOut 3 lines ∧ lines.filter (·.isOf 0) = before ++ own ++ after ∧
    own.filter (·.isStmt) = [.stmt 0 1 first, .stmt 0 2 second] := by
  have emitted : (Session.emitBody {} {} (prepare.procedure 0) (prepare.procedure 0).analysis.toFacts
      prepare.render).1 = .ok { temporaries := [], text := "v = 1;\na();\nreturn;\n" } := by decide +kernel
  obtain ⟨labels, copies, lines, progress, -, -, printed, text, shows⟩ :=
    WellFormed.emitBody_statements (IsRead.wellFormed prepare_isRead) emitted
  have both {block : Block Nat Nat} (found : prepare.blocks[0]? = some block) :
      shown (prepare.views 0 block) = [(1, ⟨none, .init 0 1⟩), (2, ⟨none, .call "a" []⟩)] := by
    obtain rfl := Option.some.inj found
    rfl
  obtain ⟨before, own, after, split, -, -, -, spells⟩ := shows 0 _ Procedure.reachable_entry rfl
  rw [both rfl] at spells
  obtain ⟨_, _, ⟨first, -, rfl⟩, others, same⟩ := List.forall₂_cons_left_iff.1 spells
  obtain ⟨_, _, ⟨second, -, rfl⟩, none, rfl⟩ := List.forall₂_cons_left_iff.1 others
  obtain rfl := List.forall₂_nil_left_iff.1 none
  exact ⟨_, labels, copies, lines, progress, before, own, after, first, second, emitted, printed, text, split, same⟩

end FunctionOf

end Program

end Reflow
