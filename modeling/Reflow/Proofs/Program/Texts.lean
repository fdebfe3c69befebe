import Reflow.Proofs.Copies.Names
import Reflow.Proofs.Emit.Labels

namespace Reflow

open Program (IsWord)

inductive IsPassing (named : String → Prop) (text : String) : Prop
  | assigns (name : String) (value : List Char) (here : named name) (inner : '\n' ∉ value)
      (chars : text.toList = name.toList ++ ([' ', '='] ++ value ++ [';']))
  | calls (name : String) (operands : List Char) (here : named name) (inner : '\n' ∉ operands)
      (chars : text.toList = name.toList ++ ('(' :: operands ++ [';']))
  | returns (same : text = "return;")
  | gives (name : String) (here : named name) (same : text = "return " ++ name ++ ";")

def Kind.Says (named : String → Prop) (own : Option String) (labels : Labels) (text : String) : Kind → Prop
  | .plain | .init => IsPassing named text
  | .virtual => False
  | .label => ∃ name, own = some name ∧ named name ∧ text = name ++ ":;"
  | .conditional .. | .multiway _ => ∃ name, named name ∧ text = "if" ++ " (" ++ name ++ ")"
  | .loop .. => ∃ name, named name ∧ text = "while" ++ " (" ++ name ++ ")"
  | .switch .. => ∃ name, named name ∧ text = "switch" ++ " (" ++ name ++ ")"
  | .jump targets => ∃ target name, targets = [target] ∧ labels.label target = .ok name ∧ text = "goto " ++ name ++ ";"

/-- What the lines of an emission are made of: names with a property, labels in front of blocks, branches behind them,
and arms for every branch. -/
structure Emitter.Legible (e : Emitter) (named : String → Prop) : Prop where
  isWord : ∀ {name}, named name → IsWord name
  copies : e.copies.Among named
  label : ∀ {x name}, e.labels.label x = .ok name → named name ∧ ∀ own ∈ e.procedure.label? x, own = name
  texts : ∀ {b stmts}, e.procedure.classified b = .ok stmts → ∀ stmt ∈ stmts, ∀ {text},
    e.render stmt.1.id (e.names b) = .ok text → stmt.2.Says named (e.procedure.label? b) e.labels text
  own : ∀ {b stmts}, e.procedure.classified b = .ok stmts → ∀ stmt ∈ stmts, stmt.2 = .label →
    (e.procedure.label? b).isSome
  first : ∀ {b stmts}, e.procedure.classified b = .ok stmts → ∀ stmt ∈ stmts.tail, stmt.2 ≠ .label
  last : ∀ {b stmts}, e.procedure.classified b = .ok stmts → ∀ stmt ∈ stmts.dropLast, stmt.2.isBranching = false
  arms : ∀ {b stmts}, e.procedure.classified b = .ok stmts → ∀ {stmt arms}, (stmt, .multiway arms) ∈ stmts →
    arms ≠ [] ∧ ∀ arm ∈ arms, ∀ v ∈ arm.1, named (e.varName b v)
  cases : ∀ {b stmts}, e.procedure.classified b = .ok stmts → ∀ {stmt selector arms},
    (stmt, .switch selector arms) ∈ stmts → arms ≠ [] ∧ ∀ arm ∈ arms, arm.labels ≠ []

theorem Copy.isPassing {named : String → Prop} {copy : Copy} (isWord : ∀ {name}, named name → IsWord name)
    (names : named copy.dest ∧ named copy.source) : IsPassing named copy.text := by
  refine .assigns copy.dest (' ' :: copy.source.toList) names.1 ?_ ?_
  · simpa using (isWord names.2).lineFeed_not_mem
  · simp [Copy.text, toString]

theorem mem_tail_filterMap {α β : Type} {g : α → Option β} {as : List α} {b : β}
    (mem : b ∈ (as.filterMap g).tail) : ∃ a ∈ as.tail, g a = some b := by
  cases as with
  | nil => simp at mem
  | cons =>
    rw [List.filterMap_cons] at mem
    refine List.mem_filterMap.1 ?_
    split at mem
    · exact List.mem_of_mem_tail mem
    · exact mem

theorem mem_dropLast_filterMap {α β : Type} {g : α → Option β} {as : List α} {b : β}
    (mem : b ∈ (as.filterMap g).dropLast) : ∃ a ∈ as.dropLast, g a = some b := by
  rcases List.eq_nil_or_concat' as with rfl | ⟨front, last, rfl⟩
  · simp at mem
  · rw [List.dropLast_concat]
    refine List.mem_filterMap.1 ?_
    rw [List.filterMap_append] at mem
    cases here : g last with
    | none =>
      simp only [List.filterMap_cons_none here, List.filterMap_nil, List.append_nil] at mem
      exact List.mem_of_mem_dropLast mem
    | some => simpa [List.filterMap_cons_some here] using mem

namespace Program

theorem text_of_renderInstr {named : String → Prop} {names : Names} {own : Option String} {labels : Labels}
    {dest text : String} {instr : Instr Nat Nat} {n : Nat} {kind : Kind} (ok : instr.kind n = .ok kind)
    (rendered : FunctionOf.renderInstr names dest instr = .ok text) (isWord : ∀ {name}, named name → IsWord name)
    (label : names.label = labels.label) (reads : ∀ v ∈ instr.reads, named (names.var v))
    (result : instr.op.isDef → instr.op ≠ .call → named dest) (called : dest ≠ "" → named dest)
    (callee : instr.op = .call → named instr.symbol)
    (source : instr.op = .label → own = some instr.symbol ∧ named instr.symbol) : kind.Says named own labels text := by
  have plain (s : String) : toString s = s := rfl
  have inside {v : Var} (read : v ∈ instr.reads) : '\n' ∉ (names.var v).toList :=
    (isWord (reads v read)).lineFeed_not_mem
  have listed {operands : List Var} (all : ∀ v ∈ operands, v ∈ instr.reads) :
      '\n' ∉ (FunctionOf.operandList names operands).toList := by
    intro mem
    rcases FunctionOf.mem_intercalate mem with between | ⟨name, named, here⟩
    · exact absurd between (by decide)
    · obtain ⟨v, read, rfl⟩ := List.mem_map.1 named
      exact inside (all v read) here
  cases instr with
  | any operands =>
    obtain rfl := Except.ok.inj ok
    obtain rfl := Except.ok.inj rendered
    refine .assigns dest (" any(".toList ++ (FunctionOf.operandList names operands).toList ++ [')'])
      (result rfl (by simp [Instr.op])) ?_ ?_
    · simpa using listed fun v (read : v ∈ operands) => read
    · simp [plain]
  | const value =>
    obtain rfl := Except.ok.inj ok
    obtain rfl := Except.ok.inj rendered
    refine .assigns dest (' ' :: (toString value).toList) (result rfl (by simp [Instr.op])) ?_ ?_
    · simpa using FunctionOf.lineFeed_not_mem_toString value
    · simp [plain]
  | binary op left right =>
    obtain rfl := Except.ok.inj ok
    obtain rfl := Except.ok.inj rendered
    have between : '\n' ∉ op.symbol.toList := by cases op <;> decide
    refine .assigns dest (' ' :: ((names.var left).toList ++ ' ' :: (op.symbol.toList ++ ' ' ::
      (names.var right).toList))) (result rfl (by simp [Instr.op])) ?_ ?_
    · simp [inside (v := left) (by simp [Instr.reads]), inside (v := right) (by simp [Instr.reads]), between]
    · simp [plain]
  | copy var =>
    obtain rfl := Except.ok.inj ok
    obtain rfl := Except.ok.inj rendered
    refine .assigns dest (' ' :: (names.var var).toList) (result rfl (by simp [Instr.op])) ?_ ?_
    · simpa using inside (v := var) (by simp [Instr.reads])
    · simp [plain]
  | call function operands =>
    obtain rfl := Except.ok.inj ok
    obtain rfl := Except.ok.inj rendered
    have here : named function := callee rfl
    have inner := listed fun v (read : v ∈ operands) => read
    by_cases none : dest = ""
    · refine .calls function ((FunctionOf.operandList names operands).toList ++ [')']) here ?_ ?_
      · simpa using inner
      · simp [plain, none]
    · refine .assigns dest (' ' :: (function.toList ++ '(' ::
        ((FunctionOf.operandList names operands).toList ++ [')']))) (called none) ?_ ?_
      · simp [(isWord here).lineFeed_not_mem, inner]
      · simp [plain, none]
  | init var value =>
    obtain rfl := Except.ok.inj ok
    obtain rfl := Except.ok.inj rendered
    refine .assigns (names.var var) (' ' :: (toString value).toList) (reads var (by simp [Instr.reads])) ?_ ?_
    · simpa using FunctionOf.lineFeed_not_mem_toString value
    · simp [plain]
  | ret value =>
    obtain rfl := Except.ok.inj ok
    cases value with
    | none =>
      obtain rfl := Except.ok.inj rendered
      exact .returns rfl
    | some v =>
      obtain rfl := Except.ok.inj rendered
      exact .gives (names.var v) (reads v (by simp [Instr.reads])) rfl
  | label name =>
    obtain rfl := Except.ok.inj ok
    obtain rfl := Except.ok.inj rendered
    exact ⟨name, (source rfl).1, (source rfl).2, rfl⟩
  | condbr cond | loop cond | multiif cond =>
    obtain rfl := Except.ok.inj ok
    obtain rfl := Except.ok.inj rendered
    exact ⟨_, reads cond (by simp [Instr.reads]), by simp [plain]⟩
  | switch selector =>
    obtain rfl := Except.ok.inj ok
    obtain rfl := Except.ok.inj rendered
    exact ⟨_, reads selector (by simp [Instr.reads]), by simp [plain]⟩
  | goto target =>
    obtain rfl := Except.ok.inj ok
    rw [FunctionOf.renderInstr, label] at rendered
    cases found : labels.label target with
    | error => simp [found, Bind.bind, Except.bind] at rendered
    | ok name =>
      simp only [found, Bind.bind, Except.bind, Pure.pure, Except.pure, Except.ok.injEq] at rendered
      exact ⟨target, name, rfl, found, by simp [← rendered, plain]⟩
  | vuse | asm | br => simp [FunctionOf.renderInstr] at rendered

def FunctionOf.spoken (f : Function) : List String :=
  f.values.filterMap (·.name?) ++ ((f.blocks.flatMap (·.stmts)).filter fun stmt =>
    stmt.instr.op = .call ∨ stmt.instr.op = .label).map (·.instr.symbol)

structure FunctionOf.ShowsOnly (f : Function) (named : String → Prop) : Prop where
  isWord : ∀ {name}, named name → IsWord name
  spoken : ∀ name ∈ f.spoken, named name
  temporary : ∀ n k, named (temporaryName n k)
  made : ∀ n pass : Nat, named ("BB_LABEL_" ++ toString n ++ if pass > 1 then "_" ++ toString pass else "")

namespace FunctionOf

variable {f : Function} {base pass : Nat} {b x : BlockId} {block : Block Nat Nat} {stmt : Statement Nat Nat}
  {named : String → Prop}

section

variable (shows : f.ShowsOnly named)
include shows

theorem ShowsOnly.of_isNamed {v : Var} {name : String} (isNamed : f.IsNamed v name) : named (f.valueName v) := by
  rw [isNamed.valueName_eq]
  obtain ⟨value, found, given⟩ := isNamed
  exact shows.spoken name (List.mem_append_left _ (List.mem_filterMap.2 ⟨value, List.mem_of_getElem? found, given⟩))

theorem ShowsOnly.symbol (inFunction : block ∈ f.blocks) (inBlock : stmt ∈ block.stmts)
    (carries : stmt.instr.op = .call ∨ stmt.instr.op = .label) : named stmt.instr.symbol := by
  refine shows.spoken _ (List.mem_append_right _ (List.mem_map.2 ⟨stmt, List.mem_filter.2 ⟨?_, ?_⟩, rfl⟩))
  · exact List.mem_flatMap.2 ⟨block, inFunction, inBlock⟩
  · simpa using carries

theorem ShowsOnly.labelText : named ((f.procedure base).labelText pass b) := by
  rw [Procedure.labelText]
  split
  · rename_i name own
    rw [Procedure.label?, block?_procedure] at own
    cases found : f.blocks[b]? with
    | none => simp [found] at own
    | some block =>
      simp only [found, Option.map_some, Option.bind_some, Block.view, Block.label?] at own
      split at own
      · rename_i result name' rest stmts
        obtain rfl := Option.some.inj own
        have inBlock : (⟨result, .label name'⟩ : Statement Nat Nat) ∈ block.stmts := by simp [stmts]
        exact shows.symbol (List.mem_of_getElem? found) inBlock (.inr rfl)
      · simp at own
  · rw [number_eq]
    exact shows.made b pass

theorem ShowsOnly.copies_among (wf : f.WellFormed) {facts : Facts} {c : Copies}
    (copied : (f.procedure base).copies facts = .ok c) : c.Among named := by
  refine Procedure.copies_among (fun n => shows.temporary n _) ?_ copied
  intro b pairs edges pair mem
  obtain ⟨⟨src, source⟩, dest, target⟩ :=
    isNamed_of_isEdgeCopy wf ((Procedure.mem_edgePairs_iff edges).1 mem)
  exact ⟨shows.of_isNamed source, shows.of_isNamed target⟩

end

theorem label?_eq (found : f.blocks[b]? = some block) (labelled : block.Labelled) (inBlock : stmt ∈ block.stmts)
    (isLabel : stmt.instr.op = .label) : (f.procedure base).label? b = some stmt.instr.symbol := by
  obtain ⟨result, instr⟩ := stmt
  cases instr with
  | label =>
    rw [Procedure.label?, block?_of_get found]
    simp only [Option.bind_some, Block.view, Block.label?]
    cases stmts : block.stmts with
    | nil => simp [stmts] at inBlock
    | cons =>
      rw [stmts] at inBlock
      rcases List.mem_cons.1 inBlock with rfl | later
      · rfl
      · exact absurd isLabel (labelled.first _ (by simpa [stmts] using later))
  | _ => simp [Instr.op] at isLabel

theorem groupArms_spec (arms : List (CaseLabel × BlockId)) (some : arms ≠ []) :
    groupArms arms ≠ [] ∧ ∀ arm ∈ groupArms arms, arm.labels ≠ [] := by
  rw [groupArms_eq]
  constructor
  · obtain ⟨arm, rest, rfl⟩ := List.exists_cons_of_ne_nil some
    intro none
    have mem : arm.2 ∈ ((arm :: rest).map (·.2)).eraseDups := by simp
    rw [List.map_eq_nil_iff.1 none] at mem
    exact absurd mem List.not_mem_nil
  · intro arm mem
    obtain ⟨target, listed, rfl⟩ := List.mem_map.1 mem
    rw [List.mem_eraseDups] at listed
    obtain ⟨source, here, rfl⟩ := List.mem_map.1 listed
    exact List.ne_nil_of_mem (List.mem_map_of_mem (List.mem_filter.2 ⟨here, by simp⟩))

theorem plain_of_assignLabels {labels : Labels} (assigned : (f.procedure base).assignLabels pass = .ok labels) :
    ∀ block ∈ f.blocks, ∀ stmt ∈ block.stmts, stmt.instr.op ≠ .asm := by
  intro block mem
  obtain ⟨b, found⟩ := List.mem_iff_getElem?.1 mem
  rw [Procedure.assignLabels] at assigned
  cases listed : (f.procedure base).blockIds.mapM fun b =>
      ((f.procedure base).classified b).map fun stmts => (b, stmts) with
  | error cause => simp [listed, Bind.bind, Except.bind] at assigned
  | ok blocks =>
    obtain ⟨pair, here⟩ := exists_of_mapM_eq_ok listed b (mem_blockIds_iff.2 ⟨block, found⟩)
    cases ok : (f.procedure base).classified b with
    | error => simp [ok, Except.map] at here
    | ok => exact plain_of_classified found ok

section Legible

variable {facts : Facts} {labels : Labels} {copies : Copies} {verbose : Bool}

theorem exists_block_of_classified (plain : ∀ block ∈ f.blocks, ∀ stmt ∈ block.stmts, stmt.instr.op ≠ .asm)
    {stmts : List (Stmt × Kind)} (ok : (f.procedure base).classified b = .ok stmts) {stmt : Stmt × Kind}
    (mem : stmt ∈ stmts) :
    ∃ block, f.blocks[b]? = some block ∧ stmts = (f.views b block).filterMap (classify? base) := by
  cases found : f.blocks[b]? with
  | none =>
    rw [classified_of_none found] at ok
    obtain rfl := Except.ok.inj ok
    exact absurd mem List.not_mem_nil
  | some block =>
    rw [classified_of_get found (plain block (List.mem_of_getElem? found))] at ok
    exact ⟨block, rfl, (Except.ok.inj ok).symm⟩

theorem map_snd_views (f : Function) (b : BlockId) (block : Block Nat Nat) :
    (f.views b block).map (·.2) = block.stmts :=
  map_snd_numberFrom _ _

theorem exists_of_classified (plain : ∀ block ∈ f.blocks, ∀ stmt ∈ block.stmts, stmt.instr.op ≠ .asm)
    {stmts : List (Stmt × Kind)} (ok : (f.procedure base).classified b = .ok stmts) {stmt : Stmt × Kind}
    (mem : stmt ∈ stmts) :
    ∃ block source, f.blocks[b]? = some block ∧ source ∈ block.stmts ∧ f.values[stmt.1.id]? = some (.statement source) ∧
      source.instr.kind (base + stmt.1.id) = .ok stmt.2 := by
  obtain ⟨block, found, rfl⟩ := exists_block_of_classified plain ok mem
  obtain ⟨view, listed, same⟩ := List.mem_filterMap.1 mem
  obtain ⟨kind, same⟩ := classify?_eq_some_iff.1 same
  rw [same]
  exact ⟨block, view.2, found, mem_stmts_of_view listed, value_of_view found listed, kind⟩

theorem ShowsOnly.varName (shows : f.ShowsOnly named) (wf : f.WellFormed) (among : copies.Among named)
    (inFunction : block ∈ f.blocks) (inBlock : stmt ∈ block.stmts) {v : Var} (read : v ∈ stmt.instr.reads) :
    named (Emitter.varName
      { procedure := f.procedure base, facts, render := f.render, labels, copies, verbose } b v) := by
  rw [Emitter.varName]
  cases found : Rename.top? (copies.namesIn b) v with
  | some => exact among.top? found
  | none =>
    have mem : Value.statement stmt ∈ f.values :=
      List.mem_append_right _ (List.mem_flatMap.2
        ⟨block, inFunction, List.mem_append_right _ (List.mem_map_of_mem inBlock)⟩)
    obtain ⟨value, name, given⟩ := wf.reads _ mem v read
    exact shows.of_isNamed ⟨value, given⟩

theorem IsRead.isWord_of_mem_spoken (read : f.IsRead) {name : String} (mem : name ∈ f.spoken) : IsWord name := by
  have wf := read.wellFormed
  rcases List.mem_append.1 mem with given | carried
  · obtain ⟨value, listed, given⟩ := List.mem_filterMap.1 given
    exact wf.isWord_name listed given
  · obtain ⟨stmt, listed, rfl⟩ := List.mem_map.1 carried
    obtain ⟨listed, carries⟩ := List.mem_filter.1 listed
    obtain ⟨block, inFunction, inBlock⟩ := List.mem_flatMap.1 listed
    rcases of_decide_eq_true carries with isCall | isLabel
    · exact ((wf.blocks block inFunction).stmts stmt inBlock).callee isCall
    · have written := (read.labelled block inFunction).written stmt inBlock
      cases instr : stmt.instr <;> simp [instr, Instr.op] at isLabel
      rwa [instr] at written

theorem isWord_temporaryName (n k : Nat) : IsWord (temporaryName n k) := by
  have chars : (temporaryName n k).toList =
      "__t__".toList ++ ((toString n).toList ++ ('_' :: (toString k).toList)) := by
    simp [temporaryName, toString]
  refine ⟨'_', _, chars, by decide, ?_⟩
  rw [chars]
  intro c mem
  rcases List.mem_append.1 mem with start | rest
  · exact List.all_eq_true.1 (show "__t__".toList.all Text.continuesName = true from rfl) c start
  · rcases List.mem_append.1 rest with digit | rest
    · exact continuesName_toString n c digit
    · rcases List.mem_cons.1 rest with rfl | digit
      · decide
      · exact continuesName_toString k c digit

theorem IsRead.showsOnly (read : f.IsRead) (free : String → Prop) (spoken : ∀ name ∈ f.spoken, free name)
    (temporary : ∀ n k, free (temporaryName n k))
    (made : ∀ n pass : Nat, free ("BB_LABEL_" ++ toString n ++ if pass > 1 then "_" ++ toString pass else "")) :
    f.ShowsOnly fun name => IsWord name ∧ free name where
  isWord := And.left
  spoken name mem := ⟨read.isWord_of_mem_spoken mem, spoken name mem⟩
  temporary n k := ⟨isWord_temporaryName n k, temporary n k⟩
  made n pass := ⟨isWord_numbered n pass, made n pass⟩

theorem IsRead.showsWords (read : f.IsRead) : f.ShowsOnly IsWord where
  isWord := id
  spoken _ := read.isWord_of_mem_spoken
  temporary := isWord_temporaryName
  made := isWord_numbered

theorem IsRead.legible (read : f.IsRead) (shows : f.ShowsOnly named)
    (assigned : (f.procedure base).assignLabels pass = .ok labels)
    (copied : (f.procedure base).copies facts = .ok copies) :
    Emitter.Legible
      { procedure := f.procedure base, facts, render := f.render, labels, copies, verbose } named := by
  have wf := read.wellFormed
  have among := shows.copies_among wf copied
  have plain := plain_of_assignLabels assigned
  refine ⟨shows.isWord, among, ?label, ?texts, ?own, ?first, ?last, ?arms, ?cases⟩
  case label =>
    intro x name found
    rw [Procedure.eq_labelText (classified_kinds plain) assigned found]
    refine ⟨shows.labelText, ?_⟩
    intro own given
    rw [Option.mem_def] at given
    simp [Procedure.labelText, given]
  case texts =>
    intro b stmts ok stmt mem text rendered
    obtain ⟨block, source, found, inBlock, value, kind⟩ := exists_of_classified plain ok mem
    have inFunction := List.mem_of_getElem? found
    have shaped := (wf.blocks block inFunction).stmts source inBlock
    have given {name : String} (same : source.result = some name) : named name := by
      refine shows.spoken name (List.mem_append_left _ (List.mem_filterMap.2 ⟨_, List.mem_of_getElem? value, same⟩))
    simp only [render, value] at rendered
    refine text_of_renderInstr kind rendered shows.isWord rfl ?_ ?_ ?_ ?_ ?_
    · intro v isRead
      exact shows.varName wf among inFunction inBlock isRead
    · intro isDef noCall
      obtain ⟨name, same⟩ := Option.isSome_iff_exists.1 (shaped.isSome isDef noCall)
      simpa [same] using given same
    · intro some
      cases same : source.result with
      | none => simp [same] at some
      | some => exact given same
    · exact fun isCall => shows.symbol inFunction inBlock (.inl isCall)
    · intro isLabel
      exact ⟨label?_eq found (read.labelled block inFunction) inBlock isLabel,
        shows.symbol inFunction inBlock (.inr isLabel)⟩
  case own =>
    intro b stmts ok stmt mem isLabel
    obtain ⟨block, source, found, inBlock, value, kind⟩ := exists_of_classified plain ok mem
    have source : source.instr.op = .label := by
      rw [isLabel] at kind
      cases instr : source.instr <;> simp [instr, Instr.kind, Instr.op] at kind ⊢
    rw [label?_eq found (read.labelled block (List.mem_of_getElem? found)) inBlock source]
    rfl
  case first =>
    intro b stmts ok stmt mem isLabel
    obtain ⟨block, found, rfl⟩ := exists_block_of_classified plain ok (List.mem_of_mem_tail mem)
    obtain ⟨view, listed, same⟩ := mem_tail_filterMap mem
    obtain ⟨kind, -⟩ := classify?_eq_some_iff.1 same
    have later : view.2 ∈ block.stmts.tail := by
      rw [← map_snd_views f b block, ← List.map_tail]
      exact List.mem_map_of_mem listed
    have other := (read.labelled block (List.mem_of_getElem? found)).first view.2 later
    rw [isLabel] at kind
    cases instr : view.2.instr <;> simp [instr, Instr.kind, Instr.op] at kind other
  case last =>
    intro b stmts ok stmt mem
    obtain ⟨block, found, rfl⟩ := exists_block_of_classified plain ok (List.mem_of_mem_dropLast mem)
    obtain ⟨view, listed, same⟩ := mem_dropLast_filterMap mem
    obtain ⟨kind, -⟩ := classify?_eq_some_iff.1 same
    have early : view.2 ∈ block.stmts.dropLast := by
      rw [← map_snd_views f b block, ← List.map_dropLast]
      exact List.mem_map_of_mem listed
    have passes := (wf.blocks block (List.mem_of_getElem? found)).terminated view.2 early
    by_contra branches
    rw [Instr.isTerminator_of_kind kind (by simpa using branches)] at passes
    simp at passes
  case arms =>
    intro b stmts ok stmt arms mem
    obtain ⟨block, source, found, inBlock, value, kind⟩ := exists_of_classified plain ok mem
    have inFunction := List.mem_of_getElem? found
    cases instr : source.instr <;>
      simp only [instr, Instr.kind, reduceCtorEq, Except.ok.injEq, Kind.multiway.injEq] at kind
    rename_i cond target more otherwise
    subst kind
    refine ⟨by simp, ?_⟩
    intro arm mem v test
    refine shows.varName wf among inFunction inBlock ?_
    rw [instr, Instr.reads]
    simp only [List.cons_append, List.mem_cons, List.mem_append, List.mem_map] at mem
    rcases mem with rfl | ⟨source, listed, rfl⟩ | ⟨target, listed, rfl⟩
    · obtain rfl := Option.mem_some_iff.1 test
      exact .head _
    · obtain rfl := Option.mem_some_iff.1 test
      exact .tail _ (List.mem_map_of_mem listed)
    · simp at test
  case cases =>
    intro b stmts ok stmt selector arms mem
    obtain ⟨block, source, found, inBlock, value, kind⟩ := exists_of_classified plain ok mem
    have written := (read.labelled block (List.mem_of_getElem? found)).written source inBlock
    cases instr : source.instr <;> simp [instr, Instr.kind] at kind
    rename_i selector' arms'
    rw [instr] at written
    obtain ⟨-, rfl⟩ := kind
    exact groupArms_spec arms' written

end Legible

end FunctionOf

end Program

end Reflow
