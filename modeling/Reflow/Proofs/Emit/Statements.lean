import Mathlib.Data.List.DropRight
import Reflow.Proofs.Emit.Logic
import Reflow.Proofs.Emit.Meaning
import Reflow.Proofs.Program.Kinds

namespace Reflow

open Program

def Instr.isExit : Instr Nat Nat → Bool
  | br _ | ret _ | condbr .. | loop .. | goto _ => true
  | multiif cond target arms otherwise =>
    otherwise.isSome && decide ((multiif cond target arms otherwise : Instr Nat Nat).targets.Nodup)
  | _ => false

def Instr.innerKind : Instr Nat Nat → Kind
  | init .. => .init
  | vuse _ => .virtual
  | _ => .plain

theorem Instr.innerKind_eq_virtual_iff {instr : Instr Nat Nat} : instr.innerKind = .virtual ↔ instr.op = .vuse := by
  cases instr <;> simp [innerKind, op]

theorem Instr.innerKind_ne_label (instr : Instr Nat Nat) : instr.innerKind ≠ .label := by
  cases instr <;> simp [innerKind]

def Line.tokens (lines : List Line) : List Token :=
  lines.flatMap fun line => Token.ofText line.text

@[simp]
theorem Line.tokens_append (lines more : List Line) :
    Line.tokens (lines ++ more) = Line.tokens lines ++ Line.tokens more :=
  List.flatMap_append

@[simp]
theorem Line.tokens_cons (line : Line) (lines : List Line) :
    Line.tokens (line :: lines) = Token.ofText line.text ++ Line.tokens lines :=
  List.flatMap_cons

@[simp]
theorem Line.tokens_nil : Line.tokens [] = [] :=
  rfl

theorem Line.tokens_of_allSilent {lines : List Line} (silent : Line.allSilent lines = true) :
    Line.tokens lines = [] := by
  rw [Line.tokens, List.flatMap_eq_nil_iff]
  intro line mem
  have empty : line.text = "" := by
    have isEmpty := List.all_eq_true.1 silent line mem
    simpa using isEmpty
  rw [empty]
  decide

namespace Program.FunctionOf

structure Branches (f : Function) : Prop where
  wellFormed : f.WellFormed
  phis : ∀ block ∈ f.blocks, block.phis = []
  blocks : ∀ block ∈ f.blocks, ∃ body last, block.stmts = body ++ [last] ∧
    (∀ stmt ∈ body, stmt.instr.isStraight) ∧ last.instr.isExit

structure Bare (f : Function) : Prop where
  phis : ∀ block ∈ f.blocks, block.phis = []
  plain : ∀ block ∈ f.blocks, ∀ stmt ∈ block.stmts, stmt.instr.op ≠ .asm

def emitter (f : Function) (base : Nat) (labels : Labels) (verbose : Bool) : Emitter where
  procedure := f.procedure base
  facts := (f.procedure base).analysis.toFacts
  render := f.render
  labels := labels
  copies := {}
  verbose := verbose

variable {f : Function} {base : Nat} {b : BlockId} {block : Block Nat Nat}
  {body : List (Statement Nat Nat)} {last : Statement Nat Nat}
  {view : Nat × Statement Nat Nat} {instr : Instr Nat Nat} {stmts : List (Statement Nat Nat)}

def numbered (f : Function) (b : BlockId) (stmts : List (Statement Nat Nat)) : List (Nat × Statement Nat Nat) :=
  numberFrom (f.blockStart b) stmts

theorem Branches.exists_block (branches : f.Branches) (found : f.blocks[b]? = some block) :
    ∃ body last, f.HasBlock b body last ∧ block.stmts = body ++ [last] ∧ last.instr.isExit := by
  obtain ⟨body, last, stmts, straight, exit⟩ := branches.blocks block (List.mem_of_getElem? found)
  exact ⟨body, last, ⟨by simp [found, stmts], fun stmt mem => Instr.isInner_of_isStraight (straight stmt mem)⟩,
    stmts, exit⟩

theorem HasBlock.exists_block (has : f.HasBlock b body last) :
    ∃ block, f.blocks[b]? = some block ∧ block.stmts = body ++ [last] := by
  obtain ⟨block, found, stmts⟩ := Option.map_eq_some_iff.1 has.found
  exact ⟨block, found, stmts⟩

theorem Branches.straight (branches : f.Branches) (has : f.HasBlock b body last) :
    ∀ stmt ∈ body, stmt.instr.isStraight := by
  obtain ⟨block, found, stmts⟩ := has.exists_block
  obtain ⟨body', last', stmts', straight, -⟩ := branches.blocks block (List.mem_of_getElem? found)
  obtain ⟨rfl, -⟩ := List.append_inj' (stmts.symm.trans stmts') rfl
  exact straight

theorem Bare.views_eq (bare : f.Bare) (found : f.blocks[b]? = some block) :
    f.views b block = f.numbered b block.stmts := by
  rw [views, bare.phis block (List.mem_of_getElem? found)]
  rfl

theorem Bare.phis_eq_nil (bare : f.Bare) (base : Nat) (b : BlockId) : (f.procedure base).phis b = [] := by
  cases found : f.blocks[b]? with
  | none => simp [Procedure.phis, block?_procedure, found]
  | some block =>
    rw [phis_of_get found, bare.phis block (List.mem_of_getElem? found)]
    rfl

theorem exists_kind_of_isExit (exit : instr.isExit) (real : instr.op ≠ .br) :
    ∃ kind, ∀ n, instr.kind n = .ok kind := by
  apply exists_kind real
  cases instr <;> simp [Instr.isExit, Instr.op] at exit ⊢

theorem Branches.plain (branches : f.Branches) (block : Block Nat Nat) (mem : block ∈ f.blocks)
    (stmt : Statement Nat Nat) (inBlock : stmt ∈ block.stmts) : stmt.instr.op ≠ .asm := by
  obtain ⟨body, last, stmts, straight, exit⟩ := branches.blocks block mem
  intro assembly
  rw [stmts] at inBlock
  rcases List.mem_append.1 inBlock with early | final
  · have straight := straight _ early
    cases instr : stmt.instr <;> simp [instr, Instr.op, Instr.isStraight] at assembly straight
  · rw [← List.mem_singleton.1 final] at exit
    cases instr : stmt.instr <;> simp [instr, Instr.op, Instr.isExit] at assembly exit

theorem Branches.bare (branches : f.Branches) : f.Bare :=
  ⟨branches.phis, branches.plain⟩

theorem Bare.kinds_eq (bare : f.Bare) (found : f.blocks[b]? = some block) :
    (f.procedure base).kinds b = (f.numbered b block.stmts).filterMap (classify? base) := by
  rw [kinds_of_get found (bare.plain block (List.mem_of_getElem? found)), bare.views_eq found]

theorem classify?_of_inner (base : Nat) (view : Nat × Statement Nat Nat) (inner : view.2.instr.isInner) :
    classify? base view = some (view.2.view base view.1, view.2.instr.innerKind) := by
  unfold classify?
  cases instr : view.2.instr <;>
    simp_all [Instr.isInner, Instr.isStraight, Instr.kind, Instr.innerKind]

def kept (stmts : List (Statement Nat Nat)) : List (Statement Nat Nat) :=
  stmts.rdropWhile fun stmt => !stmt.instr.innerKind.isReal

@[simp]
theorem kept_nil : kept [] = [] :=
  List.rdropWhile_nil _

theorem kept_isPrefix (stmts : List (Statement Nat Nat)) : kept stmts <+: stmts :=
  stmts.rdropWhile_prefix _

theorem kept_concat (stmts : List (Statement Nat Nat)) (stmt : Statement Nat Nat) :
    kept (stmts ++ [stmt]) = if stmt.instr.innerKind.isReal then stmts ++ [stmt] else kept stmts := by
  rw [kept, List.rdropWhile_concat, kept]
  cases stmt.instr.innerKind.isReal <;> rfl

theorem upToLastReal_inner (f : Function) (base : Nat) (b : BlockId) (stmts : List (Statement Nat Nat))
    (inner : ∀ stmt ∈ stmts, stmt.instr.isInner) :
    upToLastReal ((f.numbered b stmts).filterMap (classify? base)) =
      (f.numbered b (kept stmts)).filterMap (classify? base) := by
  induction stmts using List.reverseRecOn with
  | nil => rfl
  | append_singleton stmts stmt ih =>
    have rest := ih fun stmt mem => inner stmt (List.mem_append_left _ mem)
    have ok := classify?_of_inner base (f.blockStart b + stmts.length, stmt) (inner stmt (by simp))
    rw [kept_concat, numbered, numberFrom_concat, List.filterMap_append,
      List.filterMap_cons_some ok, List.filterMap_nil, upToLastReal_concat]
    cases real : stmt.instr.innerKind.isReal with
    | true => simp [numbered, numberFrom_concat, ok]
    | false => simpa [numbered] using rest

theorem exists_kept_concat (some : kept stmts ≠ []) :
    ∃ front stmt, kept stmts = front ++ [stmt] ∧ stmt.instr.innerKind = .plain := by
  have real := List.rdropWhile_last_not _ stmts some
  refine ⟨_, _, (List.dropLast_append_getLast some).symm, ?_⟩
  cases instr : ((kept stmts).getLast some).instr <;>
    simp_all [kept, Instr.innerKind, Kind.isReal]

@[simp]
theorem texts_nil (f : Function) : f.texts [] = [] :=
  rfl

@[simp]
theorem texts_append (f : Function) (stmts more : List (Statement Nat Nat)) :
    f.texts (stmts ++ more) = f.texts stmts ++ f.texts more := by
  simp [texts]

theorem texts_kept_eq_nil_iff (f : Function) (stmts : List (Statement Nat Nat)) :
    f.texts (kept stmts) = [] ↔ kept stmts = [] := by
  constructor
  · intro empty
    by_contra some
    obtain ⟨front, stmt, same, plain⟩ := exists_kept_concat some
    have printed : stmt.instr.op ≠ .vuse := by
      cases instr : stmt.instr <;> simp_all [Instr.innerKind, Instr.op]
    simp [same, texts, printed] at empty
  · intro empty
    rw [empty]
    rfl

theorem texts_kept (f : Function)
    (straight : ∀ stmt ∈ stmts, stmt.instr.isStraight) : f.texts (kept stmts) = f.texts stmts := by
  induction stmts using List.reverseRecOn with
  | nil => rfl
  | append_singleton stmts stmt ih =>
    have rest := ih fun stmt mem => straight stmt (List.mem_append_left _ mem)
    have here := straight stmt (by simp)
    rw [kept_concat]
    split
    · rfl
    · rename_i unreal
      have isVirtual : stmt.instr.op = .vuse := by
        cases instr : stmt.instr <;>
          simp_all [Instr.isStraight, Instr.innerKind, Instr.op, Kind.isReal]
      simpa [texts, isVirtual] using rest

open Emission Reading

variable {labels : Labels} {verbose : Bool} {allowed : EmitError → Prop} {t : Traversal}

def printed (f : Function) (verbose : Bool) (b : BlockId) (views : List (Nat × Statement Nat Nat)) : List Line :=
  views.flatMap fun view =>
    if view.2.instr.op = .vuse then if verbose then [.comment "(removed virtual statement)"] else []
    else [.stmt b view.1 (f.statementText view.2)]

theorem stmtLines_meets_of_render {e : Emitter} {stmt : Stmt} {kind : Kind}
    {post : List Line → Traversal → Prop} (real : kind ≠ .virtual) (noLabel : kind ≠ .label)
    (holds : ∀ text, e.render stmt.id (e.names b) = .ok text → post [.stmt b stmt.id text] t)
    (fails : ∀ error, e.render stmt.id (e.names b) = .error error → allowed error) :
    Meets allowed (e.stmtLines b (stmt, kind)) t post := by
  unfold Emitter.stmtLines
  split
  · rename_i same
    exact absurd (congrArg (·.2) same) real
  · rename_i stmt' kind' _ same
    obtain ⟨rfl, rfl⟩ := Prod.mk.inj same
    apply Meets.of_except _ fails
    intro text rendered
    rw [if_neg noLabel]
    exact Meets.pure (holds text rendered)

theorem op_not_mem_of_inner (inner : instr.isInner) (real : instr.op ≠ .vuse) :
    instr.op ∉ [.vuse, .asm, .br, .goto] := by
  cases instr <;> simp [Instr.isInner, Instr.isStraight, Instr.op] at inner real ⊢

theorem Bare.render_eq (bare : f.Bare) (base : Nat) (labels : Labels) (verbose : Bool)
    (found : f.blocks[b]? = some block)
    (mem : view ∈ f.numbered b block.stmts) : (f.emitter base labels verbose).render
      (view.2.view base view.1).id ((f.emitter base labels verbose).names b) =
        renderInstr ⟨f.valueName, labels.label⟩ (view.2.result.getD "") view.2.instr := by
  have value := value_of_view found (bare.views_eq found ▸ mem)
  simp only [emitter, Statement.view, render, value]
  rfl

theorem Bare.stmtLines_meets (bare : f.Bare) (found : f.blocks[b]? = some block)
    (mem : view ∈ f.numbered b block.stmts) (inner : view.2.instr.isInner) {entry : Stmt × Kind}
    (ok : classify? base view = some entry) :
    Meets allowed ((f.emitter base labels verbose).stmtLines b entry) t fun lines t' =>
      t' = t ∧ lines = f.printed verbose b [view] := by
  rw [classify?_of_inner base _ inner, Option.some_inj] at ok
  subst ok
  by_cases isVirtual : view.2.instr.op = .vuse
  · rw [Instr.innerKind_eq_virtual_iff.2 isVirtual]
    apply Meets.pure
    refine ⟨rfl, ?_⟩
    simp only [printed, List.flatMap_singleton, isVirtual, if_true]
    rfl
  · have same := (bare.render_eq base labels verbose found mem).trans
      (renderInstr_eq (op_not_mem_of_inner inner isVirtual) labels.label)
    apply stmtLines_meets_of_render (fun kind => isVirtual (Instr.innerKind_eq_virtual_iff.1 kind))
      (Instr.innerKind_ne_label _)
    · intro text found
      obtain rfl := Except.ok.inj (same.symm.trans found)
      exact ⟨rfl, by simp [printed, isVirtual, Statement.view]⟩
    · intro error failed
      rw [same] at failed
      simp at failed

theorem Bare.concat_meets (bare : f.Bare) (found : f.blocks[b]? = some block) (views : List (Nat × Statement Nat Nat))
    (subset : views ⊆ f.numbered b block.stmts) (inner : ∀ view ∈ views, view.2.instr.isInner) :
    Meets allowed (concat ((views.filterMap (classify? base)).map
      ((f.emitter base labels verbose).stmtLines b))) t fun lines t' =>
        t' = t ∧ lines = f.printed verbose b views := by
  induction views with
  | nil => exact Meets.pure ⟨rfl, rfl⟩
  | cons view _ ih =>
    have here : view.2.instr.isInner := inner view (.head _)
    have ok := classify?_of_inner base _ here
    rw [List.filterMap_cons_some ok, List.map_cons, concat]
    apply (bare.stmtLines_meets found (subset (.head _)) here ok).andThen
    rintro lines t' ⟨rfl, rfl⟩
    apply (ih (fun view mem => subset (.tail _ mem)) fun view mem => inner view (.tail _ mem)).andThen
    rintro more t' ⟨rfl, rfl⟩
    exact Meets.pure ⟨rfl, by simp [printed]⟩

theorem bodyLines_concat {e : Emitter} (noCopies : e.copies.tail b = []) (front : List (Stmt × Kind))
    (final : Stmt × Kind) : e.bodyLines b (front ++ [final]) = (do
      let lines ← concat (front.map (e.stmtLines b))
      let more ← e.stmtLines b final
      return lines ++ more) := by
  have none : e.tailLines b = [] := by simp [Emitter.tailLines, noCopies]
  unfold Emitter.bodyLines
  simp only [List.getLast?_concat, List.dropLast_concat, none, List.append_nil, ite_self]

theorem Bare.inner_bodyLines_meets (bare : f.Bare) (found : f.blocks[b]? = some block)
    (views : List (Nat × Statement Nat Nat)) (subset : views ⊆ f.numbered b block.stmts)
    (inner : ∀ view ∈ views, view.2.instr.isInner) :
    Meets allowed ((f.emitter base labels verbose).bodyLines b
      (views.filterMap (classify? base))) t fun lines t' =>
        t' = t ∧ lines = f.printed verbose b views := by
  rcases List.eq_nil_or_concat views with rfl | ⟨front, view, rfl⟩
  · exact Meets.pure ⟨rfl, rfl⟩
  · have here : view.2.instr.isInner := inner view (by simp)
    have ok := classify?_of_inner base _ here
    have entries : (front.concat view).filterMap (classify? base) =
        front.filterMap (classify? base) ++ [(view.2.view base view.1, view.2.instr.innerKind)] := by
      simp [ok]
    rw [entries, bodyLines_concat rfl]
    apply (bare.concat_meets found front (fun view mem => subset (by simp [mem]))
      fun view mem => inner view (by simp [mem])).andThen
    rintro lines t' ⟨rfl, rfl⟩
    apply (bare.stmtLines_meets found (subset (by simp)) here ok).andThen
    rintro more t' ⟨rfl, rfl⟩
    exact Meets.pure ⟨rfl, by simp [printed]⟩

theorem Branches.isStatement_text (branches : f.Branches) (found : f.blocks[b]? = some block)
    (mem : view ∈ f.numbered b block.stmts) (straight : view.2.instr.isStraight)
    (real : view.2.instr.op ≠ .vuse) : Token.IsStatement (f.statementText view.2) := by
  obtain ⟨i, inBlock, -⟩ := mem_numberFrom_iff.1 (show (view.1, view.2) ∈ _ from mem)
  exact branches.wellFormed.isStatement_text (List.mem_of_getElem? found) (List.mem_of_getElem? inBlock) straight real

theorem Branches.gives_printed (branches : f.Branches) (verbose : Bool) (found : f.blocks[b]? = some block)
    (views : List (Nat × Statement Nat Nat)) (subset : views ⊆ f.numbered b block.stmts)
    (straight : ∀ view ∈ views, view.2.instr.isStraight) :
    Gives (Line.tokens (f.printed verbose b views)) (f.codes (views.map (·.2))) := by
  induction views with
  | nil => exact Gives.nil
  | cons view views ih =>
    have rest := ih (fun view mem => subset (.tail _ mem)) fun view mem => straight view (.tail _ mem)
    have split : f.printed verbose b (view :: views) = f.printed verbose b [view] ++ f.printed verbose b views := by
      simp [printed]
    rw [split, Line.tokens_append]
    by_cases isVirtual : view.2.instr.op = .vuse
    · have silent : Token.ofText (Line.comment "(removed virtual statement)").text = [] := by
        decide
      have none : Line.tokens (f.printed verbose b [view]) = [] := by
        cases verbose <;> simp [printed, isVirtual, silent]
      rw [none]
      simpa [FunctionOf.codes, isVirtual] using rest
    · have statement := branches.isStatement_text found (subset (.head _)) (straight view (.head _)) isVirtual
      have token : Line.tokens (f.printed verbose b [view]) = [.plain (f.statementText view.2)] := by
        simp [printed, isVirtual, Line.text, Token.ofText_of_oneLine statement.single, statement.token]
      have first : Gives [.plain (f.statementText view.2)] [.plain (f.statementText view.2)] :=
        (GivesOne.of_add fun r => rfl).gives
      rw [token]
      simpa [FunctionOf.codes, isVirtual] using first.append rest

end Program.FunctionOf

end Reflow
