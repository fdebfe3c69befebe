import Reflow.Proofs.Emit.Labels

namespace Reflow

namespace Program.FunctionOf

open Emission Reading

variable {f : Function} {base pass : Nat} {b x : BlockId} {labels : Labels} {verbose : Bool}
  {body : List (Statement Nat Nat)} {last : Statement Nat Nat} {allowed : EmitError → Prop} {t : Traversal}
  {block : Block Nat Nat} {inner outer : BlockId}

theorem mem_of_mem_numbered {view : Nat × Statement Nat Nat} {stmts : List (Statement Nat Nat)}
    (mem : view ∈ f.numbered b stmts) : view.2 ∈ stmts := by
  obtain ⟨i, listed, -⟩ := mem_numberFrom_iff.1 (show (view.1, view.2) ∈ _ from mem)
  exact List.mem_of_getElem? listed

theorem HasBlock.kept_inner (has : f.HasBlock b body last) : ∀ stmt ∈ kept body, stmt.instr.isInner :=
  fun stmt mem => has.inner stmt ((kept_isPrefix body).subset mem)

theorem HasBlock.upToLastReal_br (has : f.HasBlock b body last) (bare : f.Bare) (base : Nat)
    (instr : last.instr = .br x) : upToLastReal ((f.procedure base).kinds b) =
      (f.numbered b (kept body)).filterMap (classify? base) := by
  have unprinted : classify? base (f.blockStart b + body.length, last) = none := by
    simp [classify?, instr, Instr.kind]
  rw [has.kinds_eq bare, unprinted, Option.toList_none, List.append_nil,
    upToLastReal_inner f base b body has.inner]

theorem HasBlock.ending_br (has : f.HasBlock b body last) (bare : f.Bare) (base : Nat)
    (instr : last.instr = .br x) : (f.procedure base).ending b = none ∧ kept body = [] ∨
      (f.procedure base).ending b = some .plain ∧ kept body ≠ [] := by
  rw [Procedure.ending, has.upToLastReal_br bare base instr]
  by_cases empty : kept body = []
  · exact .inl ⟨by rw [empty]; rfl, empty⟩
  · obtain ⟨front, stmt, same, plain⟩ := exists_kept_concat empty
    have inner := has.kept_inner stmt (by simp [same])
    have ok := classify?_of_inner base (f.blockStart b + front.length, stmt) inner
    refine .inr ⟨?_, empty⟩
    rw [same, numbered, numberFrom_concat, List.filterMap_append, List.filterMap_cons_some ok,
      List.filterMap_nil, List.getLast?_concat, Option.map_some, plain]

theorem isReal_of_isExit {instr : Instr Nat Nat} {n : Nat} {kind : Kind} (exit : instr.isExit)
    (ok : instr.kind n = .ok kind) : kind.isReal ∧ kind ≠ .virtual ∧ kind ≠ .label := by
  cases instr with
  | br => simp [Instr.kind] at ok
  | ret | condbr | loop | multiif | goto =>
    obtain rfl := Except.ok.inj ok
    simp [Kind.isReal]
  | _ => simp [Instr.isExit] at exit

theorem HasBlock.upToLastReal_eq (has : f.HasBlock b body last) (bare : f.Bare) (base : Nat)
    (kind : Kind) (ok : ∀ n, last.instr.kind n = .ok kind) (real : kind.isReal) :
    upToLastReal ((f.procedure base).kinds b) = (f.numbered b body).filterMap (classify? base) ++
      [(last.view base (f.blockStart b + body.length), kind)] := by
  rw [has.kinds_eq bare, classify?]
  simp only [ok, Option.toList_some, upToLastReal_concat, real, if_true]

theorem HasBlock.ending_eq (has : f.HasBlock b body last) (bare : f.Bare) (base : Nat)
    (kind : Kind) (ok : ∀ n, last.instr.kind n = .ok kind) (real : kind.isReal) :
    (f.procedure base).ending b = some kind := by
  rw [Procedure.ending, has.upToLastReal_eq bare base kind ok real, List.getLast?_concat]
  rfl

def exitTokens (f : Function) (name : BlockId → String) (last : Statement Nat Nat) : List Token :=
  match last.instr with
  | .ret _ => [.ret (f.statementText last)]
  | .condbr cond .. | .multiif cond .. => [.ifTest (f.valueName cond)]
  | .loop cond .. => [.whileTest (f.valueName cond)]
  | .goto target => [.goto (name target)]
  | _ => []

theorem Branches.exit_tokens (branches : f.Branches) (has : f.HasBlock b body last) (exit : last.instr.isExit)
    (assigned : (f.procedure base).assignLabels pass = .ok labels) {text : String}
    (rendered : renderInstr ⟨f.valueName, labels.label⟩ (last.result.getD "") last.instr = .ok text) :
    Token.ofText text = f.exitTokens ((f.procedure base).labelText pass) last := by
  obtain ⟨block, found, stmts⟩ := has.exists_block
  have words := branches.wellFormed.isWord_read (List.mem_of_getElem? found) (show last ∈ block.stmts by simp [stmts])
  have plain (s : String) : toString s = s := rfl
  unfold exitTokens
  cases instr : last.instr with
  | ret result =>
    have same : f.statementText last = text := by
      rw [instr] at rendered
      cases result <;> simpa [statementText, instr, renderInstr] using rendered
    rw [← same]
    cases result with
    | none =>
      have text : f.statementText last = "return;" := by
        simp [statementText, instr, renderInstr]
      simp only [text]
      decide
    | some v =>
      have isWord := words v (by simp [instr, Instr.reads])
      have chars : (f.statementText last).toList = "return".toList ++ ((' ' :: (f.valueName v).toList) ++ [';']) := by
        simp [statementText, instr, renderInstr, plain]
      have inner : '\n' ∉ ' ' :: (f.valueName v).toList := by simp [isWord.lineFeed_not_mem]
      have single := Token.oneLine_word Token.isWord_return _ ';' inner (by decide)
      have noStatement := Token.opensStatement_blank isWord [';']
      rw [Token.ofText_of_oneLine (chars ▸ single)]
      exact Token.ofLine_return (by simp; decide) (by simp) noStatement chars
  | condbr cond | multiif cond =>
    rw [instr] at rendered
    rw [← Except.ok.inj rendered]
    exact Token.ofText_if (words cond (by simp [instr, Instr.reads]))
  | loop cond =>
    rw [instr] at rendered
    rw [← Except.ok.inj rendered]
    exact Token.ofText_while (words cond (by simp [instr, Instr.reads]))
  | goto target =>
    rw [instr, renderInstr] at rendered
    cases label : labels.label target with
    | error => simp [label, Bind.bind, Except.bind] at rendered
    | ok =>
      rw [Procedure.eq_labelText (classified_kinds branches.plain) assigned label] at label
      simp only [label, Bind.bind, Except.bind, Pure.pure, Except.pure] at rendered
      rw [← Except.ok.inj rendered]
      exact Token.ofText_goto (branches.isWord_labelText _ _ target)
  | br => simp [instr, renderInstr] at rendered
  | _ => simp [instr, Instr.isExit] at exit

theorem numbered_subset {stmts front : List (Statement Nat Nat)} (first : front <+: stmts) :
    f.numbered b front ⊆ f.numbered b stmts := by
  obtain ⟨rest, rfl⟩ := first
  intro view mem
  obtain ⟨i, inFront, number⟩ := mem_numberFrom_iff.1 (show (view.1, view.2) ∈ _ from mem)
  refine mem_numberFrom_iff.2 ⟨i, ?_, number⟩
  rw [List.getElem?_append_left (List.getElem?_eq_some_iff.1 inFront).1, inFront]

theorem Bare.bodyLines_br_meets (bare : f.Bare) (has : f.HasBlock b body last) (instr : last.instr = .br x) :
    Meets allowed ((f.emitter base labels verbose).bodyLines b
      (upToLastReal ((f.procedure base).kinds b))) t fun lines t' =>
        t' = t ∧ lines = f.printed verbose b (f.numbered b (kept body)) := by
  obtain ⟨block, found, stmts⟩ := has.exists_block
  have first : kept body <+: block.stmts := stmts ▸ (kept_isPrefix body).trans (List.prefix_append body [last])
  rw [has.upToLastReal_br bare base instr]
  exact bare.inner_bodyLines_meets found _ (numbered_subset first) fun view mem =>
    has.kept_inner _ (mem_of_mem_numbered mem)

theorem Bare.bodyLines_meets (bare : f.Bare) (has : f.HasBlock b body last) (kind : Kind)
    (ok : ∀ n, last.instr.kind n = .ok kind) (real : kind.isReal) (noLabel : kind ≠ .label)
    (fails : ∀ error, renderInstr ⟨f.valueName, labels.label⟩ (last.result.getD "") last.instr =
      .error error → allowed error) :
    Meets allowed ((f.emitter base labels verbose).bodyLines b
      (upToLastReal ((f.procedure base).kinds b))) t fun lines t' => t' = t ∧ ∃ text,
        renderInstr ⟨f.valueName, labels.label⟩ (last.result.getD "") last.instr = .ok text ∧
        lines = f.printed verbose b (f.numbered b body) ++ [.stmt b (f.blockStart b + body.length) text] := by
  obtain ⟨block, found, stmts⟩ := has.exists_block
  rw [has.upToLastReal_eq bare base kind ok real, bodyLines_concat rfl]
  apply (bare.concat_meets found _ (numbered_subset ⟨[last], stmts.symm⟩)
    fun view mem => has.inner _ (mem_of_mem_numbered mem)).andThen
  rintro lines t' ⟨rfl, rfl⟩
  apply Meets.bind
  have mem : (f.blockStart b + body.length, last) ∈ f.numbered b block.stmts :=
    mem_numberFrom_iff.2 ⟨body.length, by simp [stmts], rfl⟩
  have notVirtual : kind ≠ .virtual := by
    rintro rfl
    simp [Kind.isReal] at real
  apply stmtLines_meets_of_render notVirtual noLabel
  · intro text rendered
    exact Meets.pure ⟨rfl, text, (bare.render_eq base labels verbose found mem).symm.trans rendered, rfl⟩
  · intro error failed
    exact fails error ((bare.render_eq base labels verbose found mem).symm.trans failed)

theorem Branches.bodyLines_meets (branches : f.Branches) (has : f.HasBlock b body last) (exit : last.instr.isExit)
    (assigned : (f.procedure base).assignLabels pass = .ok labels) :
    Yields ((f.emitter base labels verbose).bodyLines b
      (upToLastReal ((f.procedure base).kinds b))) t fun lines t' => t' = t ∧
        ((f.procedure base).ending b = none → lines = []) ∧ ∃ front,
          Line.tokens lines = front ++ f.exitTokens ((f.procedure base).labelText pass) last ∧
          Gives front (f.codes body) := by
  obtain ⟨block, found, stmts⟩ := has.exists_block
  by_cases branch : last.instr.op = .br
  · obtain ⟨target, instr⟩ : ∃ target, last.instr = .br target := by
      cases instr : last.instr <;> simp [instr, Instr.op] at branch
      exact ⟨_, rfl⟩
    apply (branches.bare.bodyLines_br_meets has instr).mono
    rintro lines t' ⟨rfl, rfl⟩
    have first : kept body <+: block.stmts := stmts ▸ (kept_isPrefix body).trans (List.prefix_append body [last])
    have straight := branches.straight has
    have gives := branches.gives_printed verbose found _ (numbered_subset first)
      fun view mem => straight _ ((kept_isPrefix body).subset (mem_of_mem_numbered mem))
    rw [numbered, map_snd_numberFrom, codes_eq, f.texts_kept straight, ← codes_eq] at gives
    refine ⟨rfl, fun none => ?_, _, by simp [exitTokens, instr]; rfl, gives⟩
    rcases has.ending_br branches.bare base instr with ⟨-, empty⟩ | ⟨plain, -⟩
    · rw [empty]
      rfl
    · simp [none] at plain
  · obtain ⟨kind, ok⟩ := exists_kind_of_isExit exit branch
    have facts := isReal_of_isExit exit (ok 0)
    apply (branches.bare.bodyLines_meets has kind ok facts.1 facts.2.2 fun _ _ => trivial).mono
    rintro lines t' ⟨rfl, text, rendered, rfl⟩
    have ending := has.ending_eq branches.bare base kind ok facts.1
    refine ⟨rfl, by simp [ending], Line.tokens (f.printed verbose b (f.numbered b body)), ?_, ?_⟩
    · simp [Line.text, branches.exit_tokens has exit assigned rendered]
    · have gives := branches.gives_printed verbose found _ (numbered_subset ⟨[last], stmts.symm⟩)
        fun view mem => branches.straight has _ (mem_of_mem_numbered mem)
      rwa [numbered, map_snd_numberFrom] at gives

def repeated (f : Function) (b : BlockId) (views : List (Nat × Statement Nat Nat)) : List Line :=
  (views.filter fun view => view.2.instr.op != .vuse).map fun view =>
    .stmt b view.1 (f.statementText view.2 ++ "\n")

theorem repeated_eq_nil_iff {views : List (Nat × Statement Nat Nat)} :
    f.repeated b views = [] ↔ f.texts (views.map (·.2)) = [] := by
  simp only [repeated, texts, List.map_eq_nil_iff, List.filter_map]
  rfl

theorem Bare.repeated_meets (bare : f.Bare)
    (found : f.blocks[b]? = some block) (views : List (Nat × Statement Nat Nat))
    (subset : views ⊆ f.numbered b block.stmts) (inner : ∀ view ∈ views, view.2.instr.isInner) :
    Meets allowed (((views.filterMap (classify? base)).filter fun stmt =>
      stmt.2 != .virtual && stmt.2 != .label).mapM fun (stmt, _) => do
        return Line.stmt b stmt.id
          ((← (f.emitter base labels verbose).renderStmt b stmt) ++ "\n")) t fun lines t' =>
      t' = t ∧ lines = f.repeated b views := by
  induction views with
  | nil => exact Meets.pure ⟨rfl, rfl⟩
  | cons view _ ih =>
    have rest := ih (fun view mem => subset (.tail _ mem)) fun view mem => inner view (.tail _ mem)
    have here : view.2.instr.isInner := inner view (.head _)
    rw [List.filterMap_cons_some (classify?_of_inner base _ here)]
    by_cases isVirtual : view.2.instr.op = .vuse
    · simpa [Instr.innerKind_eq_virtual_iff.2 isVirtual, isVirtual, FunctionOf.repeated] using rest
    · have kind : view.2.instr.innerKind ≠ .virtual := mt Instr.innerKind_eq_virtual_iff.1 isVirtual
      rw [List.filter_cons_of_pos (by simp [kind, Instr.innerKind_ne_label]), List.mapM_cons]
      apply Meets.bind
      apply Meets.of_ok (a := f.statementText view.2)
      · exact (bare.render_eq base labels verbose found (subset (.head _))).trans
          (renderInstr_eq (op_not_mem_of_inner here isVirtual) labels.label)
      apply Meets.pure
      apply rest.andThen
      rintro lines t' ⟨rfl, rfl⟩
      exact Meets.pure ⟨rfl, by simp [FunctionOf.repeated, isVirtual, Statement.view]⟩

theorem Bare.headerLines_meets (bare : f.Bare) (has : f.HasBlock b body last) {cond : Var}
    (instr : last.instr = .loop cond inner outer) :
    Meets allowed ((f.emitter base labels verbose).headerLines b) t fun lines t' =>
      t' = t ∧ lines = f.repeated b (f.numbered b body) := by
  obtain ⟨block, found, stmts⟩ := has.exists_block
  have kinds := has.upToLastReal_eq bare base (.loop cond inner outer) (fun _ => by rw [instr]; rfl) rfl
  unfold Emitter.headerLines
  apply Meets.of_ok (classified_kinds bare.plain b)
  rw [kinds, List.dropLast_concat]
  apply (bare.repeated_meets found _ (numbered_subset ⟨[last], stmts.symm⟩)
    fun view mem => has.inner _ (mem_of_mem_numbered mem)).andThen
  rintro lines t' ⟨rfl, rfl⟩
  exact Meets.pure ⟨rfl, by simp [Emitter.saveLines, Emitter.tailLines, emitter, Copies.saved, Copies.tail]⟩

theorem Branches.gives_repeated (branches : f.Branches)
    (found : f.blocks[b]? = some block) (views : List (Nat × Statement Nat Nat))
    (subset : views ⊆ f.numbered b block.stmts) (straight : ∀ view ∈ views, view.2.instr.isStraight) :
    Gives (Line.tokens (f.repeated b views)) (f.codes (views.map (·.2))) := by
  induction views with
  | nil => exact Gives.nil
  | cons view _ ih =>
    have rest := ih (fun view mem => subset (.tail _ mem)) fun view mem => straight view (.tail _ mem)
    by_cases isVirtual : view.2.instr.op = .vuse
    · simpa [isVirtual, FunctionOf.repeated, FunctionOf.codes] using rest
    · have statement := branches.isStatement_text found (subset (.head _)) (straight view (.head _)) isVirtual
      have token : Token.ofText (f.statementText view.2 ++ "\n") = [.plain (f.statementText view.2)] := by
        rw [Token.ofText_lineFeed statement.single, statement.token]
      have first : Gives [.plain (f.statementText view.2)] [.plain (f.statementText view.2)] :=
        (GivesOne.of_add fun r => rfl).gives
      simpa [FunctionOf.repeated, FunctionOf.codes, isVirtual, Line.text, token] using first.append rest

theorem Branches.headerLines_meets (branches : f.Branches) (has : f.HasBlock b body last) {cond : Var}
    (instr : last.instr = .loop cond inner outer) :
    Meets allowed ((f.emitter base labels verbose).headerLines b) t fun lines t' =>
      t' = t ∧ Gives (Line.tokens lines) (f.codes body) ∧ (lines = [] → f.codes body = []) := by
  obtain ⟨block, found, stmts⟩ := has.exists_block
  apply (branches.bare.headerLines_meets has instr).mono
  rintro lines t' ⟨rfl, rfl⟩
  have gives := branches.gives_repeated found _ (numbered_subset ⟨[last], stmts.symm⟩)
    fun view mem => branches.straight has _ (mem_of_mem_numbered mem)
  rw [numbered, map_snd_numberFrom] at gives
  refine ⟨rfl, gives, fun empty => ?_⟩
  have texts := repeated_eq_nil_iff.1 empty
  rw [numbered, map_snd_numberFrom] at texts
  simp [codes_eq, texts]

end Program.FunctionOf

end Reflow
