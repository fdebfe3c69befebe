import Reflow.Proofs.Emit.Script

namespace Reflow

variable {α β : Type}

namespace Emission

variable {alike : EmitError → EmitError → Prop} {related : α → α → Prop} {related' : β → β → Prop}
  {step step' : Emission α}

def Mirrors (alike : EmitError → EmitError → Prop) (related : α → α → Prop) (step step' : Emission α) : Prop :=
  ∀ progress : Progress, match step progress, step' progress with
    | .ok a after, .ok a' after' => after' = after ∧ related a a'
    | .error cause after, .error cause' after' => after' = after ∧ alike cause cause'
    | _, _ => False

namespace Mirrors

theorem outcome (mirrors : Mirrors alike related step step') (progress : Progress) :
    (∃ cause cause' after, step progress = .error cause after ∧ step' progress = .error cause' after ∧
      alike cause cause') ∨
    ∃ a a' after, step progress = .ok a after ∧ step' progress = .ok a' after ∧ related a a' := by
  have here := mirrors progress
  cases result : step progress <;> cases result' : step' progress <;> rw [result, result'] at here
  case ok.ok a after a' after' => exact .inr ⟨a, a', after, rfl, by rw [here.1], here.2⟩
  case error.error cause after cause' after' => exact .inl ⟨cause, cause', after, rfl, by rw [here.1], here.2⟩
  all_goals exact here.elim

theorem pure {a a' : α} (results : related a a') : Mirrors alike related (Pure.pure a) (Pure.pure a') :=
  fun _ => ⟨rfl, results⟩

theorem throw {cause cause' : EmitError} (causes : alike cause cause') :
    Mirrors alike related (MonadExcept.throw cause) (MonadExcept.throw cause') :=
  fun _ => ⟨rfl, causes⟩

theorem bind {next next' : α → Emission β} (first : Mirrors alike related step step')
    (rest : ∀ a a', related a a' → Mirrors alike related' (next a) (next' a')) :
    Mirrors alike related' (step >>= next) (step' >>= next') := by
  intro progress
  rw [run_bind, run_bind]
  rcases first.outcome progress with ⟨cause, cause', after, fails, fails', causes⟩ | ⟨a, a', after, ran, ran', results⟩
  · rw [fails, fails']
    exact ⟨rfl, causes⟩
  · rw [ran, ran']
    exact rest a a' results after

theorem traversal_bind {next next' : Traversal → Emission α} (rest : ∀ t, Mirrors alike related (next t) (next' t)) :
    Mirrors alike related (traversal >>= next) (traversal >>= next') :=
  fun progress => rest progress.traversal progress

theorem update_bind {action : Traversal → Traversal} (rest : Mirrors alike related step step') :
    Mirrors alike related (update action >>= fun _ => step) (update action >>= fun _ => step') :=
  fun progress => rest { progress with traversal := action progress.traversal }

end Mirrors

end Emission

theorem Paired.mirrors {alike : EmitError → EmitError → Prop} {called : Bool → List Line → List Line → Prop}
    {related : α → α → Prop} {step step' : Recurse → Emission α} {recurse recurse' : Recurse}
    (paired : Paired alike called related step step')
    (beside : ∀ b braced, Emission.Mirrors alike (called braced) (recurse b braced) (recurse' b braced)) :
    Emission.Mirrors alike related (step recurse) (step' recurse') := by
  induction paired with
  | pure results => exact .pure results
  | throw causes => exact .throw causes
  | look _ ih => exact fun progress => ih progress.traversal progress
  | change _ _ ih => exact fun progress => ih _
  | call _ ih => exact .bind (beside _ _) ih

/-! ## Views of lines -/

namespace Line

def isComment : Line → Bool
  | .comment _ => true
  | _ => false

variable {view : Line → Option Line} {lines lines' more more' : List Line}
  {line line' : Line}

def Alike (view : Line → Option Line) (lines lines' : List Line) : Prop :=
  lines.filterMap view = lines'.filterMap view

theorem Alike.refl (lines : List Line) : Alike view lines lines := rfl

theorem Alike.append (first : Alike view lines lines') (rest : Alike view more more') :
    Alike view (lines ++ more) (lines' ++ more') := by
  rw [Alike, List.filterMap_append, List.filterMap_append, first, rest]

theorem Alike.cons (first : view line = view line') (rest : Alike view more more') :
    Alike view (line :: more) (line' :: more') := by
  have one : Alike view [line] [line'] := by simp [Alike, List.filterMap_cons, first]
  exact one.append rest

def Shown (view : Line → Option Line) (lines : List Line) : Prop :=
  ∀ line ∈ lines, (view line).isSome = true

def Loud (view : Line → Option Line) (lines : List Line) : Prop :=
  ∃ line ∈ lines, (view line).isSome = true ∧ line.text.isEmpty = false

def Firm (view : Line → Option Line) (lines : List Line) : Prop :=
  Shown view lines ∨ Loud view lines

theorem Shown.append (first : Shown view lines) (rest : Shown view more) : Shown view (lines ++ more) :=
  fun line mem => (List.mem_append.1 mem).elim (first line) (rest line)

theorem Alike.isEmpty_eq (same : Alike view lines lines') (shown : Shown view lines) (shown' : Shown view lines') :
    lines'.isEmpty = lines.isEmpty := by
  have none (lines : List Line) (shown : Shown view lines) : lines.isEmpty = (lines.filterMap view).isEmpty := by
    cases lines with
    | nil => rfl
    | cons line =>
      obtain ⟨seen, found⟩ := Option.isSome_iff_exists.1 (shown line (.head _))
      simp [found]
  rw [none lines shown, none lines' shown', same]

theorem Firm.append_left (shown : Shown view lines) (firm : Firm view more) : Firm view (lines ++ more) := by
  rcases firm with all | ⟨line, mem, loud⟩
  · exact .inl (shown.append all)
  · exact .inr ⟨line, List.mem_append_right _ mem, loud⟩

theorem Firm.allSilent_eq_false_iff (firm : Firm view lines) : allSilent lines = false ↔ Loud view lines := by
  constructor
  · intro speaks
    rcases firm with shown | loud
    · obtain ⟨line, mem, text⟩ := List.all_eq_false.1 speaks
      exact ⟨line, mem, shown line mem, by simpa using text⟩
    · exact loud
  · rintro ⟨line, mem, -, text⟩
    exact List.all_eq_false.2 ⟨line, mem, by simp [text]⟩

structure Whole (view : Line → Option Line) (lines lines' : List Line) : Prop where
  same : Alike view lines lines'
  left : Shown view lines
  right : Shown view lines'

structure Fills (view : Line → Option Line) (asked : Bool) (lines lines' : List Line) : Prop where
  same : Alike view lines lines'
  left : asked = true → Firm view lines
  right : asked = true → Firm view lines'

theorem Whole.nil : Whole view [] [] :=
  ⟨.refl _, by simp [Shown], by simp [Shown]⟩

theorem Whole.append (first : Whole view lines lines') (rest : Whole view more more') :
    Whole view (lines ++ more) (lines' ++ more') :=
  ⟨first.same.append rest.same, first.left.append rest.left, first.right.append rest.right⟩

theorem Whole.fills (whole : Whole view lines lines') (asked : Bool) : Fills view asked lines lines' :=
  ⟨whole.same, fun _ => .inl whole.left, fun _ => .inl whole.right⟩

structure Tells (view : Line → Option Line) : Prop where
  shown : ∀ line, line.isComment = false → (view line).isSome = true
  silent : ∀ line line', view line = view line' → (view line).isSome = true →
    line.text.isEmpty = line'.text.isEmpty

theorem Tells.loud (tells : Tells view) (same : Alike view lines lines') (loud : Loud view lines) :
    Loud view lines' := by
  obtain ⟨line, mem, shown, text⟩ := loud
  obtain ⟨seen, found⟩ := Option.isSome_iff_exists.1 shown
  have listed : seen ∈ lines'.filterMap view := by
    rw [← same]
    exact List.mem_filterMap.2 ⟨line, mem, found⟩
  obtain ⟨line', mem', found'⟩ := List.mem_filterMap.1 listed
  have text' := tells.silent line line' (found.trans found'.symm) shown
  exact ⟨line', mem', by simp [found'], by rw [← text', text]⟩

theorem Tells.allSilent_eq (tells : Tells view) (same : Alike view lines lines') (firm : Firm view lines)
    (firm' : Firm view lines') : allSilent lines = allSilent lines' := by
  rw [Bool.eq_iff_iff, ← not_iff_not, Bool.not_eq_true, Bool.not_eq_true, firm.allSilent_eq_false_iff,
    firm'.allSilent_eq_false_iff]
  exact ⟨tells.loud same, tells.loud same.symm⟩

theorem Tells.whole (tells : Tells view) (same : view line = view line')
    (seen : line.isComment = false) (seen' : line'.isComment = false) : Whole view [line] [line'] :=
  ⟨.cons same (.refl []), by simpa [Shown] using tells.shown line seen, by simpa [Shown] using tells.shown line' seen'⟩

theorem Tells.whole_map {γ : Type} (tells : Tells view) {line : γ → Line} (items : List γ)
    (seen : ∀ item, (line item).isComment = false) : Whole view (items.map line) (items.map line) := by
  have shown : Shown view (items.map line) := by
    intro one mem
    obtain ⟨item, -, rfl⟩ := List.mem_map.1 mem
    exact tells.shown _ (seen item)
  exact ⟨.refl _, shown, shown⟩

def visible? (line : Line) : Option Line :=
  if line.isComment then none else some line

theorem filterMap_visible? (lines : List Line) : lines.filterMap visible? = lines.filter (!·.isComment) := by
  rw [← List.filterMap_eq_filter]
  apply List.filterMap_congr
  intro line _
  cases comment : line.isComment <;> simp [visible?, Option.guard, comment]

theorem tells_visible? : Tells visible? where
  shown line seen := by simp [visible?, seen]
  silent line line' same shown := by
    have seen : line.isComment = false := by
      cases comment : line.isComment <;> simp [visible?, comment] at shown ⊢
    have seen' : line'.isComment = false := by
      cases comment : line'.isComment <;> simp [visible?, comment, seen] at same ⊢
    rw [visible?, visible?, seen, seen'] at same
    rw [Option.some.inj same]

end Line

/-! ## Emitters side by side -/

namespace Emitter

open Emission
open Line (Alike Shown Loud Firm Whole Fills Tells)

/-- Two emitters that differ at most in the numbers of variables and statements, in what their labels are called and in
whether they print comments, and in that only as far as a view does not show it. -/
structure Twins (alike : EmitError → EmitError → Prop) (view : Line → Option Line) (first : Nat) (e e' : Emitter) :
    Prop where
  shifts : ∀ cause, alike cause (cause.shift first)
  procedure : e'.procedure = e.procedure.shift first
  idom : e'.facts.idom? = e.facts.idom?
  ipdom : e'.facts.ipdom? = e.facts.ipdom?
  feedback : e'.facts.isFeedback = e.facts.isFeedback
  saved : e'.copies.saved = e.copies.saved
  tail : e'.copies.tail = e.copies.tail
  varName : ∀ b v, e'.varName b (first + v) = e.varName b v
  isNeeded : ∀ t b loopTest, Except.Agree alike Eq (e.labels.isNeeded e.procedure e.facts t b loopTest)
    (e'.labels.isNeeded e'.procedure e'.facts t b loopTest)
  label : ∀ b, Except.Agree alike (fun text text' => view (.label b text) = view (.label b text') ∧
      (∀ nested, view (.jump b text nested) = view (.jump b text' nested)) ∧
      alike (.danglingJump b text) (.danglingJump b text'))
    (e.labels.label b) (e'.labels.label b)
  render : ∀ b id, Except.Agree alike (fun text text' => view (.stmt b id text) = view (.stmt b (first + id) text') ∧
      view (.stmt b id (text ++ "\n")) = view (.stmt b (first + id) (text' ++ "\n")))
    (e.render id (e.names b)) (e'.render (first + id) (e'.names b))
  comments : e'.verbose = e.verbose ∨ ∀ text, view (.comment text) = none
  tells : Tells view

abbrev Beside (alike : EmitError → EmitError → Prop) (view : Line → Option Line) {α : Type} (related : α → α → Prop)
    (step step' : Recurse → Emission α) : Prop :=
  Paired alike (Fills view) related step step'

namespace Twins

variable {alike : EmitError → EmitError → Prop} {view : Line → Option Line} {first : Nat} {e e' : Emitter}
  (b x y : BlockId)

variable (twins : Twins alike view first e e')
include twins

theorem throw {α : Type} {related : α → α → Prop} {cause : EmitError} (same : cause.shift first = cause) :
    Beside alike view related (fun _ => .fail cause) fun _ => .fail cause := by
  have alike := twins.shifts cause
  rw [same] at alike
  exact .throw alike

theorem classified : Except.Agree alike (fun stmts stmts' => stmts' = stmts.map (shiftStmt first))
    (e.procedure.classified b) (e'.procedure.classified b) := by
  rw [twins.procedure, Procedure.classified_shift]
  exact .of_shift twins.shifts fun _ => rfl

theorem isLoopTest : Except.Agree alike Eq (e.procedure.isLoopTest b) (e'.procedure.isLoopTest b) := by
  rw [twins.procedure, Procedure.isLoopTest_shift]
  exact .of_shift twins.shifts fun _ => rfl

theorem jump (nested : Bool) : Beside alike view (Whole view) (fun _ => e.jump x nested) fun _ => e'.jump x nested := by
  apply (Paired.of_except (twins.label x)).bind
  rintro text text' ⟨-, jumps, -⟩
  exact .noteJump_bind x (.pure (twins.tells.whole (jumps nested) rfl rfl))

theorem saveLines : e'.saveLines b = e.saveLines b := by
  rw [Emitter.saveLines, Emitter.saveLines, twins.saved]

theorem tailLines : e'.tailLines b = e.tailLines b := by
  rw [Emitter.tailLines, Emitter.tailLines, twins.tail]

theorem whole_saveLines : Whole view (e.saveLines b) (e.saveLines b) :=
  twins.tells.whole_map _ fun _ => rfl

theorem whole_tailLines : Whole view (e.tailLines b) (e.tailLines b) :=
  twins.tells.whole_map _ fun _ => rfl

theorem headerLines : Beside alike view (Whole view) (fun _ => e.headerLines b) fun _ => e'.headerLines b := by
  have each (stmts : List (Stmt × Kind)) : Beside alike view (Whole view)
      (fun _ => stmts.mapM fun stmt => do return Line.stmt b stmt.1.id ((← e.renderStmt b stmt.1) ++ "\n"))
      fun _ => (stmts.map (shiftStmt first)).mapM fun stmt => do
        return Line.stmt b stmt.1.id ((← e'.renderStmt b stmt.1) ++ "\n") := by
    induction stmts with
    | nil => exact .pure .nil
    | cons stmt _ ih =>
      simp only [List.map_cons, List.mapM_cons, bind_assoc]
      apply (Paired.of_except (twins.render b stmt.1.id)).bind
      rintro text text' ⟨-, same⟩
      exact ih.map fun _ _ rest => (twins.tells.whole same rfl rfl).append rest
  unfold Emitter.headerLines
  rw [twins.saveLines, twins.tailLines]
  apply (Paired.of_except (twins.classified b)).bind
  rintro stmts _ rfl
  rw [upToLastReal_shift, ← List.map_dropLast, filter_printed_shift]
  exact (each _).map fun _ _ whole => ((twins.whole_saveLines b).append whole).append (twins.whole_tailLines b)

theorem elseBack : Beside alike view (Alike view) (fun _ => e.elseBack b x) fun _ => e'.elseBack b x := by
  apply (Paired.of_except (twins.isLoopTest x)).bind
  rintro test _ rfl
  refine .ite ?_ ?_
  · apply (twins.headerLines x).bind
    intro lines lines' whole
    rw [whole.same.isEmpty_eq whole.left whole.right]
    exact .ite (.pure (.refl _)) (.pure (((Alike.refl _).append whole.same).append (.refl _)))
  · exact (twins.jump x true).map fun _ _ whole => .cons rfl whole.same

theorem comment (text : String) :
    Alike view (if e.verbose then [.comment text] else []) (if e'.verbose then [.comment text] else []) := by
  rcases twins.comments with same | hidden
  · rw [same]
    exact .refl _
  · cases e.verbose <;> cases e'.verbose <;> simp [Alike, hidden]

theorem stmtLines (stmt : Stmt × Kind) : Beside alike view (Alike view) (fun _ => e.stmtLines b stmt)
    fun _ => e'.stmtLines b (shiftStmt first stmt) := by
  obtain ⟨stmt, kind⟩ := stmt
  cases kind with
  | virtual => exact .pure (twins.comment _)
  | _ =>
    apply (Paired.of_except (twins.render b stmt.id)).bind
    rintro text text' ⟨same, -⟩
    exact .ite_update_bind (.pure (.cons same (.refl [])))

theorem bodyLines (stmts : List (Stmt × Kind)) :
    Beside alike view (fun lines lines' => Alike view lines lines' ∧ (stmts.getLast? = none → Whole view lines lines'))
      (fun _ => e.bodyLines b stmts)
      fun _ => e'.bodyLines b (stmts.map (shiftStmt first)) := by
  have each (stmts : List (Stmt × Kind)) : Beside alike view (Alike view)
      (fun _ => Emission.concat (stmts.map (e.stmtLines b))) fun _ => Emission.concat
        ((stmts.map (shiftStmt first)).map (e'.stmtLines b)) := by
    induction stmts with
    | nil => exact .pure (.refl _)
    | cons stmt _ ih =>
      exact (twins.stmtLines b stmt).bind fun _ _ here => ih.map fun _ _ rest => here.append rest
  unfold Emitter.bodyLines
  rw [twins.tailLines, List.getLast?_map, ← List.map_dropLast]
  cases stmts.getLast? with
  | none => exact .pure ⟨.refl _, fun _ => twins.whole_tailLines b⟩
  | some last =>
    rw [Option.map_some]
    dsimp only
    rw [show (shiftStmt first last).2.isBranching = last.2.isBranching from last.2.isBranching_shift first]
    refine (each _).bind fun _ _ before => (twins.stmtLines b last).bind fun _ _ here => .ite ?_ ?_
    · exact .pure ⟨(before.append (.refl _)).append here, by simp⟩
    · exact .pure ⟨(before.append here).append (.refl _), by simp⟩

theorem labelLines : Beside alike view (Whole view) (fun _ => e.labelLines b) fun _ => e'.labelLines b := by
  apply (Paired.of_except (twins.label b)).bind
  rintro text text' ⟨same, -, -⟩
  exact .noteLabel_bind b (.pure (twins.tells.whole same rfl rfl))

theorem deferJoin : Beside alike view Eq (fun _ => e.deferJoin b) fun _ => e'.deferJoin b := by
  unfold Emitter.deferJoin
  rw [twins.ipdom]
  refine .traversal_bind fun t => ?_
  cases e.facts.ipdom? b with
  | none => exact .pure rfl
  | some => exact .ite (.pure rfl) (.update_bind (.pure rfl))

theorem enclosed {lines lines' join join' : List Line} (braced opened : Bool)
    (text : String) (fills : Fills view (braced && !opened) lines lines') (joins : Alike view join join') :
    let filler := fun lines => if braced && !opened && Line.allSilent lines then [Line.emptyStmt] else []
    let wrap := fun content : List Line => if opened then .openBrace :: content ++ [.closeBrace] else content
    Fills view braced ((if e.verbose then [.comment text] else []) ++ wrap (lines ++ filler lines ++ join))
      ((if e'.verbose then [.comment text] else []) ++ wrap (lines' ++ filler lines' ++ join')) := by
  intro filler wrap
  have same : filler lines' = filler lines := by
    cases asked : braced && !opened with
    | false => simp [filler, asked]
    | true =>
      rw [asked] at fills
      simp only [filler, twins.tells.allSilent_eq fills.same (fills.left rfl) (fills.right rfl)]
  have speaks (lines join : List Line) (firm : (braced && !opened) = true → Firm view lines) (asked : braced = true) :
      Loud view (wrap (lines ++ filler lines ++ join)) := by
    cases opened with
    | true => exact ⟨.openBrace, by simp [wrap], twins.tells.shown _ rfl, rfl⟩
    | false =>
      have firm := firm (by simp [asked])
      cases silent : Line.allSilent lines with
      | true => exact ⟨.emptyStmt, by simp [wrap, filler, silent, asked], twins.tells.shown _ rfl, rfl⟩
      | false =>
        obtain ⟨line, mem, loud⟩ := firm.allSilent_eq_false_iff.1 silent
        exact ⟨line, by simp [wrap, mem], loud⟩
  have loud {lines more : List Line} (loud : Loud view more) : Firm view (lines ++ more) := by
    obtain ⟨line, mem, here⟩ := loud
    exact .inr ⟨line, List.mem_append_right _ mem, here⟩
  refine ⟨(twins.comment text).append ?_, fun asked => loud (speaks lines join fills.left asked),
    fun asked => loud (speaks lines' join' fills.right asked)⟩
  have content : Alike view (lines ++ filler lines ++ join) (lines' ++ filler lines' ++ join') := by
    rw [same]
    exact (fills.same.append (.refl _)).append joins
  cases opened with
  | true => exact .cons rfl (content.append (.refl _))
  | false => exact content

theorem branch : Beside alike view (Alike view) (e.branch · x) (e'.branch · x) := by
  have jumps := (twins.jump x true).mono fun _ _ whole => whole.same
  refine .traversal_bind fun t => .ite (.ite jumps (.pure (.refl _))) (.ite jumps ?_)
  exact (Paired.recurse x true).mono fun _ _ fills => fills.same

theorem elseLines : Beside alike view (Alike view) (e.elseLines · b x) (e'.elseLines · b x) := by
  unfold Emitter.elseLines
  rw [twins.feedback]
  refine .traversal_bind fun t => .ite (.ite ?_ (.pure (.refl _))) (.ite (twins.elseBack b x) ?_)
  · exact (twins.jump x true).map fun _ _ whole => .cons rfl whole.same
  · exact (twins.branch x).map fun _ _ same => .cons rfl same

theorem conditional : Beside alike view (Alike view) (e.conditional · b x y) (e'.conditional · b x y) := by
  refine .traversal_bind fun t => ?_
  have second (lines lines' : List Line) (first : Alike view lines lines') :
      Beside alike view (Alike view) (fun recurse => do return lines ++ (← e.elseLines recurse b y))
        fun recurse => do return lines' ++ (← e'.elseLines recurse b y) :=
    (twins.elseLines b y).map fun _ _ rest => first.append rest
  dsimp only
  cases !t.isDeferred y && !t.isJumpTarget y with
  | true =>
    exact .update_bind ((twins.branch x).bind fun _ _ first => .update_bind (second _ _ first))
  | false => exact (twins.branch x).bind second

theorem loop : Beside alike view (Alike view) (e.loop · b x y) (e'.loop · b x y) := by
  have inner : Beside alike view (Alike view) (loopBody · b x y) (loopBody · b x y) := by
    refine .traversal_bind fun t => .ite (.pure (.refl _)) (.ite (twins.throw rfl) (.update_bind ?_))
    exact (Paired.recurse x true).bind fun _ _ fills => .update_bind (.pure fills.same)
  have outer : Beside alike view (Alike view) (e.loopExit · y) (e'.loopExit · y) := by
    have jumps := (twins.jump y false).mono fun _ _ whole => whole.same
    refine .traversal_bind fun t => .ite (.ite jumps (.pure (.refl _))) (.ite jumps ?_)
    exact (Paired.recurse y false).mono fun _ _ fills => fills.same
  exact inner.bind fun _ _ first => outer.map fun _ _ rest => first.append rest

theorem multiwayArms (arms : List (Option Var × BlockId)) (leads : Bool) (hinted : List BlockId) :
    Beside alike view (Alike view) (e.multiwayArms · b leads hinted arms)
      (e'.multiwayArms · b leads hinted (arms.map (shiftArm first))) := by
  induction arms generalizing leads hinted with
  | nil => exact .pure (.refl _)
  | cons arm arms ih =>
    obtain ⟨cond, x⟩ := arm
    have printed (head : List Line) : Beside alike view (Alike view) (fun recurse => do
          let lines ← e.branch recurse x
          return head ++ lines ++ (← e.multiwayArms recurse b false (hinted.erase x) arms))
        fun recurse => do
          let lines ← e'.branch recurse x
          return head ++ lines ++ (← e'.multiwayArms recurse b false (hinted.erase x) (arms.map (shiftArm first))) :=
      (twins.branch x).bind fun _ _ here =>
        (ih false (hinted.erase x)).map fun _ _ rest => ((Alike.refl _).append here).append rest
    rw [List.map_cons]
    unfold Emitter.multiwayArms
    rw [twins.ipdom]
    refine .ite_update_bind (.traversal_bind fun t => ?_)
    cases cond with
    | none => exact .ite (ih false (hinted.erase x)) (printed _)
    | some v =>
      simp only [shiftArm, Option.map_some, twins.varName]
      exact printed _

theorem multiway (arms : List (Option Var × BlockId)) : Beside alike view (Alike view) (e.multiway · b arms)
    (e'.multiway · b (arms.map (shiftArm first))) := by
  have misplaced : misplacedArm? (arms.map (shiftArm first)) = misplacedArm? arms := by
    simp [misplacedArm?, List.findIdx?_map, Function.comp_def, shiftArm]
  have later : ((arms.map (shiftArm first)).drop 1).map (·.2) = (arms.drop 1).map (·.2) := by
    rw [← List.map_drop, List.map_map]
    rfl
  unfold Emitter.multiway
  rw [misplaced, later]
  cases misplacedArm? arms with
  | some => exact twins.throw rfl
  | none =>
    refine .traversal_bind fun t => .update_bind (twins.multiwayArms b arms true _) ?_
    intro t
    rw [foldl_hint]

theorem switchArms (arms : List SwitchArm) (deferred : Option BlockId) :
    Beside alike view (Kept (Alike view)) (e.switchArms · b deferred arms) (e'.switchArms · b deferred arms) := by
  have one (deferred : Option BlockId) (arm : SwitchArm) : Beside alike view (Kept (Alike view))
        (e.switchArm · b deferred arm) (e'.switchArm · b deferred arm) := by
    unfold Emitter.switchArm
    rw [twins.ipdom, twins.idom]
    have jumps := ((twins.jump arm.target false).mono fun _ _ whole => whole.same).pair deferred
    refine .traversal_bind fun t => .ite jumps (.ite (.ite ?_ ?_) (.ite ?_ (.ite jumps ?_)))
    · exact .update_bind (.pure ⟨.refl _, rfl⟩)
    · exact .pure ⟨.refl _, rfl⟩
    · exact .pure ⟨.refl _, rfl⟩
    · exact (Paired.recurse arm.target true).map fun _ _ fills => ⟨fills.same.append (.refl _), rfl⟩
  induction arms generalizing deferred with
  | nil => exact .pure ⟨.refl _, rfl⟩
  | cons arm arms ih =>
    apply (one deferred arm).bind
    rintro ⟨lines, after⟩ ⟨lines', _⟩ ⟨here, rfl⟩
    exact (ih after).map fun _ _ rest => ⟨((Alike.refl _).append here).append rest.1, rest.2⟩

theorem fallthroughTo (slot : Bool) :
    Beside alike view (Fills view slot) (e.fallthroughTo · b x slot) (e'.fallthroughTo · b x slot) := by
  have nothing : Fills view slot [] [] := Whole.nil.fills slot
  have jumps := (twins.jump x slot).mono fun _ _ whole => whole.fills slot
  have degree : e'.procedure.inDegree x = e.procedure.inDegree x := by rw [twins.procedure, Procedure.inDegree_shift]
  unfold Emitter.fallthroughTo
  rw [twins.feedback, degree]
  refine .traversal_bind fun t => .ite (.ite jumps (.pure nothing)) ?_
  have returns (test : Bool) : Beside alike view (Fills view slot) (fun recurse => if test then do
          let lines ← e.headerLines x
          if lines.isEmpty then return []
          else if slot then return .openBrace :: lines ++ [.closeBrace]
          else return lines
        else if e.procedure.inDegree x == 1 && !t.isRendered x then recurse x slot
        else e.jump x slot)
      fun recurse => if test then do
          let lines ← e'.headerLines x
          if lines.isEmpty then return []
          else if slot then return .openBrace :: lines ++ [.closeBrace]
          else return lines
        else if e.procedure.inDegree x == 1 && !t.isRendered x then recurse x slot
        else e'.jump x slot := by
    refine .ite ?_ (.ite (.recurse x slot) jumps)
    apply (twins.headerLines x).bind
    intro lines lines' whole
    rw [whole.same.isEmpty_eq whole.left whole.right]
    have opened (more : List Line) : Firm view (.openBrace :: more) :=
      .inr ⟨_, .head _, twins.tells.shown _ rfl, rfl⟩
    refine .ite (.pure nothing) (.ite ?_ (.pure (whole.fills slot)))
    exact .pure ⟨.cons rfl (whole.same.append (.refl _)), fun _ => opened _, fun _ => opened _⟩
  cases e.facts.isFeedback b x with
  | true =>
    apply (Paired.of_except (twins.isLoopTest x)).bind
    rintro test _ rfl
    exact returns test
  | false => exact returns false

theorem fallthrough (slot : Bool) :
    Beside alike view (Fills view slot) (e.fallthrough · b slot) (e'.fallthrough · b slot) := by
  unfold Emitter.fallthrough
  rw [twins.procedure, Procedure.succs_shift]
  split
  · exact .pure (Whole.nil.fills slot)
  · exact twins.fallthroughTo b _ slot
  · exact twins.throw rfl

theorem continuation (slot : Bool) (deferred : Option BlockId) (ending : Option Kind) :
    Beside alike view (Kept (Fills view (slot && ending.isNone))) (e.continuation · b slot deferred ending)
      (e'.continuation · b slot deferred (ending.map (Kind.shift first))) := by
  have falls : Beside alike view (Fills view (slot && ending.isNone)) (e.fallthrough · b slot)
      (e'.fallthrough · b slot) :=
    (twins.fallthrough b slot).mono fun _ _ fills =>
      ⟨fills.same, fun asked => fills.left (Bool.and_eq_true_iff.1 asked).1,
        fun asked => fills.right (Bool.and_eq_true_iff.1 asked).1⟩
  have branches {lines lines' : List Line} (same : Alike view lines lines') : Fills view (slot && false) lines lines' :=
    ⟨same, by simp, by simp⟩
  have jumps (targets : List BlockId) : Beside alike view (Fills view (slot && false))
      (fun _ => do targets.forM noteJump; return []) fun _ => do targets.forM noteJump; return [] := by
    induction targets with
    | nil => exact .pure (branches (.refl _))
    | cons x _ ih => exact .noteJump_bind x ih
  cases ending with
  | none => exact falls.pair deferred
  | some kind =>
    cases kind with
    | plain | init | virtual | label => exact falls.pair deferred
    | conditional cond x y => exact ((twins.conditional b x y).mono fun _ _ => branches).pair deferred
    | loop cond x y => exact ((twins.loop b x y).mono fun _ _ => branches).pair deferred
    | multiway arms => exact ((twins.multiway b arms).mono fun _ _ => branches).pair deferred
    | switch _ arms =>
      exact (twins.switchArms b arms deferred).map fun _ _ same =>
        ⟨branches (.cons rfl (same.1.append (.refl _))), same.2⟩
    | jump targets =>
      have jumped := (jumps targets).pair deferred
      simp only [bind_assoc, pure_bind] at jumped
      exact jumped

/-! ## Blocks side by side -/

theorem joinLines (deferred : Option BlockId) :
    Beside alike view (Alike view) (Emitter.joinLines · b deferred) (Emitter.joinLines · b deferred) := by
  cases deferred with
  | none => exact .pure (.refl _)
  | some join =>
    refine .update_bind (.traversal_bind fun t => .ite (.ite (.pure (.refl _)) (twins.throw rfl)) ?_)
    exact (Paired.recurse join false).mono fun _ _ fills => fills.same

/-- What a block prints behind its label. Where it asks for a statement and opens no braces, it has none of its own. -/
theorem behindLabel (braced opened : Bool) (deferred : Option BlockId) {stmts : List (Stmt × Kind)}
    (bare : (braced && !opened) = true → stmts.getLast?.map (·.2) = none) (label label' : List Line)
    (labels : Whole view label label') : Beside alike view (Fills view braced)
      (fun recurse => do
        let body ← e.bodyLines b stmts
        let rest ← e.continuation recurse b (braced && !opened) deferred (stmts.getLast?.map (·.2))
        let lines := label ++ e.saveLines b ++ body ++ rest.1
        let filler := if braced && !opened && Line.allSilent lines then [Line.emptyStmt] else []
        let join ← Emitter.joinLines recurse b rest.2
        let comment := if e.verbose then [Line.comment s!"Basic block {e.procedure.number b}"] else []
        let content := lines ++ filler ++ join
        return comment ++ if opened then .openBrace :: content ++ [.closeBrace] else content)
      fun recurse => do
        let body ← e'.bodyLines b (stmts.map (shiftStmt first))
        let rest ← e'.continuation recurse b (braced && !opened) deferred
          ((stmts.getLast?.map (·.2)).map (Kind.shift first))
        let lines := label' ++ e.saveLines b ++ body ++ rest.1
        let filler := if braced && !opened && Line.allSilent lines then [Line.emptyStmt] else []
        let join ← Emitter.joinLines recurse b rest.2
        let comment := if e'.verbose then [Line.comment s!"Basic block {e.procedure.number b}"] else []
        let content := lines ++ filler ++ join
        return comment ++ if opened then .openBrace :: content ++ [.closeBrace] else content := by
  apply (twins.bodyLines b stmts).bind
  rintro body body' ⟨bodies, plain⟩
  apply (twins.continuation b (braced && !opened) deferred _).bind
  rintro ⟨rest, after⟩ ⟨rest', _⟩ ⟨rests, rfl⟩
  refine (twins.joinLines b after).map fun _ _ joins => twins.enclosed braced opened _ ⟨?_, ?_, ?_⟩ joins
  · exact ((labels.same.append (.refl _)).append bodies).append rests.same
  all_goals
    intro asked
    have ended := bare asked
    have bodies := plain (Option.map_eq_none_iff.1 ended)
    have saves := twins.whole_saveLines b
  · exact .append_left ((labels.left.append saves.left).append bodies.left) (rests.left (by simp [asked, ended]))
  · exact .append_left ((labels.right.append saves.right).append bodies.right) (rests.right (by simp [asked, ended]))

theorem freshBlock (braced : Bool) : ∃ step step', Beside alike view (Fills view braced) step step' ∧
    (∀ recurse, e.freshBlock recurse b braced = update (·.render b) >>= fun _ => step recurse) ∧
    ∀ recurse, e'.freshBlock recurse b braced = update (·.render b) >>= fun _ => step' recurse := by
  refine ⟨_, _, ?_, fun _ => rfl, fun _ => rfl⟩
  have number : e'.procedure.number b = e.procedure.number b := by rw [twins.procedure, Procedure.number_shift]
  rw [twins.saved, twins.tail, twins.saveLines, number]
  apply (Paired.of_except (twins.classified b)).bind
  rintro stmts _ rfl
  have last : ((upToLastReal stmts).map (shiftStmt first)).getLast?.map (·.2) =
      ((upToLastReal stmts).getLast?.map (·.2)).map (Kind.shift first) := by
    rw [List.getLast?_map, Option.map_map, Option.map_map]
    rfl
  have ends (ending : Option Kind) : (ending.map (Kind.shift first)).isSome = ending.isSome := Option.isSome_map
  have needs {test test' : Bool} (t : Traversal) (same : test = test') : Except.Agree alike Eq
      (e.labels.isNeeded e.procedure e.facts t b test) (e'.labels.isNeeded e'.procedure e'.facts t b test') :=
    same ▸ twins.isNeeded t b test
  apply (twins.deferJoin b).bind
  rintro deferred _ rfl
  refine .traversal_bind fun t => ?_
  rw [upToLastReal_shift, last, ends]
  refine (Paired.of_except (needs t ?_)).bind ?_
  · rcases (upToLastReal stmts).getLast? with _ | ⟨_, kind⟩
    · rfl
    · cases kind <;> rfl
  rintro needed _ rfl
  generalize opens : (braced && (deferred.isSome || ((upToLastReal stmts).getLast?.map (·.2)).isSome || needed ||
    !(e.copies.saved b).isEmpty || !(e.copies.tail b).isEmpty)) = opened
  have bare : (braced && !opened) = true → (upToLastReal stmts).getLast?.map (·.2) = none := by
    rw [← opens]
    cases (upToLastReal stmts).getLast?.map (·.2) with
    | none => exact fun _ => rfl
    | some => simp
  have behind := twins.behindLabel b braced opened deferred bare
  cases needed with
  | false => exact behind [] [] .nil
  | true => exact (twins.labelLines b).bind behind

/-! ## Whole emissions side by side -/

theorem emitWithin (fuel : Nat) (braced : Bool) :
    Mirrors alike (Fills view braced) (e.emitWithin fuel b braced) (e'.emitWithin fuel b braced) := by
  have ids : e'.procedure.blockIds = e.procedure.blockIds := by rw [twins.procedure, Procedure.blockIds_shift]
  have unknown (b : BlockId) : alike (.unknownBlock b) (.unknownBlock b) := twins.shifts _
  induction fuel generalizing b braced with
  | zero =>
    unfold Emitter.emitWithin
    rw [ids]
    split
    · exact .throw (unknown b)
    · refine .traversal_bind fun t => ?_
      split <;> exact .pure (Whole.nil.fills braced)
  | succ fuel ih =>
    unfold Emitter.emitWithin
    rw [ids]
    split
    · exact .throw (unknown b)
    · refine .traversal_bind fun t => ?_
      split
      · exact .pure (Whole.nil.fills braced)
      · obtain ⟨step, step', paired, starts, starts'⟩ := twins.freshBlock b braced
        change Mirrors alike _ (e.freshBlock _ b braced) (e'.freshBlock _ b braced)
        rw [starts, starts']
        exact .update_bind (paired.mirrors ih)

theorem length_blocks : e'.procedure.blocks.length = e.procedure.blocks.length := by
  rw [twins.procedure]
  exact List.length_map ..

theorem emitBlock : Mirrors alike (Fills view false) (e.emitBlock b false) (e'.emitBlock b false) := by
  rw [Emitter.emitBlock, Emitter.emitBlock, twins.length_blocks]
  exact twins.emitWithin b _ false

theorem emitPending (fuel : Nat) : Mirrors alike (Alike view) (e.emitPending fuel) (e'.emitPending fuel) := by
  induction fuel with
  | zero => exact .pure (.refl _)
  | succ fuel ih =>
    refine .traversal_bind fun t => ?_
    cases t.nextPending? with
    | none => exact .pure (.refl _)
    | some x => exact (twins.emitBlock x).bind fun _ _ first => ih.bind fun _ _ rest => .pure (first.same.append rest)

theorem emit : Mirrors alike (Alike view) e.emit e'.emit := by
  have checks : Mirrors alike (fun _ _ => True) e.checkJumps e'.checkJumps := by
    refine .traversal_bind fun t => ?_
    cases t.nextUnlabelled? with
    | none => exact .pure trivial
    | some x =>
      have dangles := twins.label x
      dsimp only
      generalize e.labels.label x = label at dangles ⊢
      generalize e'.labels.label x = label' at dangles ⊢
      cases dangles with
      | ok texts => exact .throw texts.2.2
      | error causes => exact .throw causes
  have entry : e'.procedure.entry = e.procedure.entry := by rw [twins.procedure]; rfl
  unfold Emitter.emit
  rw [twins.length_blocks, entry]
  refine (twins.emitBlock _).bind fun _ _ first => (twins.emitPending _).bind fun _ _ rest => ?_
  exact checks.bind fun _ _ _ => .pure (first.same.append rest)

end Twins

theorem twins_verbose (e : Emitter) (verbose : Bool) {view : Line → Option Line}
    (comments : verbose = e.verbose ∨ ∀ text, view (.comment text) = none) (tells : Tells view) :
    Twins Eq view 0 e { e with verbose } where
  shifts cause := cause.shift_zero.symm
  procedure := e.procedure.shift_zero.symm
  idom := rfl
  ipdom := rfl
  feedback := rfl
  saved := rfl
  tail := rfl
  varName _ _ := by
    rw [Nat.zero_add]
    rfl
  isNeeded _ _ _ := .of_eq (fun _ => rfl) fun _ => rfl
  label _ := .of_eq (fun _ => rfl) fun _ => ⟨rfl, fun _ => rfl, rfl⟩
  render _ _ := by
    simp only [Nat.zero_add]
    exact .of_eq (fun _ => rfl) fun _ => ⟨rfl, rfl⟩
  comments := comments
  tells := tells

theorem exists_script (e : Emitter) (b : BlockId) (braced : Bool) : ∃ script : Script (List Line), ∀ recurse,
    e.freshBlock recurse b braced = update (·.render b) >>= fun _ => script.play recurse := by
  have tells : Tells some := ⟨fun _ _ => rfl, fun _ _ same _ => by rw [Option.some.inj same]⟩
  have firm (lines : List Line) : Firm some lines := .inl fun _ _ => rfl
  obtain ⟨step, step', paired, starts, -⟩ := (e.twins_verbose _ (.inl rfl) tells).freshBlock b braced
  obtain ⟨script, plays⟩ := paired.exists_script fun _ lines => ⟨.refl _, fun _ => firm lines, fun _ => firm lines⟩
  exact ⟨script, fun recurse => by rw [starts, plays]⟩

theorem exists_emit_verbose {e : Emitter} {progress progress' : Progress} {lines : List Line} (verbose : Bool)
    (emitted : e.emit progress = .ok lines progress') :
    ∃ lines', ({ e with verbose } : Emitter).emit progress = .ok lines' progress' ∧
      lines'.filter (!·.isComment) = lines.filter (!·.isComment) := by
  rcases (e.twins_verbose verbose (.inr fun _ => rfl) Line.tells_visible?).emit.outcome progress with
    ⟨cause, cause', after, failed, -⟩ | ⟨lines, lines', after, emitted', printed, same⟩
  · simp [failed] at emitted
  · obtain ⟨rfl, rfl⟩ := EStateM.Result.ok.inj (emitted'.symm.trans emitted)
    rw [Line.Alike, Line.filterMap_visible?, Line.filterMap_visible?] at same
    exact ⟨lines', printed, same.symm⟩

end Emitter

end Reflow
