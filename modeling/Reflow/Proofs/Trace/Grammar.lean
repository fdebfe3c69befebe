import Reflow.Proofs.Code.Forms
import Reflow.Proofs.Trace.Lines

namespace Reflow

open Line

def Way.Forms (reserved : List String) (b : BlockId) (lines : List Line) : Way → Prop
  | .arm | .body _ => IsSlot reserved lines
  | .otherwise => IsChain reserved b lines
  | .after | .fall false => IsList reserved lines
  | .case => ∃ first rest, IsSlot reserved first ∧ IsList reserved rest ∧ lines = first ++ rest
  | .fall true => lines = [] ∨ IsSlot reserved lines

namespace Emitter

def Behind (reserved : List String) (b : BlockId) (slot : Bool) (lines : List Line) : Option Kind → Prop
  | some (.conditional ..) | some (.multiway _) =>
    ∃ first rest, IsSlot reserved first ∧ IsChain reserved b rest ∧ lines = first ++ rest
  | some (.loop ..) => ∃ first rest, IsSlot reserved first ∧ IsList reserved rest ∧ lines = first ++ rest
  | some (.switch ..) => ∃ groups, IsGroups reserved groups ∧ lines = .openBrace :: groups ++ [.closeBrace]
  | some (.jump _) => lines = []
  | _ => (Way.fall slot).Forms reserved b lines

def Placed (arms : List (Option Var × BlockId)) : Prop :=
  ∀ arm ∈ arms.dropLast, arm.1.isSome

def Task.Forms (reserved : List String) (lines : List Line) : Task → Prop
  | .block _ braced => if braced then IsSlot reserved lines else IsList reserved lines
  | .edge b _ way => way.Forms reserved b lines
  | .arms b true _ left => left ≠ [] → Placed left →
      ∃ first rest, IsSlot reserved first ∧ IsChain reserved b rest ∧ lines = first ++ rest
  | .arms b false _ left => Placed left → IsChain reserved b lines
  | .cases .. => IsGroups reserved lines
  | .rest b slot _ ending _ => Behind reserved b slot lines ending
  | .join .. => IsList reserved lines

variable {arms : List (Option Var × BlockId)}

theorem Placed.tail {arm : Option Var × BlockId} (placed : Placed (arm :: arms)) :
    Placed arms := by
  cases arms with
  | nil => exact fun arm mem => absurd mem List.not_mem_nil
  | cons => exact fun arm mem => placed arm (.tail _ mem)

theorem Placed.eq_nil {x : BlockId} (placed : Placed ((none, x) :: arms)) :
    arms = [] := by
  cases arms with
  | nil => rfl
  | cons => exact absurd (placed (none, x) (.head _)) (by simp)

theorem placed_of_misplacedArm? (ordered : misplacedArm? arms = none) :
    Placed arms := by
  intro arm mem
  cases found : arms.findIdx? fun arm => arm.1.isNone with
  | none =>
    have tested := List.findIdx?_eq_none_iff.1 found arm (List.mem_of_mem_dropLast mem)
    simpa using tested
  | some position =>
    obtain ⟨bound, -, before⟩ := List.findIdx?_eq_some_iff_getElem.1 found
    have last : position + 1 = arms.length := by
      simp only [misplacedArm?, found, Option.filter_some] at ordered
      split at ordered
      · simp at ordered
      · rename_i inOrder
        simp only [Bool.or_eq_true, beq_iff_eq, bne_iff_ne, not_or, not_not] at inOrder
        exact inOrder.2
    obtain ⟨i, lt, rfl⟩ := List.mem_iff_getElem.1 mem
    rw [List.length_dropLast] at lt
    rw [List.getElem_dropLast]
    exact Option.isSome_iff_ne_none.2 (by simpa using before i (by omega))

section Block

variable {e : Emitter} {named : String → Prop} {reserved : List String} {b : BlockId} {stmts : List (Stmt × Kind)}
  {stmt : Stmt × Kind} {lines body rest : List Line} {line : Line}

variable (legible : e.Legible named) (isName : ∀ {name}, named name → Mark.isName reserved name = true)

include legible isName

theorem Legible.isPlain_copy {copy : Copy} (listed : copy ∈ e.copies.saved b ∨ copy ∈ e.copies.tail b) :
    (Line.copy b copy).IsPlain reserved := by
  refine .of_isMarked (Line.isMarked_copy isName ?_) rfl
  rcases listed with save | tail
  · exact legible.copies.mem_saved save
  · exact legible.copies.mem_tail tail

theorem Legible.isList_saveLines : IsList reserved (e.saveLines b) := by
  refine .of_forall ?_
  intro line mem
  obtain ⟨copy, listed, rfl⟩ := List.mem_map.1 mem
  exact legible.isPlain_copy isName (.inl listed)

theorem Legible.isList_tailLines : IsList reserved (e.tailLines b) := by
  refine .of_forall ?_
  intro line mem
  obtain ⟨copy, listed, rfl⟩ := List.mem_map.1 mem
  exact legible.isPlain_copy isName (.inr listed)

theorem Legible.isList_label {label : String} {needed : Bool}
    (labelled : needed = true → e.labels.label b = .ok label) :
    IsList reserved (if needed then [.label b label] else []) := by
  refine .of_forall ?_
  intro line mem
  split at mem
  · rename_i wanted
    rw [List.mem_singleton.1 mem]
    exact .of_isMarked (Line.isMarked_label (isName (legible.label (labelled wanted)).1)) rfl
  · simp at mem

theorem StmtLines.isList {some : List (Stmt × Kind)} (ok : e.procedure.classified b = .ok stmts)
    (printed : e.StmtLines b some lines) (among : some ⊆ stmts) (passes : ∀ stmt ∈ some, stmt.2.isBranching = false) :
    IsList reserved lines := by
  refine .of_forall ?_
  intro line mem
  rcases printed.cases mem with ⟨stmt, listed, -, text, rendered, rfl⟩ | rfl
  · exact Kind.Shows.isPlain (legible.shows isName ok (among listed) rendered) (passes stmt listed)
  · exact .inl rfl

theorem HeaderLines.isList (printed : e.HeaderLines b lines) : IsList reserved lines := by
  obtain ⟨stmts, body, ok, each, rfl⟩ := printed
  have middle : IsList reserved body := by
    refine .of_forall ?_
    intro line mem
    obtain ⟨i, lt, rfl⟩ := List.mem_iff_getElem.1 mem
    have bound : i < (repeated stmts).length := each.length_eq ▸ lt
    obtain ⟨text, rendered, same⟩ := (List.forall₂_iff_get.1 each).2 i bound lt
    rw [List.get_eq_getElem] at same
    rw [same]
    exact .of_isMarked (Line.isMarked_again isName
      (legible.isPassing_of_repeated ok (List.getElem_mem bound) rendered)) rfl
  exact ((legible.isList_saveLines isName).append middle).append (legible.isList_tailLines isName)

theorem BodyLines.isList (ok : e.procedure.classified b = .ok stmts)
    (printed : e.BodyLines b (upToLastReal stmts) body) (behind : Behind reserved b false rest (endOf stmts)) :
    IsList reserved (body ++ rest) := by
  have tail : IsList reserved (e.tailLines b) := legible.isList_tailLines isName
  have front {before : List (Stmt × Kind)} {last : Stmt × Kind} {lines : List Line}
      (same : upToLastReal stmts = before ++ [last]) (printed : e.StmtLines b before lines) :
      IsList reserved lines := by
    refine printed.isList legible isName ok ?_ ?_
    · exact fun stmt mem => upToLastReal_subset stmts (by simp [same, mem])
    · exact fun stmt mem =>
        legible.last ok stmt (dropLast_upToLastReal_subset stmts (by simpa [same] using mem))
  rw [endOf] at behind
  generalize same : upToLastReal stmts = shown at printed behind
  cases printed with
  | empty => exact tail.append behind
  | @branching _ last lines _ branches stmtLines here =>
    have mem : last ∈ stmts := upToLastReal_subset stmts (by simp [same])
    have real : last.2 ≠ .virtual := by
      intro virtual
      simp [virtual, Kind.isBranching] at branches
    rw [StmtLine, if_neg real] at here
    obtain ⟨text, rendered, rfl⟩ := here
    have shows := legible.shows isName ok mem rendered
    have joined : lines ++ e.tailLines b ++ [.stmt b last.1.id text] ++ rest =
        lines ++ e.tailLines b ++ (.stmt b last.1.id text :: rest) := by simp
    rw [joined]
    refine ((front same stmtLines).append tail).append ?_
    rw [List.getLast?_concat, Option.map_some] at behind
    cases kind : last.2 with
    | plain | init | virtual | label => simp [kind, Kind.isBranching] at branches
    | conditional | multiway =>
      rw [kind] at shows behind
      obtain ⟨first, more, slot, chain, rfl⟩ := behind
      exact .test shows slot chain
    | loop =>
      rw [kind] at shows behind
      obtain ⟨first, more, slot, list, rfl⟩ := behind
      exact (IsList.loop shows slot).append list
    | switch =>
      rw [kind] at shows behind
      obtain ⟨groups, inner, rfl⟩ := behind
      exact .switch shows inner
    | jump =>
      rw [kind] at shows behind
      obtain ⟨target, name, -, -, marked⟩ := shows
      obtain rfl : rest = [] := behind
      exact .of_forall fun line mem => by
        rw [List.mem_singleton.1 mem]
        exact .of_isMarked marked rfl
  | @passing _ last _ lastLines passes stmtLines here =>
    have printed : e.StmtLines b [last] lastLines := ⟨[lastLines], .cons here .nil, by simp⟩
    have final : IsList reserved lastLines := by
      refine printed.isList legible isName ok ?_ (by simpa using passes)
      exact fun stmt mem => upToLastReal_subset stmts (by simp [same, List.mem_singleton.1 mem])
    have list : IsList reserved rest := by
      rw [List.getLast?_concat, Option.map_some] at behind
      cases kind : last.2 with
      | plain | init | virtual | label =>
        rw [kind] at behind
        exact behind
      | conditional | loop | multiway | switch | jump => simp [kind, Kind.isBranching] at passes
    exact (((front same stmtLines).append final).append tail).append list

end Block

section Tasks

variable {e : Emitter} {named : String → Prop} {reserved : List String} {task : Task} {t t' t'' : Traversal}
    {b x : BlockId}
  {stmts : List (Stmt × Kind)} {body rest join lines : List Line} {needed : Bool} {ending : Option Kind}
  {deferred : Option BlockId} {way : Way}

theorem eq_of_opens (bare : e.opens t b true needed ending = false) :
    e.setAside t b = none ∧ ending = none ∧ needed = false ∧ e.saveLines b = [] ∧ e.tailLines b = [] := by
  simpa [opens, saveLines, tailLines, and_assoc] using bare

theorem BodyLines.eq_nil (printed : e.BodyLines b (upToLastReal stmts) body) (silent : endOf stmts = none)
    (bare : e.tailLines b = []) : body = [] := by
  rw [endOf, Option.map_eq_none_iff, List.getLast?_eq_none_iff] at silent
  rw [silent] at printed
  generalize same : ([] : List (Stmt × Kind)) = shown at printed
  cases printed with
  | empty => exact bare
  | branching | passing => simp at same

theorem Lays.join_eq_nil {slot : Bool} (follows : e.Lays (.rest b slot none none deferred) t rest t')
    (joins : e.Lays (.join b deferred) t' join t'') : join = [] := by
  obtain rfl : deferred = none := by cases follows <;> rfl
  cases joins
  rfl

theorem seen_mark : seen (e.mark b) = [] := by
  unfold mark
  split
  · rfl
  · rfl

theorem isSlot_filler (fills : lines = [] ∨ IsSlot reserved lines) : IsSlot reserved (lines ++ filler true lines) := by
  rcases fills with rfl | slot
  · exact .of_isPlain (.of_isMarked Line.isMarked_emptyStmt rfl) rfl
  · have silent : filler true lines = [] := by simp [filler, slot.allSilent_eq_false]
    rwa [silent, List.append_nil]

theorem forms_passed (b : BlockId) (way : Way) : way.Forms reserved b way.passed := by
  cases way with
  | arm | body => exact .of_isPlain (.of_isMarked Line.isMarked_emptyBraces rfl) rfl
  | otherwise => exact .none
  | after => exact .of_seen_eq_nil rfl
  | case =>
    exact ⟨_, [], .of_isPlain (.of_isMarked Line.isMarked_leaveSwitch rfl) rfl, .of_seen_eq_nil rfl, rfl⟩
  | fall slot =>
    cases slot with
    | true => exact .inl rfl
    | false => exact .of_seen_eq_nil rfl

theorem forms_around (inner : if way.isSingle then IsSlot reserved lines else IsList reserved lines) {more : List Line}
    (last : more = [] ∨ way = .case ∧ IsList reserved more) : way.Forms reserved b (way.around b lines ++ more) := by
  cases way with
  | case =>
    refine ⟨lines, more, inner, ?_, rfl⟩
    exact last.elim (fun none => .of_seen_eq_nil (by simp [none, seen])) And.right
  | otherwise =>
    obtain rfl := last.resolve_right (by simp)
    rw [List.append_nil]
    exact .otherwise inner
  | arm | body | after =>
    obtain rfl := last.resolve_right (by simp)
    rw [List.append_nil]
    exact inner
  | fall slot =>
    obtain rfl := last.resolve_right (by simp)
    rw [List.append_nil]
    cases slot with
    | true => exact .inr inner
    | false => exact inner

theorem forms_again (may : way.mayReturn = true) (list : IsList reserved lines) :
    way.Forms reserved b (way.again b lines) := by
  cases way with
  | arm | body | after | case => simp [Way.mayReturn] at may
  | otherwise =>
    cases lines with
    | nil => exact .none
    | cons => exact .otherwise list.braces
  | fall slot =>
    cases slot with
    | true =>
      cases lines with
      | nil => exact .inl rfl
      | cons => exact .inr list.braces
    | false => exact list

theorem behind_iff {slot : Bool} (passes : PassesOn ending) :
    Behind reserved b slot lines ending ↔ (Way.fall slot).Forms reserved b lines := by
  cases ending with
  | none => rfl
  | some kind =>
    cases kind with
    | plain | init | virtual | label => rfl
    | conditional | loop | multiway | switch | jump => exact passes.elim

variable (legible : e.Legible named) (isName : ∀ {name}, named name → Mark.isName reserved name = true)

include legible isName

theorem Lays.forms (lays : e.Lays task t lines t') (sourced : task.Sourced e) : task.Forms reserved lines := by
  induction lays with
  | @block t t' t'' b braced needed stmts label body rest join deferred listed fresh ok decided labelled
      printed follows joins ihFollows ihJoins =>
      have behind := ihFollows (sourced_endOf ok _ _ _)
      have joined : IsList reserved join := ihJoins trivial
      have front : IsList reserved ((if needed then [.label b label] else []) ++ e.saveLines b) :=
        (legible.isList_label isName labelled).append (legible.isList_saveLines isName)
      have list (open_ : Behind reserved b false rest (endOf stmts)) :
          IsList reserved ((if needed then [.label b label] else []) ++ e.saveLines b ++ body ++ rest ++ join) := by
        rw [List.append_assoc _ body rest]
        exact (front.append (printed.isList legible isName ok open_)).append joined
      cases opened : e.opens t b braced needed (endOf stmts) with
      | true =>
        obtain rfl : braced = true := by
          cases braced with
          | true => rfl
          | false => simp [opens] at opened
        rw [opened] at behind
        have slot := (list behind).braces
        refine slot.of_seen_eq ?_
        simp [seen_append, seen_mark, wrap, filler]
      | false =>
        cases braced with
        | true =>
          rw [opened] at behind follows
          obtain ⟨aside, ends, unlabelled, saves, tails⟩ := eq_of_opens opened
          rw [aside, ends] at follows
          rw [ends] at behind
          obtain rfl := follows.join_eq_nil joins
          obtain rfl := printed.eq_nil ends tails
          refine (isSlot_filler behind).of_seen_eq ?_
          simp [seen_append, seen_mark, wrap, unlabelled, saves]
        | false =>
          have marked : IsList reserved (e.mark b) := .of_seen_eq_nil seen_mark
          have content := marked.append (list behind)
          simpa [Task.Forms, wrap, filler] using content
  | @passed _ b _ way => exact forms_passed b way
  | @joined _ b => exact forms_passed b .case
  | @jumped t b x way label may labelled =>
    have jump : IsSlot reserved [.jump x label way.isNested] :=
      .of_isPlain (.of_isMarked (Line.isMarked_jump (isName (legible.label labelled).1) _) rfl) rfl
    have inner : if way.isSingle then IsSlot reserved [.jump x label way.isNested]
        else IsList reserved [.jump x label way.isNested] := by
      split
      · exact jump
      · exact jump.isList
    have formed : way.Forms reserved b (way.around b [.jump x label way.isNested] ++ []) :=
      forms_around inner (.inl rfl)
    rwa [List.append_nil] at formed
  | @returned _ _ _ _ _ may _ _ header => exact forms_again may (header.isList legible isName)
  | @entered _ _ _ _ way _ _ _ ih =>
    refine forms_around (ih trivial) ?_
    cases way with
    | case => exact .inr ⟨rfl, .of_forall (by simpa [Way.leaving] using .of_isMarked Line.isMarked_leaveSwitch rfl)⟩
    | _ => exact .inl rfl
  | @armsDone _ _ first =>
    cases first with
    | true => exact fun some => absurd rfl some
    | false => exact fun _ => .none
  | @arm _ _ _ b x first _ cond arms lines more _ later ihHere ihLater =>
    obtain ⟨stmts, stmt, all, ok, listed, among⟩ := sourced
    have slot : IsSlot reserved lines := ihHere trivial
    have chain (placed : Placed ((cond, x) :: arms)) : IsChain reserved b more :=
      ihLater ⟨stmts, stmt, all, ok, listed, List.subset_of_cons_subset among⟩ placed.tail
    cases first with
    | true => exact fun _ placed => ⟨lines, more, slot, chain placed, rfl⟩
    | false =>
      intro placed
      cases cond with
      | none =>
        obtain rfl := placed.eq_nil
        cases later
        simpa [armHead] using IsChain.otherwise slot
      | some v =>
        exact .orTest (isName ((legible.arms ok listed).2 _ (among (.head _)) v rfl)) slot (chain placed)
  | elided _ _ _ ih =>
    obtain ⟨stmts, stmt, all, ok, listed, among⟩ := sourced
    exact fun placed => ih ⟨stmts, stmt, all, ok, listed, List.subset_of_cons_subset among⟩ placed.tail
  | casesDone => exact .none
  | @case _ _ _ _ _ _ arm _ _ _ _ _ ihHere ihLater =>
    obtain ⟨stmts, stmt, selector, all, ok, listed, among⟩ := sourced
    obtain ⟨first, rest, slot, list, rfl⟩ := ihHere trivial
    exact .group ((legible.cases ok listed).2 arm (among (.head _))) slot list
      (ihLater ⟨stmts, stmt, selector, all, ok, listed, List.subset_of_cons_subset among⟩)
  | @claimed _ _ _ _ arm _ _ _ _ _ _ _ ih =>
    obtain ⟨stmts, stmt, selector, all, ok, listed, among⟩ := sourced
    exact .group ((legible.cases ok listed).2 arm (among (.head _)))
      (.of_isPlain (.of_isMarked Line.isMarked_leaveSwitch rfl) rfl) (.of_seen_eq_nil rfl)
      (ih ⟨stmts, stmt, selector, all, ok, listed, List.subset_of_cons_subset among⟩)
  | conditional _ _ ihFirst ihSecond => exact ⟨_, _, ihFirst trivial, ihSecond trivial, rfl⟩
  | loop _ _ ihInner ihOuter => exact ⟨_, _, ihInner trivial, ihOuter trivial, rfl⟩
  | multiway ordered _ ih =>
    obtain ⟨stmts, stmt, ok, listed⟩ := sourced _ rfl
    exact ih ⟨stmts, stmt, _, ok, listed, .refl _⟩ (legible.arms ok listed).1
      (placed_of_misplacedArm? ordered)
  | switch _ ih =>
    obtain ⟨stmts, stmt, ok, listed⟩ := sourced _ rfl
    exact ⟨_, ih ⟨stmts, stmt, _, _, ok, listed, .refl _⟩, rfl⟩
  | jumps => rfl
  | @ends _ _ slot _ _ passes =>
    refine (behind_iff passes).2 ?_
    cases slot with
    | true => exact .inl rfl
    | false => exact .of_seen_eq_nil rfl
  | falls passes _ _ ih => exact (behind_iff passes).2 (ih trivial)
  | noJoin => exact .of_seen_eq_nil rfl
  | settled => exact .of_seen_eq_nil rfl
  | followed _ _ ih => exact ih trivial

theorem Drains.isList (drains : e.Drains t lines t') : IsList reserved lines := by
  induction drains with
  | done => exact .of_seen_eq_nil rfl
  | next _ here _ ih =>
    have first : IsList reserved _ := here.forms legible isName trivial
    exact first.append ih

theorem Writes.isList (writes : e.Writes lines t) : IsList reserved lines := by
  cases writes with
  | whole entry pending =>
    have first : IsList reserved _ := entry.forms legible isName trivial
    exact first.append (pending.isList legible isName)

end Tasks

end Emitter

end Reflow
