import Reflow.Proofs.Analysis.Strict
import Reflow.Proofs.Copies.Saves

namespace Reflow

namespace Procedure

variable {p : Procedure} {facts : Facts} {b b' d : BlockId} {stack stack' names : Rename.Stack}
  {walk walk' next : CopyWalk} {fuel : Nat} {pairs : List Pair} {log : Schedule.Log} {saved : List (Pair × String)}
  {s : Schedule} {c : Copies} {v : Var} {t : String}
  {child : BlockId} {motive : Rename.Stack → CopyWalk → BlockId → Prop} {walk'' : CopyWalk}

theorem Enters.start (enters : p.Enters facts fuel stack walk b stack' walk' b') :
    p.Enters facts fuel stack walk b stack walk b := by
  cases enters with
  | here new => exact .here new
  | inside new => exact .here new

theorem Enters.induct
    (enters : p.Enters facts fuel stack walk b stack' walk' b')
    (entered : ∀ stack' walk' b', p.Enters facts fuel stack walk b stack' walk' b' →
      p.EntersBlock facts stack' walk' b')
    (start : motive stack walk b) (child : ∀ stack walk d names next between x, p.EntersBlock facts stack walk d →
      p.placeNames facts d stack walk = .ok (names, next) → x ∈ facts.children d →
      p.EntersBlock facts names between x → motive stack walk d → motive names between x) :
    motive stack' walk' b' := by
  induction enters with
  | here => exact start
  | inside new placed children walked rest ih =>
    refine ih (fun stack' walk' b' later => entered _ _ _ (.inside new placed children walked later)) ?_
    refine child _ _ _ _ _ _ _ (entered _ _ _ (.here new)) placed (by simp [children]) ?_ start
    exact entered _ _ _ (.inside new placed children walked rest.start)

theorem EntersBlock.induct
    (enters : p.EntersBlock facts stack walk b) (entry : motive [] {} p.entry)
    (child : ∀ stack walk d names next between x, p.EntersBlock facts stack walk d →
      p.placeNames facts d stack walk = .ok (names, next) → x ∈ facts.children d →
      p.EntersBlock facts names between x → motive stack walk d → motive names between x) : motive stack walk b :=
  Enters.induct enters (fun _ _ _ enters => enters) entry child

theorem immediatelyDominates_of_split {before after : List BlockId}
    (children : p.analysis.children b = before ++ child :: after) : p.flow.ImmediatelyDominates p.entry b child :=
  mem_children_iff.1 (children ▸ List.mem_append_right _ (.head _))

theorem eq_of_split {before before' after after' : List BlockId}
    (children : p.analysis.children b = before ++ child :: after)
    (children' : p.analysis.children b = before' ++ child :: after') : before = before' := by
  have nodup : (before ++ child :: after).Nodup := children ▸ children_nodup
  obtain ⟨-, rest, apart⟩ := List.nodup_append.1 nodup
  have notBefore : child ∉ before := fun mem => apart child mem child (.head _) rfl
  have same := children.symm.trans children'
  exact ((List.append_cons_inj_of_notMem notBefore (List.nodup_cons.1 rest).1).1 same).1

theorem Enters.dominates (enters : p.Enters p.analysis.toFacts fuel stack walk b stack' walk' b')
    (reach : p.Reachable b) : p.Dominates b b' ∧ p.Reachable b' := by
  induction enters with
  | here => exact ⟨.refl _, reach⟩
  | inside _ _ children _ _ ih =>
    have idom := immediatelyDominates_of_split children
    obtain ⟨below, reached⟩ := ih idom.reached
    exact ⟨idom.dominates.trans below, reached⟩

theorem Enters.child_eq {stack'' names' : Rename.Stack} {x y : BlockId}
    (first : p.Enters p.analysis.toFacts fuel names next x stack' walk' b')
    (second : p.Enters p.analysis.toFacts fuel names' walk y stack'' walk'' b')
    (idom : p.flow.ImmediatelyDominates p.entry b x) (idom' : p.flow.ImmediatelyDominates p.entry b y) : x = y :=
  idom.eq_of_dominates idom' (first.dominates idom.reached).2 (first.dominates idom.reached).1
    (second.dominates idom'.reached).1

theorem Enters.ne_above (enters : p.Enters p.analysis.toFacts fuel stack walk child stack' walk' b')
    (idom : p.flow.ImmediatelyDominates p.entry b child) : b' ≠ b := by
  rintro rfl
  have below := (enters.dominates idom.reached).1
  exact idom.ne (Digraph.Dominates.antisymm idom.reached idom.dominates below)

theorem Enters.unique {stack'' : Rename.Stack}
    (first : p.Enters p.analysis.toFacts fuel stack walk b stack' walk' b')
    (second : p.Enters p.analysis.toFacts fuel stack walk b stack'' walk'' b') : stack' = stack'' ∧ walk' = walk'' := by
  induction first with
  | here =>
    cases second with
    | here => exact ⟨rfl, rfl⟩
    | inside _ _ children _ rest => exact absurd rfl (rest.ne_above (immediatelyDominates_of_split children))
  | inside _ placed children walked rest ih =>
    have idom := immediatelyDominates_of_split children
    cases second with
    | here => exact absurd rfl (rest.ne_above idom)
    | inside _ placed' children' walked' rest' =>
      obtain ⟨rfl, rfl⟩ := Prod.mk.inj (Except.ok.inj (placed.symm.trans placed'))
      obtain rfl := rest.child_eq rest' idom (immediatelyDominates_of_split children')
      obtain rfl := eq_of_split children children'
      obtain rfl := Except.ok.inj (walked.symm.trans walked')
      exact ih rest'

structure NearestAbove (p : Procedure) (property : BlockId → Prop) (b d : BlockId) : Prop where
  dominates : p.Dominates d b
  holds : property d
  closest : ∀ e, p.Dominates d e → p.Dominates e b → e ≠ d → ¬ property e

section NearestAbove

variable {property : BlockId → Prop} {a : BlockId}

theorem nearestAbove_self_iff (reach : p.Reachable b) (holds : property b) :
    p.NearestAbove property b d ↔ d = b := by
  constructor
  · intro nearest
    by_contra ne
    exact nearest.closest b nearest.dominates (.refl b) (Ne.symm ne) holds
  · rintro rfl
    exact ⟨.refl d, holds, fun e above below ne _ => ne (Digraph.Dominates.antisymm reach below above)⟩

theorem nearestAbove_iff_of_not (idom : p.flow.ImmediatelyDominates p.entry a b) (fails : ¬ property b) :
    p.NearestAbove property b d ↔ p.NearestAbove property a d := by
  constructor
  · intro nearest
    have ne : d ≠ b := fun same => fails (same ▸ nearest.holds)
    exact ⟨idom.closest d ne nearest.dominates, nearest.holds,
      fun e above below => nearest.closest e above (below.trans idom.dominates)⟩
  · intro nearest
    refine ⟨nearest.dominates.trans idom.dominates, nearest.holds, fun e above below ne holds => ?_⟩
    have ne' : e ≠ b := fun same => fails (same ▸ holds)
    exact nearest.closest e above (idom.closest e ne' below) ne holds

theorem eq_entry_of_dominates (dominates : p.Dominates d p.entry) : d = p.entry :=
  Digraph.Dominates.antisymm reachable_entry dominates (Digraph.Dominates.root_dominates d)

end NearestAbove

section

variable (visits : p.Visits p.analysis.toFacts c b stack walk pairs log saved s)
  (enters : p.EntersBlock p.analysis.toFacts stack walk b)
include visits enters

theorem Visits.savesInto_iff : p.SavesInto p.analysis.toFacts b v t ↔ (v, t) ∈ log.pushes := by
  refine ⟨?_, visits.savesInto enters⟩
  rintro ⟨stack', walk', s', saves, temporaries, h, enters', scheduled, lines, made, line, like⟩
  obtain ⟨rfl, rfl⟩ := Enters.unique enters enters'
  obtain rfl := Except.ok.inj (scheduled.symm.trans visits.schedule_eq)
  obtain rfl := List.append_cancel_left (lines.symm.trans visits.logs.saves)
  obtain rfl := List.append_cancel_left (made.symm.trans visits.logs.temporaries)
  exact visits.mem_pushes_of_line line like

theorem Visits.top?_namesIn (v : Var) :
    (∃ t, Rename.top? (c.namesIn b) v = some t ∧ p.SavesInto p.analysis.toFacts b v t ∧
      ∀ t', p.SavesInto p.analysis.toFacts b v t' → t' = t) ∨
    Rename.top? (c.namesIn b) v = Rename.top? stack v ∧ ∀ t, ¬ p.SavesInto p.analysis.toFacts b v t := by
  rw [visits.names, visits.logs.names, Rename.top?_pushAll]
  simp only [visits.savesInto_iff enters]
  cases pushed : log.pushes.lookup v with
  | some t =>
    have mem := mem_of_lookup pushed
    refine .inl ⟨t, by simp, mem, fun t' mem' => ?_⟩
    have once : (log.pushes.map (·.1)).Nodup := by
      rw [visits.pushes_eq, List.map_reverse, List.nodup_reverse, List.map_map]
      exact visits.saves.once
    exact congrArg Prod.snd (List.inj_on_of_nodup_map once mem' mem rfl)
  | none =>
    refine .inr ⟨by simp, fun t mem => ?_⟩
    have := List.lookup_eq_none_iff.1 pushed _ mem
    simp at this

structure NamedByTree (p : Procedure) (c : Copies) (b : BlockId) (v : Var) : Prop where
  some_iff : ∀ t, Rename.top? (c.namesIn b) v = some t ↔
    ∃ d, p.NearestAbove (fun e => ∃ t', p.SavesInto p.analysis.toFacts e v t') b d ∧
      p.SavesInto p.analysis.toFacts d v t
  none_iff : Rename.top? (c.namesIn b) v = none ↔
    ∀ d, p.Dominates d b → ∀ t, ¬ p.SavesInto p.analysis.toFacts d v t

theorem Visits.namedByTree (reach : p.Reachable b)
    (above : b = p.entry ∧ stack = [] ∨ ∃ a, p.flow.ImmediatelyDominates p.entry a b ∧ stack = c.namesIn a ∧
      p.NamedByTree c a v) : p.NamedByTree c b v := by
  -- Either the block saves the variable itself, or it takes over the name from the block above.
  rcases visits.top?_namesIn enters v with ⟨t, top, saves, unique⟩ | ⟨top, none⟩
  · have nearest (d : BlockId) : p.NearestAbove (fun e => ∃ t', p.SavesInto p.analysis.toFacts e v t') b d ↔ d = b :=
      nearestAbove_self_iff reach ⟨t, saves⟩
    refine ⟨fun t' => ?_, ?_⟩
    · simp only [top, nearest, exists_eq_left, Option.some.injEq]
      exact ⟨fun same => same ▸ saves, fun saves' => (unique t' saves').symm⟩
    · simp only [top, reduceCtorEq, false_iff, not_forall, not_not]
      exact ⟨b, .refl b, t, saves⟩
  · have fails : ¬ ∃ t', p.SavesInto p.analysis.toFacts b v t' := not_exists.2 none
    rcases above with ⟨rfl, rfl⟩ | ⟨a, idom, rfl, up⟩
    · have unsaved (d : BlockId) (dominates : p.Dominates d p.entry) (t : String) :
          ¬ p.SavesInto p.analysis.toFacts d v t := by
        rw [eq_entry_of_dominates dominates]
        exact none t
      refine ⟨fun t => ?_, ?_⟩
      · rw [top]
        refine ⟨(nomatch ·), ?_⟩
        rintro ⟨d, nearest, saves⟩
        exact absurd saves (unsaved d nearest.dominates t)
      · rw [top]
        exact ⟨fun _ => unsaved, fun _ => rfl⟩
    · refine ⟨fun t => ?_, ?_⟩
      · rw [top, up.some_iff]
        exact exists_congr fun d => and_congr_left fun _ => (nearestAbove_iff_of_not idom fails).symm
      · rw [top, up.none_iff]
        refine ⟨fun unsaved d dominates => ?_, fun unsaved d dominates => unsaved d (dominates.trans idom.dominates)⟩
        by_cases same : d = b
        · exact same ▸ none
        · exact unsaved d (idom.closest d same dominates)

end

section Tree

variable (distinct : ∀ b pairs, p.edgePairs b = .ok pairs → Distinct p pairs)
  (copies : p.copies p.analysis.toFacts = .ok c)

include distinct copies

section

variable (enters : p.EntersBlock p.analysis.toFacts stack walk b)
include enters

theorem EntersBlock.names_eq (placed : p.placeNames p.analysis.toFacts b stack walk = .ok (names, next)) :
    names = c.namesIn b := by
  obtain ⟨pairs, log, saved, s, visits⟩ := enters.visits distinct copies
  simp only [placeNames, placeCopies, Except.map, visits.schedule_eq, Bind.bind, Except.bind, Pure.pure,
    Except.pure, Except.ok.injEq, Prod.mk.injEq] at placed
  rw [visits.names, placed.1]

theorem EntersBlock.stack_eq :
    b = p.entry ∧ stack = [] ∨ ∃ a, p.flow.ImmediatelyDominates p.entry a b ∧ stack = c.namesIn a := by
  refine EntersBlock.induct enters (motive := fun stack _ b =>
      b = p.entry ∧ stack = [] ∨ ∃ a, p.flow.ImmediatelyDominates p.entry a b ∧ stack = c.namesIn a)
    (.inl ⟨rfl, rfl⟩) ?_
  intro stack walk d names next between x above placed listed _ _
  exact .inr ⟨d, mem_children_iff.1 listed, above.names_eq distinct copies placed⟩

theorem EntersBlock.namedByTree (v : Var) : p.NamedByTree c b v := by
  refine EntersBlock.induct (motive := fun _ _ b => p.NamedByTree c b v) enters ?_ ?_
  · obtain ⟨pairs, log, saved, s, visits⟩ := EntersBlock.visits distinct copies enters.start
    exact visits.namedByTree enters.start reachable_entry (.inl ⟨rfl, rfl⟩)
  · intro stack walk d names next between x above placed listed here named
    obtain rfl := above.names_eq distinct copies placed
    obtain ⟨pairs, log, saved, s, visits⟩ := here.visits distinct copies
    have idom := mem_children_iff.1 listed
    exact visits.namedByTree here idom.reached (.inr ⟨d, idom, rfl, named⟩)

end

theorem SavesInto.exists_phi (saves : p.SavesInto p.analysis.toFacts b v t) :
    ∃ h, (∃ phi ∈ p.phis h, phi.var = v) ∧ ⟨t, p.varName v⟩ ∈ c.saved h ∧ (p.Strict → p.Dominates h b) := by
  obtain ⟨stack, walk, -, -, -, -, enters, -⟩ := id saves
  obtain ⟨pairs, log, saved, s, visits⟩ := enters.visits distinct copies
  obtain ⟨pair, mem, rfl⟩ := visits.mem_pushes_iff.1 ((visits.savesInto_iff enters).1 saves)
  obtain ⟨phi, listed, -, var, -⟩ := (visits.isEdgeCopy_of_mem mem).phi
  refine ⟨pair.target, ⟨phi, listed, var⟩, visits.mem_saved mem, fun strict => ?_⟩
  exact strict.dominates_of_isLost (visits.saves.lost _ mem).2 (.inl ⟨phi, listed, var⟩)

end Tree

end Procedure

namespace Program.FunctionOf

variable {f : Function}

/-- The name in force for a variable in a block is the temporary into which the nearest block above saves it, counting
the block itself, and there is none if no block above saves it. -/
theorem WellFormed.renaming_follows_dominators (wf : f.WellFormed) (base : Nat) {c : Copies}
    (run : (f.procedure base).copies (f.procedure base).analysis.toFacts = .ok c) {b : BlockId}
    (reach : (f.procedure base).Reachable b) (v : Var) :
    let p := f.procedure base
    let saves (d : BlockId) (t : String) : Prop := p.SavesInto p.analysis.toFacts d v t
    (∀ t, Rename.top? (c.namesIn b) v = some t ↔ ∃ d, p.NearestAbove (fun e => ∃ t', saves e t') b d ∧ saves d t) ∧
    (Rename.top? (c.namesIn b) v = none ↔ ∀ d, p.Dominates d b → ∀ t, ¬ saves d t) ∧
    (∀ d t, saves d t → ∃ h, (∀ h', (∃ phi ∈ p.phis h', phi.var = v) ↔ h' = h) ∧ ⟨t, p.varName v⟩ ∈ c.saved h ∧
      (p.Strict → p.Dominates h d)) ∧
    (p.Strict → ∀ t, Rename.top? (c.namesIn b) v = some t → ∀ nodes, p.flow.Path p.entry b nodes →
      ∃ h ∈ nodes, ⟨t, p.varName v⟩ ∈ c.saved h) := by
  have distinct := wf.distinct base
  obtain ⟨stack, walk, enters⟩ := Procedure.exists_entersBlock run reach
  have named := enters.namedByTree distinct run v
  refine ⟨named.some_iff, named.none_iff, fun d t saves => ?_, fun strict t inForce nodes path => ?_⟩
  · obtain ⟨h, ⟨phi, listed, var⟩, line, above⟩ := saves.exists_phi distinct run
    refine ⟨h, fun h' => ⟨?_, ?_⟩, line, above⟩
    · rintro ⟨phi', listed', var'⟩
      exact block_of_phi_unique listed' listed (var'.trans var.symm)
    · rintro rfl
      exact ⟨phi, listed, var⟩
  · obtain ⟨d, nearest, saves⟩ := (named.some_iff t).1 inForce
    obtain ⟨h, -, line, above⟩ := saves.exists_phi distinct run
    exact ⟨h, (above strict).trans nearest.dominates nodes path, line⟩

def nestedSaves : Function where
  name := "nested"
  args := ["a"]
  blocks :=
    [⟨"entry", [], [⟨none, .br 1⟩]⟩,
     ⟨"head", [⟨"x", false, [(0, 0), (2, 4), (3, 6)]⟩], [⟨none, .br 2⟩]⟩,
     ⟨"first", [], [⟨some "p", .any [2]⟩, ⟨none, .condbr 4 1 3⟩]⟩,
     ⟨"second", [], [⟨some "q", .any [2]⟩, ⟨none, .condbr 6 1 4⟩]⟩,
     ⟨"exit", [], [⟨none, .ret (some 2)⟩]⟩]

theorem nestedSaves_isRead : nestedSaves.IsRead :=
  .of_pieces ["nested(%a) \x7b\n", "entry:\n br ^head\n",
      "head:\n %x = phi [^entry, %a], [^first, %p], [^second, %q]\n br ^first\n",
      "first:\n %p = any %x\n condbr %p, ^head, ^second\n", "second:\n %q = any %x\n condbr %q, ^head, ^exit\n",
      "exit:\n ret %x\n\x7d\n"] (by decide +kernel)

theorem nestedSaves_strict : (nestedSaves.procedure 0).Strict :=
  .of_accesses (by decide)

theorem nestedSaves_renaming :
    ∃ c, (nestedSaves.procedure 0).copies (nestedSaves.procedure 0).analysis.toFacts = .ok c ∧
      (nestedSaves.procedure 0).Reachable 4 ∧ Rename.top? (c.namesIn 2) 2 = some "__t__0_0" ∧
      Rename.top? (c.namesIn 4) 2 = some "__t__1_0" ∧
      (∃ d, (nestedSaves.procedure 0).NearestAbove
        (fun e => ∃ t', (nestedSaves.procedure 0).SavesInto (nestedSaves.procedure 0).analysis.toFacts e 2 t') 4 d ∧
        (nestedSaves.procedure 0).SavesInto (nestedSaves.procedure 0).analysis.toFacts d 2 "__t__1_0") ∧
      ∀ nodes, (nestedSaves.procedure 0).flow.Path 0 4 nodes → ∃ h ∈ nodes, ⟨"__t__1_0", "x"⟩ ∈ c.saved h := by
  have reach : (nestedSaves.procedure 0).Reachable 4 :=
    ⟨[0, 1, 2, 3, 4], .step (by decide) (.step (by decide) (.step (by decide) (.step (by decide) (.single 4))))⟩
  have names : ((nestedSaves.procedure 0).copies (nestedSaves.procedure 0).analysis.toFacts).toOption.map
      (fun c => (Rename.top? (c.namesIn 2) 2, Rename.top? (c.namesIn 4) 2)) =
        some (some "__t__0_0", some "__t__1_0") := by decide +kernel
  cases copied : (nestedSaves.procedure 0).copies (nestedSaves.procedure 0).analysis.toFacts with
  | error => simp [copied, Except.toOption] at names
  | ok c =>
    rw [copied] at names
    obtain ⟨above, here⟩ := Prod.mk.inj (Option.some.inj names)
    obtain ⟨inForce, -, -, assigned⟩ :=
      nestedSaves_isRead.wellFormed.renaming_follows_dominators 0 copied reach 2
    exact ⟨c, rfl, reach, above, here, (inForce _).1 here, assigned nestedSaves_strict _ here⟩

end Program.FunctionOf

end Reflow
