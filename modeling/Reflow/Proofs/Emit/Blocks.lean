import Reflow.Proofs.Emit.Continuation

namespace Reflow.Setting

open Program Emission Reading

variable {s : Setting} {recurse : Recurse} {bound : Nat} {t t' : Traversal} {b join : BlockId}
  {body : List (Statement Nat Nat)} {last : Statement Nat Nat} {needed : Bool}

theorem Fits.anchored_begun (fits : s.Fits t b) {test : BlockId} (mem : test ∈ s.home b) :
    (t.begun s.procedure b).Anchored s.procedure test := by
  have anchored := fits.anchored test mem
  rcases Traversal.begun_cases s.procedure t b with
    ⟨-, same, -⟩ | ⟨join, -, ipdom, -, -, same⟩
  · rw [same]
    refine ⟨mem_addNew.2 (.inr anchored.rendered), ?_, anchored.exits⟩
    intro join dominates fresh exits
    exact anchored.outer join dominates (fun old => fresh (mem_addNew.2 (.inr old))) exits
  · rw [same]
    refine ⟨mem_addNew.2 (.inr anchored.rendered), ?_, ?_⟩
    · intro join dominates fresh exits
      obtain ⟨entry, listed, shallow, beyond⟩ :=
        anchored.outer join dominates (fun old => fresh (mem_addNew.2 (.inr old))) exits
      exact ⟨entry, .tail _ listed, shallow, beyond⟩
    · intro entry listed deep
      rcases List.mem_cons.1 listed with rfl | old
      · -- The block can reach the end, and the test can reach the block.
        have exits : s.procedure.CanExit b := (Procedure.ipdom?_eq_some_iff.1 ipdom).reached
        exact exits.of_reaches (fits.ready.sound.reachable test anchored.rendered) (fits.reaches test mem)
      · exact anchored.exits entry old deep

theorem Fits.inside_started (fits : s.Fits t b) : s.Inside (t.started s.procedure b needed) b where
  within := fits.ready.started_within
  reaches := fits.reaches
  anchored test mem := by
    rw [Traversal.started, Traversal.printIf_eq]
    exact (fits.anchored_begun mem).withPrinted _
  pending := by
    intro x jumped
    have deferred (later : t.isDeferred x = true) : (t.started s.procedure b needed).isDeferred x = true := by
      obtain ⟨depth, listed⟩ := Traversal.isDeferred_iff.1 later
      rw [Traversal.isDeferred_iff, Traversal.started_frontier]
      rcases Traversal.begun_cases s.procedure t b with ⟨-, same, -⟩ | ⟨join, -, -, -, -, same⟩
      · exact ⟨depth, by rw [same]; exact listed⟩
      · exact ⟨depth, by rw [same]; exact .tail _ listed⟩
    rw [Traversal.started_jumpTargets] at jumped
    rcases fits.pending x jumped with rendered | later | outside | rfl
    · exact .inl (Traversal.mem_started_rendered.2 (.inr rendered))
    · exact .inr (.inl (deferred later))
    · exact .inr (.inr outside)
    · exact .inl (Traversal.mem_started_rendered.2 (.inl rfl))

theorem Fits.fits_join (fits : s.Fits t b) (valid : s.Valid) (ipdom : s.procedure.analysis.ipdom? b = some join)
    (fresh : join ∉ (t.render b).rendered) (free : t.isDeferred join = false) (inside : s.Inside t' b)
    (frontier : t'.frontier = (join, t'.openExits.length) :: t.frontier) :
    s.home join = s.home b ∧ s.Fits (t'.undefer join) join := by
  have ready := fits.ready
  have ne : join ≠ b := by
    rintro rfl
    exact fresh (mem_addNew.2 (.inl rfl))
  have absent : join ∉ t.rendered := fun old => fresh (mem_addNew.2 (.inr old))
  have home : s.home join = s.home b := by
    rcases valid.homes.join b join inside.reachable ipdom with same | dominates | ⟨d, other, dominates, joins⟩
    · exact same
    · rcases ready.dominators dominates with same | old
      · exact absurd same ne
      · exact absurd old absent
    · have rendered := (ready.dominators dominates).resolve_left other
      rcases ready.sound.joins d rendered join joins with old | deferred | same
      · exact absurd old absent
      · simp [free] at deferred
      · exact absurd (Option.some.inj same).symm ne
  obtain ⟨sound, rest, outer⟩ := inside.within.sound.undefer frontier
  have deferred {x : BlockId} (later : t'.isDeferred x = true) : x = join ∨ (t'.undefer join).isDeferred x = true := by
    obtain ⟨depth, listed⟩ := Traversal.isDeferred_iff.1 later
    rw [frontier] at listed
    rcases List.mem_cons.1 listed with same | older
    · exact .inl (congrArg (·.1) same)
    · exact .inr (Traversal.isDeferred_iff.2 ⟨depth, rest ▸ older⟩)
  have listed : (join, t'.openExits.length) ∈ t'.frontier := by simp [frontier]
  refine ⟨home, ⟨sound, inside.within.sound.fresh _ listed, rest ▸ outer,
    .inr ⟨b, inside.within.rendered, .inr ipdom⟩⟩, ?_, ?_, ?_⟩
  · intro test mem
    exact (fits.reaches test (home ▸ mem)).trans (Procedure.reaches_of_ipdom? ipdom)
  · intro test mem
    have anchored := inside.anchored test (home ▸ mem)
    refine ⟨anchored.rendered, ?_, ?_⟩
    · intro other dominates new exits
      obtain ⟨entry, known, shallow, beyond⟩ := anchored.outer other dominates new exits
      rw [frontier] at known
      rcases List.mem_cons.1 known with rfl | older
      · exact absurd shallow (lt_irrefl _)
      · exact ⟨entry, rest ▸ older, shallow, beyond⟩
    · intro entry known
      exact anchored.exits entry (frontier ▸ .tail _ (rest ▸ known))
  · intro x jumped
    rcases inside.pending x jumped with rendered | later | outside
    · exact .inl rendered
    · rcases deferred later with same | later
      · exact .inr (.inr (.inr same))
      · exact .inr (.inl later)
    · exact .inr (.inr (.inl outside))

theorem Valid.joinLines_meets (valid : s.Valid) (renders : s.Renders recurse bound) (fits : s.Fits t b)
    {goal : Nat → Resume → Prop} {code : Code} (reached : s.Reached b (t.started s.procedure b needed) t' goal code)
    (enough : t'.unrendered s.procedure ≤ bound) :
    Yields (Emitter.joinLines recurse b ((t.render b).joinOf s.procedure b)) t' fun lines t'' =>
      ((t.render b).joinOf s.procedure b = none → lines = []) ∧
      ∃ codes, Gives (Line.tokens lines) codes ∧ s.Rendered t t'' b ∧ t'.Grows t'' ∧
        Means s.function s.name t'.printed t''.printed t''.jumpTargets (s.Next (s.home b) t)
          (s.Next (s.home b) (t.started s.procedure b needed)) (Code.sequence codes) := by
  have grows : t.Grows t' := Traversal.grows_started.trans reached.keeps.toGrows
  have rendered := reached.inside.within.rendered
  have openExits : t'.openExits = t.openExits := by
    rw [reached.keeps.openExits, Traversal.started_openExits]
  have frontier : t'.frontier = (t.begun s.procedure b).frontier := by
    rw [reached.keeps.frontier, Traversal.started_frontier]
  rcases Traversal.begun_cases s.procedure t b with
    ⟨none, same, -⟩ | ⟨join, some, ipdom, fresh, free, same⟩
  · rw [none]
    have kept : t'.frontier = t.frontier := by
      rw [frontier, same]
      rfl
    have next : s.Next (s.home b) (t.started s.procedure b needed) = s.Next (s.home b) t := by
      rw [← next_keeps reached.keeps, next_congr kept openExits]
    apply Meets.pure
    refine ⟨fun _ => rfl, [], Gives.nil, ⟨{ grows with frontier := kept, openExits := openExits },
      reached.inside.within.sound, reached.inside.pending, rendered⟩, .refl t', ?_⟩
    rw [next]
    exact Means.skip
  · rw [some]
    have head : t'.frontier = (join, t'.openExits.length) :: t.frontier := by
      rw [frontier, same, openExits]
    obtain ⟨home, joinFits⟩ := fits.fits_join valid ipdom fresh free reached.inside head
    have rest : (t'.undefer join).frontier = t.frontier := (reached.inside.within.sound.undefer head).2.1
    unfold Emitter.joinLines
    apply Meets.update
    apply Meets.traversal
    rw [if_neg (by simpa [Traversal.isRendered] using joinFits.ready.fresh)]
    apply (renders (t'.undefer join) join false joinFits enough).mono
    rintro lines t'' ⟨done, code', ⟨codes, rfl, gives⟩, means⟩
    have grows' : t'.Grows t'' := { done.keeps.toGrows with }
    refine ⟨by simp, codes, gives, ⟨{ grows.trans grows' with
        frontier := done.keeps.frontier.trans rest, openExits := done.keeps.openExits.trans openExits },
      done.sound, done.pending, done.keeps.rendered rendered⟩, grows', ?_⟩
    rw [home, next_congr rest openExits] at means
    apply means.mono (.refl _) (fun _ _ next => next)
    intro least resume follows
    rw [← next_keeps reached.keeps, Next, head]
    simpa [Option.filter] using follows.arrives

theorem Valid.labelLines_meets (valid : s.Valid) (fits : s.Fits t b) :
    Yields (if needed then s.emitter.labelLines b else pure []) (t.begun s.procedure b)
      fun lines t' => t' = t.started s.procedure b needed ∧ (needed = false → lines = []) ∧ ∃ codes,
        Gives (Line.tokens lines) codes ∧ ∀ targets,
          Means s.function s.name t.printed (t.started s.procedure b needed).printed targets
            (Follows s.function b) (Follows s.function b) (Code.sequence codes) := by
  cases needed with
  | false =>
    apply Meets.pure
    refine ⟨rfl, fun _ => rfl, [], Gives.nil, fun targets => ?_⟩
    rw [Traversal.started, Traversal.printIf, if_neg (by simp), Traversal.begun_printed]
    exact Means.skip
  | true =>
    simp only [if_true]
    unfold Emitter.labelLines
    apply Meets.of_except _ fun _ _ => trivial
    intro text found
    obtain rfl := valid.name_of_label found
    apply Meets.noteLabel
    apply Meets.pure
    refine ⟨rfl, by simp, [.label (s.name b)], ?_, ?_⟩
    · have token := Token.ofText_label (valid.branches.isWord_labelText s.base s.pass b)
      simp only [Line.tokens_cons, Line.text, token, Line.tokens_nil, List.append_nil]
      exact (GivesOne.of_add fun r => rfl).gives
    · intro targets
      apply Means.single
      apply Means.label
      · exact Traversal.mem_started_printed.2 (.inl ⟨rfl, rfl⟩)
      · intro c mem fresh
        exact ((Traversal.mem_started_printed.1 mem).resolve_right fresh).2
      · exact fun old => fits.ready.fresh (fits.ready.sound.printed old)

theorem Continues.reads {braced opened : Bool} {comment label lines rest join : List Line}
    {t'' : Traversal} {code : Code} {front : List Token} {labelCodes codes joinCodes : List Code}
    (continues : s.Continues (braced && !opened) b last t' rest t'' code)
    (silent : Line.tokens comment = []) (givesLabel : Gives (Line.tokens label) labelCodes)
    (tokens : Line.tokens lines = front ++ s.function.exitTokens s.name last) (gives : Gives front codes)
    (givesJoin : Gives (Line.tokens join) joinCodes) (wanted : opened = true → braced = true)
    (slim : braced = true → opened = false → label = [] ∧ lines = [] ∧ join = []) :
    let printed := label ++ [] ++ lines ++ rest
    let content := printed ++ (if braced && !opened && Line.allSilent printed then [Line.emptyStmt] else []) ++ join
    ∃ code', Reads braced (Line.tokens (comment ++
        if opened then .openBrace :: content ++ [.closeBrace] else content)) code' ∧
      code'.Alike (.seq (Code.sequence labelCodes) (.seq (Code.sequence codes)
        (.seq code (Code.sequence joinCodes)))) := by
  intro printed content
  by_cases slot : (braced && !opened) = true
  · obtain ⟨rfl, rfl⟩ : braced = true ∧ opened = false := by simpa using slot
    obtain ⟨rfl, rfl, rfl⟩ := slim rfl rfl
    obtain ⟨rfl, -⟩ := List.append_eq_nil_iff.1 tokens.symm
    obtain rfl := givesLabel.eq_nil
    obtain rfl := gives.eq_nil
    obtain rfl := givesJoin.eq_nil
    have same : printed = rest := by simp [printed]
    refine ⟨code, ?_, ⟨by simp [Code.labels], by simp [Code.enter, Code.run], by simp [Code.run]⟩⟩
    simp only [content, same, Line.tokens_append, silent, List.nil_append, Bool.false_eq_true, if_false,
      Bool.not_false, Bool.and_true, Bool.true_and, List.append_nil]
    rcases continues.fills rfl with ⟨rfl, rfl⟩ | one
    · simp only [Line.allSilent, List.all_nil, if_true, Line.tokens_cons, Line.tokens_nil, Line.text,
        Token.ofText_emptyStmt, List.nil_append, List.append_nil]
      exact GivesOne.reads (GivesOne.of_add fun r => rfl)
    · have audible : Line.allSilent rest = false := by
        rw [Bool.eq_false_iff]
        exact fun quiet => GivesOne.ne_nil one (Line.tokens_of_allSilent quiet)
      simpa [audible] using one
  · rw [Bool.not_eq_true] at slot
    obtain ⟨after, rfl, givesAfter⟩ := continues.gives slot
    have whole : Gives (Line.tokens content) (labelCodes ++ (codes ++ (after ++ joinCodes))) := by
      simp only [content, printed, slot, Bool.false_and, Bool.false_eq_true, if_false, List.append_nil,
        Line.tokens_append, tokens, List.append_assoc]
      apply givesLabel.append
      apply gives.append
      rw [← List.append_assoc]
      exact givesAfter.append givesJoin
    refine ⟨Code.sequence (labelCodes ++ (codes ++ (after ++ joinCodes))), ?_, ⟨?_, ?_, ?_⟩⟩
    · rw [Line.tokens_append, silent, List.nil_append]
      cases opened with
      | true =>
        obtain rfl := wanted rfl
        simpa [Line.text, Token.ofText_openBrace, Token.ofText_closeBrace] using whole.braces.reads
      | false =>
        obtain rfl : braced = false := by simpa using slot
        exact ⟨_, rfl, whole⟩
    · simp [Code.labels_sequence, Code.labels]
    · simp [Code.enter_sequence_append, Code.run_sequence_append, Code.enter, Code.run]
    · simp [Code.run_sequence_append, Code.run]

theorem Valid.freshBlock_meets (valid : s.Valid) (renders : s.Renders recurse bound) (braced : Bool)
    (has : s.function.HasBlock b body last) (exit : last.instr.isExit) (fits : s.Fits t b)
    (enough : (t.render b).unrendered s.procedure ≤ bound) :
    Yields (s.emitter.freshBlock recurse b braced) t fun lines t' => s.Rendered t t' b ∧ ∃ code,
      Reads braced (Line.tokens lines) code ∧
      Means s.function s.name t.printed t'.printed t'.jumpTargets (s.Next (s.home b) t)
        (Follows s.function b) code := by
  unfold Emitter.freshBlock
  apply Meets.update
  apply Meets.of_ok (FunctionOf.classified_kinds valid.branches.plain b)
  refine Meets.bind ?_
  apply (Emitter.deferJoin_meets (e := s.emitter) rfl).mono
  rintro deferred begun ⟨rfl, rfl⟩
  extract_lets terminator loopTest
  apply Meets.traversal
  apply Meets.of_except _ fun _ _ => trivial
  intro needed _
  extract_lets opened
  have noCopies : opened = (braced && (((t.render b).joinOf s.procedure b).isSome || terminator.isSome ||
      needed)) := by
    simp [opened, FunctionOf.emitter, Copies.saved, Copies.tail]
  apply Meets.bind_ite
  apply (valid.labelLines_meets fits).mono
  rintro label t' ⟨rfl, unlabelled, labelCodes, givesLabel, meansLabel⟩
  apply (valid.branches.bodyLines_meets has exit valid.assigned).andThen
  rintro lines t' ⟨rfl, bodyEmpty, front, tokens, gives⟩
  apply Meets.bind
  have slim (isBraced : braced = true) (closed : opened = false) :
      ((t.render b).joinOf s.procedure b = none ∧ s.procedure.ending b = none) ∧ needed = false := by
    rw [noCopies, isBraced] at closed
    simp only [Bool.true_and, Bool.or_eq_false_iff, Option.isSome_eq_false_iff, Option.isNone_iff_eq_none] at closed
    exact closed
  have free (slot : (braced && !opened) = true) : s.procedure.ending b = none := by
    rw [Bool.and_eq_true, Bool.not_eq_true'] at slot
    exact (slim slot.1 slot.2).1.2
  have enough' : (t.started s.procedure b needed).unrendered s.procedure ≤ bound :=
    Traversal.started_unrendered.trans_le enough
  apply (valid.continuation_meets renders has fits.inside_started enough' (braced && !opened) _ exit free).mono
  rintro ⟨rest, deferred⟩ t' ⟨rfl, code, continues⟩
  refine Meets.bind ?_
  apply (valid.joinLines_meets renders fits continues.reached
    (continues.reached.keeps.unrendered_le.trans enough')).mono
  rintro join t'' ⟨joinEmpty, joinCodes, givesJoin, rendered, grows, meansJoin⟩
  apply Meets.pure
  refine ⟨rendered, ?_⟩
  have silent : Line.tokens (if s.emitter.verbose = true then
      [Line.comment (toString "Basic block " ++ toString (s.emitter.procedure.number b))] else []) = [] := by
    have token := FunctionOf.ofText_blockComment b
    rw [show s.emitter.procedure.number b = b from FunctionOf.number_eq b]
    split
    · rw [Line.tokens_cons, Line.tokens_nil, List.append_nil]
      exact token
    · rfl
  obtain ⟨code', reads, alike⟩ := continues.reads silent givesLabel tokens gives givesJoin
    (by rw [noCopies]; simp +contextual) fun isBraced closed => by
      obtain ⟨⟨noJoin, noStatement⟩, noLabel⟩ := slim isBraced closed
      exact ⟨unlabelled noLabel, bodyEmpty noStatement, joinEmpty noJoin⟩
  refine ⟨code', reads, Means.congr ?_ alike⟩
  have injective : Function.Injective s.name := valid.branches.labelText_injective
  have later := grows.printed
  have middle := continues.reached.keeps.printed
  have within := continues.reached.means.mono grows.jumpTargets (fun _ _ next => next) fun _ _ leaves => leaves
  apply (meansLabel t''.jumpTargets).seq injective Traversal.grows_started.printed (List.Subset.trans middle later)
  apply (Means.statements has).seq injective (.refl _) (List.Subset.trans middle later)
  exact within.seq injective middle later meansJoin

end Reflow.Setting
