import Reflow.Proofs.Emit.Preservation

namespace Reflow

open Program

theorem Setting.Homes.sameRuns_of_emitBody {s : Setting} (homes : s.Homes) (branches : s.function.Branches)
    (session : Session) (config : Config) {body : Body}
    (emitted : (session.emitBody config s.procedure s.procedure.analysis.toFacts s.function.render).1 =
      .ok body) : ∃ code,
      Code.read? body.text = some code ∧
      ∀ outcomes, SameRuns (code.runUpTo · outcomes) (s.function.follow · 0 outcomes) := by
  obtain ⟨labels, lines, progress, assigned, printed, text⟩ := branches.bare.exists_emit emitted
  -- Neither the labels nor the verbosity of the setting matter to where its blocks stand.
  let here : Setting := { s with
    pass := session.passesOf s.function.name + 1, labels := labels, verbose := config.verbose }
  have valid : here.Valid :=
    ⟨branches, assigned, homes.entry, homes.inner, homes.back, homes.edge, homes.join, homes.pend⟩
  rw [text]
  exact valid.sameRuns config.indent printed

namespace Program.FunctionOf

def coil : Function where
  name := "coil"
  args := ["c", "d", "e"]
  blocks :=
    [⟨"outer", [], [⟨none, .call "outer" []⟩, ⟨none, .loop 0 1 5⟩]⟩,
     ⟨"inner", [], [⟨none, .call "inner" []⟩, ⟨none, .loop 1 2 4⟩]⟩,
     ⟨"body", [], [⟨none, .condbr 2 3 1⟩]⟩,
     ⟨"leave", [], [⟨none, .call "leave" []⟩, ⟨none, .br 5⟩]⟩,
     ⟨"latch", [], [⟨none, .br 0⟩]⟩,
     ⟨"exit", [], [⟨none, .ret none⟩]⟩]

def coilSetting : Setting where
  function := coil
  base := 0
  pass := 1
  labels := ⟨[], []⟩
  verbose := false
  home b := [none, some 0, some 1, some 1, some 0, none][b]?.join

theorem coil_isRead : coil.IsRead :=
  .of_pieces ["coil(%c, %d, %e) \x7b\n", "outer:\n call @outer\n loop %c, ^inner, ^exit\n",
      "inner:\n call @inner\n loop %d, ^body, ^latch\n", "body:\n condbr %e, ^leave, ^inner\n",
      "leave:\n call @leave\n br ^exit\n", "latch:\n br ^outer\n", "exit:\n ret\n\x7d\n"]
    (by decide +kernel)

theorem coil_branches : coil.Branches where
  wellFormed := IsRead.wellFormed coil_isRead
  phis := by decide
  blocks := by
    simp only [coil, List.forall_mem_cons, List.not_mem_nil, false_implies, implies_true, and_true]
    exact ⟨⟨[_], _, rfl, by simp [Instr.isStraight], rfl⟩, ⟨[_], _, rfl, by simp [Instr.isStraight], rfl⟩,
      ⟨[], _, rfl, by simp, rfl⟩, ⟨[_], _, rfl, by simp [Instr.isStraight], rfl⟩, ⟨[], _, rfl, by simp, rfl⟩,
      ⟨[], _, rfl, by simp, rfl⟩⟩

theorem coil_last {b : BlockId} {body : List (Statement Nat Nat)} {last : Statement Nat Nat}
    (has : coil.HasBlock b body last) : b < 6 ∧ coil.blocks[b]?.bind (·.stmts.getLast?) = some last := by
  obtain ⟨block, found, stmts⟩ := has.exists_block
  exact ⟨(List.getElem?_eq_some_iff.1 found).1, by simp [found, stmts]⟩

theorem coil_homes : coilSetting.Homes := by
  have first (b : BlockId) : coilSetting.procedure.Dominates 0 b := Digraph.Dominates.root_dominates b
  have above : (coil.procedure 0).analysis.idom? 2 = some 1 := by decide
  have inner : coilSetting.procedure.Visited 2 1 := .inl (Procedure.idom?_eq_some_iff.1 above).dominates
  have beyond (b : BlockId) : coilSetting.procedure.Visited b 5 := .inr ⟨0, first b, by decide⟩
  have joins : ∀ b ∈ coilSetting.procedure.analysis.order, ∀ x ∈ coilSetting.procedure.analysis.ipdom? b,
      b = 4 ∧ x = 0 ∨ x = 5 := by
    decide
  have forth : coilSetting.procedure.analysis.isFeedback 3 5 = false := by decide
  refine ⟨rfl, ?_, ?_, ?_, ?_, ?_⟩
  · rintro b body last cond x y - has loop
    obtain ⟨known, final⟩ := coil_last has
    interval_cases b <;> obtain rfl := Option.some.inj final <;> simp at loop <;>
      obtain ⟨rfl, rfl, rfl⟩ := loop <;> decide
  · rintro b body last x - has ⟨feedback, implicit, -⟩
    obtain ⟨known, final⟩ := coil_last has
    interval_cases b <;> obtain rfl := Option.some.inj final <;> simp at implicit <;> subst implicit
    · rfl
    · simp [forth] at feedback
    · rfl
  · rintro b body last x - has target other
    obtain ⟨known, final⟩ := coil_last has
    interval_cases b <;> obtain rfl := Option.some.inj final <;> simp [Instr.targets] at target other
    · obtain rfl := target.resolve_left (Ne.symm other)
      exact .inl rfl
    · obtain rfl := target.resolve_left (Ne.symm other)
      exact .inl rfl
    · rcases target with rfl | rfl
      · exact .inl rfl
      · exact .inr inner
    · exact .inr (target ▸ beyond 3)
    · exact .inr (.inl (target ▸ first 4))
  · intro b x reach ipdom
    rcases joins b (Procedure.mem_order_iff.2 reach) x ipdom with ⟨rfl, rfl⟩ | rfl
    · exact .inr (.inl (first 4))
    · by_cases outer : b = 0
      · subst outer
        exact .inl rfl
      · exact .inr (.inr ⟨0, Ne.symm outer, first b, by decide⟩)
  · rintro b body last x - has pends -
    obtain ⟨known, final⟩ := coil_last has
    interval_cases b <;> obtain rfl := Option.some.inj final <;> simp [Setting.MayPend] at pends
    · exact .inr (pends.1 ▸ inner)
    · exact .inr (pends.1 ▸ beyond 3)
    · exact .inr (.inl (pends.1 ▸ first 4))

theorem coil_sameRuns : ∃ body code,
    (Session.emitBody {} {} (coil.procedure 0) (coil.procedure 0).analysis.toFacts coil.render).1 = .ok body ∧
    Code.read? body.text = some code ∧
    ∀ outcomes, SameRuns (code.runUpTo · outcomes) (coil.follow · 0 outcomes) := by
  have works : (Session.emitBody {} {} (coil.procedure 0) (coil.procedure 0).analysis.toFacts
    coil.render).1.isOk = true := by decide +kernel
  obtain ⟨body, emitted⟩ := exists_eq_ok_of_isOk works
  obtain ⟨code, read, same⟩ := coil_homes.sameRuns_of_emitBody coil_branches {} {} emitted
  exact ⟨body, code, emitted, read, same⟩

end Program.FunctionOf

end Reflow
