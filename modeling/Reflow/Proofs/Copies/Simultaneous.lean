import Reflow.Proofs.Copies.Cycles
import Reflow.Proofs.Copies.Walk
import Reflow.Proofs.Program.View

namespace Reflow

namespace Procedure

variable {p : Procedure} {b succ : BlockId} {pair : Pair} {pairs : List Pair}

def copiesOf (b succ : BlockId) (phis : List Phi) : List Pair :=
  phis.filterMap fun phi =>
    if phi.isVirtual then none else (phi.incomingFrom b).map fun src => ⟨src, phi.var, succ⟩

theorem phiPairs_eq_ok {phis : List Phi} (edges : p.phiPairs b succ phis = .ok pairs) :
    pairs = copiesOf b succ phis := by
  induction phis generalizing pairs with
  | nil => simpa [phiPairs, copiesOf] using edges.symm
  | cons phi phis ih =>
    rw [phiPairs] at edges
    split at edges
    · rename_i isVirtual
      rw [ih edges]
      simp [copiesOf, isVirtual]
    · rename_i real
      split at edges
      · simp at edges
      · cases rest : p.phiPairs b succ phis with
        | error => simp [rest, Bind.bind, Except.bind] at edges
        | ok =>
          obtain rfl := ih rest
          simp only [rest, Bind.bind, Except.bind] at edges
          cases source : phi.incomingFrom b with
          | none | some => simp_all [copiesOf, Pure.pure, Except.pure]

theorem edgePairs_eq_ok (edges : p.edgePairs b = .ok pairs) :
    pairs = (p.succs b).flatMap fun succ => copiesOf b succ (p.phis succ) := by
  rw [edgePairs] at edges
  cases found : (p.succs b).mapM fun succ => p.phiPairs b succ (p.phis succ) with
  | error => simp [found, Except.map] at edges
  | ok lists =>
    obtain rfl : lists.flatten = pairs := by simpa [found, Except.map] using edges
    rw [mapM_eq_ok_map (fun succ _ pairs => phiPairs_eq_ok) found, List.flatMap_def]

structure IsEdgeCopy (p : Procedure) (b : BlockId) (pair : Pair) : Prop where
  edge : pair.target ∈ p.succs b
  phi : ∃ phi ∈ p.phis pair.target, phi.isVirtual = false ∧ phi.var = pair.dest ∧
    phi.incomingFrom b = some pair.src

theorem mem_edgePairs_iff (edges : p.edgePairs b = .ok pairs) : pair ∈ pairs ↔ p.IsEdgeCopy b pair := by
  rw [edgePairs_eq_ok edges]
  simp only [List.mem_flatMap, copiesOf, List.mem_filterMap]
  constructor
  · rintro ⟨succ, edge, phi, listed, copied⟩
    split at copied
    · simp at copied
    · rename_i real
      obtain ⟨src, incoming, rfl⟩ := Option.map_eq_some_iff.1 copied
      exact ⟨edge, phi, listed, by simpa using real, rfl, incoming⟩
  · rintro ⟨edge, phi, listed, real, var, incoming⟩
    refine ⟨pair.target, edge, phi, listed, ?_⟩
    simp [real, incoming, var]

end Procedure

structure AssignsAtOnce (p : Procedure) (pairs : List Pair) (saves : List (BlockId × Copy))
    (temporaries : List Temporary) (lines : List Copy) : Prop where
  assigns : ∀ (α : Type) (env : String → α), (∀ save ∈ saves, env save.2.dest = env save.2.source) →
    ∀ pair ∈ pairs, Copy.runAll env lines (p.varName pair.dest) = env (p.varName pair.src)
  keeps : ∀ (α : Type) (env : String → α) (name : String),
    (∀ pair ∈ pairs, name ≠ p.varName pair.dest) → (∀ temporary ∈ temporaries, name ≠ temporary.name) →
      Copy.runAll env lines name = env name
  once : ∀ pair ∈ pairs, (lines.map (·.dest)).count (p.varName pair.dest) ≤ 1
  fresh : ∀ temporary ∈ temporaries, temporary.name ∉ p.identifiers
  breaks : ∀ cycle, IsolatedCycle pairs cycle →
    ∃! temporary, temporary ∈ temporaries ∧ temporary.like ∈ cycle
  onlyBreaks : ∀ temporary ∈ temporaries, ∃ cycle, IsolatedCycle pairs cycle ∧ temporary.like ∈ cycle

def cycleTemporaries (saves : List (BlockId × Copy)) (temporaries : List Temporary) : List Temporary :=
  temporaries.filter fun temporary => temporary.name ∉ saves.map (·.2.dest)

/-- The walk enters a block, and whenever it does, the tail copies that the block gets assign the phis of its successors
at once, unless a name is in force for one of their variables. -/
structure Procedure.TailAssignsAtOnce (p : Procedure) (facts : Facts) (c : Copies) (b : BlockId) :
    Prop where
  entered : ∃ stack walk, p.EntersBlock facts stack walk b
  atOnce : ∀ stack walk, p.EntersBlock facts stack walk b →
    ∃ pairs s saves temporaries, (∀ pair, pair ∈ pairs ↔ p.IsEdgeCopy b pair) ∧
      p.schedule facts b stack walk.copies = .ok s ∧
      s.copies.saves = walk.copies.saves ++ saves ∧
      s.copies.temporaries = walk.copies.temporaries ++ temporaries ∧
      ((∀ pair ∈ pairs, Rename.top? stack pair.src = none ∧ Rename.top? stack pair.dest = none) →
        AssignsAtOnce p pairs saves (cycleTemporaries saves temporaries) (c.tail b))

namespace Schedule

variable {p : Procedure} {facts : Facts} {b : BlockId} {pairs : List Pair} {stack : Rename.Stack}
  {copies : Copies} {log : Log} {s : Schedule}

theorem Logs.mem_cycleTemporaries_iff {flight : List Pair} (logs : Logs p b pairs stack copies log flight s)
    {temporary : Temporary} :
    temporary ∈ cycleTemporaries log.saves log.temporaries ↔ (temporary.like, temporary.name) ∈ s.held := by
  have saved : log.saves.map (·.2.dest) = log.pushes.reverse.map (·.2) := by
    have dests := congrArg (List.map Copy.dest) logs.pushed
    simpa [List.map_map, Function.comp_def] using dests
  have disjoint := List.disjoint_of_nodup_append (List.map_append ▸ logs.names_nodup)
  rw [cycleTemporaries, List.mem_filter, logs.kinds.mem_iff, saved]
  simp only [List.mem_map, List.mem_append, List.mem_reverse, decide_eq_true_eq, not_exists, not_and]
  constructor
  · rintro ⟨⟨⟨v, t⟩, mem, rfl⟩, unsaved⟩
    exact mem.resolve_right fun pushed => unsaved (v, t) pushed rfl
  · intro held
    refine ⟨⟨_, .inl held, rfl⟩, fun entry pushed same => ?_⟩
    exact disjoint (List.mem_map.2 ⟨_, held, rfl⟩) (List.mem_map.2 ⟨entry, pushed, same⟩)

theorem assignsAtOnce (assignment : Assignment p pairs stack copies)
    (run : s = (start pairs stack copies).runWithin p facts b pairs.length)
    (logs : Logs p b pairs stack copies log [] s) (done : log.done.Perm pairs)
    (unnamed : ∀ pair ∈ pairs, Rename.top? stack pair.src = none) :
    AssignsAtOnce p pairs log.saves (cycleTemporaries log.saves log.temporaries) log.lines where
  assigns := by
    intro α env saved pair mem
    refine (logs.values α env (fun v => env (p.varName v)) ⟨?_, ?_, ?_⟩).1 pair (done.mem_iff.2 mem)
    · intro pair mem
      rw [unnamed pair mem, Option.getD_none]
    · intro v t pushed
      have save : (⟨t, p.varName v⟩ : Copy) ∈ log.saves.map (·.2) := by
        rw [logs.pushed]
        exact List.mem_map.2 ⟨(v, t), List.mem_reverse.2 pushed, rfl⟩
      obtain ⟨entry, listed, same⟩ := List.mem_map.1 save
      have value := saved entry listed
      rwa [same] at value
    · exact fun _ _ _ => rfl
  keeps := by
    intro α env name notDest notTemporary
    refine logs.value_unassigned env (fun v held => ?_) fun pair mem => ?_
    · exact notTemporary ⟨name, v⟩ (logs.mem_cycleTemporaries_iff.2 held) rfl
    · exact notDest pair (done.mem_iff.1 mem)
  once := fun pair _ => List.nodup_iff_count_le_one.1 logs.linesNodup _
  fresh := by
    intro temporary mem known
    have held := logs.mem_cycleTemporaries_iff.1 mem
    exact logs.known_ne (List.mem_append_left _ held) known rfl
  breaks := by
    intro cycle isolated
    obtain ⟨⟨v, t⟩, ⟨held, onCycle⟩, unique⟩ := (run ▸ run_cycles assignment).1 cycle isolated
    refine ⟨⟨t, v⟩, ⟨logs.mem_cycleTemporaries_iff.2 held, onCycle⟩, ?_⟩
    rintro other ⟨mem, onCycle'⟩
    have same := unique _ ⟨logs.mem_cycleTemporaries_iff.1 mem, onCycle'⟩
    obtain ⟨rfl, rfl⟩ := Prod.mk.inj same
    rfl
  onlyBreaks := by
    intro temporary mem
    exact (run ▸ run_cycles assignment).2 _ (logs.mem_cycleTemporaries_iff.1 mem)

end Schedule

namespace Program.FunctionOf

variable {f : Function} {base : Nat} {b : BlockId} {pair : Pair} {pairs : List Pair}

theorem isNamed_of_isEdgeCopy (wf : f.WellFormed) (copy : (f.procedure base).IsEdgeCopy b pair) :
    (∃ name, f.IsNamed pair.src name) ∧ ∃ name, f.IsNamed pair.dest name := by
  obtain ⟨-, phi, listed, -, var, incoming⟩ := copy
  obtain ⟨block, i, source, found, here, rfl, named⟩ := exists_phi_of_mem listed
  refine ⟨?_, source.name, var ▸ named⟩
  have value : Value.phi source ∈ f.values := by
    refine mem_values_of_block found (List.mem_append_left _ ?_)
    exact List.mem_map_of_mem (List.mem_of_getElem? here)
  have read : pair.src ∈ (Value.phi source).reads :=
    List.mem_map.2 ⟨(b, pair.src), mem_of_lookup incoming, rfl⟩
  obtain ⟨value, name, found, named⟩ := wf.reads _ value _ read
  exact ⟨name, value, found, named⟩

theorem phis_vars_nodup (f : Function) (base : Nat) (b : BlockId) :
    (((f.procedure base).phis b).map (·.var)).Nodup := by
  cases found : f.blocks[b]? with
  | none => simp [Procedure.phis, block?_procedure, found]
  | some block =>
    rw [phis_of_get found, List.map_map]
    exact (numberFrom_pairwise (f.blockStart b) block.phis).imp Nat.ne_of_lt

theorem block_of_phi_unique {c : BlockId} {phi phi' : Reflow.Phi} (listed : phi ∈ (f.procedure base).phis b)
    (listed' : phi' ∈ (f.procedure base).phis c) (same : phi.var = phi'.var) : b = c := by
  obtain ⟨block, i, source, found, here, rfl, -⟩ := exists_phi_of_mem listed
  obtain ⟨block', i', source', found', here', rfl, -⟩ := exists_phi_of_mem listed'
  have inBlock {block : Block Nat Nat} {i : Nat} {source : Phi Nat Nat}
      (here : block.phis[i]? = some source) : i < block.values.length := by
    obtain ⟨lt, -⟩ := List.getElem?_eq_some_iff.1 here
    simp only [Block.values, List.length_append, List.length_map]
    omega
  exact (place_unique found found' (inBlock here) (inBlock here') same).1

theorem edgePairs_distinct (wf : f.WellFormed) (edges : (f.procedure base).edgePairs b = .ok pairs) :
    Distinct (f.procedure base) pairs where
  nodup := by
    rw [Procedure.edgePairs_eq_ok edges, List.map_flatMap, List.nodup_flatMap]
    have sublist (succ : BlockId) :
        ((Procedure.copiesOf b succ ((f.procedure base).phis succ)).map (·.dest)).Sublist
          (((f.procedure base).phis succ).map (·.var)) := by
      generalize (f.procedure base).phis succ = phis
      induction phis with
      | nil => simp [Procedure.copiesOf]
      | cons phi phis ih =>
        rw [Procedure.copiesOf] at ih ⊢
        rw [List.filterMap_cons]
        split
        · exact ih.cons _
        · rename_i pair copied
          split at copied
          · simp at copied
          · obtain ⟨src, -, rfl⟩ := Option.map_eq_some_iff.1 copied
            exact ih.cons_cons _
    refine ⟨fun succ _ => (phis_vars_nodup f base succ).sublist (sublist succ), ?_⟩
    refine (succs_nodup f base b).imp fun {first second} ne v mem mem' => ?_
    obtain ⟨phi, listed, rfl⟩ := List.mem_map.1 ((sublist first).subset mem)
    obtain ⟨phi', listed', same⟩ := List.mem_map.1 ((sublist second).subset mem')
    exact ne (block_of_phi_unique listed listed' same.symm)
  known := by
    intro pair mem
    obtain ⟨⟨src, named⟩, dest, named'⟩ :=
      isNamed_of_isEdgeCopy wf ((Procedure.mem_edgePairs_iff edges).1 mem)
    exact ⟨named.valueName_mem, named'.valueName_mem⟩
  injective := by
    intro pair mem q mem'
    obtain ⟨⟨src, named⟩, dest, named'⟩ :=
      isNamed_of_isEdgeCopy wf ((Procedure.mem_edgePairs_iff edges).1 mem)
    obtain ⟨-, other, other'⟩ :=
      isNamed_of_isEdgeCopy wf ((Procedure.mem_edgePairs_iff edges).1 mem')
    have same {v : Var} {name : String} (named : f.IsNamed v name)
        (eq : f.valueName v = f.valueName q.dest) : v = q.dest := by
      rw [named.valueName_eq, other'.valueName_eq] at eq
      exact named.unique wf (eq ▸ other')
    exact ⟨same named, same named'⟩

/-- The tail copies of a block that can be reached, entered without names in force for the variables of its copies,
assign the phis of its successors at once. -/
theorem tail_assignsAtOnce {f : Function} (read : f.IsRead) (base : Nat) {c : Copies}
    (run : (f.procedure base).copies (f.procedure base).analysis.toFacts = .ok c)
    {b : BlockId} (reach : (f.procedure base).Reachable b) :
    (f.procedure base).TailAssignsAtOnce (f.procedure base).analysis.toFacts c b := by
  have distinct (b : BlockId) (pairs : List Pair)
      (edges : (f.procedure base).edgePairs b = .ok pairs) : Distinct (f.procedure base) pairs :=
    edgePairs_distinct read.wellFormed edges
  refine ⟨Procedure.exists_entersBlock run reach, fun stack walk enters => ?_⟩
  obtain ⟨made, names, next, pairs, log, s, places, tail⟩ := enters.places distinct run
  refine ⟨pairs, s, log.saves, log.temporaries, fun pair => Procedure.mem_edgePairs_iff places.edges,
    places.schedule_eq, places.logs.saves, places.logs.temporaries, fun unnamed => ?_⟩
  rw [tail]
  exact Schedule.assignsAtOnce ⟨distinct b pairs places.edges, made⟩ places.run places.logs places.done
    fun pair mem => (unnamed pair mem).1

def swapLoop : Function where
  name := "swap"
  args := ["a", "b"]
  blocks :=
    [⟨"entry", [], [⟨none, .br 1⟩]⟩,
      { name := "loop"
        phis := [⟨"x", false, [(0, 0), (1, 4)]⟩, ⟨"y", false, [(0, 1), (1, 3)]⟩]
        stmts := [⟨some "c", .any []⟩, ⟨none, .condbr 5 1 2⟩] },
     ⟨"exit", [], [⟨none, .ret (some 3)⟩]⟩]

theorem swapLoop_isRead : swapLoop.IsRead :=
  .of_pieces
    ["swap(%a, %b) \x7b\n", "entry:\n br ^loop\n",
      "loop:\n %x = phi [^entry, %a], [^loop, %y]\n",
      " %y = phi [^entry, %b], [^loop, %x]\n %c = any\n condbr %c, ^loop, ^exit\n",
      "exit:\n ret %x\n\x7d\n"] (by decide +kernel)

theorem tail_assignsAtOnce_swapLoop :
    ∃ c, (swapLoop.procedure 0).copies (swapLoop.procedure 0).analysis.toFacts = .ok c ∧
      c.tail 1 = [⟨"__t__0_0", "x"⟩, ⟨"x", "y"⟩, ⟨"y", "__t__0_0"⟩] ∧
      (swapLoop.procedure 0).TailAssignsAtOnce (swapLoop.procedure 0).analysis.toFacts c 1 := by
  refine ⟨_, rfl, ?_, tail_assignsAtOnce swapLoop_isRead 0 rfl ⟨[0, 1], .step ?_ (.single 1)⟩⟩
  · decide +kernel
  · decide

end Program.FunctionOf

end Reflow
