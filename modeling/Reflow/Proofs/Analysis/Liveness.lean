import Reflow.Proofs.Analysis

namespace Reflow

namespace Ascending

theorem insert_ascending (n : Nat) {ns : List Nat} (ascending : ns.Pairwise (· < ·)) :
    (insert (fun a b => a < b) n ns).Pairwise (· < ·) := by
  induction ns with
  | nil => simp [insert]
  | cons m ns ih =>
    obtain ⟨least, rest⟩ := List.pairwise_cons.1 ascending
    rw [insert]
    split
    · rename_i before
      have before : n < m := by simpa using before
      refine List.pairwise_cons.2 ⟨fun k mem => ?_, ascending⟩
      rcases List.mem_cons.1 mem with rfl | mem
      · exact before
      · exact before.trans (least k mem)
    · split
      · rename_i behind
        have behind : m < n := by simpa using behind
        refine List.pairwise_cons.2 ⟨fun k mem => ?_, ih rest⟩
        rcases (mem_insert (by simp only [decide_eq_false_iff_not]; omega) n k ns).1 mem with rfl | mem
        · exact behind
        · exact least k mem
      · exact ascending

theorem nats_ascending (ns : List Nat) : (nats ns).Pairwise (· < ·) := by
  induction ns with
  | nil => exact List.Pairwise.nil
  | cons n ns ih => exact insert_ascending n ih

end Ascending

namespace Liveness

variable {table : List (BlockId × List Var)} {b c : BlockId} {vars : List Var}

@[simp]
theorem map_fst_put : (put table b vars).map Prod.fst = table.map Prod.fst := by
  rw [put, List.map_map]
  refine List.map_congr_left fun entry _ => ?_
  by_cases here : entry.1 = b <;> simp [here]

theorem listed_put_self (mem : b ∈ table.map Prod.fst) : listed (put table b vars) b = vars := by
  induction table with
  | nil => simp at mem
  | cons entry table ih =>
    obtain ⟨d, old⟩ := entry
    by_cases here : b = d
    · simp [listed, put, here]
    · have later : b ∈ table.map Prod.fst := by simpa [here] using mem
      have differs : (b == d) = false := by simpa using here
      simpa [listed, put, Ne.symm here, List.lookup_cons, differs] using ih later

theorem listed_put_of_ne (ne : c ≠ b) : listed (put table b vars) c = listed table c := by
  induction table with
  | nil => rfl
  | cons entry _ ih =>
    rw [listed, listed, put] at ih
    rw [listed, listed, put, List.map_cons]
    obtain ⟨d, old⟩ := entry
    by_cases here : d = b
    · subst here
      have differs : (c == d) = false := by simpa using ne
      simpa [List.lookup_cons, differs] using ih
    · by_cases same : c = d
      · subst same
        simp [here]
      · have differs : (c == d) = false := by simpa using same
        simpa [here, List.lookup_cons, differs] using ih

theorem forall_mem_put {property : List Var → Prop} (old : ∀ entry ∈ table, property entry.2) (new : property vars) :
    ∀ entry ∈ put table b vars, property entry.2 := by
  intro entry mem
  obtain ⟨found, here, rfl⟩ := List.mem_map.1 mem
  split
  · exact new
  · exact old found here

theorem table_ext {other : List (BlockId × List Var)} (nodup : (table.map Prod.fst).Nodup)
    (blocks : other.map Prod.fst = table.map Prod.fst)
    (ascending : ∀ entry ∈ table, entry.2.Pairwise (· < ·)) (ascending' : ∀ entry ∈ other, entry.2.Pairwise (· < ·))
    (same : ∀ b ∈ table.map Prod.fst, ∀ v, v ∈ listed other b ↔ v ∈ listed table b) : other = table := by
  induction table generalizing other with
  | nil => simpa using blocks
  | cons entry table ih =>
    obtain ⟨b, vars⟩ := entry
    cases other with
    | nil => simp at blocks
    | cons entry' other =>
      obtain ⟨b', vars'⟩ := entry'
      rw [List.map_cons, List.map_cons] at blocks
      obtain ⟨rfl, rest⟩ : b' = b ∧ other.map Prod.fst = table.map Prod.fst := List.cons.inj blocks
      obtain ⟨outside, nodup'⟩ := List.nodup_cons.1 nodup
      have first : vars' = vars := by
        refine List.Pairwise.eq_of_mem_iff (ascending' _ (.head _)) (ascending _ (.head _)) ?_
        simpa [listed] using same b' (.head _)
      have others : other = table := by
        refine ih nodup' rest (fun entry mem => ascending entry (.tail _ mem))
          (fun entry mem => ascending' entry (.tail _ mem)) fun c mem v => ?_
        have differs : (c == b') = false := by
          simp only [beq_eq_false_iff_ne, ne_eq]
          rintro rfl
          exact outside mem
        simpa [listed, List.lookup_cons, differs] using same c (.tail _ mem) v
      rw [first, others]

theorem settle_eq_iterate {accesses : List Access} (fuel : Nat) (live : Liveness) :
    settle accesses fuel live = (sweep accesses)^[fuel] live := by
  induction fuel generalizing live with
  | zero => rfl
  | succ fuel ih =>
    rw [settle]
    split
    · rename_i same
      exact (Function.iterate_fixed same _).symm
    · rw [ih, Function.iterate_succ_apply]

end Liveness

namespace Procedure

open Liveness

variable {p : Procedure} {b c : BlockId} {v : Var} {nodes : List BlockId} {live : Liveness} {n : Nat}

def Defines (p : Procedure) (b : BlockId) (v : Var) : Prop :=
  (∃ phi ∈ p.phis b, phi.var = v) ∨ ∃ stmt ∈ p.stmts b, v ∈ stmt.defs

def ReadsFirst (p : Procedure) (b : BlockId) (v : Var) : Prop :=
  (∀ phi ∈ p.phis b, phi.var ≠ v) ∧
    ∃ before stmt after, p.stmts b = before ++ stmt :: after ∧ v ∈ stmt.uses ∧ ∀ earlier ∈ before, v ∉ earlier.defs

def PassesOn (p : Procedure) (b : BlockId) (v : Var) : Prop :=
  ∃ succ ∈ p.succs b, ∃ phi ∈ p.phis succ, phi.isVirtual = false ∧ phi.incomingFrom b = some v

theorem mem_access_defined : v ∈ (p.access b).defined ↔ p.Defines b v := by
  simp [access, Defines]

theorem mem_readFirst (defined : List Var) (stmts : List Stmt) : v ∈ readFirst defined stmts ↔ v ∉ defined ∧
    ∃ before stmt after, stmts = before ++ stmt :: after ∧ v ∈ stmt.uses ∧ ∀ earlier ∈ before, v ∉ earlier.defs := by
  induction stmts generalizing defined with
  | nil => simp [readFirst]
  | cons stmt stmts ih =>
    rw [readFirst, List.mem_append, List.mem_filter, ih]
    constructor
    · rintro (⟨read, fresh⟩ | ⟨fresh, before, stmt', after, rfl, read, unwritten⟩)
      · exact ⟨by simpa using fresh, [], stmt, stmts, rfl, read, by simp⟩
      · rw [List.mem_append, not_or] at fresh
        exact ⟨fresh.2, stmt :: before, stmt', after, rfl, read, List.forall_mem_cons.2 ⟨fresh.1, unwritten⟩⟩
    · rintro ⟨fresh, before, stmt', after, split, read, unwritten⟩
      cases before with
      | nil =>
        obtain ⟨rfl, rfl⟩ := List.cons.inj split
        exact .inl ⟨read, by simpa using fresh⟩
      | cons _ before =>
        obtain ⟨rfl, rfl⟩ := List.cons.inj split
        obtain ⟨here, earlier⟩ := List.forall_mem_cons.1 unwritten
        exact .inr ⟨by simp [here, fresh], before, stmt', after, rfl, read, earlier⟩

theorem mem_access_reads : v ∈ (p.access b).reads ↔ p.ReadsFirst b v := by
  rw [access, mem_readFirst, ReadsFirst]
  simp

theorem mem_access_edgeReads : v ∈ (p.access b).edgeReads ↔ p.PassesOn b v := by
  simp [access, edgeReads, PassesOn]

def LiveAlong (p : Procedure) (v : Var) (b : BlockId) (nodes : List BlockId) : Prop :=
  ∃ last, p.flow.Path b last nodes ∧ (∀ c ∈ nodes.dropLast, ¬ p.Defines c v) ∧
    (p.ReadsFirst last v ∨ ¬ p.Defines last v ∧ p.PassesOn last v)

def LiveOnEntry (p : Procedure) (b : BlockId) (v : Var) : Prop :=
  ∃ nodes, p.LiveAlong v b nodes

def LiveAtEnd (p : Procedure) (b : BlockId) (v : Var) : Prop :=
  p.PassesOn b v ∨ ∃ succ ∈ p.succs b, p.LiveOnEntry succ v

theorem LiveAlong.here (read : p.ReadsFirst b v ∨ ¬ p.Defines b v ∧ p.PassesOn b v) : p.LiveAlong v b [b] :=
  ⟨b, .single b, by simp, read⟩

theorem LiveAlong.step (kept : ¬ p.Defines b v) (edge : c ∈ p.succs b) (along : p.LiveAlong v c nodes) :
    p.LiveAlong v b (b :: nodes) := by
  obtain ⟨last, path, unwritten, read⟩ := along
  refine ⟨last, .step edge path, ?_, read⟩
  rw [List.dropLast_cons_of_ne_nil (List.ne_nil_of_mem path.left_mem)]
  exact List.forall_mem_cons.2 ⟨kept, unwritten⟩

theorem LiveAlong.first (along : p.LiveAlong v b nodes) : (p.ReadsFirst b v ∨ ¬ p.Defines b v ∧ p.PassesOn b v) ∨
      ¬ p.Defines b v ∧ ∃ succ ∈ p.succs b, ∃ rest, nodes = b :: rest ∧ p.LiveAlong v succ rest := by
  obtain ⟨last, path, unwritten, read⟩ := along
  cases path with
  | single => exact .inl read
  | @step _ succ _ rest edge path =>
    rw [List.dropLast_cons_of_ne_nil (List.ne_nil_of_mem path.left_mem)] at unwritten
    obtain ⟨kept, later⟩ := List.forall_mem_cons.1 unwritten
    exact .inr ⟨kept, succ, edge, rest, rfl, last, path, later, read⟩

theorem LiveAtEnd.onEntry (live : p.LiveAtEnd b v) (kept : ¬ p.Defines b v) : p.LiveOnEntry b v := by
  rcases live with passes | ⟨succ, edge, nodes, along⟩
  · exact ⟨_, .here (.inr ⟨kept, passes⟩)⟩
  · exact ⟨_, along.step kept edge⟩

theorem LiveAlong.exists_short (along : p.LiveAlong v b nodes) (reach : p.Reachable b) :
    ∃ short, p.LiveAlong v b short ∧ short.length ≤ p.analysis.order.length := by
  obtain ⟨last, path, unwritten, read⟩ := along
  obtain ⟨short, path', nodup, subset⟩ := path.exists_nodup
  refine ⟨short, ⟨last, path', fun c mem => unwritten c ?_, read⟩, ?_⟩
  · -- The last block stands nowhere else on the short path.
    have ends {nodes : List BlockId} (path : p.flow.Path b last nodes) : nodes = nodes.dropLast ++ [last] := by
      rcases path.eq_single_or_last with ⟨-, rfl⟩ | ⟨-, before, -, -, rfl⟩ <;> simp
    have inner : c ≠ last := by
      rintro rfl
      rw [ends path'] at nodup
      exact (List.nodup_append.1 nodup).2.2 c mem c (.head _) rfl
    have visited := subset (List.dropLast_subset _ mem)
    rw [ends path] at visited
    exact (List.mem_append.1 visited).resolve_right (by simpa using inner)
  · have listed : short ⊆ p.analysis.order := by
      intro c mem
      refine mem_order_iff.2 (path'.forall_mem reach ?_ c mem)
      exact fun a reached d edge => reached.trans (.of_edge edge)
    exact (nodup.subperm listed).length_le

/-- What holds of the tables during the sweeps: all they have is live, and they have what is live along paths of at most
`n` blocks. -/
structure Approaches (p : Procedure) (n : Nat) (live : Liveness) : Prop where
  insBlocks : live.ins.map Prod.fst = p.analysis.order
  outsBlocks : live.outs.map Prod.fst = p.analysis.order
  insAscending : ∀ entry ∈ live.ins, entry.2.Pairwise (· < ·)
  outsAscending : ∀ entry ∈ live.outs, entry.2.Pairwise (· < ·)
  insSound : ∀ b v, v ∈ listed live.ins b → p.LiveOnEntry b v
  outsSound : ∀ b v, v ∈ listed live.outs b → p.LiveAtEnd b v
  reaches : ∀ b, p.Reachable b → ∀ v nodes, p.LiveAlong v b nodes → nodes.length ≤ n → v ∈ listed live.ins b

def EndWithin (p : Procedure) (n : Nat) (b : BlockId) (v : Var) : Prop :=
  p.PassesOn b v ∨ ∃ succ ∈ p.succs b, ∃ nodes, p.LiveAlong v succ nodes ∧ nodes.length ≤ n

section Revise

theorem listed_revise_of_ne (ne : c ≠ b) : listed (revise (p.access b) live).ins c = listed live.ins c ∧
      listed (revise (p.access b) live).outs c = listed live.outs c :=
  ⟨listed_put_of_ne ne, listed_put_of_ne ne⟩

variable (approaches : p.Approaches n live) (reach : p.Reachable b)

include approaches reach

theorem Approaches.mem_revise_outs : v ∈ listed (revise (p.access b) live).outs b ↔
    p.PassesOn b v ∨ ∃ succ ∈ p.succs b, v ∈ listed live.ins succ := by
  have mem : b ∈ live.outs.map Prod.fst := approaches.outsBlocks ▸ mem_order_iff.2 reach
  have entry : listed (revise (p.access b) live).outs b =
      Ascending.nats ((p.access b).edgeReads ++ (p.succs b).flatMap (listed live.ins)) := listed_put_self mem
  rw [entry, Ascending.mem_nats, List.mem_append, mem_access_edgeReads, List.mem_flatMap]

theorem Approaches.mem_revise_ins : v ∈ listed (revise (p.access b) live).ins b ↔
    p.ReadsFirst b v ∨ (p.PassesOn b v ∨ ∃ succ ∈ p.succs b, v ∈ listed live.ins succ) ∧ ¬ p.Defines b v := by
  have mem : b ∈ live.ins.map Prod.fst := approaches.insBlocks ▸ mem_order_iff.2 reach
  have entry : listed (revise (p.access b) live).ins b = Ascending.nats ((p.access b).reads ++
      (Ascending.nats ((p.access b).edgeReads ++ (p.succs b).flatMap (listed live.ins))).filter
        (· ∉ (p.access b).defined)) := listed_put_self mem
  rw [entry, Ascending.mem_nats, List.mem_append, mem_access_reads, List.mem_filter, Ascending.mem_nats,
    List.mem_append, mem_access_edgeReads, List.mem_flatMap, decide_eq_true_eq, mem_access_defined]

theorem Approaches.revise : p.Approaches n (Liveness.revise (p.access b) live) ∧
    (∀ v nodes, p.LiveAlong v b nodes → nodes.length ≤ n + 1 → v ∈ listed (Liveness.revise (p.access b) live).ins b) ∧
    ∀ v, p.EndWithin n b v → v ∈ listed (Liveness.revise (p.access b) live).outs b := by
  have further (v : Var) (nodes : List BlockId) (along : p.LiveAlong v b nodes) (short : nodes.length ≤ n + 1) :
      v ∈ listed (Liveness.revise (p.access b) live).ins b := by
    rw [approaches.mem_revise_ins reach]
    rcases along.first with (reads | ⟨kept, passes⟩) | ⟨kept, succ, edge, rest, rfl, along'⟩
    · exact .inl reads
    · exact .inr ⟨.inl passes, kept⟩
    · have found := approaches.reaches succ (reach.succ edge) v rest along' (Nat.le_of_succ_le_succ short)
      exact .inr ⟨.inr ⟨succ, edge, found⟩, kept⟩
  have sound (v : Var) (found : p.PassesOn b v ∨ ∃ succ ∈ p.succs b, v ∈ listed live.ins succ) : p.LiveAtEnd b v := by
    rcases found with passes | ⟨succ, edge, found⟩
    · exact .inl passes
    · exact .inr ⟨succ, edge, approaches.insSound succ v found⟩
  refine ⟨⟨?_, ?_, ?_, ?_, ?_, ?_, ?_⟩, further, ?_⟩
  · rw [Liveness.revise, map_fst_put, approaches.insBlocks]
  · rw [Liveness.revise, map_fst_put, approaches.outsBlocks]
  · exact forall_mem_put approaches.insAscending (Ascending.nats_ascending _)
  · exact forall_mem_put approaches.outsAscending (Ascending.nats_ascending _)
  · intro c v found
    by_cases here : c = b
    · subst here
      rcases (approaches.mem_revise_ins reach).1 found with reads | ⟨ended, kept⟩
      · exact ⟨_, .here (.inl reads)⟩
      · exact (sound v ended).onEntry kept
    · rw [(listed_revise_of_ne here).1] at found
      exact approaches.insSound c v found
  · intro c v found
    by_cases here : c = b
    · subst here
      exact sound v ((approaches.mem_revise_outs reach).1 found)
    · rw [(listed_revise_of_ne here).2] at found
      exact approaches.outsSound c v found
  · intro c reached v nodes along short
    by_cases here : c = b
    · subst here
      exact further v nodes along (by omega)
    · rw [(listed_revise_of_ne here).1]
      exact approaches.reaches c reached v nodes along short
  · intro v ended
    rw [approaches.mem_revise_outs reach]
    rcases ended with passes | ⟨succ, edge, nodes, along, short⟩
    · exact .inl passes
    · exact .inr ⟨succ, edge, approaches.reaches succ (reach.succ edge) v nodes along short⟩

end Revise

def sweepBlocks (p : Procedure) (live : Liveness) : Liveness :=
  Liveness.sweep (p.analysis.order.map p.access) live

theorem Approaches.sweep (approaches : p.Approaches n live) : p.Approaches (n + 1) (p.sweepBlocks live) ∧
      ∀ b, p.Reachable b → ∀ v, p.EndWithin n b v → v ∈ listed (p.sweepBlocks live).outs b := by
  -- The blocks from some place of the order on have been revised.
  have swept (blocks : List BlockId) (reach : ∀ b ∈ blocks, p.Reachable b) :
      p.Approaches n (Liveness.sweep (blocks.map p.access) live) ∧ ∀ b ∈ blocks,
        (∀ v nodes, p.LiveAlong v b nodes → nodes.length ≤ n + 1 →
          v ∈ listed (Liveness.sweep (blocks.map p.access) live).ins b) ∧
        ∀ v, p.EndWithin n b v → v ∈ listed (Liveness.sweep (blocks.map p.access) live).outs b := by
    induction blocks with
    | nil => exact ⟨approaches, by simp⟩
    | cons b _ ih =>
      obtain ⟨here, later⟩ := List.forall_mem_cons.1 reach
      obtain ⟨between, done⟩ := ih later
      obtain ⟨after, first, ended⟩ := between.revise here
      refine ⟨after, fun c mem => ?_⟩
      by_cases same : c = b
      · subst same
        exact ⟨first, ended⟩
      · rw [List.map_cons, Liveness.sweep, List.foldr_cons, (listed_revise_of_ne same).1, (listed_revise_of_ne same).2]
        exact done c ((List.mem_cons.1 mem).resolve_left same)
  obtain ⟨after, done⟩ := swept p.analysis.order fun b => mem_order_iff.1
  have further (b : BlockId) (reach : p.Reachable b) := done b (mem_order_iff.2 reach)
  exact ⟨{ after with reaches := fun b reach => (further b reach).1 },
    fun b reach => (further b reach).2⟩

theorem approaches_start : p.Approaches 0 (start (p.analysis.order.map p.access)) := by
  have ins : (start (p.analysis.order.map p.access)).ins =
      p.analysis.order.map fun b => (b, Ascending.nats (p.access b).reads) := by
    simp [start, access]
  have outs : (start (p.analysis.order.map p.access)).outs = p.analysis.order.map fun b => (b, []) := by
    simp [start, access]
  refine ⟨?_, ?_, ?_, ?_, ?_, ?_, ?_⟩
  · simp [ins, Function.comp_def]
  · simp [outs, Function.comp_def]
  · rw [ins]
    intro entry mem
    obtain ⟨b, -, rfl⟩ := List.mem_map.1 mem
    exact Ascending.nats_ascending _
  · simp [outs]
  · intro b v found
    rw [ins, listed, lookup_map_pair] at found
    split at found
    · exact ⟨_, .here (.inl (mem_access_reads.1 (by simpa using found)))⟩
    · simp at found
  · intro b v found
    rw [outs, listed, lookup_map_pair (fun _ => [])] at found
    split at found <;> simp at found
  · intro b _ v nodes along short
    obtain ⟨last, path, -⟩ := along
    have := path.length_pos
    omega

theorem approaches_iterate (n : Nat) : p.Approaches n (p.sweepBlocks^[n] (start (p.analysis.order.map p.access))) := by
  induction n with
  | zero => exact approaches_start
  | succ n ih =>
    rw [Function.iterate_succ_apply']
    exact ih.sweep.1

section

variable (approaches : p.Approaches n live) (enough : p.analysis.order.length ≤ n)
include approaches enough

theorem Approaches.mem_ins_iff (reach : p.Reachable b) : v ∈ listed live.ins b ↔ p.LiveOnEntry b v := by
  refine ⟨approaches.insSound b v, ?_⟩
  rintro ⟨nodes, along⟩
  obtain ⟨short, along', bound⟩ := along.exists_short reach
  exact approaches.reaches b reach v short along' (bound.trans enough)

theorem Approaches.mem_sweep_outs_iff (reach : p.Reachable b) :
    v ∈ listed (p.sweepBlocks live).outs b ↔ p.LiveAtEnd b v := by
  refine ⟨approaches.sweep.1.outsSound b v, fun ended => approaches.sweep.2 b reach v ?_⟩
  rcases ended with passes | ⟨succ, edge, nodes, along⟩
  · exact .inl passes
  · obtain ⟨short, along', bound⟩ := along.exists_short (reach.succ edge)
    exact .inr ⟨succ, edge, short, along', bound.trans enough⟩

theorem Approaches.sweep_sweep : p.sweepBlocks (p.sweepBlocks live) = p.sweepBlocks live := by
  -- Both tables hold what is live and nothing else, in the same order.
  have once := approaches.sweep.1
  have twice := once.sweep.1
  have ins : (p.sweepBlocks (p.sweepBlocks live)).ins = (p.sweepBlocks live).ins := by
    refine table_ext ?_ (twice.insBlocks.trans once.insBlocks.symm) once.insAscending twice.insAscending ?_
    · rw [once.insBlocks]
      exact order_nodup
    · intro b mem v
      rw [once.insBlocks, mem_order_iff] at mem
      rw [twice.mem_ins_iff (by omega) mem, once.mem_ins_iff (by omega) mem]
  have outs : (p.sweepBlocks (p.sweepBlocks live)).outs = (p.sweepBlocks live).outs := by
    refine table_ext ?_ (twice.outsBlocks.trans once.outsBlocks.symm) once.outsAscending twice.outsAscending ?_
    · rw [once.outsBlocks]
      exact order_nodup
    · intro b mem v
      rw [once.outsBlocks, mem_order_iff] at mem
      rw [once.mem_sweep_outs_iff (by omega) mem, approaches.mem_sweep_outs_iff enough mem]
  exact congrArg₂ Liveness.mk ins outs

end

theorem listed_of_not_reachable {table : List (BlockId × List Var)} (blocks : table.map Prod.fst = p.analysis.order)
    (unreachable : ¬ p.Reachable b) : listed table b = [] := by
  have outside : b ∉ table.map Prod.fst := by rwa [blocks, mem_order_iff]
  have none : table.lookup b = none := by
    rw [List.lookup_eq_none_iff]
    intro entry mem
    rw [bne_iff_ne]
    rintro rfl
    exact outside (List.mem_map_of_mem mem)
  rw [listed, none]
  rfl

theorem analysis_tables (p : Procedure) : ∃ live, p.Approaches p.analysis.order.length live ∧
    p.sweepBlocks^[p.analysis.order.length + 1] (start (p.analysis.order.map p.access)) = p.sweepBlocks live ∧
    p.analysis.liveIns = (p.sweepBlocks live).ins ∧ p.analysis.liveOuts = (p.sweepBlocks live).outs := by
  have sweeps := Function.iterate_succ_apply' p.sweepBlocks p.analysis.order.length
    (start (p.analysis.order.map p.access))
  have tables : ofAccesses (p.analysis.order.map p.access) =
      p.sweepBlocks^[p.analysis.order.length + 1] (start (p.analysis.order.map p.access)) := by
    rw [ofAccesses, settle_eq_iterate, List.length_map]
    rfl
  rw [sweeps] at tables
  exact ⟨_, p.approaches_iterate _, sweeps, congrArg Liveness.ins tables, congrArg Liveness.outs tables⟩

/-- The sweeps come to an end, and then the tables are exact. A variable is live on entry to a block if and only if a
path from it leads, through blocks that do not define the variable, to one that reads it before defining it or keeps it
for a phi behind it; and at the end of a block if such a phi reads it there or it is live on entry to a successor. -/
theorem analysis_liveness (p : Procedure) : (∃ rounds ≤ p.analysis.order.length + 1, ∃ live, p.sweepBlocks live = live ∧
      p.sweepBlocks^[rounds] (start (p.analysis.order.map p.access)) = live ∧
      p.analysis.liveIns = live.ins ∧ p.analysis.liveOuts = live.outs) ∧
    (∀ b, p.Reachable b → ∀ v,
      (v ∈ p.analysis.liveIn b ↔ ∃ last nodes, p.flow.Path b last nodes ∧ (∀ c ∈ nodes.dropLast, ¬ p.Defines c v) ∧
        (p.ReadsFirst last v ∨ ¬ p.Defines last v ∧ p.PassesOn last v)) ∧
      (v ∈ p.analysis.liveOut b ↔ p.PassesOn b v ∨ ∃ succ ∈ p.succs b, v ∈ p.analysis.liveIn succ)) ∧
    ∀ b, ¬ p.Reachable b → p.analysis.liveIn b = [] ∧ p.analysis.liveOut b = [] := by
  obtain ⟨live, complete, sweeps, ins, outs⟩ := p.analysis_tables
  have settled := complete.sweep.1
  have onEntry {b : BlockId} (reach : p.Reachable b) (v : Var) : v ∈ p.analysis.liveIn b ↔ p.LiveOnEntry b v := by
    rw [Facts.liveIn, ins]
    exact settled.mem_ins_iff (Nat.le_succ _) reach
  refine ⟨⟨_, le_refl _, _, complete.sweep_sweep (le_refl _), sweeps, ins, outs⟩, ?_, ?_⟩
  · intro b reach v
    constructor
    · rw [onEntry reach]
      exact exists_comm
    · rw [Analysis.liveOut, outs]
      refine (complete.mem_sweep_outs_iff (le_refl _) reach).trans (or_congr_right ?_)
      exact exists_congr fun succ => and_congr_right fun edge => (onEntry (reach.succ edge) v).symm
  · intro b unreachable
    rw [Facts.liveIn, Analysis.liveOut, ins, outs]
    exact ⟨listed_of_not_reachable settled.insBlocks unreachable,
      listed_of_not_reachable settled.outsBlocks unreachable⟩

end Procedure

end Reflow
