import Mathlib.Data.List.Basic
import Reflow.Analysis
import Reflow.Emit.Basic

namespace Reflow

variable {α β : Type} (k : Nat)

def EmitError.shift : EmitError → EmitError
  | unknownPhiPredecessor phi incoming block => unknownPhiPredecessor (k + phi) incoming block
  | unsupported (.assembly stmt) => unsupported (.assembly (k + stmt))
  | error => error

def shiftResult (change : α → β) : Except EmitError α → Except EmitError β
  | .ok a => .ok (change a)
  | .error cause => .error (cause.shift k)

theorem shiftResult_bind {α' β' : Type} {change : α → α'} {change' : β → β'} {result : Except EmitError α}
    {next : α → Except EmitError β} {next' : α' → Except EmitError β'}
    (same : ∀ a, next' (change a) = shiftResult k change' (next a)) :
    (shiftResult k change result >>= next') = shiftResult k change' (result >>= next) := by
  cases result with
  | ok a => exact same a
  | error => rfl

theorem mapM_shiftResult {α' β' : Type} {change : α → α'} {change' : β → β'} {f : α → Except EmitError β}
    {f' : α' → Except EmitError β'} {as : List α} (same : ∀ a ∈ as, f' (change a) = shiftResult k change' (f a)) :
    (as.map change).mapM f' = shiftResult k (List.map change') (as.mapM f) := by
  induction as with
  | nil => rfl
  | cons a as ih =>
    rw [List.map_cons, List.mapM_cons, List.mapM_cons, same a (.head _), ih fun b mem => same b (.tail _ mem)]
    exact shiftResult_bind k fun b => shiftResult_bind k fun bs => rfl

theorem foldlM_shiftResult {σ : Type} {change : σ → σ} {step step' : σ → α → Except EmitError σ}
    (same : ∀ s a, step' (change s) a = shiftResult k change (step s a)) (as : List α) (s : σ) :
    as.foldlM step' (change s) = shiftResult k change (as.foldlM step s) := by
  induction as generalizing s with
  | nil => rfl
  | cons a as ih =>
    rw [List.foldlM_cons, List.foldlM_cons, same]
    exact shiftResult_bind k fun s => ih s

theorem lookup_shift (g : α → β) (table : List (Var × α)) (v : Var) :
    (table.map fun entry => (k + entry.1, g entry.2)).lookup (k + v) = (table.lookup v).map g := by
  induction table with
  | nil => rfl
  | cons entry _ ih =>
    have same : (k + v == k + entry.1) = (v == entry.1) := Bool.eq_iff_iff.2 (by simp)
    rw [List.map_cons, List.lookup_cons, List.lookup_cons, same, ih]
    cases v == entry.1 <;> rfl

/-! ## Procedures -/

def shiftArm (arm : Option Var × BlockId) : Option Var × BlockId :=
  (arm.1.map (k + ·), arm.2)

def Kind.shift : Kind → Kind
  | conditional cond thenBlock elseBlock => conditional (k + cond) thenBlock elseBlock
  | loop cond body exit => loop (k + cond) body exit
  | multiway arms => multiway (arms.map (shiftArm k))
  | switch selector arms => switch (k + selector) arms
  | kind => kind

def Stmt.shift (stmt : Stmt) : Stmt where
  id := k + stmt.id
  kind := shiftResult k (Kind.shift k) stmt.kind
  uses := stmt.uses.map (k + ·)
  defs := stmt.defs.map (k + ·)

def Phi.shift (phi : Phi) : Phi where
  var := k + phi.var
  isVirtual := phi.isVirtual
  incoming := phi.incoming.map fun (b, v) => (b, k + v)

def Block.shift (block : Block) : Block :=
  { block with
    stmts := block.stmts.map (Stmt.shift k)
    phis := block.phis.map (Phi.shift k) }

def Procedure.shift (p : Procedure) : Procedure :=
  { p with
    blocks := p.blocks.map (Block.shift k)
    varName := fun v => if k ≤ v then p.varName (v - k) else "" }

theorem EmitError.shift_zero (cause : EmitError) : cause.shift 0 = cause := by
  cases cause with
  | unknownPhiPredecessor => simp [shift]
  | unsupported what => cases what <;> simp [shift]
  | _ => rfl

theorem Procedure.shift_zero (p : Procedure) : p.shift 0 = p := by
  have arm : shiftArm 0 = id := funext fun arm => by simp [shiftArm]
  have kind (kind : Kind) : kind.shift 0 = kind := by cases kind <;> simp [Kind.shift, arm]
  have stmt : Stmt.shift 0 = id := funext fun ⟨id, result, uses, defs⟩ => by
    cases result <;> simp [Stmt.shift, shiftResult, kind, EmitError.shift_zero]
  have phi : Phi.shift 0 = id := funext fun phi => by simp [Phi.shift]
  have block : Block.shift 0 = id := funext fun block => by simp [Block.shift, stmt, phi]
  simp [shift, block]

@[simp]
theorem Kind.targets_shift (kind : Kind) : (kind.shift k).targets = kind.targets := by
  cases kind with
  | multiway => simp [shift, targets, Function.comp_def, shiftArm]
  | _ => rfl

@[simp]
theorem Kind.isReal_shift (kind : Kind) : (kind.shift k).isReal = kind.isReal := by
  cases kind <;> rfl

@[simp]
theorem Kind.isBranching_shift (kind : Kind) : (kind.shift k).isBranching = kind.isBranching := by
  cases kind <;> rfl

def shiftStmt (stmt : Stmt × Kind) : Stmt × Kind :=
  (stmt.1.shift k, stmt.2.shift k)

theorem upToLastReal_shift (stmts : List (Stmt × Kind)) :
    upToLastReal (stmts.map (shiftStmt k)) = (upToLastReal stmts).map (shiftStmt k) := by
  rw [upToLastReal, ← List.map_reverse, List.dropWhile_map, ← List.map_reverse]
  simp only [Function.comp_def, shiftStmt, Kind.isReal_shift]
  rfl

theorem filter_printed_shift (stmts : List (Stmt × Kind)) :
    (stmts.map (shiftStmt k)).filter (fun stmt => stmt.2 != .virtual && stmt.2 != .label) =
      (stmts.filter fun stmt => stmt.2 != .virtual && stmt.2 != .label).map (shiftStmt k) := by
  rw [List.filter_map]
  congr 2
  funext stmt
  obtain ⟨stmt, kind⟩ := stmt
  cases kind <;> rfl

theorem Phi.incomingFrom_shift (phi : Phi) (b : BlockId) :
    (phi.shift k).incomingFrom b = (phi.incomingFrom b).map (k + ·) := by
  rw [incomingFrom, incomingFrom, shift]
  induction phi.incoming with
  | nil => rfl
  | cons slot _ ih =>
    rw [List.map_cons, List.lookup_cons, List.lookup_cons, ih]
    cases b == slot.1 <;> rfl

namespace Procedure

variable (p : Procedure) (b : BlockId)

@[simp]
theorem varName_shift (v : Var) : (p.shift k).varName (k + v) = p.varName v := by
  simp [shift]

theorem block?_shift : (p.shift k).block? b = (p.block? b).map (Block.shift k) :=
  List.find?_map ..

@[simp]
theorem blockIds_shift : (p.shift k).blockIds = p.blockIds := by
  simp [blockIds, shift, Function.comp_def, Block.shift]

@[simp]
theorem number_shift : (p.shift k).number b = p.number b := by
  rw [number, number, block?_shift]
  cases p.block? b <;> rfl

@[simp]
theorem label?_shift : (p.shift k).label? b = p.label? b := by
  rw [label?, label?, block?_shift]
  cases p.block? b <;> rfl

@[simp]
theorem stmts_shift : (p.shift k).stmts b = (p.stmts b).map (Stmt.shift k) := by
  rw [stmts, stmts, block?_shift]
  cases p.block? b <;> rfl

@[simp]
theorem succs_shift : (p.shift k).succs b = p.succs b := by
  rw [succs, succs, block?_shift]
  cases p.block? b <;> rfl

@[simp]
theorem preds_shift : (p.shift k).preds b = p.preds b := by
  have into : (p.shift k).blocksInto b = p.blocksInto b := by
    rw [blocksInto, blocksInto, shift, List.filter_map, List.map_map]
    rfl
  rw [preds, preds, block?_shift, into]
  cases p.block? b <;> rfl

@[simp]
theorem phis_shift : (p.shift k).phis b = (p.phis b).map (Phi.shift k) := by
  rw [phis, phis, block?_shift]
  cases p.block? b <;> rfl

@[simp]
theorem inDegree_shift : (p.shift k).inDegree b = p.inDegree b := by
  rw [inDegree, inDegree, preds_shift]
  rfl

theorem classified_shift : (p.shift k).classified b =
    shiftResult k (List.map (shiftStmt k)) (p.classified b) := by
  rw [classified, stmts_shift]
  refine mapM_shiftResult k fun stmt _ => ?_
  change (shiftResult k _ stmt.kind).map _ = shiftResult k _ (stmt.kind.map _)
  cases stmt.kind <;> rfl

theorem lastRealKind_shift :
    (p.shift k).lastRealKind b = shiftResult k (Option.map (Kind.shift k)) (p.lastRealKind b) := by
  rw [lastRealKind, lastRealKind, stmts_shift, ← List.map_reverse]
  induction (p.stmts b).reverse with
  | nil => rfl
  | cons _ _ ih =>
    rw [List.map_cons, firstRealKind, firstRealKind, Stmt.shift, ih]
    refine shiftResult_bind k fun kind => ?_
    rw [Kind.isReal_shift]
    split <;> rfl

theorem endsWithSwitch_shift : (p.shift k).endsWithSwitch b = shiftResult k id (p.endsWithSwitch b) := by
  rw [endsWithSwitch, endsWithSwitch, lastRealKind_shift]
  rcases p.lastRealKind b with cause | _ | kind
  · rfl
  · rfl
  · cases kind <;> rfl

theorem isLoopTest_shift : (p.shift k).isLoopTest b = shiftResult k id (p.isLoopTest b) := by
  rw [isLoopTest, isLoopTest, lastRealKind_shift]
  rcases p.lastRealKind b with cause | _ | kind
  · rfl
  · rfl
  · cases kind <;> rfl

/-! ## Labels -/

theorem explicitTargets_shift (stmts : List (Stmt × Kind)) :
    explicitTargets (stmts.map (shiftStmt k)) = explicitTargets stmts := by
  rw [explicitTargets, List.flatMap_map]
  refine List.flatMap_congr fun stmt _ => ?_
  obtain ⟨stmt, kind⟩ := stmt
  cases kind <;> rfl

theorem assignLabels_shift (pass : Nat) :
    (p.shift k).assignLabels pass = shiftResult k id (p.assignLabels pass) := by
  have each : p.blockIds.mapM (fun b => ((p.shift k).classified b).map fun stmts => (b, stmts)) =
      shiftResult k (List.map fun entry =>
        (entry.1, entry.2.map (shiftStmt k)))
        (p.blockIds.mapM fun b => (p.classified b).map fun stmts => (b, stmts)) := by
    conv_lhs => rw [← List.map_id p.blockIds]
    refine mapM_shiftResult k fun b _ => ?_
    rw [id_eq, classified_shift]
    cases p.classified b <;> rfl
  have text : (p.shift k).labelText pass = p.labelText pass := by
    funext b
    rw [labelText, labelText, label?_shift, number_shift]
  have labelled (b : BlockId) (stmts : List (Stmt × Kind)) : (p.shift k).labelled b (stmts.map (shiftStmt k)) =
        p.labelled b stmts := by
    simp [Procedure.labelled, explicitTargets_shift, List.flatMap_map, shiftStmt]
  rw [assignLabels, assignLabels, blockIds_shift, each, text]
  refine shiftResult_bind k fun blocks => congrArg Except.ok ?_
  simp [List.flatMap_map, labelled, explicitTargets_shift]

end Procedure

theorem Labels.isNeeded_shift (labels : Labels) (p : Procedure) (facts : Facts) (liveIns : List (BlockId × List Var))
    (t : Traversal) (b : BlockId) (loopTest : Bool) :
    labels.isNeeded (p.shift k) { facts with liveIns } t b loopTest =
      shiftResult k id (labels.isNeeded p facts t b loopTest) := by
  have some (preds : List BlockId) : someJumps (p.shift k) { facts with liveIns } t b loopTest preds =
      shiftResult k id (someJumps p facts t b loopTest preds) := by
    induction preds with
    | nil => rfl
    | cons _ _ ih =>
      rw [someJumps, someJumps, p.endsWithSwitch_shift, ih]
      refine shiftResult_bind k fun switches => ?_
      simp only [apply_ite (shiftResult k id)]
      rfl
  rw [isNeeded, isNeeded, p.label?_shift, p.inDegree_shift, p.preds_shift, some]
  simp only [apply_ite (shiftResult k id)]
  rfl

/-! ## Liveness -/

theorem Ascending.nats_shift (ns : List Nat) : nats (ns.map (k + ·)) = (nats ns).map (k + ·) := by
  have insert (n : Nat) (ns : List Nat) : Ascending.insert (fun a b => a < b) (k + n) (ns.map (k + ·)) =
      (Ascending.insert (fun a b => a < b) n ns).map (k + ·) := by
    induction ns with
    | nil => rfl
    | cons m ns ih =>
      simp only [List.map_cons, Ascending.insert, ih, Nat.add_lt_add_iff_left]
      split
      · rfl
      · split <;> rfl
  induction ns with
  | nil => rfl
  | cons n ns ih =>
    rw [List.map_cons, nats, ofList, List.foldr_cons]
    exact (congrArg _ ih).trans (insert n _)

theorem filter_not_mem_shift (vars others : List Var) :
    (vars.map (k + ·)).filter (· ∉ others.map (k + ·)) = (vars.filter (· ∉ others)).map (k + ·) := by
  rw [List.filter_map]
  congr 1
  refine List.filter_congr fun v _ => ?_
  have same : k + v ∈ others.map (k + ·) ↔ v ∈ others := by simp
  simp only [Function.comp_apply, same]

def shiftVars (table : List (BlockId × List Var)) : List (BlockId × List Var) :=
  table.map fun entry => (entry.1, entry.2.map (k + ·))

theorem lookup_shiftVars (table : List (BlockId × List Var)) (b : BlockId) :
    ((shiftVars k table).lookup b).getD [] = ((table.lookup b).getD []).map (k + ·) := by
  induction table with
  | nil => rfl
  | cons entry _ ih =>
    rw [shiftVars, List.map_cons, List.lookup_cons, List.lookup_cons]
    cases b == entry.1 with
    | true => rfl
    | false => exact ih

def Access.shift (a : Access) : Access :=
  { a with
    defined := a.defined.map (k + ·)
    reads := a.reads.map (k + ·)
    edgeReads := a.edgeReads.map (k + ·) }

theorem Procedure.access_shift (p : Procedure) (b : BlockId) : (p.shift k).access b = (p.access b).shift k := by
  have reads (defined : List Var) (stmts : List Stmt) :
      readFirst (defined.map (k + ·)) (stmts.map (Stmt.shift k)) =
        (readFirst defined stmts).map (k + ·) := by
    induction stmts generalizing defined with
    | nil => rfl
    | cons stmt _ ih =>
      have next := ih (stmt.defs ++ defined)
      rw [List.map_append] at next
      rw [List.map_cons, readFirst, readFirst, List.map_append, ← next]
      exact congrArg (· ++ _) (filter_not_mem_shift k ..)
  have edges : (p.shift k).edgeReads b = (p.edgeReads b).map (k + ·) := by
    rw [edgeReads, edgeReads, succs_shift, List.map_flatMap]
    refine List.flatMap_congr fun succ _ => ?_
    rw [phis_shift, List.filterMap_map, List.map_filterMap]
    refine List.filterMap_congr fun phi _ => ?_
    rw [Function.comp_apply, phi.incomingFrom_shift, Phi.shift]
    cases phi.isVirtual <;> rfl
  rw [access, access, edges, succs_shift, phis_shift, stmts_shift]
  have vars : ((p.phis b).map (Phi.shift k)).map (·.var) = ((p.phis b).map (·.var)).map (k + ·) := by
    simp [Phi.shift, Function.comp_def]
  rw [vars, reads, Access.shift, List.flatMap_map, List.map_append, List.map_flatMap]
  rfl

namespace Liveness

def shift (live : Liveness) : Liveness where
  ins := shiftVars k live.ins
  outs := shiftVars k live.outs

theorem shift_injective : Function.Injective (shift k) := by
  have table : Function.Injective (shiftVars k) :=
    List.map_injective_iff.2 fun entry entry' same => by
      obtain ⟨block, vars⟩ := Prod.mk.inj same
      exact Prod.ext block (List.map_injective_iff.2 (fun _ _ => Nat.add_left_cancel) vars)
  intro live live' same
  obtain ⟨ins, outs⟩ := Liveness.mk.inj same
  cases live
  cases live'
  exact congrArg₂ _ (table ins) (table outs)

theorem put_shift (table : List (BlockId × List Var)) (b : BlockId) (vars : List Var) :
    put (shiftVars k table) b (vars.map (k + ·)) = shiftVars k (put table b vars) := by
  rw [put, put, shiftVars, shiftVars, List.map_map, List.map_map]
  refine List.map_congr_left fun entry _ => ?_
  rw [Function.comp_apply, Function.comp_apply]
  split <;> rfl

theorem revise_shift (a : Access) (live : Liveness) :
    revise (a.shift k) (live.shift k) = (revise a live).shift k := by
  have atEnd : (a.shift k).edgeReads ++ (a.shift k).succs.flatMap (listed (live.shift k).ins) =
      (a.edgeReads ++ a.succs.flatMap (listed live.ins)).map (k + ·) := by
    rw [List.map_append, List.map_flatMap]
    exact congrArg _ (List.flatMap_congr fun b _ => lookup_shiftVars k live.ins b)
  have onEntry (vars : List Var) : (a.shift k).reads ++
      (vars.map (k + ·)).filter (· ∉ (a.shift k).defined) =
        (a.reads ++ vars.filter (· ∉ a.defined)).map (k + ·) := by
    rw [List.map_append, ← filter_not_mem_shift]
    rfl
  rw [revise, revise, atEnd, Ascending.nats_shift, onEntry, Ascending.nats_shift]
  exact congrArg₂ Liveness.mk (put_shift k live.ins a.block _) (put_shift k live.outs a.block _)

theorem sweep_shift (accesses : List Access) (live : Liveness) :
    sweep (accesses.map (Access.shift k)) (live.shift k) = (sweep accesses live).shift k := by
  induction accesses with
  | nil => rfl
  | cons a _ ih =>
    rw [sweep, List.map_cons, List.foldr_cons]
    exact (congrArg _ ih).trans (revise_shift k a _)

theorem settle_shift (accesses : List Access) (fuel : Nat) (live : Liveness) :
    settle (accesses.map (Access.shift k)) fuel (live.shift k) = (settle accesses fuel live).shift k := by
  induction fuel generalizing live with
  | zero => rfl
  | succ fuel ih =>
    simp only [settle, sweep_shift, (shift_injective k).eq_iff]
    split
    · rfl
    · exact ih _

theorem ofAccesses_shift (accesses : List Access) :
    ofAccesses (accesses.map (Access.shift k)) = (ofAccesses accesses).shift k := by
  have begins : start (accesses.map (Access.shift k)) = (start accesses).shift k := by
    simp [start, shift, shiftVars, Function.comp_def, Access.shift, Ascending.nats_shift]
  rw [ofAccesses, ofAccesses, List.length_map, begins, settle_shift]

end Liveness

def Facts.shift (facts : Facts) : Facts :=
  { facts with liveIns := shiftVars k facts.liveIns }

theorem Facts.isLiveIn_shift (facts : Facts) (b : BlockId) (v : Var) :
    (facts.shift k).isLiveIn b (k + v) = facts.isLiveIn b v := by
  have listed : (facts.shift k).liveIn b = (facts.liveIn b).map (k + ·) := lookup_shiftVars k facts.liveIns b
  simp [isLiveIn, listed]

/-- The analysis only follows edges, apart from the variables that are live. -/
theorem Procedure.analysis_shift (p : Procedure) :
    (p.shift k).analysis.toFacts = p.analysis.toFacts.shift k := by
  have succs : (p.shift k).succs = p.succs := funext (p.succs_shift k)
  have flow : (p.shift k).flow = p.flow := by
    rw [Procedure.flow, Procedure.flow, succs, shift, List.flatMap_map]
    rfl
  have access : (p.shift k).access = fun b => (p.access b).shift k := funext (p.access_shift k)
  have live (order : List BlockId) : Liveness.ofAccesses (order.map (p.shift k).access) =
      (Liveness.ofAccesses (order.map p.access)).shift k := by
    rw [access, ← Liveness.ofAccesses_shift, List.map_map]
    rfl
  simp only [analysis, flow, live, postDominators, reversedFlow, succs]
  rfl

/-! ## Renamings -/

namespace Rename

def shift (stack : Stack) : Stack :=
  stack.map fun entry => (k + entry.1, entry.2)

theorem top?_shift (stack : Stack) (v : Var) : top? (shift k stack) (k + v) = top? stack v := by
  have found := lookup_shift k id stack v
  rw [Option.map_id_fun, id_eq] at found
  rw [top?, top?, names, names, shift]
  exact congrArg (fun held => (Option.getD held []).head?) found

theorem push_shift (v : Var) (name : String) (stack : Stack) :
    push (k + v) name (shift k stack) = shift k (push v name stack) := by
  induction stack with
  | nil => rfl
  | cons _ _ ih =>
    simp only [shift, List.map_cons, push, Nat.add_left_cancel_iff] at ih ⊢
    split
    · rfl
    · rw [ih, List.map_cons]

theorem pop_shift (v : Var) (stack : Stack) : pop (k + v) (shift k stack) = shift k (pop v stack) := by
  induction stack with
  | nil => rfl
  | cons _ _ ih =>
    simp only [shift, List.map_cons, pop, Nat.add_left_cancel_iff] at ih ⊢
    split
    · split <;> rfl
    · rw [ih, List.map_cons]

def Scope.shift (scope : Scope) : Scope :=
  ⟨Rename.shift k scope.stack, scope.pushed.map (k + ·)⟩

theorem Scope.push_shift (scope : Scope) (v : Var) (name : String) :
    (scope.shift k).push (k + v) name = (scope.push v name).shift k := by
  rw [push, shift, Rename.push_shift]
  rfl

theorem Scope.hasPushed_shift (scope : Scope) (v : Var) :
    (scope.shift k).hasPushed (k + v) = scope.hasPushed v := by
  simp [hasPushed, shift]

theorem Scope.close_shift (scope : Scope) : (scope.shift k).close = Rename.shift k scope.close := by
  obtain ⟨stack, pushed⟩ := scope
  rw [close, close, shift]
  induction pushed generalizing stack with
  | nil => rfl
  | cons _ _ ih =>
    rw [List.map_cons, List.foldl_cons, List.foldl_cons, pop_shift]
    exact ih _

end Rename

/-! ## Copies -/

def Pair.shift (pair : Pair) : Pair :=
  { pair with src := k + pair.src, dest := k + pair.dest }

theorem Procedure.edgePairs_shift (p : Procedure) (b : BlockId) :
    (p.shift k).edgePairs b = shiftResult k (List.map (Pair.shift k)) (p.edgePairs b) := by
  have each (succ : BlockId) (phis : List Phi) : (p.shift k).phiPairs b succ (phis.map (Phi.shift k)) =
        shiftResult k (List.map (Pair.shift k)) (p.phiPairs b succ phis) := by
    induction phis with
    | nil => rfl
    | cons phi phis ih =>
      have unknown : (phi.shift k).incoming.find? (fun slot => slot.1 ∉ p.preds succ) =
          (phi.incoming.find? fun slot => slot.1 ∉ p.preds succ).map fun slot => (slot.1, k + slot.2) :=
        List.find?_map ..
      rw [List.map_cons, phiPairs, phiPairs, p.preds_shift, unknown, ih, phi.incomingFrom_shift]
      change (if phi.isVirtual = true then _ else _) = _
      rw [apply_ite (shiftResult k _)]
      congr 1
      cases phi.incoming.find? fun slot => slot.1 ∉ p.preds succ with
      | some =>
        have reported : (p.shift k).reported (phi.shift k).var = k + p.reported phi.var :=
          Nat.add_left_comm ..
        simp only [Option.map_some, reported]
        rfl
      | none =>
        refine shiftResult_bind k fun pairs => ?_
        cases phi.incomingFrom b <;> rfl
  have all : (p.succs b).mapM (fun succ => (p.shift k).phiPairs b succ ((p.shift k).phis succ)) =
      shiftResult k (List.map (List.map (Pair.shift k)))
        ((p.succs b).mapM fun succ => p.phiPairs b succ (p.phis succ)) := by
    conv_lhs => rw [← List.map_id (p.succs b)]
    refine mapM_shiftResult k fun succ _ => ?_
    rw [id_eq, phis_shift]
    exact each succ _
  rw [edgePairs, edgePairs, succs_shift, all]
  cases (p.succs b).mapM fun succ => p.phiPairs b succ (p.phis succ) with
  | error => rfl
  | ok => exact congrArg Except.ok List.map_flatten.symm

def Temporary.shift (temporary : Temporary) : Temporary :=
  { temporary with like := k + temporary.like }

def Copies.shift (copies : Copies) : Copies :=
  { copies with
    renamings := copies.renamings.map fun entry => (entry.1, Rename.shift k entry.2)
    temporaries := copies.temporaries.map (Temporary.shift k) }

namespace Schedule

def shift (s : Schedule) : Schedule where
  ready := s.ready.map (Pair.shift k)
  blocked := s.blocked.map (Pair.shift k)
  held := s.held.map fun entry => (k + entry.1, entry.2)
  moved := s.moved.map fun entry => (k + entry.1, k + entry.2)
  scope := s.scope.shift k
  copies := s.copies.shift k

variable (p : Procedure) (facts : Facts) (b : BlockId) (s : Schedule) (pair : Pair) (v : Var)

theorem any_src_shift (pairs : List Pair) :
    (pairs.map (Pair.shift k)).any (·.src = k + v) = pairs.any (·.src = v) := by
  simp [List.any_map, Function.comp_def, Pair.shift]

theorem any_dest_shift (pairs : List Pair) :
    (pairs.map (Pair.shift k)).any (·.dest = k + v) = pairs.any (·.dest = v) := by
  simp [List.any_map, Function.comp_def, Pair.shift]

theorem start_shift (pairs : List Pair) (stack : Rename.Stack) (copies : Copies) :
    start (pairs.map (Pair.shift k)) (Rename.shift k stack) (copies.shift k) =
      (start pairs stack copies).shift k := by
  simp only [start, List.partition_eq_filter_filter, List.filter_map]
  simp [shift, Function.comp_def, Pair.shift, Rename.Scope.enter, Rename.Scope.shift]

theorem newTemporary_shift : (s.shift k).newTemporary (p.shift k) (k + v) =
    ((s.newTemporary p v).1, (s.newTemporary p v).2.shift k) := by
  simp only [newTemporary, shift, Copies.shift, List.length_map, List.map_append, List.map_singleton]
  rfl

theorem saveLost_shift : (s.shift k).saveLost (p.shift k) (facts.shift k) b (pair.shift k) =
    (s.saveLost p facts b pair).shift k := by
  have lost : isLost (facts.shift k) b (pair.shift k).dest = isLost facts b pair.dest := by
    simp only [isLost, Pair.shift, facts.isLiveIn_shift]
    rfl
  have pushed : (s.shift k).scope.hasPushed (pair.shift k).dest = s.scope.hasPushed pair.dest :=
    s.scope.hasPushed_shift k pair.dest
  rw [saveLost, saveLost, lost, pushed, apply_ite (shift k)]
  congr 1
  simp only [Pair.shift, newTemporary_shift, p.varName_shift]
  rw [shift, Rename.Scope.push_shift]
  rfl

theorem sourceName_shift : (s.shift k).sourceName (p.shift k) (k + v) = s.sourceName p v := by
  have held : (s.shift k).held.lookup (k + v) = s.held.lookup v := by
    rw [shift]
    simpa using lookup_shift k id s.held v
  have moved : (s.shift k).moved.lookup (k + v) = (s.moved.lookup v).map (k + ·) :=
    lookup_shift k _ s.moved v
  rw [sourceName, sourceName, held, moved, p.varName_shift]
  cases s.held.lookup v with
  | some => rfl
  | none =>
    cases s.moved.lookup v with
    | some holder => exact p.varName_shift k holder
    | none => exact congrArg (Option.getD · (p.varName v)) (Rename.top?_shift k s.scope.stack v)

theorem assign_shift : (s.shift k).assign (p.shift k) b (pair.shift k) =
    (s.assign p b pair).shift k := by
  have source : (s.shift k).sourceName (p.shift k) (pair.shift k).src = s.sourceName p pair.src :=
    s.sourceName_shift k p pair.src
  have dest : (p.shift k).varName (pair.shift k).dest = p.varName pair.dest := p.varName_shift k pair.dest
  simp only [assign, source, dest, apply_ite (shift k)]
  congr 1
  have waits : ((s.shift k).addTail b ⟨p.varName pair.dest, s.sourceName p pair.src⟩).blocked.any
      (·.dest = (pair.shift k).src) = s.blocked.any (·.dest = pair.src) := any_dest_shift k pair.src s.blocked
  rw [waits]
  rfl

theorem release_shift : (s.shift k).release (k + v) = (s.release v).shift k := by
  simp only [release, List.partition_eq_filter_filter, shift, List.filter_map, List.map_append]
  simp [Function.comp_def, Pair.shift]

theorem perform_shift : (s.shift k).perform (p.shift k) (facts.shift k) b (pair.shift k) =
    (s.perform p facts b pair).shift k := by
  rw [perform, perform, saveLost_shift, assign_shift]
  exact release_shift k _ pair.src

theorem breakCycle_shift : (s.shift k).breakCycle (p.shift k) b (pair.shift k) =
    (s.breakCycle p b pair).shift k := by
  have waits : (s.shift k).blocked.any (·.src = (pair.shift k).dest) = s.blocked.any (·.src = pair.dest) :=
    any_src_shift k pair.dest s.blocked
  rw [breakCycle, breakCycle, waits, apply_ite (shift k)]
  congr 1
  simp only [Pair.shift, newTemporary_shift, p.varName_shift]
  rfl

theorem runWithin_shift (fuel : Nat) :
    (s.shift k).runWithin (p.shift k) (facts.shift k) b fuel = (s.runWithin p facts b fuel).shift k := by
  induction fuel generalizing s with
  | zero => rfl
  | succ fuel ih =>
    have ready : (s.shift k).ready = s.ready.map (Pair.shift k) := rfl
    have blocked : (s.shift k).blocked = s.blocked.map (Pair.shift k) := rfl
    rw [runWithin, runWithin, ready, blocked]
    cases s.ready with
    | cons pair rest => exact (congrArg _ (perform_shift k p facts b { s with ready := rest } pair)).trans (ih _)
    | nil =>
      cases s.blocked with
      | nil => rfl
      | cons pair rest =>
        have broken := breakCycle_shift k p b { s with ready := [], blocked := rest } pair
        refine Eq.trans ?_ (ih _)
        rw [← perform_shift, ← broken]
        rfl

end Schedule

def CopyWalk.shift (walk : CopyWalk) : CopyWalk :=
  { walk with copies := walk.copies.shift k }

namespace Procedure

variable (p : Procedure) (facts : Facts)

theorem placeCopies_shift (b : BlockId) (stack : Rename.Stack) (walk : CopyWalk) :
    (p.shift k).placeCopies (facts.shift k) b (Rename.shift k stack) (walk.shift k) =
      shiftResult k (Prod.map (Rename.Scope.shift k) (CopyWalk.shift k))
        (p.placeCopies facts b stack walk) := by
  have scheduled : (p.shift k).schedule (facts.shift k) b (Rename.shift k stack) (walk.shift k).copies =
      shiftResult k (Schedule.shift k) (p.schedule facts b stack walk.copies) := by
    rw [schedule, schedule, edgePairs_shift]
    refine shiftResult_bind k fun pairs => congrArg Except.ok ?_
    rw [← Schedule.runWithin_shift, ← Schedule.start_shift, List.length_map]
    rfl
  rw [placeCopies, placeCopies, scheduled]
  refine shiftResult_bind k fun s => congrArg Except.ok ?_
  cases empty : s.scope.stack <;> simp [Schedule.shift, Rename.Scope.shift, Rename.shift, empty, CopyWalk.shift,
    Copies.shift]

theorem walkWithin_shift (fuel : Nat) (state : Rename.Stack × CopyWalk) (b : BlockId) :
    (p.shift k).walkWithin (facts.shift k) fuel (Prod.map (Rename.shift k) (CopyWalk.shift k) state) b =
      shiftResult k (Prod.map (Rename.shift k) (CopyWalk.shift k)) (p.walkWithin facts fuel state b) := by
  induction fuel generalizing state b with
  | zero =>
    rw [walkWithin, walkWithin, apply_ite (shiftResult k _)]
    rfl
  | succ fuel ih =>
    rw [walkWithin, walkWithin, apply_ite (shiftResult k _)]
    congr 1
    refine (congrArg (· >>= _) (p.placeCopies_shift k facts b state.1 state.2)).trans ?_
    refine shiftResult_bind k fun placed => ?_
    have below := foldlM_shiftResult k (ih · ·) (facts.children b) (placed.1.stack, placed.2)
    refine (congrArg (· >>= _) below).trans (shiftResult_bind k fun last => congrArg Except.ok ?_)
    exact Prod.ext (Rename.Scope.close_shift k ⟨last.1, placed.1.pushed⟩) rfl

theorem copies_shift : (p.shift k).copies (facts.shift k) =
    shiftResult k (Copies.shift k) (p.copies facts) := by
  rw [copies, copies]
  refine (congrArg (· >>= _) (p.walkWithin_shift k facts _ ([], {}) p.entry)).trans ?_
  exact shiftResult_bind k fun last => rfl

end Procedure

end Reflow
