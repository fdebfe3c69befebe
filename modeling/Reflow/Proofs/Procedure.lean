import Reflow.Emit.Block
import Reflow.Proofs.Analysis

namespace Reflow

theorem upToLastReal_concat (stmts : List (Stmt × Kind)) (stmt : Stmt × Kind) :
    upToLastReal (stmts ++ [stmt]) = if stmt.2.isReal then stmts ++ [stmt] else upToLastReal stmts := by
  unfold upToLastReal
  rw [List.reverse_append, List.reverse_singleton, List.singleton_append, List.dropWhile_cons]
  cases stmt.2.isReal <;> simp

theorem upToLastReal_subset (stmts : List (Stmt × Kind)) : upToLastReal stmts ⊆ stmts := by
  intro stmt mem
  exact List.mem_reverse.1 ((List.dropWhile_sublist _).subset (List.mem_reverse.1 mem))

theorem mem_upToLastReal {stmts : List (Stmt × Kind)} {stmt : Stmt × Kind} (mem : stmt ∈ stmts)
    (real : stmt.2.isReal = true) : stmt ∈ upToLastReal stmts := by
  induction stmts using List.reverseRecOn with
  | nil => simp at mem
  | append_singleton stmts last ih =>
    rw [upToLastReal_concat]
    split
    · exact mem
    · rename_i unreal
      rcases List.mem_append.1 mem with early | final
      · exact ih early
      · rw [← List.mem_singleton.1 final] at unreal
        exact absurd real unreal

theorem Emitter.misplacedArm?_eq_none (first : Var × BlockId) (arms : List (Var × BlockId))
    (otherwise : Option BlockId) :
    misplacedArm? ((some first.1, first.2) :: (arms.map fun arm => (some arm.1, arm.2)) ++
      otherwise.toList.map fun b => (none, b)) = none := by
  have conditional : (arms.map fun arm => ((some arm.1, arm.2) : Option Var × BlockId)).findIdx?
      (fun arm => arm.1.isNone) = none := by
    rw [List.findIdx?_eq_none_iff]
    intro arm mem
    obtain ⟨test, -, rfl⟩ := List.mem_map.1 mem
    rfl
  cases otherwise <;>
    simp [misplacedArm?, List.findIdx?_cons, List.findIdx?_append, conditional]

namespace Procedure

variable {p : Procedure} {b x : BlockId}

theorem firstRealKind_reverse {stmts : List Stmt} {kinds : List (Stmt × Kind)}
    (ok : (stmts.mapM fun stmt => stmt.kind.map fun kind => (stmt, kind)) = .ok kinds) :
    firstRealKind stmts.reverse = .ok ((upToLastReal kinds).getLast?.map (·.2)) := by
  induction stmts using List.reverseRecOn generalizing kinds with
  | nil =>
    obtain rfl : [] = kinds := Except.ok.inj ok
    rfl
  | append_singleton stmts stmt ih =>
    rw [List.mapM_append] at ok
    cases first : stmts.mapM fun stmt => stmt.kind.map fun kind => (stmt, kind) with
    | error =>
      rw [first] at ok
      simp [Bind.bind, Except.bind] at ok
    | ok front =>
      rw [first] at ok
      cases found : stmt.kind with
      | error => simp [found, Except.map, Bind.bind, Except.bind] at ok
      | ok kind =>
        obtain rfl : front ++ [(stmt, kind)] = kinds := by
          simpa [found, Except.map, Bind.bind, Except.bind, Pure.pure, Except.pure] using ok
        rw [List.reverse_append, List.reverse_singleton, List.singleton_append, firstRealKind,
          found, upToLastReal_concat]
        cases real : kind.isReal with
        | true => simp [Bind.bind, Except.bind, real, Pure.pure, Except.pure]
        | false =>
          simp only [Bind.bind, Except.bind, real, Bool.false_eq_true, if_false]
          exact ih first

def kinds (p : Procedure) (b : BlockId) : List (Stmt × Kind) :=
  (p.classified b).toOption.getD []

def ending (p : Procedure) (b : BlockId) : Option Kind :=
  (upToLastReal (p.kinds b)).getLast?.map (·.2)

theorem mem_kinds_of_ending {kind : Kind} (ending : p.ending b = some kind) : ∃ stmt, (stmt, kind) ∈ p.kinds b := by
  obtain ⟨⟨stmt, kind'⟩, last, rfl⟩ := Option.map_eq_some_iff.1 ending
  exact ⟨stmt, upToLastReal_subset _ (List.mem_of_getLast? last)⟩

theorem lastRealKind_eq (ok : p.classified b = .ok (p.kinds b)) : p.lastRealKind b = .ok (p.ending b) :=
  firstRealKind_reverse ok

def isTest (p : Procedure) (b : BlockId) : Bool :=
  match p.ending b with
  | some (.loop ..) => true
  | _ => false

def Switches (p : Procedure) (b : BlockId) : Prop :=
  ∃ selector arms, p.ending b = some (.switch selector arms)

variable {pass : Nat} {labels : Labels}

theorem assignLabels_eq (ok : ∀ b, p.classified b = .ok (p.kinds b)) (pass : Nat) : p.assignLabels pass = .ok {
      texts := (p.blockIds.flatMap fun b => p.labelled b (p.kinds b)).eraseDups.map fun b =>
        (b, p.labelText pass b)
      jumpTargets := p.blockIds.flatMap fun b => explicitTargets (p.kinds b) } := by
  have listed (bs : List BlockId) : (bs.mapM fun b => (p.classified b).map fun stmts => (b, stmts)) =
      .ok (bs.map fun b => (b, p.kinds b)) := by
    induction bs with
    | nil => rfl
    | cons b bs ih =>
      rw [List.mapM_cons, ih, ok b]
      rfl
  rw [assignLabels, listed]
  simp [Bind.bind, Except.bind, Pure.pure, Except.pure, List.flatMap_map]

theorem eq_labelText (ok : ∀ b, p.classified b = .ok (p.kinds b)) (assigned : p.assignLabels pass = .ok labels)
    {text : String} (found : labels.label x = .ok text) : text = p.labelText pass x := by
  rw [assignLabels_eq ok, Except.ok.injEq] at assigned
  subst assigned
  rw [Labels.label, lookup_map_pair] at found
  split at found
  · rename_i same
    split at same
    · obtain rfl := Except.ok.inj found
      exact (Option.some.inj same).symm
    · simp at same
  · simp at found

/-- A procedure whose parts fit together: edges lead to its blocks and are known at both ends, a block goes on where its
last real statement sends control, and the test of a structured loop dominates the body. -/
structure Routed (p : Procedure) : Prop where
  classified : ∀ b, p.classified b = .ok (p.kinds b)
  entry : p.entry ∈ p.blockIds
  known : ∀ b, p.succs b ⊆ p.blockIds
  preds : ∀ x ∈ p.blockIds, ∀ b, b ∈ p.preds x ↔ x ∈ p.succs b
  once : ∀ x ∈ p.blockIds, (p.preds x).Nodup
  label : ∀ b, (p.label? b).isSome → ∃ stmt ∈ p.kinds b, stmt.2 = .label
  loops : ∀ b cond body exit, p.ending b = some (.loop cond body exit) → p.Reachable b →
    body ≠ b ∧ p.Dominates b body
  targets : ∀ b kind, p.ending b = some kind → ∀ x ∈ kind.targets, x ∈ p.succs b
  onward : ∀ b kind, p.ending b = some kind → kind.isBranching = true → ∀ x ∈ p.succs b, x ∈ kind.targets
  falls : ∀ b, (∀ kind, p.ending b = some kind → kind.isBranching = false) → (p.succs b).length ≤ 1
  placed : ∀ b arms, p.ending b = some (.multiway arms) → Emitter.misplacedArm? arms = none
  cases : ∀ b selector arms, p.ending b = some (.switch selector arms) → (arms.map (·.target)).Nodup

namespace Routed

variable (routed : p.Routed)
include routed

theorem isLoopTest_eq (b : BlockId) : p.isLoopTest b = .ok (p.isTest b) := by
  rw [isLoopTest, lastRealKind_eq (routed.classified b)]
  rfl

theorem endsWithSwitch_eq (b : BlockId) :
    ∃ switches, p.endsWithSwitch b = .ok switches ∧ (p.Switches b → switches = true) := by
  rw [endsWithSwitch, lastRealKind_eq (routed.classified b)]
  refine ⟨_, rfl, ?_⟩
  rintro ⟨selector, arms, ending⟩
  rw [ending]

theorem one_lt_inDegree (edge : x ∈ p.succs b) (other : x = p.entry ∨ ∃ c, c ≠ b ∧ x ∈ p.succs c) :
    1 < p.inDegree x := by
  have known := routed.known b edge
  have pred := (routed.preds x known b).2 edge
  rw [inDegree]
  rcases other with entry | ⟨c, ne, second⟩
  · rw [if_pos entry]
    have := List.length_pos_of_mem pred
    omega
  · have both : [b, c] ⊆ p.preds x := by
      simp [pred, (routed.preds x known c).2 second]
    have nodup : [b, c].Nodup := by simpa using Ne.symm ne
    have two := (nodup.subperm both).length_le
    simp only [List.length_cons, List.length_nil] at two
    omega

theorem exists_pred_ne (edge : x ∈ p.succs b) (several : 1 < p.inDegree x) :
    x = p.entry ∨ ∃ c, c ≠ b ∧ x ∈ p.succs c := by
  have known := routed.known b edge
  by_contra none
  push Not at none
  obtain ⟨inner, only⟩ := none
  have subset : p.preds x ⊆ [b] := by
    intro c mem
    by_contra other
    exact only c (by simpa using other) ((routed.preds x known c).1 mem)
  have few := ((routed.once x known).subperm subset).length_le
  rw [inDegree, if_neg inner] at several
  simp only [List.length_singleton] at few
  omega

variable (assigned : p.assignLabels pass = .ok labels)
include assigned

theorem exists_label {c : BlockId} (listed : c ∈ p.blockIds) (labelled : x ∈ p.labelled c (p.kinds c)) :
    ∃ text, labels.label x = .ok text := by
  have mem : x ∈ p.blockIds.flatMap fun b => p.labelled b (p.kinds b) :=
    List.mem_flatMap.2 ⟨c, listed, labelled⟩
  rw [assignLabels_eq routed.classified, Except.ok.injEq] at assigned
  subst assigned
  refine ⟨p.labelText pass x, ?_⟩
  rw [Labels.label, lookup_map_pair, if_pos (by simpa using mem)]

theorem label_of_inDegree (known : x ∈ p.blockIds) (several : 1 < p.inDegree x) :
    ∃ text, labels.label x = .ok text := by
  apply routed.exists_label assigned known
  simp [labelled, several]

theorem label_of_pred (edge : x ∈ p.succs b) (other : x = p.entry ∨ ∃ c, c ≠ b ∧ x ∈ p.succs c) :
    ∃ text, labels.label x = .ok text :=
  routed.label_of_inDegree assigned (routed.known b edge) (routed.one_lt_inDegree edge other)

theorem isExplicitTarget_iff :
    labels.isExplicitTarget x = true ↔ ∃ c ∈ p.blockIds, x ∈ explicitTargets (p.kinds c) := by
  rw [assignLabels_eq routed.classified, Except.ok.injEq] at assigned
  subst assigned
  rw [Labels.isExplicitTarget, decide_eq_true_eq, List.mem_flatMap]

theorem label_of_isExplicitTarget (explicit : labels.isExplicitTarget x = true) :
    ∃ text, labels.label x = .ok text := by
  obtain ⟨c, listed, mem⟩ := (routed.isExplicitTarget_iff assigned).1 explicit
  apply routed.exists_label assigned listed
  simp [labelled, mem]

theorem isExplicitTarget_of_jump (listed : b ∈ p.blockIds) {stmt : Stmt} {targets : List BlockId}
    (jump : (stmt, .jump targets) ∈ p.kinds b) (mem : x ∈ targets) : labels.isExplicitTarget x = true :=
  (routed.isExplicitTarget_iff assigned).2 ⟨b, listed, List.mem_flatMap.2 ⟨_, jump, mem⟩⟩

theorem label_of_repeats (listed : b ∈ p.blockIds) {kind : Kind} (ending : p.ending b = some kind)
    (twice : x ∈ repeats kind.targets) : ∃ text, labels.label x = .ok text := by
  obtain ⟨stmt, mem⟩ := mem_kinds_of_ending ending
  have named : x ∈ (p.kinds b).flatMap fun stmt => repeats stmt.2.targets :=
    List.mem_flatMap.2 ⟨_, mem, twice⟩
  apply routed.exists_label assigned listed
  simp [labelled, named]

end Routed

end Procedure

end Reflow
