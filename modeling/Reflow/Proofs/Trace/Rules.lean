import Reflow.Proofs.Emit.Frontier

namespace Reflow

inductive Way
  | arm
  | otherwise
  | body (exit : BlockId)
  | after
  | case
  | fall (slot : Bool)

namespace Way

def isSingle : Way → Bool
  | .after => false
  | .fall slot => slot
  | _ => true

def isNested : Way → Bool
  | .arm | .otherwise => true
  | .fall slot => slot
  | _ => false

def passed : Way → List Line
  | .arm | .body _ => [.emptyBraces]
  | .case => [.leaveSwitch]
  | _ => []

def around (b : BlockId) (lines : List Line) : Way → List Line
  | .otherwise => .elseBranch b :: lines
  | _ => lines

def leaving : Way → List Line
  | .case => [.leaveSwitch]
  | _ => []

def again (b : BlockId) (lines : List Line) : Way → List Line
  | .otherwise => if lines.isEmpty then [] else [.elseBranch b, .openBrace] ++ lines ++ [.closeBrace]
  | .fall true => if lines.isEmpty then [] else .openBrace :: lines ++ [.closeBrace]
  | _ => lines

def mayReturn : Way → Bool
  | .otherwise | .fall _ => true
  | _ => false

def mayJump : Way → Bool
  | .body _ => false
  | _ => true

def entered (t : Traversal) : Way → Traversal
  | .body exit => t.openLoop exit
  | _ => t

def left (t : Traversal) : Way → Traversal
  | .body _ => t.closeLoop
  | _ => t

end Way

namespace Emitter

open Emission

inductive Task
  | block (b : BlockId) (braced : Bool)
  | edge (b x : BlockId) (way : Way)
  | arms (b : BlockId) (first : Bool) (hinted : List BlockId) (arms : List (Option Var × BlockId))
  | cases (b : BlockId) (deferred : Option BlockId) (arms : List SwitchArm) (deferred' : Option BlockId)
  | rest (b : BlockId) (slot : Bool) (deferred : Option BlockId) (ending : Option Kind) (deferred' : Option BlockId)
  | join (b : BlockId) (deferred : Option BlockId)

variable (e : Emitter)

def StmtLine (b : BlockId) (stmt : Stmt × Kind) (lines : List Line) : Prop :=
  if stmt.2 = .virtual then lines = if e.verbose then [.comment "(removed virtual statement)"] else []
  else ∃ text, e.render stmt.1.id (e.names b) = .ok text ∧ lines = [.stmt b stmt.1.id text]

def StmtLines (b : BlockId) (stmts : List (Stmt × Kind)) (lines : List Line) : Prop :=
  ∃ parts, List.Forall₂ (e.StmtLine b) stmts parts ∧ lines = parts.flatten

inductive BodyLines (b : BlockId) : List (Stmt × Kind) → List Line → Prop
  | empty : BodyLines b [] (e.tailLines b)
  | branching {stmts : List (Stmt × Kind)} {last : Stmt × Kind} {lines lastLines : List Line}
      (branches : last.2.isBranching = true) (before : e.StmtLines b stmts lines) (here : e.StmtLine b last lastLines) :
      BodyLines b (stmts ++ [last]) (lines ++ e.tailLines b ++ lastLines)
  | passing {stmts : List (Stmt × Kind)} {last : Stmt × Kind} {lines lastLines : List Line}
      (passes : last.2.isBranching = false) (before : e.StmtLines b stmts lines) (here : e.StmtLine b last lastLines) :
      BodyLines b (stmts ++ [last]) (lines ++ lastLines ++ e.tailLines b)

def repeated (stmts : List (Stmt × Kind)) : List (Stmt × Kind) :=
  (upToLastReal stmts).dropLast.filter fun stmt => stmt.2 != .virtual && stmt.2 != .label

def HeaderLines (header : BlockId) (lines : List Line) : Prop :=
  ∃ stmts body, e.procedure.classified header = .ok stmts ∧
    List.Forall₂ (fun stmt line => ∃ text, e.render stmt.1.id (e.names header) = .ok text ∧
      line = Line.stmt header stmt.1.id (text ++ "\n")) (repeated stmts) body ∧
    lines = e.saveLines header ++ body ++ e.tailLines header

def IsText (b : BlockId) (stmts : List (Stmt × Kind)) (line : Line) : Prop :=
  ∃ stmt ∈ stmts, stmt.2 ≠ .virtual ∧ ∃ text, e.render stmt.1.id (e.names b) = .ok text ∧ line = .stmt b stmt.1.id text

variable {e} {b : BlockId} {stmts : List (Stmt × Kind)} {lines : List Line} {line : Line}

theorem IsText.of_subset {some : List (Stmt × Kind)} (isText : e.IsText b some line) (all : some ⊆ stmts) :
    e.IsText b stmts line := by
  obtain ⟨stmt, listed, rest⟩ := isText
  exact ⟨stmt, all listed, rest⟩

theorem StmtLines.cases (printed : e.StmtLines b stmts lines) (mem : line ∈ lines) :
    e.IsText b stmts line ∨ line = .comment "(removed virtual statement)" := by
  obtain ⟨parts, each, rfl⟩ := printed
  induction each with
  | nil => simp at mem
  | @cons stmt part stmts parts here later ih =>
    rw [List.flatten_cons] at mem
    rcases List.mem_append.1 mem with inPart | inRest
    · rw [StmtLine] at here
      split at here
      · subst here
        split at inPart
        · exact .inr (List.mem_singleton.1 inPart)
        · simp at inPart
      · rename_i real
        obtain ⟨text, rendered, rfl⟩ := here
        exact .inl ⟨stmt, .head _, real, text, rendered, List.mem_singleton.1 inPart⟩
    · exact (ih inRest).imp (fun isText => isText.of_subset (List.subset_cons_self _ _)) id

theorem BodyLines.cases (printed : e.BodyLines b stmts lines) (mem : line ∈ lines) :
    e.IsText b stmts line ∨ line = .comment "(removed virtual statement)" ∨ line ∈ e.tailLines b := by
  have some {some all : List (Stmt × Kind)} {lines : List Line} (printed : e.StmtLines b some lines)
      (among : some ⊆ all) (mem : line ∈ lines) :
      e.IsText b all line ∨ line = .comment "(removed virtual statement)" ∨ line ∈ e.tailLines b :=
    (printed.cases mem).imp (fun isText => isText.of_subset among) .inl
  have one {stmt : Stmt × Kind} {lines : List Line} (here : e.StmtLine b stmt lines) : e.StmtLines b [stmt] lines :=
    ⟨[lines], .cons here .nil, by simp⟩
  cases printed with
  | empty => exact .inr (.inr mem)
  | branching _ before here =>
    rcases List.mem_append.1 mem with front | last
    · rcases List.mem_append.1 front with first | tail
      · exact some before (by simp) first
      · exact .inr (.inr tail)
    · exact some (one here) (by simp) last
  | passing _ before here =>
    rcases List.mem_append.1 mem with front | tail
    · rcases List.mem_append.1 front with first | last
      · exact some before (by simp) first
      · exact some (one here) (by simp) last
    · exact .inr (.inr tail)

theorem HeaderLines.cases {header : BlockId} (printed : e.HeaderLines header lines) (mem : line ∈ lines) :
    (∃ stmts, e.procedure.classified header = .ok stmts ∧ ∃ stmt ∈ repeated stmts, ∃ text,
      e.render stmt.1.id (e.names header) = .ok text ∧ line = .stmt header stmt.1.id (text ++ "\n")) ∨
    ∃ copy, line = .copy header copy := by
  obtain ⟨stmts, body, ok, each, rfl⟩ := printed
  rcases List.mem_append.1 mem with front | tail
  · rcases List.mem_append.1 front with save | stmt
    · obtain ⟨copy, -, rfl⟩ := List.mem_map.1 save
      exact .inr ⟨copy, rfl⟩
    · obtain ⟨i, lt, rfl⟩ := List.mem_iff_getElem.1 stmt
      have bound : i < (repeated stmts).length := each.length_eq ▸ lt
      exact .inl ⟨stmts, ok, _, List.getElem_mem bound, (List.forall₂_iff_get.1 each).2 i bound lt⟩
  · obtain ⟨copy, -, rfl⟩ := List.mem_map.1 tail
    exact .inr ⟨copy, rfl⟩

variable (e)

def armHead (b : BlockId) : Bool → Option Var → List Line
  | true, _ => []
  | false, none => [.elseBranch b]
  | false, some v => [.elseIf b (e.varName b v)]

def setAside (t : Traversal) (b : BlockId) : Option BlockId :=
  (e.facts.ipdom? b).filter fun join => !((t.render b).isRendered join || t.isDeferred join)

def begun (t : Traversal) (b : BlockId) : Traversal :=
  (e.setAside t b).elim (t.render b) (t.render b).defer

def started (t : Traversal) (b : BlockId) (needed : Bool) (stmts : List (Stmt × Kind)) : Traversal :=
  ((e.begun t b).printIf b needed).printIf b (holdsLabel stmts)

def endOf (stmts : List (Stmt × Kind)) : Option Kind :=
  (upToLastReal stmts).getLast?.map (·.2)

def isLoop : Option Kind → Bool
  | some (.loop ..) => true
  | _ => false

def opens (t : Traversal) (b : BlockId) (braced needed : Bool) (ending : Option Kind) : Bool :=
  braced && ((e.setAside t b).isSome || ending.isSome || needed ||
    !(e.copies.saved b).isEmpty || !(e.copies.tail b).isEmpty)

def mark (b : BlockId) : List Line :=
  if e.verbose then [.comment s!"Basic block {e.procedure.number b}"] else []

def filler (wanted : Bool) (lines : List Line) : List Line :=
  if wanted && Line.allSilent lines then [.emptyStmt] else []

def wrap (opened : Bool) (lines : List Line) : List Line :=
  if opened then .openBrace :: lines ++ [.closeBrace] else lines

def PassesOn : Option Kind → Prop
  | some .plain | some .init | some .virtual | some .label | none => True
  | _ => False

def hintedAt (t : Traversal) (targets : List BlockId) : List BlockId :=
  (targets.filter fun target => !t.isDeferred target && !t.isJumpTarget target).eraseDups

inductive Lays : Task → Traversal → List Line → Traversal → Prop
  | block {t t' t'' : Traversal} {b : BlockId} {braced needed : Bool} {stmts : List (Stmt × Kind)}
      {label : String} {body rest join : List Line} {deferred : Option BlockId}
      (listed : b ∈ e.procedure.blockIds) (fresh : b ∉ t.rendered) (ok : e.procedure.classified b = .ok stmts)
      (decided : e.labels.isNeeded e.procedure e.facts (e.begun t b) b (isLoop (endOf stmts)) = .ok needed)
      (labelled : needed = true → e.labels.label b = .ok label) (printed : e.BodyLines b (upToLastReal stmts) body)
      (follows : Lays (.rest b (braced && !e.opens t b braced needed (endOf stmts)) (e.setAside t b) (endOf stmts)
        deferred) (e.started t b needed (upToLastReal stmts)) rest t')
      (joins : Lays (.join b deferred) t' join t'') :
      Lays (.block b braced) t (e.mark b ++ wrap (e.opens t b braced needed (endOf stmts))
          ((if needed then [.label b label] else []) ++ e.saveLines b ++ body ++ rest ++
            filler (braced && !e.opens t b braced needed (endOf stmts))
              ((if needed then [.label b label] else []) ++ e.saveLines b ++ body ++ rest) ++ join)) t''
  | passed {t : Traversal} {b x : BlockId} {way : Way} (deferred : t.isDeferred x = true) :
      Lays (.edge b x way) t way.passed t
  | joined {t : Traversal} {b x : BlockId} (ipdom : e.facts.ipdom? b = some x) :
      Lays (.edge b x .case) t Way.case.passed t
  | jumped {t : Traversal} {b x : BlockId} {way : Way} {label : String} (may : way.mayJump = true)
      (labelled : e.labels.label x = .ok label) :
      Lays (.edge b x way) t (way.around b [.jump x label way.isNested]) (t.jumpTo x)
  | returned {t : Traversal} {b x : BlockId} {way : Way} {lines : List Line} (may : way.mayReturn = true)
      (feedback : e.facts.isFeedback b x = true) (test : e.procedure.isLoopTest x = .ok true)
      (header : e.HeaderLines x lines) : Lays (.edge b x way) t (way.again b lines) t
  | entered {t t' : Traversal} {b x : BlockId} {way : Way} {lines : List Line}
      (free : t.isDeferred x = false) (inner : Lays (.block x way.isSingle) (way.entered t) lines t') :
      Lays (.edge b x way) t (way.around b lines ++ way.leaving) (way.left t')
  | armsDone {t : Traversal} {b : BlockId} {first : Bool} {hinted : List BlockId} :
      Lays (.arms b first hinted []) t [] t
  | arm {t t' t'' : Traversal} {b x : BlockId} {first : Bool} {hinted : List BlockId} {cond : Option Var}
      {arms : List (Option Var × BlockId)} {lines more : List Line}
      (here : Lays (.edge b x .arm) (arrived t hinted x) lines t')
      (later : Lays (.arms b false (hinted.erase x) arms) t' more t'') :
      Lays (.arms b first hinted ((cond, x) :: arms)) t (e.armHead b first cond ++ lines ++ more) t''
  | elided {t t' : Traversal} {b x : BlockId} {hinted : List BlockId} {arms : List (Option Var × BlockId)}
      {lines : List Line} (ipdom : e.facts.ipdom? b = some x) (deferred : (arrived t hinted x).isDeferred x = true)
      (later : Lays (.arms b false (hinted.erase x) arms) (arrived t hinted x) lines t') :
      Lays (.arms b false hinted ((none, x) :: arms)) t lines t'
  | casesDone {t : Traversal} {b : BlockId} {deferred : Option BlockId} :
      Lays (.cases b deferred [] deferred) t [] t
  | case {t t' t'' : Traversal} {b : BlockId} {deferred deferred' : Option BlockId} {arm : SwitchArm}
      {arms : List SwitchArm} {lines more : List Line} (here : Lays (.edge b arm.target .case) t lines t')
      (later : Lays (.cases b deferred arms deferred') t' more t'') :
      Lays (.cases b deferred (arm :: arms) deferred') t (arm.labels.map .caseLabel ++ lines ++ more) t''
  | claimed {t t' : Traversal} {b : BlockId} {deferred : Option BlockId} {arm : SwitchArm}
      {arms : List SwitchArm} {more : List Line} (default : arm.isDefault = true)
      (ipdom : e.facts.ipdom? b = some arm.target) (idom : e.facts.idom? arm.target = some b)
      (aside : t.isDeferred arm.target = true)
      (later : Lays (.cases b (some arm.target) arms deferred) (t.claim arm.target) more t') :
      Lays (.cases b none (arm :: arms) deferred) t (arm.labels.map .caseLabel ++ [.leaveSwitch] ++ more) t'
  | conditional {t t' t'' : Traversal} {b x y : BlockId} {slot : Bool} {deferred : Option BlockId} {cond : Var}
      {lines more : List Line} (first : Lays (.edge b y .arm) ((hintedAt t [x]).foldl .hint t) lines t')
      (second : Lays (.edge b x .otherwise) (arrived t' (hintedAt t [x]) x) more t'') :
      Lays (.rest b slot deferred (some (.conditional cond y x)) deferred) t (lines ++ more) t''
  | loop {t t' t'' : Traversal} {b body exit : BlockId} {slot : Bool} {deferred : Option BlockId} {cond : Var}
      {lines more : List Line} (inner : Lays (.edge b body (.body exit)) t lines t')
      (outer : Lays (.edge b exit .after) t' more t'') :
      Lays (.rest b slot deferred (some (.loop cond body exit)) deferred) t (lines ++ more) t''
  | multiway {t t' : Traversal} {b : BlockId} {slot : Bool} {deferred : Option BlockId}
      {arms : List (Option Var × BlockId)} {lines : List Line} (ordered : misplacedArm? arms = none)
      (inner : Lays (.arms b true (hintedAt t ((arms.drop 1).map (·.2))) arms)
        ((hintedAt t ((arms.drop 1).map (·.2))).foldl .hint t) lines t') :
      Lays (.rest b slot deferred (some (.multiway arms)) deferred) t lines t'
  | switch {t t' : Traversal} {b : BlockId} {slot : Bool} {deferred deferred' : Option BlockId} {scrutinee : Var}
      {arms : List SwitchArm} {lines : List Line} (inner : Lays (.cases b deferred arms deferred') t lines t') :
      Lays (.rest b slot deferred (some (.switch scrutinee arms)) deferred') t (.openBrace :: lines ++ [.closeBrace]) t'
  | jumps {t : Traversal} {b : BlockId} {slot : Bool} {deferred : Option BlockId} {targets : List BlockId} :
      Lays (.rest b slot deferred (some (.jump targets)) deferred) t [] (targets.foldl .jumpTo t)
  | ends {t : Traversal} {b : BlockId} {slot : Bool} {deferred : Option BlockId} {ending : Option Kind}
      (passes : PassesOn ending) (last : e.procedure.succs b = []) :
      Lays (.rest b slot deferred ending deferred) t [] t
  | falls {t t' : Traversal} {b x : BlockId} {slot : Bool} {deferred : Option BlockId} {ending : Option Kind}
      {lines : List Line} (passes : PassesOn ending) (next : e.procedure.succs b = [x])
      (inner : Lays (.edge b x (.fall slot)) t lines t') :
      Lays (.rest b slot deferred ending deferred) t lines t'
  | noJoin {t : Traversal} {b : BlockId} : Lays (.join b none) t [] t
  | settled {t : Traversal} {b join : BlockId} (rendered : join ∈ t.rendered) (taken : join ∈ t.claimed) :
      Lays (.join b (some join)) t [] (t.undefer join)
  | followed {t t' : Traversal} {b join : BlockId} {lines : List Line} (fresh : join ∉ t.rendered)
      (inner : Lays (.block join false) (t.undefer join) lines t') :
      Lays (.join b (some join)) t lines t'

inductive Drains : Traversal → List Line → Traversal → Prop
  | done {t : Traversal} (none : t.nextPending? = none) : Drains t [] t
  | next {t t' t'' : Traversal} {b : BlockId} {lines more : List Line} (pending : t.nextPending? = some b)
      (here : e.Lays (.block b false) t lines t') (later : Drains t' more t'') : Drains t (lines ++ more) t''

/-- A whole emission: the entry, then the blocks jumped to; in the end all of these have their labels. -/
inductive Writes : List Line → Traversal → Prop
  | whole {t t' : Traversal} {lines more : List Line}
      (entry : e.Lays (.block e.procedure.entry false) {} lines t) (pending : e.Drains t more t')
      (labelled : t'.nextUnlabelled? = none) : Writes (lines ++ more) t'

end Emitter

end Reflow
