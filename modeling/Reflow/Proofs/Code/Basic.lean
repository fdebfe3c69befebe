import Mathlib.Data.Stream.Defs
import Mathlib.Tactic
import Reflow.Error

namespace Reflow

inductive Event
  | ran (text : String)
  | tested (cond : String) (outcome : Bool)
  deriving Repr, DecidableEq

/-- How a run ends: it was cut off, a return was run, control fell off the end of the code, or it went to a place that
the code does not have. -/
inductive Ending
  | cutOff | returned | fellOff | lost
  deriving Repr, DecidableEq

structure Run where
  events : List Event
  ending : Ending
  deriving Repr, DecidableEq

namespace Run

def after (event : Event) (run : Run) : Run :=
  { run with events := event :: run.events }

def GoesOnAs (run longer : Run) : Prop :=
  run.events <+: longer.events ∧ (run.ending ≠ .cutOff → longer = run)

theorem GoesOnAs.refl (run : Run) : run.GoesOnAs run :=
  ⟨List.prefix_rfl, fun _ => rfl⟩

theorem GoesOnAs.after {run longer : Run} (goesOn : run.GoesOnAs longer) (event : Event) :
    (run.after event).GoesOnAs (longer.after event) := by
  constructor
  · exact (List.prefix_cons_inj event).2 goesOn.1
  · intro ended
    rw [goesOn.2 ended]

end Run

/-- Two sequences of longer and longer runs tell the same, possibly endless, story. -/
structure SameRuns (first second : Nat → Run) : Prop where
  forth : ∀ n, ∃ m, (first n).GoesOnAs (second m)
  back : ∀ n, ∃ m, (second n).GoesOnAs (first m)

abbrev Resume := Stream' Bool → Run

namespace Resume

def stop (ending : Ending) : Resume :=
  fun _ => ⟨[], ending⟩

def after (event : Event) (next : Resume) : Resume :=
  fun outcomes => (next outcomes).after event

def test (cond : String) (yes no : Resume) : Resume := fun outcomes =>
  ((if outcomes.head then yes else no) outcomes.tail).after (.tested cond outcomes.head)

def rounds (cond : String) (body : Resume → Resume) (next : Resume) : Nat → Resume
  | 0 => test cond (stop .cutOff) next
  | n + 1 => test cond (body (rounds cond body next n)) next

end Resume

inductive Code
  | skip
  | plain (text : String)
  | ret (text : String)
  | label (name : String)
  | goto (name : String)
  | seq (first second : Code)
  | ite (cond : String) (thenCode elseCode : Code)
  | loop (cond : String) (body : Code)
  deriving Repr, DecidableEq

namespace Code

variable (limit : Nat) (jump : String → Resume)

def run : Code → Resume → Resume
  | skip, next => next
  | plain text, next => .after (.ran text) next
  | ret text, _ => .after (.ran text) (.stop .returned)
  | label _, next => next
  | goto name, _ => jump name
  | seq first second, next => run first (run second next)
  | ite cond thenCode elseCode, next => .test cond (run thenCode next) (run elseCode next)
  | loop cond body, next => .rounds cond (run body) next limit

def enter (name : String) : Code → Resume → Option Resume
  | label name', next => if name' = name then some next else none
  | seq first second, next => (enter name first (run limit jump second next)).or (enter name second next)
  | ite _ thenCode elseCode, next => (enter name thenCode next).or (enter name elseCode next)
  | loop cond body, next => enter name body (run limit jump (loop cond body) next)
  | _, _ => none

def labels : Code → List String
  | label name => [name]
  | seq first second => labels first ++ labels second
  | ite _ thenCode elseCode => labels thenCode ++ labels elseCode
  | loop _ body => labels body
  | _ => []

def jumpIn (program : Code) : Nat → String → Resume
  | 0, _ => .stop .cutOff
  | limit + 1, name =>
    (program.enter limit (jumpIn program limit) name (.stop .fellOff)).getD (.stop .lost)

def runUpTo (program : Code) (limit : Nat) : Resume :=
  program.run limit (program.jumpIn limit) (.stop .fellOff)

def sequence (codes : List Code) : Code :=
  codes.foldr seq skip

structure Alike (code code' : Code) : Prop where
  labels : code.labels = code'.labels
  enter : ∀ limit jump name next, code.enter limit jump name next = code'.enter limit jump name next
  run : ∀ limit jump next, code.run limit jump next = code'.run limit jump next

variable {limit jump}

theorem enter_eq_none {name : String} {code : Code} (next : Resume) (absent : name ∉ code.labels) :
    code.enter limit jump name next = none := by
  induction code generalizing next with
  | label name' =>
    have ne : name' ≠ name := by
      intro same
      exact absent (by simp [labels, same])
    simp [enter, ne]
  | seq _ _ ihFirst ihSecond =>
    simp only [labels, List.mem_append, not_or] at absent
    simp [enter, ihFirst _ absent.1, ihSecond _ absent.2]
  | ite _ _ _ ihThen ihElse =>
    simp only [labels, List.mem_append, not_or] at absent
    simp [enter, ihThen _ absent.1, ihElse _ absent.2]
  | loop _ _ ih => exact ih _ absent
  | _ => rfl

@[simp]
theorem sequence_nil : sequence [] = skip :=
  rfl

@[simp]
theorem sequence_cons (code : Code) (codes : List Code) : sequence (code :: codes) = seq code (sequence codes) :=
  rfl

theorem run_sequence_append (codes more : List Code) (next : Resume) : (sequence (codes ++ more)).run limit jump next =
      (sequence codes).run limit jump ((sequence more).run limit jump next) := by
  induction codes with
  | nil => rfl
  | cons _ _ ih => simp [run, ih]

theorem enter_sequence_append (name : String) (codes more : List Code) (next : Resume) :
    (sequence (codes ++ more)).enter limit jump name next =
      ((sequence codes).enter limit jump name ((sequence more).run limit jump next)).or
        ((sequence more).enter limit jump name next) := by
  induction codes with
  | nil => simp [enter]
  | cons _ _ ih => simp [enter, run_sequence_append, ih, Option.or_assoc]

theorem labels_sequence (codes : List Code) : (sequence codes).labels = codes.flatMap labels := by
  induction codes with
  | nil => rfl
  | cons _ _ ih => simp [labels, ih]

theorem alike_sequence_append (codes more : List Code) :
    Alike (sequence (codes ++ more)) (seq (sequence codes) (sequence more)) where
  labels := by simp [labels_sequence, labels]
  enter _ _ name next := enter_sequence_append name codes more next
  run _ _ next := run_sequence_append codes more next

theorem alike_sequence_singleton (code : Code) : Alike (sequence [code]) code where
  labels := by simp [labels]
  enter := by simp [enter, run]
  run := by simp [run]

end Code

end Reflow
