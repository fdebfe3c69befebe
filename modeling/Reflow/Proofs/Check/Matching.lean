import Mathlib.Tactic
import Reflow.Check.Match

namespace Reflow

theorem Text.occurs_iff {pattern cs : List Char} : occurs pattern cs = true ↔ pattern <:+: cs := by
  induction cs with
  | nil => simp [occurs]
  | cons c cs ih => rw [occurs, Bool.or_eq_true, ih, List.isPrefixOf_iff_prefix, List.infix_cons_iff]

namespace Check

def Directive.sought? : Directive → Option String
  | check pattern | label pattern => some pattern
  | next _ | empty | not _ | comment _ => none

def Directive.isUnanchored : Directive → Bool
  | check _ | label _ | not _ | comment _ => true
  | next _ | empty => false

def sought (directives : List Directive) : List String :=
  directives.filterMap Directive.sought?

variable {lines : List String} {start k n : Nat} {pattern : String} {patterns : List String} {numbers : List Nat}
  {directives : List Directive}
  {position : Nat} {pending : List String}

def StandsAt (lines : List String) (pattern : String) (n : Nat) : Prop :=
  ∃ line, lines[n]? = some line ∧ pattern.toList <:+: line.toList

structure Places (lines : List String) (start : Nat) (patterns : List String) (numbers : List Nat) : Prop where
  ascending : numbers.Pairwise (· < ·)
  starts : ∀ n ∈ numbers, start ≤ n
  stand : List.Forall₂ (StandsAt lines) patterns numbers

structure PlacesFirst (lines : List String) (start : Nat) (patterns : List String) (numbers : List Nat) : Prop
    extends Places lines start patterns numbers where
  least : ∀ others, Places lines start patterns others → List.Forall₂ (· ≤ ·) numbers others

structure StandsFirst (lines : List String) (start : Nat) (pattern : String) (n : Nat) : Prop where
  le : start ≤ n
  stands : StandsAt lines pattern n
  least : ∀ m, start ≤ m → StandsAt lines pattern m → n ≤ m

theorem holds_iff {line : String} : holds pattern line = true ↔ pattern.toList <:+: line.toList :=
  Text.occurs_iff

theorem exists_standsFirst (le : start ≤ n) (stands : StandsAt lines pattern n) :
    ∃ k, StandsFirst lines start pattern k := by
  classical
  have some : ∃ k, start ≤ k ∧ StandsAt lines pattern k := ⟨n, le, stands⟩
  exact ⟨Nat.find some, (Nat.find_spec some).1, (Nat.find_spec some).2,
    fun m le stands => Nat.find_min' some ⟨le, stands⟩⟩

theorem findIdx?_holds_eq_some_iff {skipped : Nat} :
    (lines.drop start).findIdx? (holds pattern) = some skipped ↔ StandsFirst lines start pattern (start + skipped) := by
  rw [List.findIdx?_eq_some_iff_getElem]
  constructor
  · rintro ⟨lt, here, before⟩
    rw [List.length_drop] at lt
    rw [List.getElem_drop] at here
    refine ⟨Nat.le_add_right _ _, ⟨_, List.getElem?_eq_getElem (by omega), holds_iff.1 here⟩, ?_⟩
    rintro m le ⟨line, found, inside⟩
    by_contra less
    obtain ⟨bound, rfl⟩ := List.getElem?_eq_some_iff.1 found
    have absent := before (m - start) (by omega)
    rw [List.getElem_drop] at absent
    simp only [Nat.add_sub_of_le le] at absent
    exact absent (holds_iff.2 inside)
  · rintro ⟨-, ⟨line, found, inside⟩, least⟩
    obtain ⟨bound, rfl⟩ := List.getElem?_eq_some_iff.1 found
    refine ⟨by rw [List.length_drop]; omega, by rw [List.getElem_drop]; exact holds_iff.2 inside, ?_⟩
    intro j less held
    rw [List.getElem_drop] at held
    have := least (start + j) (Nat.le_add_right _ _) ⟨_, List.getElem?_eq_getElem _, holds_iff.1 held⟩
    omega

theorem Places.mono {later : Nat} (places : Places lines later patterns numbers) (le : start ≤ later) :
    Places lines start patterns numbers :=
  { places with starts := fun n mem => le.trans (places.starts n mem) }

theorem places_nil_iff : Places lines start [] numbers ↔ numbers = [] := by
  constructor
  · intro places
    exact List.forall₂_nil_left_iff.1 places.stand
  · rintro rfl
    exact ⟨.nil, by simp, .nil⟩

theorem places_cons_iff : Places lines start (pattern :: patterns) numbers ↔
    ∃ n rest, numbers = n :: rest ∧ start ≤ n ∧ StandsAt lines pattern n ∧ Places lines (n + 1) patterns rest := by
  constructor
  · intro places
    obtain ⟨n, rest, here, others, rfl⟩ := List.forall₂_cons_left_iff.1 places.stand
    obtain ⟨behind, ascending⟩ := List.pairwise_cons.1 places.ascending
    exact ⟨n, rest, rfl, places.starts n (.head _), here, ascending, behind, others⟩
  · rintro ⟨n, rest, rfl, le, here, places⟩
    refine ⟨List.pairwise_cons.2 ⟨places.starts, places.ascending⟩, ?_, .cons here places.stand⟩
    intro m mem
    rcases List.mem_cons.1 mem with rfl | later
    · exact le
    · exact le.trans ((Nat.le_succ n).trans (places.starts m later))

theorem placesFirst_nil_iff : PlacesFirst lines start [] numbers ↔ numbers = [] := by
  refine ⟨fun first => places_nil_iff.1 first.toPlaces, fun none => ⟨places_nil_iff.2 none, ?_⟩⟩
  intro others places
  rw [none, places_nil_iff.1 places]
  exact .nil

theorem StandsFirst.placesFirst_cons_iff (first : StandsFirst lines start pattern k) :
    PlacesFirst lines start (pattern :: patterns) numbers ↔
      ∃ rest, numbers = k :: rest ∧ PlacesFirst lines (k + 1) patterns rest := by
  have prepend {rest : List Nat} (places : Places lines (k + 1) patterns rest) :
      Places lines start (pattern :: patterns) (k :: rest) :=
    places_cons_iff.2 ⟨k, rest, rfl, first.le, first.stands, places⟩
  have moveUp {numbers : List Nat} (places : Places lines start (pattern :: patterns) numbers) :
      ∃ n rest, numbers = n :: rest ∧ k ≤ n ∧ Places lines (k + 1) patterns rest := by
    obtain ⟨n, rest, same, le, here, others⟩ := places_cons_iff.1 places
    have le := first.least n le here
    exact ⟨n, rest, same, le, others.mono (Nat.succ_le_succ le)⟩
  constructor
  · intro leftmost
    obtain ⟨n, rest, rfl, le, others⟩ := moveUp leftmost.toPlaces
    obtain ⟨ge, -⟩ := List.forall₂_cons.1 (leftmost.least _ (prepend others))
    obtain rfl := le.antisymm ge
    exact ⟨rest, rfl, others, fun other places => (List.forall₂_cons.1 (leftmost.least _ (prepend places))).2⟩
  · rintro ⟨rest, rfl, leftmost⟩
    refine ⟨prepend leftmost.toPlaces, fun others places => ?_⟩
    obtain ⟨n, other, rfl, le, later⟩ := moveUp places
    exact .cons le (leftmost.least other later)

theorem Places.exists_placesFirst (places : Places lines start patterns numbers) :
    ∃ firsts, PlacesFirst lines start patterns firsts := by
  induction patterns generalizing start numbers with
  | nil => exact ⟨[], placesFirst_nil_iff.2 rfl⟩
  | cons _ _ ih =>
    obtain ⟨n, rest, -, le, here, others⟩ := places_cons_iff.1 places
    obtain ⟨k, first⟩ := exists_standsFirst le here
    obtain ⟨firsts, leftmost⟩ := ih (others.mono (Nat.succ_le_succ (first.least n le here)))
    exact ⟨k :: firsts, first.placesFirst_cons_iff.2 ⟨firsts, rfl, leftmost⟩⟩

/-- No line from the number `start` on holds a forbidden pattern and lies behind the matches of all directives before it
and in front of the matches of all directives behind it. -/
def Avoids (lines : List String) (start : Nat) (directives : List Directive) (numbers : List Nat) : Prop :=
  ∀ i pattern, directives[i]? = some (.not pattern) →
    ∀ n, start ≤ n → (∀ m ∈ numbers.take (sought (directives.take i)).length, m < n) →
      (∀ m ∈ numbers.drop (sought (directives.take i)).length, n < m) → ¬ StandsAt lines pattern n

def AvoidsBefore (lines : List String) (start : Nat) (patterns : List String) (numbers : List Nat) : Prop :=
  ∀ pattern ∈ patterns, ∀ n, start ≤ n → (∀ m ∈ numbers, n < m) → ¬ StandsAt lines pattern n

theorem avoids_nil : Avoids lines start [] numbers := by
  simp [Avoids]

theorem avoids_comment_cons {text : String} :
    Avoids lines start (.comment text :: directives) numbers ↔ Avoids lines start directives numbers := by
  constructor
  · intro avoids i pattern found
    exact avoids (i + 1) pattern found
  · intro avoids i pattern found
    cases i with
    | zero => cases found
    | succ i => exact avoids i pattern found

theorem avoids_not_cons : Avoids lines start (.not pattern :: directives) numbers ↔
    AvoidsBefore lines start [pattern] numbers ∧ Avoids lines start directives numbers := by
  constructor
  · intro avoids
    refine ⟨fun other mem n le before => ?_, fun i other found => avoids (i + 1) other found⟩
    obtain rfl := List.mem_singleton.1 mem
    exact avoids 0 other rfl n le (by simp [sought]) (by simpa [sought] using before)
  · rintro ⟨here, avoids⟩ i other found
    cases i with
    | zero =>
      obtain rfl := Directive.not.inj (Option.some.inj found)
      exact fun n le _ before => here pattern (.head _) n le (by simpa [sought] using before)
    | succ i => exact avoids i other found

theorem avoids_sought_cons {d : Directive} (seeks : d.sought? = some pattern) (le : start ≤ k) :
    Avoids lines start (d :: directives) (k :: numbers) ↔ Avoids lines (k + 1) directives numbers := by
  have count (i : Nat) :
      (sought ((d :: directives).take (i + 1))).length = (sought (directives.take i)).length + 1 := by
    rw [List.take_succ_cons, sought, List.filterMap_cons_some seeks, List.length_cons]
    rfl
  constructor
  · intro avoids i other found n lt behind before
    refine avoids (i + 1) other found n (by omega) ?_ ?_ <;> rw [count]
    · rw [List.take_succ_cons]
      intro m mem
      rcases List.mem_cons.1 mem with rfl | later
      · exact lt
      · exact behind m later
    · exact before
  · intro avoids i other found n _ behind before
    cases i with
    | zero =>
      obtain rfl := Option.some.inj found
      cases seeks
    | succ i =>
      rw [count, List.take_succ_cons] at behind
      rw [count, List.drop_succ_cons] at before
      exact avoids i other found n (behind k (.head _)) (fun m mem => behind m (.tail _ mem)) before

theorem exists_mem_window_iff (lines : List String) (start count : Nat) (pattern : String) :
    (∃ line ∈ (lines.drop start).take count, pattern.toList <:+: line.toList) ↔
      ∃ n, start ≤ n ∧ n < start + count ∧ StandsAt lines pattern n := by
  constructor
  · rintro ⟨line, mem, inside⟩
    obtain ⟨j, bound, rfl⟩ := List.mem_take_iff_getElem.1 mem
    rw [List.length_drop] at bound
    rw [List.getElem_drop] at inside
    exact ⟨start + j, by omega, by omega, _, List.getElem?_eq_getElem _, inside⟩
  · rintro ⟨n, le, lt, line, found, inside⟩
    obtain ⟨bound, rfl⟩ := List.getElem?_eq_some_iff.1 found
    refine ⟨_, List.mem_take_iff_getElem.2 ⟨n - start, by rw [List.length_drop]; omega, rfl⟩, ?_⟩
    simpa only [List.getElem_drop, Nat.add_sub_of_le le] using inside

theorem avoidsBefore_nil_iff : AvoidsBefore lines start patterns [] ↔
    ∀ pattern ∈ patterns, ∀ line ∈ lines.drop start, ¬ pattern.toList <:+: line.toList := by
  refine forall₂_congr fun pattern _ => ?_
  have window := exists_mem_window_iff lines start lines.length pattern
  rw [List.take_of_length_le (by rw [List.length_drop]; omega)] at window
  have all : (∃ n, start ≤ n ∧ n < start + lines.length ∧ StandsAt lines pattern n) ↔
      ∃ n, start ≤ n ∧ StandsAt lines pattern n := by
    refine exists_congr fun n => and_congr_right fun le => and_iff_right_of_imp ?_
    rintro ⟨line, found, -⟩
    have := (List.getElem?_eq_some_iff.1 found).1
    omega
  simpa using not_congr (all.symm.trans window.symm)

theorem avoidsBefore_cons_iff {skipped : Nat} (later : ∀ m ∈ numbers, start + skipped < m) :
    AvoidsBefore lines start patterns ((start + skipped) :: numbers) ↔
      ∀ pattern ∈ patterns, ∀ line ∈ (lines.drop start).take skipped, ¬ pattern.toList <:+: line.toList := by
  refine forall₂_congr fun pattern _ => ?_
  have front (n : Nat) : (∀ m ∈ (start + skipped) :: numbers, n < m) ↔ n < start + skipped := by
    refine ⟨fun before => before _ (.head _), fun lt m mem => ?_⟩
    rcases List.mem_cons.1 mem with rfl | behind
    · exact lt
    · exact lt.trans (later m behind)
  simp only [front]
  simpa using not_congr (exists_mem_window_iff lines start skipped pattern).symm

theorem result_rejecting {lines : List String} {next : Report} : (rejecting patterns lines next).result = .ok () ↔
      (∀ pattern ∈ patterns, ∀ line ∈ lines, ¬ pattern.toList <:+: line.toList) ∧ next.result = .ok () := by
  have none_iff : forbidden? patterns lines = none ↔
      ∀ pattern ∈ patterns, ∀ line ∈ lines, ¬ pattern.toList <:+: line.toList := by
    simp only [forbidden?, List.findSome?_eq_none_iff, Option.map_eq_none_iff, List.find?_eq_none, holds_iff]
  rw [← none_iff, rejecting]
  cases forbidden? patterns lines with
  | none => simp
  | some => simp [Report.failed]

theorem result_matchLater {mark : String} {lines : List String} {next : Nat → List String → Report} :
    (matchLater mark pattern position patterns lines next).result = .ok () ↔
      ∃ skipped, lines.findIdx? (holds pattern) = some skipped ∧
        (∀ pattern ∈ patterns, ∀ line ∈ lines.take skipped, ¬ pattern.toList <:+: line.toList) ∧
        (next (position + skipped + 1) (lines.drop (skipped + 1))).result = .ok () := by
  rw [matchLater]
  cases lines.findIdx? (holds pattern) with
  | none => simp [Report.failed]
  | some => simp [result_rejecting, Report.noting]

/-- What is left to do at a line: the leftmost lines for the patterns that are left, with the waiting patterns kept out
up to the next match. -/
def Meets (lines : List String) (position : Nat) (pending : List String) (directives : List Directive) : Prop :=
  ∃ numbers, PlacesFirst lines position (sought directives) numbers ∧
    AvoidsBefore lines position pending numbers ∧ Avoids lines position directives numbers

theorem meets_sought_cons_iff {d : Directive} (seeks : d.sought? = some pattern) :
    Meets lines position pending (d :: directives) ↔
      ∃ skipped, StandsFirst lines position pattern (position + skipped) ∧
        (∀ pattern ∈ pending, ∀ line ∈ (lines.drop position).take skipped, ¬ pattern.toList <:+: line.toList) ∧
        Meets lines (position + skipped + 1) [] directives := by
  have patterns : sought (d :: directives) = pattern :: sought directives := List.filterMap_cons_some seeks
  rw [Meets, patterns]
  constructor
  · rintro ⟨numbers, leftmost, before, avoids⟩
    obtain ⟨n, -, -, le, here, -⟩ := places_cons_iff.1 leftmost.toPlaces
    obtain ⟨k, first⟩ := exists_standsFirst le here
    obtain ⟨skipped, rfl⟩ := Nat.exists_eq_add_of_le first.le
    obtain ⟨rest, rfl, others⟩ := first.placesFirst_cons_iff.1 leftmost
    exact ⟨skipped, first, (avoidsBefore_cons_iff others.starts).1 before, rest, others, by simp [AvoidsBefore],
      (avoids_sought_cons seeks first.le).1 avoids⟩
  · rintro ⟨skipped, first, before, rest, others, -, avoids⟩
    exact ⟨(position + skipped) :: rest, first.placesFirst_cons_iff.2 ⟨rest, rfl, others⟩,
      (avoidsBefore_cons_iff others.starts).2 before, (avoids_sought_cons seeks first.le).2 avoids⟩

theorem meets_comment_cons_iff {text : String} :
    Meets lines position pending (.comment text :: directives) ↔ Meets lines position pending directives := by
  simp only [Meets, avoids_comment_cons]
  rfl

theorem meets_not_cons_iff :
    Meets lines position pending (.not pattern :: directives) ↔
      Meets lines position (pending ++ [pattern]) directives := by
  have waits (numbers : List Nat) : AvoidsBefore lines position (pending ++ [pattern]) numbers ↔
      AvoidsBefore lines position pending numbers ∧ AvoidsBefore lines position [pattern] numbers :=
    List.forall_mem_append
  simp only [Meets, avoids_not_cons, waits, and_assoc]
  rfl

theorem result_matchFrom (unanchored : ∀ d ∈ directives, d.isUnanchored = true) (position : Nat)
    (pending : List String) :
    (matchFrom position pending (lines.drop position) directives).result = .ok () ↔
      Meets lines position pending directives := by
  induction directives generalizing position pending with
  | nil =>
    rw [matchFrom, result_rejecting, ← avoidsBefore_nil_iff]
    constructor
    · rintro ⟨before, -⟩
      exact ⟨[], placesFirst_nil_iff.2 rfl, before, avoids_nil⟩
    · rintro ⟨numbers, leftmost, before, -⟩
      obtain rfl := placesFirst_nil_iff.1 leftmost
      exact ⟨before, rfl⟩
  | cons d directives ih =>
    have rest := ih fun d mem => unanchored d (.tail _ mem)
    have search {pattern mark : String} (seeks : d.sought? = some pattern) :
        (matchLater mark pattern position pending (lines.drop position) fun position lines =>
          matchFrom position [] lines directives).result = .ok () ↔ Meets lines position pending (d :: directives) := by
      rw [result_matchLater, meets_sought_cons_iff seeks]
      simp only [findIdx?_holds_eq_some_iff, List.drop_drop, ← Nat.add_assoc, rest]
    cases d with
    | check => exact search rfl
    | label => exact search rfl
    | comment => exact (rest position pending).trans meets_comment_cons_iff.symm
    | not pattern => exact (rest position (pending ++ [pattern])).trans meets_not_cons_iff.symm
    | next => cases unanchored _ (.head _)
    | empty => cases unanchored _ (.head _)

/-- An output meets directives that look for patterns exactly if there are lines that hold the patterns in order. -/
theorem matchOutput_ok_iff (output : String) (unanchored : ∀ d ∈ directives, d.isUnanchored = true) :
    ((∀ pattern, .not pattern ∉ directives) → ((matchOutput output directives).result = .ok () ↔
      ∃ numbers, Places (Text.linesOf output) 0 (sought directives) numbers)) ∧
    ((matchOutput output directives).result = .ok () ↔
      ∃ numbers, PlacesFirst (Text.linesOf output) 0 (sought directives) numbers ∧
        Avoids (Text.linesOf output) 0 directives numbers) := by
  have meets : (matchOutput output directives).result = .ok () ↔
      ∃ numbers, PlacesFirst (Text.linesOf output) 0 (sought directives) numbers ∧
        Avoids (Text.linesOf output) 0 directives numbers := by
    have whole : (matchFrom 0 [] ((Text.linesOf output).drop 0) directives).result = .ok () ↔
      Meets (Text.linesOf output) 0 [] directives := result_matchFrom unanchored 0 []
    simpa [matchOutput, Meets, AvoidsBefore] using whole
  refine ⟨fun allowed => meets.trans ⟨?_, ?_⟩, meets⟩
  · rintro ⟨numbers, leftmost, -⟩
    exact ⟨numbers, leftmost.toPlaces⟩
  · rintro ⟨numbers, places⟩
    obtain ⟨firsts, leftmost⟩ := places.exists_placesFirst
    exact ⟨firsts, leftmost, fun i pattern found => absurd (List.mem_of_getElem? found) (allowed pattern)⟩

def guardOutput : String :=
  "goto a;\nif (c)\r\nreturn;\ngoto b;\nreturn;"

def guardDirectives : List Directive :=
  [.check "if (c)", .not "goto", .comment "the guard returns", .label "return;"]

theorem guard_matchOutput : (∀ d ∈ guardDirectives, d.isUnanchored = true) ∧
    (matchOutput guardOutput guardDirectives).result = .ok () ∧
    ∃ numbers, PlacesFirst (Text.linesOf guardOutput) 0 ["if (c)", "return;"] numbers ∧
      Avoids (Text.linesOf guardOutput) 0 guardDirectives numbers := by
  have unanchored : ∀ d ∈ guardDirectives, d.isUnanchored = true := by decide
  have accepted : (matchOutput guardOutput guardDirectives).result = .ok () := by decide +kernel
  exact ⟨unanchored, accepted, (matchOutput_ok_iff guardOutput unanchored).2.1 accepted⟩

end Check

end Reflow
