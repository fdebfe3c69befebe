import Mathlib.Data.Nat.Digits.Defs
import Reflow.Proofs.Program.Scanning

namespace Reflow.Program

theorem continuesName_of_isDigit {c : Char} (digit : c.isDigit = true) : Text.continuesName c = true := by
  have ascii : c.toNat < 128 := by
    simp only [Char.isDigit, Bool.and_eq_true, decide_eq_true_eq, UInt32.le_iff_toNat_le] at digit
    exact lt_of_le_of_lt digit.2 (by decide)
  simp [Text.continuesName, Text.isAlphanumeric, ascii, Char.isAlphanum, digit]

theorem EndsName.not_isDigit {rest : List Char} (ends : EndsName rest) : ∀ c ∈ rest.head?, c.isDigit = false := by
  intro c head
  cases digit : c.isDigit with
  | false => rfl
  | true => exact absurd (continuesName_of_isDigit digit) (by simp [ends c head])

theorem ofDigits_eq (base : Nat) (digits : List Char) :
    ofDigits base digits = Nat.ofDigits base (digits.reverse.map digitValue) := by
  rw [ofDigits, Nat.ofDigits_eq_foldr, List.foldr_map, List.foldl_eq_foldr_reverse]
  simp only [Nat.add_comm, Nat.cast_id]

theorem toDigits_induction {base : Nat} (large : 1 < base) {motive : Nat → List Char → Prop}
    (one : ∀ n < base, motive n [n.digitChar])
    (more : ∀ n digits, ∀ d < base, motive n digits → motive (base * n + d) (digits ++ [d.digitChar])) (n : Nat) :
    motive n (Nat.toDigits base n) := by
  induction n using Nat.strong_induction_on with
  | _ n ih =>
    by_cases small : n < base
    · rw [Nat.toDigits_of_lt_base small]
      exact one n small
    · have le : base ≤ n := Nat.le_of_not_lt small
      have split := more (n / base) _ (n % base) (Nat.mod_lt _ (by omega)) (ih _ (Nat.div_lt_self (by omega) large))
      rwa [Nat.div_add_mod, ← Nat.toDigits_of_base_le large le] at split

theorem ofDigits_toDigits {base : Nat} (large : 1 < base) (small : base ≤ 16) (n : Nat) :
    ofDigits base (Nat.toDigits base n) = n := by
  have value : ∀ d < 16, digitValue d.digitChar = d := by decide
  refine toDigits_induction large (motive := fun n digits => ofDigits base digits = n) (fun n less => ?_) ?_ n
  · simp [ofDigits, value n (less.trans_le small)]
  · rintro n digits d less rfl
    simp [ofDigits, value d (less.trans_le small)]

theorem isHexDigit_of_mem_toDigits {n : Nat} : ∀ c ∈ Nat.toDigits 16 n, isHexDigit c = true := by
  have digit : ∀ d < 16, isHexDigit d.digitChar = true := by decide
  refine toDigits_induction (by decide) (motive := fun _ digits => ∀ c ∈ digits, isHexDigit c = true) ?_ ?_ n
  · intro n less c mem
    exact List.mem_singleton.1 mem ▸ digit n less
  · intro n digits d less all c mem
    rcases List.mem_append.1 mem with inside | last
    · exact all c inside
    · exact List.mem_singleton.1 last ▸ digit d less

theorem isSolid_of_isHexDigit {c : Char} (digit : isHexDigit c = true) : IsSolid c := by
  have other : c ≠ ';' := by
    rintro rfl
    exact absurd digit (by decide)
  refine ⟨?_, other⟩
  simp only [isHexDigit, Bool.or_eq_true, Bool.and_eq_true, decide_eq_true_eq, Char.le_def,
    UInt32.le_iff_toNat_le] at digit
  have large : 48 ≤ c.toNat ∧ c.toNat ≤ 102 := by
    rcases digit with (digit | digit) | digit
    · simp only [Char.isDigit, Bool.and_eq_true, decide_eq_true_eq, UInt32.le_iff_toNat_le] at digit
      change 48 ≤ c.toNat ∧ c.toNat ≤ 57 at digit
      omega
    · change 97 ≤ c.toNat ∧ c.toNat ≤ 102 at digit
      omega
    · change 65 ≤ c.toNat ∧ c.toNat ≤ 70 at digit
      omega
  simp [Text.isBlank]
  omega

theorem afterHexMark?_eq_some_iff {cs rest : List Char} :
    afterHexMark? cs = some rest ↔ ∃ x, (x = 'x' ∨ x = 'X') ∧ cs = '0' :: x :: rest := by
  unfold afterHexMark?
  split <;> simp_all

theorem run_readDigits {base : Nat} {isDigit : Char → Bool} {tooLarge : String → ParseError} {digits rest : List Char}
    (some : digits ≠ []) (all : ∀ c ∈ digits, isDigit c = true) (ends : ∀ c ∈ rest.head?, isDigit c = false) :
    (readDigits base isDigit tooLarge).run (digits ++ rest) =
      if ofDigits base digits < 0x8000000000000000 then .ok (ofDigits base digits, rest)
      else .error ⟨tooLarge (String.ofList digits), rest⟩ := by
  rw [readDigits, Reader.run_get_bind]
  simp only [takeWhile_append all ends, dropWhile_append all ends, List.isEmpty_iff, some, if_false]
  split <;> rfl

def isDigitIn (hex : Bool) (c : Char) : Bool :=
  if hex then isHexDigit c else c.isDigit

structure Literal where
  negative : Bool
  mark : Option Char
  digits : List Char
  isMark : ∀ c ∈ mark, c = 'x' ∨ c = 'X'
  some : digits ≠ []
  isDigit : ∀ c ∈ digits, isDigitIn mark.isSome c = true

namespace Literal

variable {cs rest : List Char}

def base (l : Literal) : Nat :=
  if l.mark.isSome then 16 else 10

def markText (l : Literal) : List Char :=
  l.mark.elim [] (['0', ·])

def text (l : Literal) : List Char :=
  (if l.negative then ['-'] else []) ++ (l.markText ++ l.digits)

def magnitude (l : Literal) : Nat :=
  Nat.ofDigits l.base (l.digits.reverse.map digitValue)

def value (l : Literal) : Int :=
  if l.negative then -l.magnitude else l.magnitude

def tooLarge (l : Literal) : ParseError :=
  if l.mark.isSome then .hexTooLarge else .numberTooLarge (String.ofList l.digits)

/-- The text behind a literal does not go on with it. Behind a single zero, a letter of the mark would. -/
structure EndsBefore (l : Literal) (rest : List Char) : Prop where
  digit : ∀ c ∈ rest.head?, isDigitIn l.mark.isSome c = false
  mark : l.mark = none → l.digits = ['0'] → ∀ c ∈ rest.head?, c ≠ 'x' ∧ c ≠ 'X'

theorem afterHexMark?_eq_none {l : Literal} (decimal : l.mark = none) (ends : l.EndsBefore rest) :
    afterHexMark? (l.digits ++ rest) = none := by
  refine Option.eq_none_iff_forall_ne_some.2 fun after found => ?_
  obtain ⟨x, mark, same⟩ := afterHexMark?_eq_some_iff.1 found
  cases digits : l.digits with
  | nil => exact l.some digits
  | cons d more =>
    rw [digits, List.cons_append] at same
    obtain ⟨rfl, next⟩ := List.cons.inj same
    cases more with
    | nil =>
      have other := ends.mark decimal digits x (by rw [show rest = _ from next]; rfl)
      exact mark.elim other.1 other.2
    | cons e =>
      obtain ⟨rfl, -⟩ := List.cons.inj next
      have digit := l.isDigit e (by simp [digits])
      rw [decimal] at digit
      rcases mark with rfl | rfl <;> exact absurd digit (by decide)

theorem run_readMagnitude {l : Literal} (ends : l.EndsBefore rest) :
    readMagnitude.run (l.markText ++ l.digits ++ rest) =
      if l.magnitude < 0x8000000000000000 then .ok (l.magnitude, rest) else .error ⟨l.tooLarge, rest⟩ := by
  rw [readMagnitude, Reader.run_get_bind, magnitude, ← ofDigits_eq, base, tooLarge, markText]
  have all := l.isDigit
  have stops := ends.digit
  cases mark : l.mark with
  | none =>
    rw [mark] at all stops
    rw [Option.elim_none, List.nil_append, afterHexMark?_eq_none mark ends]
    exact run_readDigits l.some all stops
  | some c =>
    rw [mark] at all stops
    have found : afterHexMark? ((Option.some c).elim [] (['0', ·]) ++ l.digits ++ rest) = .some (l.digits ++ rest) :=
      afterHexMark?_eq_some_iff.2 ⟨c, l.isMark c mark, rfl⟩
    rw [found]
    change (readDigits 16 isHexDigit fun _ => .hexTooLarge).run (l.digits ++ rest) = _
    exact run_readDigits l.some all stops

theorem head?_unsigned (l : Literal) (rest : List Char) :
    ∀ c ∈ (l.markText ++ l.digits ++ rest).head?, isHexDigit c = true := by
  have hex {c : Char} (digit : isDigitIn l.mark.isSome c = true) : isHexDigit c = true := by
    cases mark : l.mark.isSome <;> simp_all [isDigitIn, isHexDigit]
  intro c head
  rw [markText] at head
  cases mark : l.mark with
  | none =>
    rw [mark] at head
    cases digits : l.digits with
    | nil => exact absurd digits l.some
    | cons d =>
      rw [digits] at head
      obtain rfl := Option.some.inj head
      exact hex (l.isDigit d (by simp [digits]))
  | some =>
    rw [mark] at head
    obtain rfl := Option.some.inj head
    decide

theorem run_readNumber {l : Literal} (found : skip cs = l.text ++ rest) (ends : l.EndsBefore rest) : readNumber.run cs =
      if l.magnitude < 0x8000000000000000 then .ok (l.value, rest) else .error ⟨l.tooLarge, rest⟩ := by
  have signed (sign : Nat → Int) :
      (readMagnitude >>= fun magnitude => pure (sign magnitude)).run (l.markText ++ l.digits ++ rest) =
        if l.magnitude < 0x8000000000000000 then .ok (sign l.magnitude, rest) else .error ⟨l.tooLarge, rest⟩ := by
    rw [Reader.run_bind, run_readMagnitude ends]
    by_cases small : l.magnitude < 0x8000000000000000
    · rw [if_pos small, if_pos small]
      rfl
    · rw [if_neg small, if_neg small]
  have unsigned : ∀ more, l.markText ++ l.digits ++ rest ≠ '-' :: more := by
    intro more same
    exact absurd (l.head?_unsigned rest '-' (by rw [same]; rfl)) (by decide)
  rw [readNumber, Reader.run_get_bind, found, text, value]
  cases l.negative with
  | true => exact signed (- ·)
  | false =>
    split
    · rename_i more same
      exact absurd same (unsigned more)
    · exact signed (·)

theorem magnitude_eq (l : Literal) : l.magnitude = ofDigits l.base l.digits :=
  (ofDigits_eq _ _).symm

theorem natAbs_value (l : Literal) : l.value.natAbs = l.magnitude := by
  rw [value]
  split <;> simp

theorem reads {l : Literal} (found : skip cs = l.text ++ rest) (ends : l.EndsBefore rest) (small : IsSmall l.value) :
    readNumber.Reads cs l.value rest := by
  rw [IsSmall, natAbs_value] at small
  rw [Reader.Reads, run_readNumber found ends, if_pos small]

theorem skip_text (l : Literal) (rest : List Char) : skip (l.text ++ rest) = l.text ++ rest := by
  have solid : ∀ c ∈ (l.text ++ rest).head?, IsSolid c := by
    intro c head
    rw [text] at head
    cases sign : l.negative with
    | true =>
      rw [sign] at head
      obtain rfl := Option.some.inj head
      decide
    | false =>
      rw [sign] at head
      exact isSolid_of_isHexDigit (l.head?_unsigned _ c head)
  cases chars : l.text ++ rest with
  | nil => rfl
  | cons c more => exact skip_cons (solid c (by rw [chars]; rfl)) more

def ofInt (mark : Option Char) (isMark : ∀ c ∈ mark, c = 'x' ∨ c = 'X') (n : Int) : Literal where
  negative := n < 0
  mark := mark
  digits := Nat.toDigits (if mark.isSome then 16 else 10) n.natAbs
  isMark := isMark
  some := Nat.toDigits_ne_nil
  isDigit := by
    cases mark with
    | none => exact fun c => Nat.isDigit_of_mem_toDigits (by decide) (by decide)
    | some c => exact isHexDigit_of_mem_toDigits

theorem value_ofInt {mark : Option Char} (isMark : ∀ c ∈ mark, c = 'x' ∨ c = 'X') (n : Int) :
    (ofInt mark isMark n).value = n := by
  have bounds (l : Literal) : 1 < l.base ∧ l.base ≤ 16 := by
    rw [base]
    split <;> decide
  have size : (ofInt mark isMark n).magnitude = n.natAbs :=
    (magnitude_eq _).trans (ofDigits_toDigits (bounds _).1 (bounds _).2 n.natAbs)
  rw [value, size]
  simp only [ofInt, decide_eq_true_eq]
  split <;> omega

end Literal

def decimal : Int → List Char
  | .ofNat n => Nat.toDigits 10 n
  | .negSucc n => '-' :: Nat.toDigits 10 (n + 1)

def hexadecimal (mark : Char) : Int → List Char
  | .ofNat n => '0' :: mark :: Nat.toDigits 16 n
  | .negSucc n => '-' :: '0' :: mark :: Nat.toDigits 16 (n + 1)

theorem text_ofInt_decimal (n : Int) : (Literal.ofInt none (by simp) n).text = decimal n := by
  cases n <;> simp [Literal.text, Literal.markText, Literal.ofInt, decimal]

theorem text_ofInt_hexadecimal {mark : Char} (isMark : ∀ c ∈ some mark, c = 'x' ∨ c = 'X') (n : Int) :
    (Literal.ofInt (some mark) isMark n).text = hexadecimal mark n := by
  cases n <;> simp [Literal.text, Literal.markText, Literal.ofInt, hexadecimal]

theorem Literal.EndsBefore.decimal {n : Int} {rest : List Char} (ends : ∀ c ∈ rest.head?, c.isDigit = false)
    (noMark : n = 0 → ∀ c ∈ rest.head?, c ≠ 'x' ∧ c ≠ 'X') : (ofInt none (by simp) n).EndsBefore rest where
  digit := ends
  mark _ zero := by
    refine noMark ?_
    have none : (ofInt none (by simp) n).value.natAbs = 0 := by rw [natAbs_value, magnitude_eq, zero]; rfl
    rwa [value_ofInt, Int.natAbs_eq_zero] at none

theorem decimal_head (n : Int) : ∃ c cs, decimal n = c :: cs ∧ (c = '-' ∨ c.isDigit = true) := by
  cases n with
  | ofNat n =>
    cases digits : Nat.toDigits 10 n with
    | nil => exact absurd digits Nat.toDigits_ne_nil
    | cons c cs =>
      exact ⟨c, cs, digits,
        .inr (Nat.isDigit_of_mem_toDigits (b := 10) (n := n) (by decide) (by decide) (by simp [digits]))⟩
  | negSucc n => exact ⟨'-', _, rfl, .inl rfl⟩

theorem readNumber_reads {n : Int} (small : IsSmall n) {cs rest : List Char} (found : skip cs = decimal n ++ rest)
    (ends : EndsName rest) : readNumber.Reads cs n rest := by
  have noMark : n = 0 → ∀ c ∈ rest.head?, c ≠ 'x' ∧ c ≠ 'X' := by
    intro _ c head
    constructor <;> rintro rfl <;> exact absurd (ends _ head) (by decide)
  rw [← text_ofInt_decimal] at found
  have read := Literal.reads found (.decimal ends.not_isDigit noMark)
  rw [Literal.value_ofInt] at read
  exact read small

/-- Every number of 64 bits but the least is read from its decimal text and from its hexadecimal one, up to their ends,
and so is every literal with such a value. -/
theorem readNumber_int64 : (∀ (n : Int) (rest : List Char), -2 ^ 63 < n → n < 2 ^ 63 →
      ((∀ c ∈ rest.head?, c.isDigit = false) → (n = 0 → ∀ c ∈ rest.head?, c ≠ 'x' ∧ c ≠ 'X') →
        readNumber.run (decimal n ++ rest) = .ok (n, rest)) ∧
      ∀ mark, mark = 'x' ∨ mark = 'X' → (∀ c ∈ rest.head?, isHexDigit c = false) →
        readNumber.run (hexadecimal mark n ++ rest) = .ok (n, rest)) ∧
    ∀ (literal : Literal) (rest : List Char), literal.EndsBefore rest →
      (-2 ^ 63 < literal.value → literal.value < 2 ^ 63 →
        readNumber.run (literal.text ++ rest) = .ok (literal.value, rest)) ∧
      (literal.value < -2 ^ 63 ∨ 2 ^ 63 ≤ literal.value →
        readNumber.run (literal.text ++ rest) = .error ⟨literal.tooLarge, rest⟩) := by
  have isSmall {n : Int} (low : -2 ^ 63 < n) (high : n < 2 ^ 63) : IsSmall n := by
    rw [IsSmall]
    omega
  refine ⟨fun n rest low high => ⟨fun ends noMark => ?_, fun mark isMark ends => ?_⟩, fun literal rest ends => ?_⟩
  · have read := Literal.reads (Literal.skip_text _ rest) (.decimal ends noMark)
    rw [Literal.value_ofInt, text_ofInt_decimal] at read
    exact read (isSmall low high)
  · have isMark : ∀ c ∈ some mark, c = 'x' ∨ c = 'X' := by simpa using isMark
    have read := Literal.reads (Literal.skip_text (.ofInt _ isMark n) rest) ⟨ends, by rintro ⟨⟩⟩
    rw [Literal.value_ofInt, text_ofInt_hexadecimal] at read
    exact read (isSmall low high)
  · refine ⟨fun low high => Literal.reads (literal.skip_text rest) ends (isSmall low high), fun outside => ?_⟩
    have large : ¬ literal.magnitude < 0x8000000000000000 := by
      rw [← literal.natAbs_value]
      omega
    rw [Literal.run_readNumber (literal.skip_text rest) ends, if_neg large]

/-- Behind a zero, a letter of the mark is no end of the number although it is no digit. -/
theorem readNumber_zero_before_mark : ¬ ∀ (n : Int) (rest : List Char), -2 ^ 63 ≤ n → n < 2 ^ 63 →
    (∀ c ∈ rest.head?, c.isDigit = false) → readNumber.run (decimal n ++ rest) = .ok (n, rest) := by
  intro all
  have read := all 0 ['x'] (by decide) (by decide) (by simp)
  exact absurd read (by decide)

end Reflow.Program
