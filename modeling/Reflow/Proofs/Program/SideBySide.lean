import Reflow.Proofs.Program.Literals

namespace Reflow.Program

abbrev IsMark (c : Char) : Prop :=
  IsSolid c ∧ c ≠ '\x7d'

/-! ## Readers that settle -/

namespace Reader

variable {α β : Type} {reader : Reader α} {newlines : Bool} {c : Char} {cs : List Char}

def Settles : Reader α → List Char → Prop
  | done _, _ | fault _, _ => True
  | look next, cs => (next cs).Settles cs
  | move rest next, cs => rest <:+ cs ∧ next.Settles rest
  | giveUp _, _ => False

theorem settles_bind {reader : Reader β} {next : β → Reader α} : (reader >>= next).Settles cs ↔
    reader.Settles cs ∧ ∀ b rest, reader.run cs = .ok (b, rest) → (next b).Settles rest := by
  induction reader generalizing cs with
  | done b =>
    constructor
    · intro settles
      refine ⟨trivial, ?_⟩
      rintro _ _ ⟨⟩
      exact settles
    · exact fun settles => settles.2 b cs rfl
  | fault => exact ⟨fun _ => ⟨trivial, by rintro _ _ ⟨⟩⟩, fun _ => trivial⟩
  | look rest ih => exact ih cs
  | move _ _ ih => exact (and_congr_right' ih).trans and_assoc.symm
  | giveUp => exact ⟨False.elim, And.left⟩

theorem settles_get_bind {next : List Char → Reader α} : (get >>= next).Settles cs ↔ (next cs).Settles cs :=
  Iff.rfl

def Begins (reader : Reader α) (newlines : Bool) (next : List Char → Reader α) : Prop :=
  ∀ cs, reader.run cs = (next (skipFrom newlines false cs)).run (skipFrom newlines false cs) ∧
    ((next (skipFrom newlines false cs)).Settles (skipFrom newlines false cs) → reader.Settles cs)

theorem begins_ahead (newlines : Bool) (next : List Char → Reader α) : Begins (do
      let cs := skipFrom newlines false (← get)
      set cs
      next cs) newlines next :=
  fun cs => ⟨rfl, fun settles => ⟨skipFrom_suffix newlines false cs, settles⟩⟩

def atMark (c : Char) (found other : Reader α) (cs : List Char) : Reader α :=
  if cs.head? = some c then .move cs.tail found else other

theorem begins_look {body : List Char → Reader α} {found other : Reader α}
    (isNext : ∀ {cs rest}, skipFrom newlines false cs = c :: rest → body cs = .move rest found)
    (notNext : ∀ {cs}, (skipFrom newlines false cs).head? ≠ some c →
      body cs = .move (skipFrom newlines false cs) other) :
    (look body).Begins newlines (atMark c found other) := by
  intro cs
  change (body cs).run cs = _ ∧ (_ → (body cs).Settles cs)
  have suffix := skipFrom_suffix newlines false cs
  unfold atMark
  split
  · rename_i head
    obtain ⟨rest, there⟩ := List.head?_eq_some_iff.1 head
    rw [there] at suffix ⊢
    rw [isNext there]
    exact ⟨rfl, fun settles => ⟨(List.suffix_cons _ _).trans suffix, settles.2⟩⟩
  · rw [notNext ‹_›]
    exact ⟨rfl, fun settles => ⟨suffix, settles⟩⟩

theorem Begins.bind {reader found other : Reader β} (begins : reader.Begins newlines (atMark c found other))
    (next : β → Reader α) : (reader >>= next).Begins newlines (atMark c (found >>= next) (other >>= next)) := by
  intro cs
  have split : atMark c (found >>= next) (other >>= next) (skipFrom newlines false cs) =
      atMark c found other (skipFrom newlines false cs) >>= next := by
    unfold atMark
    split <;> rfl
  obtain ⟨run, settles⟩ := begins cs
  rw [split, run_bind, run_bind, settles_bind, settles_bind, run]
  exact ⟨rfl, And.imp_left settles⟩

end Reader

/-! ## Texts that are read alike -/

abbrev SeenAlike (newlines : Bool) (cs cs' : List Char) : Prop :=
  cond newlines (cs'.head? = cs.head?) (atLineEnd cs' = atLineEnd cs)

/-- Texts that are read alike while the first one is live, which no mark of it changes. -/
structure Pairing where
  same : List Char → List Char → Prop
  live : List Char → Prop
  closed : Prop
  next : ∀ {c cs cs'}, IsSolid c → same (c :: cs) cs' → ∃ rest, cs' = c :: rest ∧ same cs rest
  quiet : ∀ {c cs cs'}, same cs cs' → (∀ d ∈ cs.head?, ¬ IsSolid d) → cs'.head? = some c → ¬ IsSolid c
  skips : ∀ newlines {cs cs'}, live cs → same cs cs' →
    same (skipFrom newlines false cs) (skipFrom newlines false cs') ∧
      SeenAlike newlines (skipFrom newlines false cs) (skipFrom newlines false cs')
  live_cons : ∀ {c cs}, IsMark c → live (c :: cs) → live cs
  live_close : ∀ {cs}, live ('\x7d' :: cs) → closed
  live_skipFrom : ∀ {newlines cs}, live cs → live (skipFrom newlines false cs)

namespace Pairing

def alone (live : List Char → Prop) (closed : Prop) (live_cons : ∀ {c cs}, IsMark c → live (c :: cs) → live cs)
    (live_close : ∀ {cs}, live ('\x7d' :: cs) → closed)
    (live_skipFrom : ∀ {newlines cs}, live cs → live (skipFrom newlines false cs)) : Pairing where
  same := Eq
  live := live
  closed := closed
  next := by
    rintro c cs cs' - rfl
    exact ⟨_, rfl, rfl⟩
  quiet := by
    rintro c cs cs' rfl quiet head
    exact quiet c head
  skips := by
    rintro newlines cs cs' - rfl
    cases newlines <;> exact ⟨rfl, rfl⟩
  live_cons := live_cons
  live_close := live_close
  live_skipFrom := live_skipFrom

variable {pairing : Pairing} {α β ι : Type} {pre mid post : List Char → Prop} {gain : α → Nat} {n m : Nat}
  {reader reader' : Reader α} {newlines : Bool} {cs cs' rest : List Char} {c : Char}

def Matches (pairing : Pairing) (post : List Char → Prop) (gain : α → Nat) (cs cs' : List Char) :
    Except Fault (α × List Char) → Except Fault (α × List Char) → Prop
  | .ok (a, rest), result => ∃ rest', result = .ok (a, rest') ∧ pairing.same rest rest' ∧ post rest ∧
      rest.length + gain a ≤ cs.length ∧ rest'.length + gain a ≤ cs'.length
  | .error fault, result => ∃ fault', result = .error fault' ∧ fault'.cause = fault.cause

def Follows (pairing : Pairing) (pre post : List Char → Prop) (gain : α → Nat) (n m : Nat) (reader reader' : Reader α) :
    Prop :=
  ∀ cs cs', pre cs → pairing.same cs cs' → cs.length < n → cs'.length < m →
    reader.Settles cs ∧ pairing.Matches post gain cs cs' (reader.run cs) (reader'.run cs')

abbrev Keeps (pairing : Pairing) (k n m : Nat) (reader reader' : Reader α) : Prop :=
  pairing.Follows pairing.live pairing.live (fun _ => k) n m reader reader'

/-! ## Rules -/

theorem Matches.earlier {gain' : α → Nat} {k : Nat} {rest' : List Char} {result result' : Except Fault (α × List Char)}
    (matched : pairing.Matches post gain rest rest' result result') (shorter : rest.length + k ≤ cs.length)
    (shorter' : rest'.length + k ≤ cs'.length) (le : ∀ a, gain' a ≤ k + gain a) :
    pairing.Matches post gain' cs cs' result result' := by
  cases result with
  | error => exact matched
  | ok read =>
    have enough := le read.1
    obtain ⟨last, read', same, ends, taken, taken'⟩ := matched
    exact ⟨last, read', same, ends, by omega, by omega⟩

namespace Follows

variable {first first' : Reader β} {next next' : β → Reader α} {k : β → Nat} {other other' : Reader α}

theorem pure {a : α} (ends : ∀ cs, pre cs → post cs) (zero : gain a = 0) :
    pairing.Follows pre post gain n m (Pure.pure a) (Pure.pure a) :=
  fun cs _ here same _ _ => ⟨trivial, _, rfl, same, ends cs here, by simp [zero], by simp [zero]⟩

theorem done {a : α} : pairing.Keeps 0 n m (Pure.pure a) (Pure.pure a) :=
  pure (fun _ => id) rfl

theorem fail (cause : ParseError) : pairing.Follows pre post gain n m (Program.fail cause) (Program.fail cause) :=
  fun _ _ _ _ _ _ => ⟨trivial, _, rfl, rfl⟩

theorem seq {gain' : α → Nat}
    (starts : pairing.Follows pre mid k n m first first')
    (goes : ∀ b, pairing.Follows mid post gain (n - k b) (m - k b) (next b) (next' b))
    (le : ∀ b a, gain' a ≤ k b + gain a) : pairing.Follows pre post gain' n m (first >>= next) (first' >>= next') := by
  intro cs cs' here same short short'
  obtain ⟨settles, read⟩ := starts cs cs' here same short short'
  rw [Reader.settles_bind, Reader.run_bind, Reader.run_bind]
  cases result : first.run cs with
  | error =>
    rw [result] at read
    obtain ⟨fault', failed, cause⟩ := read
    rw [failed]
    exact ⟨⟨settles, by rintro _ _ ⟨⟩⟩, fault', rfl, cause⟩
  | ok done =>
    obtain ⟨b, rest⟩ := done
    rw [result] at read
    obtain ⟨rest', read', same', there, shorter, shorter'⟩ := read
    rw [read']
    obtain ⟨settles', matched⟩ := goes b rest rest' there same' (by omega) (by omega)
    refine ⟨⟨settles, ?_⟩, matched.earlier shorter shorter' (le b)⟩
    rintro _ _ ⟨⟩
    exact settles'

theorem bind
    (starts : pairing.Follows pre mid k n m first first')
    (goes : ∀ b, pairing.Follows mid post gain (n - k b) (m - k b) (next b) (next' b)) :
    pairing.Follows pre post gain n m (first >>= next) (first' >>= next') :=
  starts.seq goes fun _ _ => Nat.le_add_left _ _

theorem before {k : Nat}
    (starts : pairing.Follows pre mid (fun _ => k) n m first first')
    (goes : ∀ b, pairing.Follows mid post (fun _ => 0) (n - k) (m - k) (next b) (next' b)) :
    pairing.Follows pre post (fun _ => k) n m (first >>= next) (first' >>= next') :=
  starts.seq goes fun _ _ => le_rfl

theorem free (follows : pairing.Follows pre post gain n m reader reader') :
    pairing.Follows pre post (fun _ => 0) n m reader reader' :=
  fun cs cs' here same short short' => (follows cs cs' here same short short').imp_right fun matched =>
    matched.earlier (k := 0) le_rfl le_rfl fun _ => Nat.zero_le _

theorem andThen
    (starts : pairing.Follows pre mid k n m first first')
    (goes : ∀ b, pairing.Follows mid post gain n m (next b) (next' b)) :
    pairing.Follows pre post gain n m (first >>= next) (first' >>= next') :=
  starts.free.bind goes

theorem ite {holds : Prop} [Decidable holds]
    (yes : pairing.Follows pre post gain n m reader reader') (no : pairing.Follows pre post gain n m other other') :
    pairing.Follows pre post gain n m (if holds then reader else other) (if holds then reader' else other') := by
  split
  · exact yes
  · exact no

theorem bounded {l : Nat → Reader α} (follows : ∀ n m, pairing.Follows pre post gain n m (l n) (l m)) :
    pairing.Follows pre post gain n m (bounded l) (bounded l) :=
  fun cs cs' here same _ _ => follows _ _ cs cs' here same (Nat.lt_succ_self _) (Nat.lt_succ_self _)

theorem loop {l : Nat → ι → Reader α} (round : ∀ n m, (∀ i, pairing.Follows pre post gain n m (l n i) (l m i)) →
      ∀ i, pairing.Follows pre post gain (n + 1) (m + 1) (l (n + 1) i) (l (m + 1) i)) (n m : Nat) (i : ι) :
    pairing.Follows pre post gain n m (l n i) (l m i) := by
  induction n generalizing m i with
  | zero => exact fun _ _ _ _ short => absurd short (Nat.not_lt_zero _)
  | succ n ih =>
    cases m with
    | zero => exact fun _ _ _ _ _ short => absurd short (Nat.not_lt_zero _)
    | succ m => exact round n m (ih m) i

theorem skipped {next next' : List Char → Reader α} (begins : reader.Begins newlines next)
    (begins' : reader'.Begins newlines next')
    (goes : ∀ cs cs', pairing.live cs → pairing.same cs cs' → SeenAlike newlines cs cs' → cs.length < n →
      cs'.length < m →
        (next cs).Settles cs ∧ pairing.Matches post gain cs cs' ((next cs).run cs) ((next' cs').run cs')) :
    pairing.Follows pairing.live post gain n m reader reader' := by
  intro cs cs' live same short short'
  have shorter (cs : List Char) : (skipFrom newlines false cs).length + 0 ≤ cs.length := length_skipFrom_le _ _ _
  obtain ⟨same', seen⟩ := pairing.skips newlines live same
  obtain ⟨settles, matched⟩ := goes _ _ (pairing.live_skipFrom live) same' seen ((shorter cs).trans_lt short)
    ((shorter cs').trans_lt short')
  rw [(begins cs).1, (begins' cs').1]
  exact ⟨(begins cs).2 settles, matched.earlier (shorter cs) (shorter cs') fun _ => (Nat.zero_add _).ge⟩

theorem peek (newlines : Bool) {p : List Char → Prop} [DecidablePred p]
    (alike : ∀ {cs cs'}, pairing.same cs cs' → SeenAlike newlines cs cs' → (p cs' ↔ p cs))
    (yes : pairing.Follows pairing.live post gain n m reader reader')
    (no : pairing.Follows pairing.live post gain n m other other') :
    pairing.Follows pairing.live post gain n m (do
        let cs := skipFrom newlines false (← get)
        set cs
        if p cs then reader else other)
      (do
        let cs := skipFrom newlines false (← get)
        set cs
        if p cs then reader' else other') := by
  refine skipped (Reader.begins_ahead newlines fun cs => if p cs then reader else other)
    (Reader.begins_ahead newlines fun cs => if p cs then reader' else other')
    fun cs cs' live same seen short short' => ?_
  rw [if_congr (alike same seen) rfl rfl]
  exact ite yes no cs cs' live same short short'

end Follows

/-! ## Marks -/

theorem blanks (pairing : Pairing) (live : pairing.live cs) (same : pairing.same cs cs') :
    pairing.same (skip cs) (skip cs') ∧ (skip cs').head? = (skip cs).head? :=
  pairing.skips true live same

theorem head?_eq_some_iff (same : pairing.same cs cs') (solid : IsSolid c) :
    cs'.head? = some c ↔ cs.head? = some c := by
  constructor
  · intro head
    by_contra other
    refine pairing.quiet same ?_ head solid
    intro d first solid'
    obtain ⟨rest, rfl⟩ := List.head?_eq_some_iff.1 (Option.mem_def.1 first)
    obtain ⟨rest', rfl, -⟩ := pairing.next solid' same
    exact other head
  · intro head
    obtain ⟨rest, rfl⟩ := List.head?_eq_some_iff.1 head
    obtain ⟨rest', rfl, -⟩ := pairing.next solid same
    rfl

theorem Follows.marked {found other : Reader α} {gain' : α → Nat} (mark : IsMark c)
    (begins : reader.Begins newlines (Reader.atMark c found other))
    (yes : pairing.Follows pairing.live post gain' n m found found)
    (no : pairing.Follows pairing.live post gain n m other other) (le : ∀ a, gain a ≤ 1 + gain' a) :
    pairing.Follows pairing.live post gain n m reader reader := by
  refine skipped begins begins fun cs cs' live same _ short short' => ?_
  unfold Reader.atMark
  rw [if_congr (head?_eq_some_iff same mark.1) rfl rfl]
  split
  · rename_i head
    obtain ⟨rest, rfl⟩ := List.head?_eq_some_iff.1 head
    obtain ⟨rest', rfl, same'⟩ := pairing.next mark.1 same
    obtain ⟨settles, matched⟩ := yes rest rest' (pairing.live_cons mark live) same' (Nat.lt_of_succ_lt short)
      (Nat.lt_of_succ_lt short')
    exact ⟨⟨List.suffix_cons _ _, settles⟩, matched.earlier le_rfl le_rfl le⟩
  · exact no cs cs' live same short short'

theorem tryChar_begins (c : Char) : (tryChar c).Begins true (Reader.atMark c (Pure.pure true) (Pure.pure false)) := by
  apply Reader.begins_look
  · intro cs rest there
    dsimp only [Reader.andThen]
    rw [show skip cs = _ from there]
    exact if_pos rfl
  · intro cs other
    dsimp only [Reader.andThen]
    change (skip cs).head? ≠ some c at other
    cases there : skip cs with
    | nil =>
      rw [show skipFrom true false cs = _ from there]
      rfl
    | cons =>
      rw [there] at other
      rw [show skipFrom true false cs = _ from there]
      exact if_neg fun eq => other (by rw [eq]; rfl)

theorem tryChar_keeps (mark : IsMark c) :
    pairing.Follows pairing.live pairing.live Bool.toNat n m (tryChar c) (tryChar c) :=
  .marked mark (tryChar_begins c) .done (.pure (fun _ => id) rfl) (by decide)

theorem expect_keeps (mark : IsMark c) : pairing.Keeps 1 n m (expect c) (expect c) := by
  have begins := (tryChar_begins c).bind fun found => do
    if found then return () else Program.fail (.expected c (← get).head?)
  refine .skipped begins begins fun cs cs' live same head _ _ => ?_
  unfold Reader.atMark
  rw [show cs'.head? = cs.head? from head]
  split
  · rename_i head
    obtain ⟨rest, rfl⟩ := List.head?_eq_some_iff.1 head
    obtain ⟨rest', rfl, same'⟩ := pairing.next mark.1 same
    exact ⟨⟨List.suffix_cons _ _, trivial⟩, rest', rfl, same', pairing.live_cons mark live, le_rfl, le_rfl⟩
  · refine ⟨trivial, ⟨.expected c cs'.head?, cs'⟩, rfl, ?_⟩
    rw [show cs'.head? = cs.head? from head]

theorem nextInLine_keeps : pairing.Follows pairing.live pairing.live Bool.toNat n m nextInLine nextInLine := by
  have begins : nextInLine.Begins false (Reader.atMark ',' (Pure.pure true) (Pure.pure false)) := by
    apply Reader.begins_look
    · intro cs rest there
      dsimp only [Reader.andThen]
      rw [show skipInLine cs = _ from there]
      rfl
    · intro cs other
      dsimp only [Reader.andThen]
      split
      · rename_i rest there
        exact absurd (congrArg List.head? there) other
      · rfl
  exact .marked (by decide) begins .done (.pure (fun _ => id) rfl) (by decide)

/-! ## Names and numbers -/

theorem while_same {p : Char → Bool} (marks : ∀ c, p c = true → IsMark c) (live : pairing.live cs)
    (same : pairing.same cs cs') : cs'.takeWhile p = cs.takeWhile p ∧ pairing.same (cs.dropWhile p) (cs'.dropWhile p) ∧
      pairing.live (cs.dropWhile p) := by
  have stops {cs : List Char} (none : ∀ c, cs.head? = some c → p c = false) :
      cs.takeWhile p = [] ∧ cs.dropWhile p = cs := by
    cases cs with
    | nil => exact ⟨rfl, rfl⟩
    | cons c cs => simp [none c rfl]
  induction cs generalizing cs' with
  | nil =>
    obtain ⟨taken, left⟩ : cs'.takeWhile p = [] ∧ cs'.dropWhile p = cs' := stops fun c head =>
      Bool.eq_false_iff.2 fun passes => pairing.quiet same (by simp) head (marks c passes).1
    rw [taken, left]
    exact ⟨rfl, same, live⟩
  | cons c cs ih =>
    cases here : p c with
    | true =>
      obtain ⟨rest', rfl, same'⟩ := pairing.next (marks c here).1 same
      simpa [here] using ih (pairing.live_cons (marks c here) live) same'
    | false =>
      obtain ⟨taken, left⟩ : cs'.takeWhile p = [] ∧ cs'.dropWhile p = cs' := stops fun d head => by
        rw [Bool.eq_false_iff]
        intro passes
        have first := (head?_eq_some_iff same (marks d passes).1).1 head
        obtain rfl := Option.some.inj first
        simp [here] at passes
      rw [taken, left]
      simpa [here] using ⟨same, live⟩

theorem isMark_of_continuesName (c : Char) (letter : Text.continuesName c = true) : IsMark c := by
  refine ⟨isSolid_of_continuesName letter, ?_⟩
  rintro rfl
  exact absurd letter (by decide)

theorem scanName_same (live : pairing.live cs) (same : pairing.same cs cs') :
    (scanName cs = none ∧ scanName cs' = none) ∨
    ∃ name rest rest', scanName cs = some (name, rest) ∧ scanName cs' = some (name, rest') ∧ pairing.same rest rest' ∧
      pairing.live rest ∧ rest.length + 1 ≤ cs.length ∧ rest'.length + 1 ≤ cs'.length := by
  obtain ⟨both, head⟩ := pairing.blanks live same
  have live' : pairing.live (skip cs) := pairing.live_skipFrom live
  have shorter : (skip cs).length ≤ cs.length := length_skipFrom_le _ _ _
  have shorter' : (skip cs').length ≤ cs'.length := length_skipFrom_le _ _ _
  unfold scanName
  cases found : skip cs with
  | nil =>
    rw [found, List.head?_nil, List.head?_eq_none_iff] at head
    exact .inl ⟨rfl, by rw [head]⟩
  | cons c rest =>
    rw [found] at both live' shorter
    obtain ⟨rest', found', -⟩ := pairing.next ((isSolid_of_skipFrom found).resolve_right (by simp)) both
    rw [found'] at both shorter' ⊢
    obtain ⟨taken, left, live''⟩ := while_same isMark_of_continuesName live' both
    have taken' {rest : List Char} (starts : Text.startsName c = true) :
        ((c :: rest).dropWhile Text.continuesName).length ≤ rest.length := by
      rw [List.dropWhile_cons, if_pos (startsName_continues c starts)]
      exact (List.dropWhile_suffix _).length_le
    dsimp only
    rw [taken]
    split
    · rename_i starts
      exact .inr ⟨_, _, _, rfl, rfl, left, live'', (Nat.succ_le_succ (taken' starts)).trans shorter,
        (Nat.succ_le_succ (taken' starts)).trans shorter'⟩
    · exact .inl ⟨rfl, rfl⟩

theorem scanName_suffix {name : String} (found : scanName cs = some (name, rest)) : rest <:+ cs := by
  unfold scanName at found
  split at found
  · exact nomatch found
  · rename_i c left there
    split at found
    · obtain ⟨-, rfl⟩ := Prod.mk.inj (Option.some.inj found)
      exact (List.dropWhile_suffix _).trans (there ▸ skipFrom_suffix true false cs)
    · exact nomatch found

theorem readName_run (cs : List Char) : readName.run cs =
    (scanName cs).elim (.error ⟨.expectedName (skip cs).head?, skip cs⟩) .ok := by
  rw [readName, Reader.run_get_bind]
  cases scanName cs <;> rfl

theorem readName_keeps : pairing.Keeps 1 n m readName readName := by
  intro cs cs' live same _ _
  have settles : readName.Settles cs := by
    rw [readName, Reader.settles_get_bind]
    cases found : scanName cs with
    | none => exact ⟨skipFrom_suffix true false cs, trivial⟩
    | some => exact ⟨scanName_suffix found, trivial⟩
  refine ⟨settles, ?_⟩
  rw [readName_run, readName_run]
  rcases scanName_same live same with ⟨none, none'⟩ | ⟨name, rest, rest', found, found', reads⟩
  · rw [none, none', (pairing.blanks live same).2]
    exact ⟨_, rfl, rfl⟩
  · rw [found, found']
    exact ⟨rest', rfl, reads⟩

theorem readValueName_keeps : pairing.Keeps 1 n m readValueName readValueName :=
  (expect_keeps (by decide)).before fun _ => readName_keeps.free

theorem readBlockName_keeps : pairing.Keeps 1 n m readBlockName readBlockName :=
  (expect_keeps (by decide)).before fun _ => readName_keeps.free

theorem readDigits_keeps (base : Nat) {isDigit : Char → Bool} (tooLarge : String → ParseError)
    (marks : ∀ c, isDigit c = true → IsMark c) :
    pairing.Keeps 0 n m (readDigits base isDigit tooLarge) (readDigits base isDigit tooLarge) := by
  intro cs cs' live same _ _
  obtain ⟨taken, left⟩ := while_same marks live same
  rw [readDigits, Reader.settles_get_bind, Reader.run_get_bind, Reader.run_get_bind]
  dsimp only
  rw [taken]
  split
  · exact ⟨trivial, _, rfl, rfl⟩
  · have shorter (cs : List Char) := List.dropWhile_suffix isDigit (l := cs)
    split
    · exact ⟨⟨shorter cs, trivial⟩, _, rfl, left.1, left.2, (shorter cs).length_le, (shorter cs').length_le⟩
    · exact ⟨⟨shorter cs, trivial⟩, _, rfl, rfl⟩

theorem isMark_of_isHexDigit (c : Char) (digit : isHexDigit c = true) : IsMark c := by
  refine ⟨isSolid_of_isHexDigit digit, ?_⟩
  rintro rfl
  exact absurd digit (by decide)

theorem afterHexMark?_same (same : pairing.same cs cs') : (afterHexMark? cs = none ∧ afterHexMark? cs' = none) ∨
    ∃ x rest rest', (x = 'x' ∨ x = 'X') ∧ cs = '0' :: x :: rest ∧ cs' = '0' :: x :: rest' ∧
      pairing.same rest rest' := by
  have solid {x : Char} (mark : x = 'x' ∨ x = 'X') : IsSolid x := by rcases mark with rfl | rfl <;> decide
  cases found : afterHexMark? cs with
  | some rest =>
    obtain ⟨x, mark, rfl⟩ := afterHexMark?_eq_some_iff.1 found
    obtain ⟨after, rfl, second⟩ := pairing.next (by decide) same
    obtain ⟨rest', rfl, third⟩ := pairing.next (solid mark) second
    exact .inr ⟨x, rest, rest', mark, rfl, rfl, third⟩
  | none =>
    refine .inl ⟨rfl, Option.eq_none_iff_forall_ne_some.2 fun left found' => ?_⟩
    obtain ⟨x, mark, rfl⟩ := afterHexMark?_eq_some_iff.1 found'
    obtain ⟨after, rfl⟩ := List.head?_eq_some_iff.1 ((head?_eq_some_iff same (c := '0') (by decide)).1 rfl)
    obtain ⟨rest', eq, second⟩ := pairing.next (by decide) same
    obtain rfl := (List.cons.inj eq).2
    obtain ⟨rest, rfl⟩ := List.head?_eq_some_iff.1 ((head?_eq_some_iff second (solid mark)).1 rfl)
    exact Option.some_ne_none _ ((afterHexMark?_eq_some_iff.2 ⟨x, mark, rfl⟩).symm.trans found)

theorem readMagnitude_keeps : pairing.Keeps 0 n m readMagnitude readMagnitude := by
  intro cs cs' live same short short'
  rw [readMagnitude, Reader.settles_get_bind, Reader.run_get_bind, Reader.run_get_bind]
  rcases afterHexMark?_same same with ⟨none, none'⟩ | ⟨x, rest, rest', mark, rfl, rfl, same'⟩
  · rw [none, none']
    have letter (c : Char) (digit : c.isDigit = true) := isMark_of_continuesName c (continuesName_of_isDigit digit)
    exact readDigits_keeps 10 _ letter cs cs' live same short short'
  · rw [afterHexMark?_eq_some_iff.2 ⟨x, mark, rfl⟩, afterHexMark?_eq_some_iff.2 ⟨x, mark, rfl⟩]
    have live' := pairing.live_cons (by rcases mark with rfl | rfl <;> decide) (pairing.live_cons (by decide) live)
    obtain ⟨settles, matched⟩ := readDigits_keeps 16 (fun _ => .hexTooLarge) isMark_of_isHexDigit rest rest' live' same'
      (Nat.lt_succ_self _) (Nat.lt_succ_self _)
    exact ⟨⟨(List.suffix_cons _ _).trans (List.suffix_cons _ _), settles⟩, matched.earlier (k := 0)
      (Nat.le_add_right _ 2) (Nat.le_add_right _ 2) fun _ => Nat.zero_le _⟩

theorem readNumber_keeps : pairing.Keeps 0 n m readNumber readNumber := by
  have read (sign : Nat → Int) : pairing.Keeps 0 n m (readMagnitude >>= fun magnitude => pure (sign magnitude))
      (readMagnitude >>= fun magnitude => pure (sign magnitude)) :=
    readMagnitude_keeps.andThen fun magnitude => .done
  have begins : readNumber.Begins true (Reader.atMark '-' (readMagnitude >>= fun magnitude => pure (-(magnitude : Int)))
      (readMagnitude >>= fun magnitude => pure (magnitude : Int))) := by
    apply Reader.begins_look
    · intro cs rest there
      dsimp only [Reader.andThen]
      rw [show skip cs = _ from there]
      rfl
    · intro cs other
      dsimp only [Reader.andThen]
      split
      · rename_i rest there
        exact absurd (congrArg List.head? there) other
      · rfl
  exact .marked (by decide) begins (read fun magnitude => -magnitude) (read fun magnitude => magnitude)
    fun _ => Nat.zero_le _

/-! ## Statements -/

theorem readCallOperands_keeps (n m : Nat) : pairing.Keeps 0 n m (readCallOperands n) (readCallOperands m) := by
  refine Follows.loop (l := fun n (_ : Unit) => readCallOperands n) (fun n m ih _ => ?_) n m ()
  refine nextInLine_keeps.bind fun more => ?_
  cases more with
  | false => exact .done
  | true => exact readValueName_keeps.andThen fun name => (ih ()).andThen fun more => .done

theorem readOperands_keeps (n m : Nat) : pairing.Keeps 0 n m (readOperands n) (readOperands m) := by
  refine Follows.loop (l := fun n (_ : Unit) => readOperands n) (fun n m ih _ => ?_) n m ()
  refine .peek false (p := (·.head? = some '%')) (fun same _ => head?_eq_some_iff same (by decide)) ?_ .done
  refine readValueName_keeps.andThen fun name => nextInLine_keeps.bind fun more => ?_
  cases more with
  | false => exact .done
  | true => exact (ih ()).andThen fun more => .done

theorem readArm_keeps : pairing.Keeps 1 n m readArm readArm := by
  refine (expect_keeps (by decide)).before fun _ => ?_
  refine .peek true (p := (·.head? = some '%')) (fun _ (head : _ = _) => by rw [head]) ?_ ?_
  · exact readValueName_keeps.andThen fun cond => (expect_keeps (by decide)).andThen fun _ =>
      readBlockName_keeps.andThen fun target => (expect_keeps (by decide)).andThen fun _ => .done
  · exact readBlockName_keeps.andThen fun target => (expect_keeps (by decide)).andThen fun _ => .done

theorem readMoreArms_keeps (n m : Nat) : pairing.Keeps 0 n m (readMoreArms n) (readMoreArms m) := by
  refine Follows.loop (l := fun n (_ : Unit) => readMoreArms n) (fun n m ih _ => ?_) n m ()
  refine nextInLine_keeps.bind fun more => ?_
  cases more with
  | false => exact .done
  | true =>
    refine readArm_keeps.andThen fun arm => ?_
    obtain ⟨cond, target⟩ := arm
    cases cond with
    | some => exact (ih ()).andThen fun result => .done
    | none =>
      refine nextInLine_keeps.andThen fun more => ?_
      cases more with
      | false => exact .done
      | true => exact readArm_keeps.andThen fun _ => .fail _

theorem readCase_keeps : pairing.Keeps 0 n m readCase readCase := by
  refine .peek true (p := (·.head?.any Text.isAlphabetic)) (fun _ (head : _ = _) => by rw [head]) ?_ ?_
  · exact readName_keeps.andThen fun name => .ite .done (.fail _)
  · exact readNumber_keeps.andThen fun number => .done

theorem readCases_keeps (n m : Nat) : pairing.Keeps 0 n m (readCases n) (readCases m) := by
  refine Follows.loop (l := fun n (_ : Unit) => readCases n) (fun n m ih _ => ?_) n m ()
  refine (tryChar_keeps (by decide)).bind fun more => ?_
  cases more with
  | false => exact .done
  | true =>
    exact (expect_keeps (by decide)).andThen fun _ => readCase_keeps.andThen fun case =>
      (expect_keeps (by decide)).andThen fun _ => readBlockName_keeps.andThen fun target =>
      (expect_keeps (by decide)).andThen fun _ => (ih ()).andThen fun more => .done

theorem readTwoWay_keeps (build : String → String → String → NamedInstr) :
    pairing.Keeps 0 n m (readTwoWay build) (readTwoWay build) :=
  readValueName_keeps.andThen fun cond => (expect_keeps (by decide)).andThen fun _ =>
    readBlockName_keeps.andThen fun thenBlock => (expect_keeps (by decide)).andThen fun _ =>
    readBlockName_keeps.andThen fun elseBlock => .done

theorem readCall_keeps : pairing.Keeps 0 n m readCall readCall := by
  let called : Reader NamedInstr := do
    let callee ← readName
    return .call callee (← bounded readCallOperands)
  have reads : pairing.Keeps 0 n m called called :=
    readName_keeps.andThen fun callee => (Follows.bounded readCallOperands_keeps).andThen fun operands => .done
  have begins : readCall.Begins false (Reader.atMark '@' called (Program.fail .expectedCallee)) := by
    apply Reader.begins_look
    · intro cs rest there
      dsimp only [Reader.andThen]
      rw [show skipInLine cs = _ from there]
      rfl
    · intro cs other
      dsimp only [Reader.andThen]
      split
      · rename_i rest there
        exact absurd (congrArg List.head? there) other
      · rfl
  exact .marked (by decide) begins reads (.fail _) fun _ => Nat.zero_le _

theorem readInstr_keeps (op : Op) : pairing.Keeps 0 n m (readInstr op) (readInstr op) := by
  cases op with
  | any => exact (Follows.bounded readOperands_keeps).andThen fun operands => .done
  | const => exact readNumber_keeps.andThen fun number => .done
  | binary op =>
    exact readValueName_keeps.andThen fun left => (expect_keeps (by decide)).andThen fun _ =>
      readValueName_keeps.andThen fun right => .done
  | copy => exact readValueName_keeps.andThen fun source => .done
  | call => exact readCall_keeps
  | init =>
    exact readValueName_keeps.andThen fun var => (expect_keeps (by decide)).andThen fun _ =>
      readNumber_keeps.andThen fun number => .done
  | vuse => exact readValueName_keeps.andThen fun source => .done
  | label => exact readName_keeps.andThen fun name => .done
  | asm => exact .done
  | ret =>
    refine .peek false (p := fun cs => atLineEnd cs = true) (fun _ (ends : _ = _) => by rw [ends]) .done ?_
    exact readValueName_keeps.andThen fun result => .done
  | br => exact readBlockName_keeps.andThen fun target => .done
  | condbr | loop => exact readTwoWay_keeps _
  | multiif =>
    refine readArm_keeps.andThen fun arm => ?_
    obtain ⟨cond, target⟩ := arm
    cases cond with
    | some => exact (Follows.bounded readMoreArms_keeps).andThen fun result => .done
    | none => exact .fail _
  | switch =>
    exact readValueName_keeps.andThen fun selector => (Follows.bounded readCases_keeps).andThen fun arms =>
      .ite (.fail _) .done
  | goto => exact readBlockName_keeps.andThen fun target => .done
  | argument | phi | vphi => exact .fail _

theorem readOp_keeps : pairing.Keeps 1 n m readOp readOp := by
  refine readName_keeps.before fun name => ?_
  cases Op.ofName? name with
  | none => exact .fail _
  | some op => exact .done

theorem readValueOp_keeps : pairing.Keeps 0 n m readValueOp readValueOp :=
  .peek false (p := fun cs => (atLineEnd cs || cs.head? = some '%') = true) (fun same (ends : _ = _) => by
      have head := head?_eq_some_iff same (c := '%') (by decide)
      simp only [Bool.or_eq_true, ends, decide_eq_true_eq, head])
    .done readOp_keeps.free

theorem define_keeps (defined : List String) (name : String) :
    pairing.Keeps 0 n m (define defined name) (define defined name) :=
  .ite (.fail _) .done

theorem readStatement_keeps (defined : List String) :
    pairing.Keeps 1 n m (readStatement defined) (readStatement defined) := by
  refine .peek true (p := (·.head? = some '%')) (fun _ (head : _ = _) => by rw [head]) ?_ ?_
  · refine readValueName_keeps.before fun name => (expect_keeps (by decide)).andThen fun _ => ?_
    refine readValueOp_keeps.andThen fun op => .ite (.fail _) ?_
    exact (define_keeps defined name).andThen fun defined => (readInstr_keeps op).andThen fun instr => .done
  · refine readOp_keeps.before fun op => .ite (.fail _) ?_
    exact (readInstr_keeps op).andThen fun instr => .done

/-! ## Blocks -/

theorem phiAhead?_same (live : pairing.live cs) (same : pairing.same cs cs') : phiAhead? cs' = phiAhead? cs := by
  have mark (c : Char) (isMark : IsMark c) {cs cs' : List Char} (live : pairing.live cs) (same : pairing.same cs cs') :
      ((skip cs).head? ≠ some c ∧ (skip cs').head? ≠ some c) ∨
      ∃ rest rest', skip cs = c :: rest ∧ skip cs' = c :: rest' ∧ pairing.same rest rest' ∧ pairing.live rest := by
    obtain ⟨both, head⟩ := pairing.blanks live same
    by_cases here : (skip cs).head? = some c
    · obtain ⟨rest, found⟩ := List.head?_eq_some_iff.1 here
      rw [found] at both
      obtain ⟨rest', found', same'⟩ := pairing.next isMark.1 both
      exact .inr ⟨rest, rest', found, found', same', pairing.live_cons isMark (found ▸ pairing.live_skipFrom live)⟩
    · exact .inl ⟨here, head ▸ here⟩
  unfold phiAhead?
  rcases mark '%' (by decide) live same with ⟨other, other'⟩ | ⟨rest, rest', found, found', same, live⟩
  · split <;> split <;> simp_all
  · simp only [found, found']
    rcases scanName_same live same with ⟨none, none'⟩ | ⟨name, rest, rest', named, named', same, live, -⟩
    · simp only [none, none']
    · simp only [named, named']
      rcases mark '=' (by decide) live same with ⟨other, other'⟩ | ⟨rest, rest', found, found', same, live⟩
      · split <;> split <;> simp_all
      · simp only [found, found']
        rcases scanName_same live same with ⟨none, none'⟩ | ⟨name, rest, rest', named, named', -⟩
        · simp only [none, none']
        · simp only [named, named']
          split <;> simp_all

theorem blockEnds_same (live : pairing.live cs) (same : pairing.same cs cs') (head : cs'.head? = cs.head?) :
    blockEnds cs' = blockEnds cs := by
  have empty : cs'.isEmpty = cs.isEmpty := by
    rw [Bool.eq_iff_iff, List.isEmpty_iff, List.isEmpty_iff, ← List.head?_eq_none_iff, head, List.head?_eq_none_iff]
  unfold blockEnds
  rw [empty, head]
  rcases scanName_same live same with ⟨none, none'⟩ | ⟨name, rest, rest', found, found', same', live', -⟩
  · rw [none, none']
  · rw [found, found']
    dsimp only
    rw [(pairing.blanks live' same').2]

theorem readIncoming_keeps (n m : Nat) : pairing.Keeps 0 n m (readIncoming n) (readIncoming m) := by
  refine Follows.loop (l := fun n (_ : Unit) => readIncoming n) (fun n m ih _ => ?_) n m ()
  refine (expect_keeps (by decide)).andThen fun _ => readBlockName_keeps.andThen fun block => ?_
  refine (expect_keeps (by decide)).andThen fun _ => readValueName_keeps.andThen fun value => ?_
  refine (expect_keeps (by decide)).andThen fun _ => nextInLine_keeps.bind fun more => ?_
  cases more with
  | false => exact .done
  | true => exact (ih ()).andThen fun incoming => .done

theorem readPhi_keeps (isVirtual : Bool) (defined : List String) :
    pairing.Keeps 1 n m (readPhi isVirtual defined) (readPhi isVirtual defined) :=
  readValueName_keeps.before fun name => (expect_keeps (by decide)).andThen fun _ => readName_keeps.andThen fun _ =>
    (define_keeps defined name).andThen fun defined =>
      (Follows.bounded readIncoming_keeps).andThen fun incoming => .done

theorem readBlockItems_keeps (n m : Nat) (block : NamedBlock) (defined : List String) :
    pairing.Keeps 0 n m (readBlockItems n block defined) (readBlockItems m block defined) := by
  refine Follows.loop (l := fun n (i : NamedBlock × List String) => readBlockItems n i.1 i.2) (fun n m ih i => ?_) n m
    (block, defined)
  obtain ⟨block, defined⟩ := i
  -- What is read depends on the text only through what lies ahead.
  let item (fuel : Nat) (ends : Bool) (phi : Option Bool) : Reader (NamedBlock × List String) :=
    if ends then return (block, defined)
    else if isTerminated block.stmts then Program.fail (.afterTerminator block.name)
    else phi.elim (do
        let read ← readStatement defined
        if read.1.instr.op = .label && !block.stmts.isEmpty then Program.fail (.lateLabel block.name)
        else readBlockItems fuel { block with stmts := block.stmts ++ [read.1] } read.2)
      fun isVirtual =>
        if !block.stmts.isEmpty then Program.fail .latePhi
        else do
          let read ← readPhi isVirtual defined
          readBlockItems fuel { block with phis := block.phis ++ [read.1] } read.2
  have begins (fuel : Nat) : (readBlockItems (fuel + 1) block defined).Begins true
      fun cs => item fuel (blockEnds cs) (phiAhead? cs) := by
    intro cs
    change _ = (item fuel (blockEnds (skip cs)) (phiAhead? (skip cs))).run (skip cs) ∧
      ((item fuel (blockEnds (skip cs)) (phiAhead? (skip cs))).Settles (skip cs) → _)
    rw [readBlockItems, Reader.run_get_bind, Reader.settles_get_bind]
    dsimp only
    cases phiAhead? (skip cs) <;> exact ⟨rfl, fun settles => ⟨skipFrom_suffix true false cs, settles⟩⟩
  have reads (ends : Bool) (phi : Option Bool) :
      pairing.Keeps 0 (n + 1) (m + 1) (item n ends phi) (item m ends phi) := by
    refine .ite .done (.ite (.fail _) ?_)
    cases phi with
    | some isVirtual => exact .ite (.fail _) ((readPhi_keeps isVirtual defined).bind fun _ => ih (_, _))
    | none => exact (readStatement_keeps defined).bind fun _ => .ite (.fail _) (ih (_, _))
  refine .skipped (begins n) (begins m) fun cs cs' live same head short short' => ?_
  rw [blockEnds_same live same head, phiAhead?_same live same]
  exact reads _ _ cs cs' live same short short'

theorem readBlock_keeps (blocks : List NamedBlock) (defined : List String) :
    pairing.Keeps 1 n m (readBlock blocks defined) (readBlock blocks defined) :=
  readName_keeps.before fun name => (expect_keeps (by decide)).andThen fun _ =>
    .ite (.fail _) (.bounded fun n m => readBlockItems_keeps n m _ defined)

/-! ## Functions -/

theorem readBlocks_follows (function : String) (n m : Nat) (blocks : List NamedBlock) (defined : List String) :
    pairing.Follows pairing.live (fun _ => pairing.closed) (fun _ => 0) n m (readBlocks function n blocks defined)
      (readBlocks function m blocks defined) := by
  refine Follows.loop (l := fun n (i : List NamedBlock × List String) => readBlocks function n i.1 i.2)
    (fun n m ih i => ?_) n m (blocks, defined)
  obtain ⟨blocks, defined⟩ := i
  have begins (fuel : Nat) := (tryChar_begins '\x7d').bind fun closed => do
    if closed then return blocks
    else if (← get).isEmpty then Program.fail (.unterminatedBody function)
    else
      let read ← readBlock blocks defined
      readBlocks function fuel (blocks ++ [read.1]) read.2
  refine .skipped (begins n) (begins m) fun cs cs' live same head short short' => ?_
  unfold Reader.atMark
  rw [show cs'.head? = cs.head? from head]
  split
  · rename_i close
    obtain ⟨rest, rfl⟩ := List.head?_eq_some_iff.1 close
    obtain ⟨rest', rfl, same'⟩ := pairing.next (by decide) same
    exact ⟨⟨List.suffix_cons _ _, trivial⟩, rest', rfl, same', pairing.live_close live, Nat.le_succ _, Nat.le_succ _⟩
  · cases cs with
    | nil =>
      obtain rfl := List.head?_eq_none_iff.1 head
      exact ⟨trivial, _, rfl, rfl⟩
    | cons =>
      obtain ⟨rest', rfl⟩ := List.head?_eq_some_iff.1 head
      exact ((readBlock_keeps blocks defined).bind fun _ => ih (_, _)) _ _ live same short short'

theorem readArgs_keeps (n m : Nat) (args : List String) : pairing.Keeps 0 n m (readArgs n args) (readArgs m args) := by
  refine Follows.loop (fun n m ih args => ?_) n m args
  refine (tryChar_keeps (by decide)).andThen fun closed => ?_
  cases closed with
  | true => exact .done
  | false =>
    refine readValueName_keeps.bind fun name => (define_keeps args name).andThen fun args => ?_
    refine (tryChar_keeps (by decide)).andThen fun more => ?_
    cases more with
    | true => exact ih args
    | false =>
      intro cs cs' live same short short'
      have here : pairing.Keeps 0 n m (if cs.head? = some ')' then readArgs n args else Program.fail .argumentSeparator)
          (if cs.head? = some ')' then readArgs m args else Program.fail .argumentSeparator) := .ite (ih args) (.fail _)
      have read := here cs cs' live same short short'
      rwa [← if_congr (head?_eq_some_iff same (by decide)) (rfl : readArgs m args = _) rfl] at read

theorem readFunction_follows (pairing : Pairing) (functions : List Function) :
    pairing.Follows pairing.live (fun _ => pairing.closed) (fun _ => 1) n m (readFunction functions)
      (readFunction functions) := by
  refine readName_keeps.before fun name => .ite (.fail _) ((expect_keeps (by decide)).andThen fun _ => ?_)
  refine (Follows.bounded fun n m => readArgs_keeps n m []).andThen fun args =>
    (expect_keeps (by decide)).andThen fun _ => ?_
  refine (Follows.bounded fun n m => readBlocks_follows name n m [] args).andThen fun blocks => .ite (.fail _) ?_
  cases resolve ⟨name, args, blocks⟩ with
  | error => exact .fail _
  | ok f => exact .pure (fun _ => id) rfl

theorem readFunctions_keeps (pairing : Pairing) (always : ∀ cs, pairing.live cs) (n m : Nat)
    (functions : List Function) :
    pairing.Keeps 0 n m (readFunctions n functions) (readFunctions m functions) := by
  refine Follows.loop (fun n m ih functions => ?_) n m functions
  refine Follows.peek true (p := (·.isEmpty = true)) (fun _ (head : _ = _) => ?_) .done
    ((pairing.readFunction_follows functions).bind fun f => ?_)
  · rw [List.isEmpty_iff, List.isEmpty_iff, ← List.head?_eq_none_iff, ← List.head?_eq_none_iff, head]
  · exact fun cs cs' _ => ih _ cs cs' (always cs)

end Pairing

theorem run_readFunctions (fuel : Nat) (functions : List Function) (cs : List Char) :
    (readFunctions (fuel + 1) functions).run cs = (if (skip cs).isEmpty then pure functions else
      readFunction functions >>= fun f => readFunctions fuel (functions ++ [f])).run (skip cs) :=
  rfl

end Reflow.Program
