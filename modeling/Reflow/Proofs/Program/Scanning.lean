import Reflow.Proofs.Program.WellFormed

namespace Reflow.Program

variable {c : Char}

theorem skip_skipFrom (comment : Bool) (cs : List Char) :
    skip (skipFrom true comment cs) = skipFrom true comment cs := by
  induction cs generalizing comment with
  | nil => rfl
  | cons c cs ih =>
    rw [skipFrom]
    split
    · exact ih false
    · split
      · exact ih true
      · split
        · exact ih false
        · rename_i line comment blank
          simp only [Bool.or_eq_true, decide_eq_true_eq, not_or] at comment
          simp [skip, skipFrom, line, comment.2, blank]

theorem skip_skipFrom_inLine (comment : Bool) (cs : List Char) :
    skip (skipFrom false comment cs) = skipFrom true comment cs := by
  induction cs generalizing comment with
  | nil => rfl
  | cons c cs ih =>
    rw [skipFrom, skipFrom]
    split
    · rename_i line
      simp [skip, skipFrom, line]
    · split
      · exact ih true
      · split
        · exact ih false
        · rename_i line comment blank
          simp only [Bool.or_eq_true, decide_eq_true_eq, not_or] at comment
          simp [skip, skipFrom, line, comment.2, blank]

@[simp]
theorem skip_skip (cs : List Char) : skip (skip cs) = skip cs :=
  skip_skipFrom false cs

@[simp]
theorem skip_skipInLine (cs : List Char) : skip (skipInLine cs) = skip cs :=
  skip_skipFrom_inLine false cs

theorem skipFrom_suffix (newlines comment : Bool) (cs : List Char) : skipFrom newlines comment cs <:+ cs := by
  induction cs generalizing comment with
  | nil => exact List.suffix_refl _
  | cons c cs ih =>
    rw [skipFrom]
    have later (comment : Bool) : skipFrom newlines comment cs <:+ c :: cs := (ih comment).trans (List.suffix_cons c cs)
    split
    · split
      · exact later false
      · exact List.suffix_refl _
    · split
      · exact later true
      · split
        · exact later false
        · exact List.suffix_refl _

theorem length_skipFrom_le (newlines comment : Bool) (cs : List Char) :
    (skipFrom newlines comment cs).length ≤ cs.length :=
  (skipFrom_suffix newlines comment cs).length_le

def IsSolid (c : Char) : Prop :=
  Text.isBlank c = false ∧ c ≠ ';'

instance (c : Char) : Decidable (IsSolid c) :=
  inferInstanceAs (Decidable (_ ∧ _))

theorem IsSolid.ne_lineFeed (solid : IsSolid c) : c ≠ '\n' := by
  rintro rfl
  exact absurd solid.1 (by decide)

theorem isSolid_of_skipFrom {newlines comment : Bool} {cs rest : List Char}
    (found : skipFrom newlines comment cs = c :: rest) : IsSolid c ∨ newlines = false ∧ c = '\n' := by
  induction cs generalizing comment with
  | nil => cases found
  | cons d cs ih =>
    rw [skipFrom] at found
    split at found
    · split at found
      · exact ih found
      · rename_i line stops
        obtain rfl := (List.cons.inj found).1
        exact .inr ⟨by simpa using stops, line⟩
    · split at found
      · exact ih found
      · rename_i comment
        split at found
        · exact ih found
        · rename_i blank
          obtain rfl := (List.cons.inj found).1
          rw [Bool.or_eq_true, decide_eq_true_eq, not_or] at comment
          exact .inl ⟨Bool.eq_false_iff.2 blank, comment.2⟩

theorem isSolid_of_continuesName (letter : Text.continuesName c = true) : IsSolid c := by
  refine ⟨Text.isBlank_of_continuesName letter, ?_⟩
  rintro rfl
  exact absurd letter (by decide)

theorem skipFrom_cons (solid : IsSolid c) (newlines : Bool) (cs : List Char) :
    skipFrom newlines false (c :: cs) = c :: cs := by
  simp [skipFrom, solid.ne_lineFeed, solid.1, solid.2]

theorem skip_cons (solid : IsSolid c) (cs : List Char) : skip (c :: cs) = c :: cs :=
  skipFrom_cons solid true cs

theorem Reader.run_get_bind {α : Type} (next : List Char → Reader α) (cs : List Char) :
    (get >>= next).run cs = (next cs).run cs :=
  rfl

def Reader.Reads {α : Type} (reader : Reader α) (cs : List Char) (a : α) (rest : List Char) : Prop :=
  reader.run cs = .ok (a, rest)

namespace Reader.Reads

variable {α β : Type} {cs middle rest : List Char} {a : α} {b : β}
  {reader : Reader β} {next : β → Reader α}

theorem pure : Reads (Pure.pure a) cs a cs :=
  rfl

theorem bind (first : reader.Reads cs b middle)
    (second : (next b).Reads middle a rest) : (reader >>= next).Reads cs a rest := by
  rw [Reads, Reader.run_bind, first]
  exact second

theorem of_bind (reads : (reader >>= next).Reads cs a rest) :
    ∃ b middle, reader.Reads cs b middle ∧ (next b).Reads middle a rest := by
  rw [Reader.Reads, Reader.run_bind] at reads
  cases first : reader.run cs with
  | error =>
    rw [first] at reads
    exact nomatch reads
  | ok result =>
    rw [first] at reads
    exact ⟨result.1, result.2, first, reads⟩

theorem get {next : List Char → Reader α} (reads : (next cs).Reads cs a rest) :
    Reads (MonadState.get >>= next) cs a rest :=
  reads

theorem set {next : PUnit → Reader α} (reads : (next ⟨⟩).Reads middle a rest) :
    Reads (MonadStateOf.set middle >>= next) cs a rest :=
  reads

theorem bounded {loop : Nat → Reader α} (reads : (loop (cs.length + 1)).Reads cs a rest) :
    (Program.bounded loop).Reads cs a rest :=
  reads

end Reader.Reads

open Reader

section Words

variable {cs rest : List Char} {c d : Char} {name : String}
  {p : Char → Bool} {front : List Char}

theorem tryChar_reads (found : skip cs = c :: rest) : (tryChar c).Reads cs true rest := by
  refine .get ?_
  simp only [found, if_true]
  exact .set .pure

theorem tryChar_reads_other (found : skip cs = d :: rest) (other : d ≠ c) : (tryChar c).Reads cs false (d :: rest) := by
  refine .get ?_
  simp only [found, if_neg other]
  exact .set .pure

theorem tryChar_reads_nil (found : skip cs = []) : (tryChar c).Reads cs false [] := by
  refine .get ?_
  simp only [found]
  exact .set .pure

theorem expect_reads (found : skip cs = c :: rest) : (expect c).Reads cs () rest :=
  (tryChar_reads found).bind .pure

def EndsName (cs : List Char) : Prop :=
  ∀ c ∈ cs.head?, Text.continuesName c = false

theorem EndsName.cons (mark : Text.continuesName c = false) : EndsName (c :: cs) := by
  simpa [EndsName] using mark

theorem IsWord.skip_eq (word : IsWord name) (rest : List Char) : skip (name.toList ++ rest) = name.toList ++ rest := by
  obtain ⟨c, letters, chars, -, continues⟩ := word
  rw [chars, List.cons_append]
  exact skip_cons (isSolid_of_continuesName (continues c (by simp [chars]))) _

theorem IsWord.skip_space (word : IsWord name) (rest : List Char) :
    skip (' ' :: (name.toList ++ rest)) = name.toList ++ rest :=
  word.skip_eq rest

theorem takeWhile_append (all : ∀ c ∈ front, p c = true)
    (stop : ∀ c ∈ rest.head?, p c = false) : (front ++ rest).takeWhile p = front := by
  rw [List.takeWhile_append_of_pos all]
  cases rest with
  | nil => simp
  | cons c => simp [stop c rfl]

theorem dropWhile_append (all : ∀ c ∈ front, p c = true)
    (stop : ∀ c ∈ rest.head?, p c = false) : (front ++ rest).dropWhile p = rest := by
  rw [List.dropWhile_append_of_pos all]
  cases rest with
  | nil => rfl
  | cons c => simp [stop c rfl]

section

variable (word : IsWord name) (found : skip cs = name.toList ++ rest) (ends : EndsName rest)
include word found ends

theorem scanName_eq : scanName cs = some (name, rest) := by
  obtain ⟨c, letters, chars, starts, continues⟩ := word
  have front := takeWhile_append continues ends
  have back := dropWhile_append continues ends
  simp only [chars, List.cons_append] at found front back
  simp only [scanName, found, starts, if_true, front, back, ← chars, String.ofList_toList]

theorem readName_reads : readName.Reads cs name rest := by
  refine .get ?_
  simp only [scanName_eq word found ends]
  exact .set .pure

end

theorem readValueName_reads (word : IsWord name) (found : skip cs = '%' :: (name.toList ++ rest))
    (ends : EndsName rest) : readValueName.Reads cs name rest :=
  (expect_reads found).bind (readName_reads word (word.skip_eq rest) ends)

theorem readBlockName_reads (word : IsWord name) (found : skip cs = '^' :: (name.toList ++ rest))
    (ends : EndsName rest) : readBlockName.Reads cs name rest :=
  (expect_reads found).bind (readName_reads word (word.skip_eq rest) ends)

end Words

/-- The text after a line: its line holds nothing more, and what comes next goes on with no list and is no mark of a
block. -/
structure LineEnds (after : List Char) : Prop where
  name : EndsName after
  line : atLineEnd (skipInLine after) = true
  next : ∀ c ∈ (skip after).head?, c ≠ ',' ∧ c ≠ ':'

theorem nextInLine_reads (rest : List Char) : nextInLine.Reads (',' :: rest) true rest :=
  rfl

theorem nextInLine_reads_end {after : List Char} (ends : LineEnds after) :
    nextInLine.Reads after false (skipInLine after) := by
  have line := ends.line
  refine .get ?_
  split
  · rename_i same
    simp [same, atLineEnd] at line
  · exact .set .pure

def At : List (List Char) → List Char → Prop
  | [], cs => skip cs = []
  | line :: lines, cs => ∃ after, skip cs = line ++ after ∧ LineEnds after ∧ At lines after

theorem At.congr {lines : List (List Char)} {cs cs' : List Char} (at_ : At lines cs) (same : skip cs' = skip cs) :
    At lines cs' := by
  cases lines with
  | nil => exact same.trans at_
  | cons =>
    obtain ⟨after, found, rest⟩ := at_
    exact ⟨after, same.trans found, rest⟩

theorem At.length_le {front lines : List (List Char)} {cs : List Char} (written : ∀ line ∈ front, line ≠ [])
    (at_ : At (front ++ lines) cs) : front.length ≤ cs.length := by
  induction front generalizing cs with
  | nil => simp
  | cons line _ ih =>
    obtain ⟨after, found, -, rest⟩ := at_
    have more := ih (fun line mem => written line (.tail _ mem)) rest
    have some : 0 < line.length := List.length_pos_of_ne_nil (written line (.head _))
    have whole : (skip cs).length ≤ cs.length := length_skipFrom_le true false cs
    rw [found, List.length_append] at whole
    rw [List.length_cons]
    omega

end Reflow.Program
