import Reflow.Proofs.Program.SideBySide

namespace Reflow.Program

namespace Reader

variable {α : Type} {reader : Reader α} {cs rest point : List Char} {a : α} {fault : Fault}

def points : Reader α → List Char → List (List Char)
  | done _, cs | .fault _, cs => [cs]
  | look next, cs => (next cs).points cs
  | move rest next, cs => cs :: next.points rest
  | giveUp next, cs => next.points cs

def GivesUp : Reader α → List Char → Prop
  | done _, _ | .fault _, _ => False
  | look next, cs => (next cs).GivesUp cs
  | move rest next, _ => next.GivesUp rest
  | giveUp _, _ => True

def Advances (reader : Reader α) : Prop :=
  ∀ cs a rest, reader.run cs = .ok (a, rest) → rest <:+ cs ∧ rest.length < cs.length

theorem head?_points (reader : Reader α) (cs : List Char) : (reader.points cs).head? = some cs := by
  induction reader generalizing cs with
  | done | fault | move => rfl
  | look next ih => exact ih cs cs
  | giveUp next ih => exact ih cs

theorem mem_points_of_ok (ran : reader.run cs = .ok (a, rest)) : rest ∈ reader.points cs := by
  induction reader generalizing cs with
  | done =>
    cases ran
    exact List.mem_singleton_self _
  | fault => cases ran
  | look next ih => exact ih cs ran
  | move _ _ ih => exact .tail _ (ih ran)
  | giveUp next ih => exact ih ran

theorem mem_points_of_error (ran : reader.run cs = .error fault) : fault.rest ∈ reader.points cs := by
  induction reader generalizing cs with
  | done => cases ran
  | fault =>
    cases ran
    exact List.mem_singleton_self _
  | look next ih => exact ih cs ran
  | move _ _ ih => exact .tail _ (ih ran)
  | giveUp next ih => exact ih ran

namespace Settles

theorem not_givesUp (settles : reader.Settles cs) : ¬ reader.GivesUp cs := by
  induction reader generalizing cs with
  | done | fault => exact id
  | look next ih => exact ih cs settles
  | move _ _ ih => exact ih settles.2
  | giveUp => exact settles.elim

theorem isChain_points (settles : reader.Settles cs) :
    (reader.points cs).IsChain fun before after => after <:+ before := by
  induction reader generalizing cs with
  | done | fault => exact .singleton _
  | look next ih => exact ih cs settles
  | move _ _ ih =>
    refine (ih settles.2).cons fun after first => ?_
    rw [head?_points] at first
    obtain rfl := Option.some.inj first
    exact settles.1
  | giveUp => exact settles.elim

theorem suffix_of_mem_points (settles : reader.Settles cs) (mem : point ∈ reader.points cs) : point <:+ cs := by
  induction reader generalizing cs with
  | done | fault => exact List.mem_singleton.1 mem ▸ List.suffix_rfl
  | look next ih => exact ih cs settles mem
  | move _ _ ih =>
    rcases List.mem_cons.1 mem with rfl | later
    · exact List.suffix_rfl
    · exact (ih settles.2 later).trans settles.1
  | giveUp => exact settles.elim

end Settles

end Reader

def Pairing.itself : Pairing :=
  .alone (fun _ => True) True (fun _ => id) id id

variable {post : List Char → Prop}

theorem Pairing.Follows.settles {α : Type} {reader : Reader α} {gain : α → Nat}
    (follows : ∀ n, itself.Follows itself.live post gain n n reader reader) (cs : List Char) : reader.Settles cs :=
  (follows _ cs cs trivial rfl (Nat.lt_succ_self _) (Nat.lt_succ_self _)).1

theorem Pairing.Follows.advances {α : Type} {reader : Reader α}
    (follows : ∀ n, itself.Follows itself.live post (fun _ => 1) n n reader reader) : reader.Advances := by
  intro cs a rest ran
  obtain ⟨settles, matched⟩ := follows _ cs cs trivial rfl (Nat.lt_succ_self _) (Nat.lt_succ_self _)
  rw [ran] at matched
  obtain ⟨_, -, -, -, shorter, -⟩ := matched
  exact ⟨settles.suffix_of_mem_points (Reader.mem_points_of_ok ran), shorter⟩

def positionOf (text : String) (rest : List Char) : String.Pos.Raw :=
  ⟨byteSize text.toList - byteSize rest⟩

theorem byteSize_append (front rest : List Char) : byteSize (front ++ rest) = byteSize front + byteSize rest := by
  induction front with
  | nil => exact (Nat.zero_add _).symm
  | cons _ _ ih => rw [List.cons_append, byteSize, byteSize, ih, Nat.add_assoc]

theorem utf8ByteSize_ofList (cs : List Char) : (String.ofList cs).utf8ByteSize = byteSize cs := by
  induction cs with
  | nil => rfl
  | cons c cs ih => rw [String.ofList_cons, String.utf8ByteSize_append, String.utf8ByteSize_singleton, ih, byteSize]

theorem isValid_positionOf {text : String} {rest : List Char} (suffix : rest <:+ text.toList) :
    (positionOf text rest).IsValid text := by
  obtain ⟨front, split⟩ := suffix
  refine String.Pos.Raw.isValid_iff_exists_append.2 ⟨String.ofList front, String.ofList rest, ?_, ?_⟩
  · rw [← String.ofList_append, split, String.ofList_toList]
  · have size : byteSize text.toList - byteSize rest = byteSize front := by
      rw [← split, byteSize_append, Nat.add_sub_cancel]
    rw [positionOf, size, ← utf8ByteSize_ofList]
    rfl

abbrev readProgram : Reader (List Function) :=
  bounded fun fuel => readFunctions fuel []

theorem readProgram_settles (cs : List Char) : readProgram.Settles cs :=
  Pairing.Follows.settles (fun _ => .bounded fun n m => Pairing.itself.readFunctions_keeps (fun _ => trivial) n m []) cs

theorem points_readBlockItems (fuel : Nat) (block : NamedBlock) (defined : List String) (cs : List Char) :
    ∃ later, (readBlockItems (fuel + 1) block defined).points cs = cs :: skip cs :: later := by
  obtain ⟨next, moved⟩ : ∃ next : Reader _, (readBlockItems (fuel + 1) block defined).points cs =
      cs :: next.points (skip cs) := ⟨_, rfl⟩
  obtain ⟨later, there⟩ := List.head?_eq_some_iff.1 (next.head?_points (skip cs))
  exact ⟨later, by rw [moved, there]⟩

/-- Parsing comes to its end without a loop that gives up. All the time it stands at a position of the text, which is
that of a character or the end, and it never goes back, also when it asks what lies ahead; so an error has such a
position. -/
theorem parse_stands_in_text (text : String) : (¬ readProgram.GivesUp text.toList ∧
      (∀ point ∈ readProgram.points text.toList, (positionOf text point).IsValid text) ∧
      (readProgram.points text.toList).IsChain fun before after => after <:+ before) ∧
    (∀ diagnosis, parse text = .error diagnosis → String.Pos.Raw.IsValid text ⟨diagnosis.position⟩) ∧
    (∀ functions, (readFunction functions).Advances) ∧
    (∀ blocks defined, (readBlock blocks defined).Advances) ∧
    (∀ isVirtual defined, (readPhi isVirtual defined).Advances) ∧
    (∀ defined, (readStatement defined).Advances) ∧
    (∀ fuel block defined cs,
      ∃ later, (readBlockItems (fuel + 1) block defined).points cs = cs :: skip cs :: later ∧ skip cs <:+ cs) ∧
    ∀ cs name rest, scanName cs = some (name, rest) → rest <:+ cs := by
  have settles := readProgram_settles text.toList
  refine ⟨⟨settles.not_givesUp, fun point mem => ?_, settles.isChain_points⟩, fun diagnosis failed => ?_,
    fun functions => ?_, fun blocks defined => ?_, fun isVirtual defined => ?_, fun defined => ?_,
    fun fuel block defined cs => ?_, fun cs name rest found => ?_⟩
  · exact isValid_positionOf (settles.suffix_of_mem_points mem)
  · rw [parse] at failed
    split at failed
    · cases failed
    · rename_i fault ran
      cases failed
      exact isValid_positionOf (settles.suffix_of_mem_points (Reader.mem_points_of_error ran))
  · exact Pairing.Follows.advances fun _ => Pairing.itself.readFunction_follows functions
  · exact Pairing.Follows.advances fun _ => Pairing.readBlock_keeps blocks defined
  · exact Pairing.Follows.advances fun _ => Pairing.readPhi_keeps isVirtual defined
  · exact Pairing.Follows.advances fun _ => Pairing.readStatement_keeps defined
  · obtain ⟨later, points⟩ := points_readBlockItems fuel block defined cs
    exact ⟨later, points, skipFrom_suffix true false cs⟩
  · exact Pairing.scanName_suffix found

end Reflow.Program
