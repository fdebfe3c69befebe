import Reflow.Proofs.Code.Phrase
import Reflow.Proofs.Emit.Lockstep

namespace Reflow

namespace Line

def seen (lines : List Line) : List Line :=
  lines.filter fun line => !line.isComment

theorem seen_append (lines more : List Line) : seen (lines ++ more) = seen lines ++ seen more :=
  List.filter_append ..

def mark? (reserved : List String) (line : Line) : Option Mark :=
  Mark.ofRow reserved line.row

def IsElseOf (b : BlockId) : Line → Prop
  | elseBranch c | elseIf c _ => c = b
  | _ => False

def Attached (branch : Line × List Line) : Prop :=
  ∃ b id text, branch.1 = stmt b id text ∧ ∀ row ∈ branch.2, row.IsElseOf b

structure Holds (reserved : List String) {part : Part} (phrase : Phrase Line part) : Prop where
  fits : phrase.Fits (mark? reserved)
  attached : ∀ branch ∈ phrase.branches, Attached branch

def IsList (reserved : List String) (lines : List Line) : Prop :=
  ∃ phrase : Phrase Line .list, Holds reserved phrase ∧ phrase.rows = seen lines

def IsSlot (reserved : List String) (lines : List Line) : Prop :=
  ∃ phrase : Phrase Line .statement, Holds reserved phrase ∧ phrase.isClosed = true ∧ phrase.rows = seen lines

def IsChain (reserved : List String) (b : BlockId) (lines : List Line) : Prop :=
  ∃ phrase : Phrase Line .chain, Holds reserved phrase ∧ (∀ row ∈ phrase.heads, row.IsElseOf b) ∧
    phrase.rows = seen lines

def IsGroups (reserved : List String) (lines : List Line) : Prop :=
  ∃ phrase : Phrase Line .groups, Holds reserved phrase ∧ phrase.rows = seen lines

def IsPlain (reserved : List String) (line : Line) : Prop :=
  line.isComment = true ∨ ∃ mark, mark.isPlain = true ∧ line.mark? reserved = some mark

variable {reserved : List String} {lines more : List Line} {line : Line} {mark : Mark} {b : BlockId}
  {id : StmtId} {text : String}

theorem IsPlain.of_isMarked (marked : line.IsMarked reserved mark) (plain : mark.isPlain = true) :
    line.IsPlain reserved :=
  .inr ⟨mark, plain, marked.mark⟩

theorem IsSlot.of_isPlain (plain : line.IsPlain reserved) (real : line.isComment = false) : IsSlot reserved [line] := by
  obtain comment | ⟨mark, isPlain, marked⟩ := plain
  · simp [real] at comment
  · refine ⟨.plain line, ⟨?_, by simp [Phrase.branches]⟩, rfl, by simp [Phrase.rows, seen, real]⟩
    rw [Phrase.Fits, marked, Option.any_some, isPlain]

theorem IsList.of_seen_eq_nil (none : seen lines = []) : IsList reserved lines :=
  ⟨.nil, ⟨trivial, by simp [Phrase.branches]⟩, none.symm⟩

theorem IsList.append (front : IsList reserved lines) (back : IsList reserved more) :
    IsList reserved (lines ++ more) := by
  obtain ⟨first, here, rows⟩ := front
  obtain ⟨second, later, rows'⟩ := back
  refine ⟨first.append second, ⟨(Phrase.fits_append _ _).2 ⟨here.fits, later.fits⟩, ?_⟩, ?_⟩
  · rw [Phrase.branches_append]
    exact fun branch mem => (List.mem_append.1 mem).elim (here.attached branch) (later.attached branch)
  · rw [Phrase.rows_append, rows, rows', seen_append]

theorem IsList.one (phrase : Phrase Line .statement) (holds : Holds reserved phrase) (rows : phrase.rows = seen lines) :
    IsList reserved lines :=
  ⟨.cons phrase .nil, ⟨⟨holds.fits, trivial⟩, by simpa [Phrase.branches] using holds.attached⟩,
    by simp [Phrase.rows, rows]⟩

theorem IsSlot.isList (slot : IsSlot reserved lines) : IsList reserved lines := by
  obtain ⟨phrase, holds, -, rows⟩ := slot
  exact .one phrase holds rows

theorem IsList.of_forall (plain : ∀ line ∈ lines, line.IsPlain reserved) : IsList reserved lines := by
  induction lines with
  | nil => exact .of_seen_eq_nil rfl
  | cons line _ ih =>
    have first : IsList reserved [line] := by
      cases real : line.isComment with
      | true => exact .of_seen_eq_nil (by simp [seen, real])
      | false => exact (IsSlot.of_isPlain (plain line (.head _)) real).isList
    exact first.append (ih fun line mem => plain line (.tail _ mem))

theorem IsSlot.of_seen_eq (slot : IsSlot reserved lines) (same : seen more = seen lines) : IsSlot reserved more := by
  obtain ⟨phrase, holds, closed, rows⟩ := slot
  exact ⟨phrase, holds, closed, rows.trans same.symm⟩

theorem IsList.braces (inner : IsList reserved lines) : IsSlot reserved (openBrace :: lines ++ [closeBrace]) := by
  obtain ⟨phrase, holds, rows⟩ := inner
  refine ⟨.braces openBrace phrase closeBrace, ⟨⟨isMarked_openBrace.mark, holds.fits, isMarked_closeBrace.mark⟩,
    holds.attached⟩, rfl, ?_⟩
  rw [seen_append, Phrase.rows, rows]
  rfl

theorem IsSlot.exists_mem (slot : IsSlot reserved lines) : ∃ line ∈ lines, (line.mark? reserved).isSome := by
  obtain ⟨phrase, holds, -, rows⟩ := slot
  obtain ⟨mark, next, -⟩ := Phrase.exists_next?_statement holds.fits []
  rw [List.append_nil, rows] at next
  obtain ⟨line, first, marked⟩ := Option.bind_eq_some_iff.1 next
  exact ⟨line, List.mem_of_mem_filter (List.mem_of_head? first), by rw [marked]; rfl⟩

theorem IsSlot.allSilent_eq_false (slot : IsSlot reserved lines) : allSilent lines = false := by
  obtain ⟨line, mem, marked⟩ := slot.exists_mem
  rw [allSilent, List.all_eq_false]
  refine ⟨line, mem, ?_⟩
  intro silent
  have row : line.row = [] := by rw [row, String.isEmpty_iff.1 silent]; rfl
  rw [mark?, row] at marked
  simp [Mark.ofRow, Mark.ofPunctuation] at marked

theorem IsChain.none : IsChain reserved b [] :=
  ⟨.done, ⟨trivial, by simp [Phrase.branches]⟩, by simp [Phrase.heads], rfl⟩

theorem IsChain.otherwise (slot : IsSlot reserved lines) : IsChain reserved b (elseBranch b :: lines) := by
  obtain ⟨phrase, holds, -, rows⟩ := slot
  refine ⟨.otherwise (elseBranch b) phrase, ⟨⟨isMarked_elseBranch.mark, holds.fits⟩, holds.attached⟩, ?_, ?_⟩
  · simp [Phrase.heads, IsElseOf]
  · rw [Phrase.rows, rows]
    rfl

theorem IsChain.orTest {name : String} (isName : Mark.isName reserved name = true) (slot : IsSlot reserved lines)
    (chain : IsChain reserved b more) : IsChain reserved b (elseIf b name :: lines ++ more) := by
  obtain ⟨body, inner, closed, rows⟩ := slot
  obtain ⟨rest, later, heads, rows'⟩ := chain
  refine ⟨.orTest (elseIf b name) body rest,
    ⟨⟨(isMarked_elseIf isName).mark, inner.fits, later.fits, fun _ => closed⟩, ?_⟩, ?_, ?_⟩
  · exact fun branch mem => (List.mem_append.1 mem).elim (inner.attached branch) (later.attached branch)
  · intro row mem
    rcases List.mem_cons.1 mem with rfl | mem
    · rfl
    · exact heads row mem
  · rw [seen_append, Phrase.rows, rows, rows']
    rfl

theorem IsList.test (marked : (stmt b id text).IsMarked reserved .test) (slot : IsSlot reserved lines)
    (chain : IsChain reserved b more) : IsList reserved (stmt b id text :: lines ++ more) := by
  obtain ⟨body, inner, closed, rows⟩ := slot
  obtain ⟨rest, later, heads, rows'⟩ := chain
  refine .one (.test (stmt b id text) body rest) ⟨⟨marked.mark, inner.fits, later.fits, fun _ => closed⟩, ?_⟩ ?_
  · intro branch mem
    rcases List.mem_cons.1 mem with rfl | mem
    · exact ⟨b, id, text, rfl, heads⟩
    · exact (List.mem_append.1 mem).elim (inner.attached branch) (later.attached branch)
  · rw [seen_append, Phrase.rows, rows, rows']
    rfl

theorem IsList.loop (marked : (stmt b id text).IsMarked reserved .loop) (slot : IsSlot reserved lines) :
    IsList reserved (stmt b id text :: lines) := by
  obtain ⟨body, inner, -, rows⟩ := slot
  refine .one (.loop (stmt b id text) body) ⟨⟨marked.mark, inner.fits⟩, inner.attached⟩ ?_
  rw [Phrase.rows, rows]
  rfl

theorem IsGroups.none : IsGroups reserved [] :=
  ⟨.noGroup, ⟨trivial, by simp [Phrase.branches]⟩, rfl⟩

theorem IsGroups.group {labels : List CaseLabel} {first rest : List Line} (some : labels ≠ [])
    (slot : IsSlot reserved first) (list : IsList reserved rest) (groups : IsGroups reserved more) :
    IsGroups reserved (labels.map caseLabel ++ (first ++ rest) ++ more) := by
  obtain ⟨label, labels, rfl⟩ := List.exists_cons_of_ne_nil some
  obtain ⟨statement, here, -, rows⟩ := slot
  obtain ⟨statements, later, rows'⟩ := list
  obtain ⟨others, last, rows''⟩ := groups
  refine ⟨.group (caseLabel label) (labels.map caseLabel) statement statements others,
    ⟨⟨?_, here.fits, later.fits, last.fits⟩, ?_⟩, ?_⟩
  · intro row mem
    rw [← List.map_cons] at mem
    obtain ⟨label, -, rfl⟩ := List.mem_map.1 mem
    exact (isMarked_caseLabel label).mark
  · intro branch mem
    rcases List.mem_append.1 mem with first | mem
    · exact here.attached branch first
    · exact (List.mem_append.1 mem).elim (later.attached branch) (last.attached branch)
  · have shown : seen ((label :: labels).map caseLabel) = (label :: labels).map caseLabel :=
      List.filter_eq_self.2 fun row mem => by
        obtain ⟨label, -, rfl⟩ := List.mem_map.1 mem
        rfl
    rw [Phrase.rows, rows, rows', rows'', seen_append, seen_append, seen_append, shown, List.append_assoc,
      List.append_assoc]
    rfl

theorem IsList.switch (marked : (stmt b id text).IsMarked reserved .switch) (groups : IsGroups reserved lines) :
    IsList reserved (stmt b id text :: openBrace :: lines ++ [closeBrace]) := by
  obtain ⟨phrase, holds, rows⟩ := groups
  refine .one (.switch (stmt b id text) openBrace phrase closeBrace)
    ⟨⟨marked.mark, isMarked_openBrace.mark, holds.fits, isMarked_closeBrace.mark⟩, holds.attached⟩ ?_
  rw [seen_append, Phrase.rows, rows]
  rfl

end Line

theorem Kind.Shows.isPlain {kind : Kind} {reserved : List String} {own : Option String} {labels : Labels} {line : Line}
    (shows : kind.Shows reserved own labels line) (passes : kind.isBranching = false) : line.IsPlain reserved := by
  cases kind with
  | plain | init => exact .of_isMarked shows rfl
  | virtual => exact shows.elim
  | label =>
    obtain ⟨name, -, marked⟩ := shows
    exact .of_isMarked marked rfl
  | conditional | loop | multiway | switch | jump => simp [Kind.isBranching] at passes

end Reflow
