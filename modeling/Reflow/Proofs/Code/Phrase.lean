import Reflow.Proofs.Code.Mark

namespace Reflow

namespace Mark

def isPlain : Mark → Bool
  | statement | label _ | goto _ => true
  | _ => false

def isStart : Mark → Bool
  | opening | test | loop | switch => true
  | mark => mark.isPlain

def isElse : Mark → Bool
  | orTest | otherwise => true
  | _ => false

end Mark

inductive Part
  | statement
  | list
  | chain
  | groups

def Part.least : Part → Nat
  | statement => 0
  | list | chain | groups => 1

inductive Phrase (α : Type) : Part → Type
  | plain (row : α) : Phrase α .statement
  | braces (opening : α) (body : Phrase α .list) (closing : α) : Phrase α .statement
  | test (head : α) (body : Phrase α .statement) (chain : Phrase α .chain) : Phrase α .statement
  | loop (head : α) (body : Phrase α .statement) : Phrase α .statement
  | switch (head opening : α) (groups : Phrase α .groups) (closing : α) : Phrase α .statement
  | nil : Phrase α .list
  | cons (first : Phrase α .statement) (rest : Phrase α .list) : Phrase α .list
  | done : Phrase α .chain
  | otherwise (head : α) (body : Phrase α .statement) : Phrase α .chain
  | orTest (head : α) (body : Phrase α .statement) (chain : Phrase α .chain) : Phrase α .chain
  | noGroup : Phrase α .groups
  | group (label : α) (labels : List α) (first : Phrase α .statement) (rest : Phrase α .list)
      (groups : Phrase α .groups) : Phrase α .groups

namespace Phrase

variable {α : Type} {part : Part}

def rows {part : Part} : Phrase α part → List α
  | plain row => [row]
  | braces opening body closing => opening :: (body.rows ++ [closing])
  | test head body chain => head :: (body.rows ++ chain.rows)
  | loop head body => head :: body.rows
  | switch head opening groups closing => head :: opening :: (groups.rows ++ [closing])
  | nil | done | noGroup => []
  | cons first rest => first.rows ++ rest.rows
  | otherwise head body => head :: body.rows
  | orTest head body chain => head :: (body.rows ++ chain.rows)
  | group label labels first rest groups => label :: (labels ++ (first.rows ++ (rest.rows ++ groups.rows)))

/-- Whether an else row behind a phrase could not belong to a branch inside it. -/
def isClosed {part : Part} : Phrase α part → Bool
  | test _ _ chain => chain.isClosed
  | loop _ body => body.isClosed
  | done => false
  | otherwise _ body => body.isClosed
  | orTest _ _ chain => chain.isClosed
  | _ => true

def heads {part : Part} : Phrase α part → List α
  | otherwise head _ => [head]
  | orTest head _ chain => head :: chain.heads
  | _ => []

def branches {part : Part} : Phrase α part → List (α × List α)
  | plain _ | nil | done | noGroup => []
  | braces _ body _ => body.branches
  | test head body chain => (head, chain.heads) :: (body.branches ++ chain.branches)
  | loop _ body => body.branches
  | switch _ _ groups _ => groups.branches
  | cons first rest => first.branches ++ rest.branches
  | otherwise _ body => body.branches
  | orTest _ body chain => body.branches ++ chain.branches
  | group _ _ first rest groups => first.branches ++ (rest.branches ++ groups.branches)

variable (mark : α → Option Mark)
  {first : Phrase α .statement} {list : Phrase α .list}

/-- Every row of a phrase has the mark that its place asks for, and an else row belongs to the nearest branch that is
still open. -/
def Fits {part : Part} : Phrase α part → Prop
  | plain row => (mark row).any Mark.isPlain
  | braces opening body closing => mark opening = some .opening ∧ body.Fits ∧ mark closing = some .closing
  | test head body chain => mark head = some .test ∧ body.Fits ∧ chain.Fits ∧ (chain.heads ≠ [] → body.isClosed)
  | loop head body => mark head = some .loop ∧ body.Fits
  | switch head opening groups closing =>
    mark head = some .switch ∧ mark opening = some .opening ∧ groups.Fits ∧ mark closing = some .closing
  | nil | done | noGroup => True
  | cons first rest => first.Fits ∧ rest.Fits
  | otherwise head body => mark head = some .otherwise ∧ body.Fits
  | orTest head body chain => mark head = some .orTest ∧ body.Fits ∧ chain.Fits ∧ (chain.heads ≠ [] → body.isClosed)
  | group label labels first rest groups =>
    (∀ row ∈ label :: labels, mark row = some .case) ∧ first.Fits ∧ rest.Fits ∧ groups.Fits

def next? (rows : List α) : Option Mark :=
  rows.head?.bind mark

def take? (wanted : Mark) : List α → Option (α × List α)
  | [] => none
  | row :: rows => if mark row = some wanted then some (row, rows) else none

def parse : Nat → (part : Part) → List α → Option (Phrase α part × List α)
  | 0, _, _ => none
  | _ + 1, .statement, [] => none
  | fuel + 1, .statement, row :: rows =>
    match mark row with
    | some .opening =>
      (parse fuel .list rows).bind fun body =>
      (take? mark .closing body.2).map fun last => (braces row body.1 last.1, last.2)
    | some .test =>
      (parse fuel .statement rows).bind fun body =>
      (parse fuel .chain body.2).map fun chain => (test row body.1 chain.1, chain.2)
    | some .loop => (parse fuel .statement rows).map fun body => (loop row body.1, body.2)
    | some .switch =>
      (take? mark .opening rows).bind fun first =>
      (parse fuel .groups first.2).bind fun groups =>
      (take? mark .closing groups.2).map fun last => (switch row first.1 groups.1 last.1, last.2)
    | found => if found.any Mark.isPlain then some (plain row, rows) else none
  | fuel + 1, .list, rows =>
    if (next? mark rows).any Mark.isStart then
      (parse fuel .statement rows).bind fun first =>
      (parse fuel .list first.2).map fun rest => (cons first.1 rest.1, rest.2)
    else some (nil, rows)
  | _ + 1, .chain, [] => some (done, [])
  | fuel + 1, .chain, row :: rows =>
    match mark row with
    | some .otherwise => (parse fuel .statement rows).map fun body => (otherwise row body.1, body.2)
    | some .orTest =>
      (parse fuel .statement rows).bind fun body =>
      (parse fuel .chain body.2).map fun chain => (orTest row body.1 chain.1, chain.2)
    | _ => some (done, row :: rows)
  | _ + 1, .groups, [] => some (noGroup, [])
  | fuel + 1, .groups, row :: rows =>
    if mark row = some .case then
      (parse fuel .statement (rows.dropWhile fun row => mark row = some .case)).bind fun first =>
      (parse fuel .list first.2).bind fun rest =>
      (parse fuel .groups rest.2).map fun groups =>
        (group row (rows.takeWhile fun row => mark row = some .case) first.1 rest.1 groups.1, groups.2)
    else some (noGroup, row :: rows)

def read? (rows : List α) : Option (Phrase α .list) :=
  (parse mark (2 * rows.length + 1) .list rows).bind fun read => if read.2.isEmpty then some read.1 else none

def height {part : Part} : Phrase α part → Nat
  | plain _ | nil | done | noGroup => 1
  | braces _ body _ => body.height + 1
  | test _ body chain => max body.height chain.height + 1
  | loop _ body => body.height + 1
  | switch _ _ groups _ => groups.height + 1
  | cons first rest => max first.height rest.height + 1
  | otherwise _ body => body.height + 1
  | orTest _ body chain => max body.height chain.height + 1
  | group _ _ first rest groups => max first.height (max rest.height groups.height) + 1

theorem height_pos (phrase : Phrase α part) : 0 < phrase.height := by
  cases phrase <;> simp [height]

theorem height_le (phrase : Phrase α part) : phrase.height ≤ 2 * phrase.rows.length + part.least := by
  induction phrase with
  | plain | nil | done | noGroup => simp [height, rows, Part.least]
  | cons first =>
    have some := first.height_pos
    simp only [height, rows, Part.least, List.length_append] at *
    omega
  | _ =>
    simp only [height, rows, Part.least, List.length_cons, List.length_append, List.length_nil] at *
    omega

def Stops (rest : List α) : {part : Part} → Phrase α part → Prop
  | .statement, phrase | .chain, phrase => phrase.isClosed ∨ ∀ found ∈ next? mark rest, found.isElse = false
  | .list, _ => ∀ found ∈ next? mark rest, found = .closing ∨ found = .case
  | .groups, _ => ∀ found ∈ next? mark rest, found = .closing

variable {mark} {rest : List α}

theorem take?_cons {row : α} {wanted : Mark} (here : mark row = some wanted) (rows : List α) :
    take? mark wanted (row :: rows) = some (row, rows) :=
  if_pos here

theorem exists_next?_statement {phrase : Phrase α .statement} (fits : phrase.Fits mark) (rest : List α) :
    ∃ found, next? mark (phrase.rows ++ rest) = some found ∧ found.isStart = true := by
  cases phrase with
  | plain =>
    obtain ⟨found, here, plain⟩ := (Option.any_eq_true _ _).1 fits
    refine ⟨found, here, ?_⟩
    cases found <;> first | rfl | simp [Mark.isPlain] at plain
  | braces | test | loop | switch => exact ⟨_, fits.1, rfl⟩

theorem next?_chain {phrase : Phrase α .chain} (fits : phrase.Fits mark) (rest : List α) :
    phrase = done ∨
      phrase.heads ≠ [] ∧ ∃ found, next? mark (phrase.rows ++ rest) = some found ∧ found.isElse = true := by
  cases phrase with
  | done => exact .inl rfl
  | otherwise | orTest => exact .inr ⟨by simp [heads], _, fits.1, rfl⟩

theorem Stops.of_chain {body : Phrase α .statement} {chain : Phrase α .chain} (fits : chain.Fits mark)
    (closes : chain.heads ≠ [] → body.isClosed) (stops : chain.Stops mark rest) :
    body.Stops mark (chain.rows ++ rest) := by
  rcases next?_chain fits rest with rfl | ⟨some, -⟩
  · exact .inr (stops.resolve_left (by simp [isClosed]))
  · exact .inl (closes some)

theorem Stops.of_list (fits : list.Fits mark)
    (stops : list.Stops mark rest) : first.Stops mark (list.rows ++ rest) := by
  refine .inr ?_
  intro found here
  cases list with
  | nil =>
    rcases stops found here with rfl | rfl
    · rfl
    · rfl
  | cons _ list =>
    rw [rows, List.append_assoc] at here
    obtain ⟨other, same, starts⟩ := exists_next?_statement fits.1 (list.rows ++ rest)
    obtain rfl := Option.some.inj (same.symm.trans here)
    cases other <;> first | rfl | simp [Mark.isStart, Mark.isPlain] at starts

theorem Stops.of_groups {groups : Phrase α .groups} (fits : groups.Fits mark)
    (stops : groups.Stops mark rest) : list.Stops mark (groups.rows ++ rest) := by
  intro found here
  cases groups with
  | noGroup => exact .inl (stops found here)
  | group label =>
    have same : mark label = some found := here
    rw [fits.1 label (.head _)] at same
    exact .inr (Option.some.inj same).symm

theorem labels_append {labels : List α} (cases : ∀ row ∈ labels, mark row = some .case)
    (fits : first.Fits mark) (rest : List α) :
    (labels ++ (first.rows ++ rest)).takeWhile (fun row => mark row = some .case) = labels ∧
      (labels ++ (first.rows ++ rest)).dropWhile (fun row => mark row = some .case) = first.rows ++ rest := by
  obtain ⟨found, next, starts⟩ := exists_next?_statement fits rest
  have all : ∀ row ∈ labels, decide (mark row = some .case) = true := fun row mem => decide_eq_true (cases row mem)
  rw [List.takeWhile_append_of_pos all, List.dropWhile_append_of_pos all]
  cases rows : first.rows ++ rest with
  | nil => simp
  | cons row =>
    have here : mark row = some found := by rw [rows] at next; exact next
    have other : ¬ mark row = some .case := by
      rw [here]
      rintro ⟨⟩
      exact absurd starts (by decide)
    simp [other]

theorem parse_plain {row : α} (fits : (plain row).Fits mark) (fuel : Nat) :
    parse mark (fuel + 1) .statement (row :: rest) = some (plain row, rest) := by
  obtain ⟨found, here, isPlain⟩ := (Option.any_eq_true _ _).1 fits
  rw [parse, here]
  cases found <;> first | rfl | simp [Mark.isPlain] at isPlain

theorem parse_cons (fits : first.Fits mark) (fuel : Nat) (rows : List α) :
    parse mark (fuel + 1) .list (first.rows ++ rows) =
      (parse mark fuel .statement (first.rows ++ rows)).bind fun first =>
      (parse mark fuel .list first.2).map fun rest => (cons first.1 rest.1, rest.2) := by
  obtain ⟨found, next, starts⟩ := exists_next?_statement fits rows
  rw [parse, next, Option.any_some, starts, if_pos rfl]

theorem parse_nil (stops : (nil : Phrase α .list).Stops mark rest) (fuel : Nat) :
    parse mark (fuel + 1) .list rest = some (nil, rest) := by
  have other : (next? mark rest).any Mark.isStart = false := by
    cases next : next? mark rest with
    | none => rfl
    | some found =>
      rcases stops found next with rfl | rfl
      · rfl
      · rfl
  rw [parse, other, if_neg (by simp)]

theorem parse_done (stops : (done : Phrase α .chain).Stops mark rest) (fuel : Nat) :
    parse mark (fuel + 1) .chain rest = some (done, rest) := by
  have other := stops.resolve_left (by simp [isClosed])
  cases rest with
  | nil => rfl
  | cons row rest =>
    rw [parse]
    split
    · rename_i here
      exact absurd (other _ here) (by decide)
    · rename_i here
      exact absurd (other _ here) (by decide)
    · rfl

theorem parse_noGroup (stops : (noGroup : Phrase α .groups).Stops mark rest) (fuel : Nat) :
    parse mark (fuel + 1) .groups rest = some (noGroup, rest) := by
  cases rest with
  | nil => rfl
  | cons =>
    rw [parse, if_neg]
    intro here
    exact absurd (stops _ here) (by decide)

theorem parse_rows {phrase : Phrase α part} (fits : phrase.Fits mark) {fuel : Nat} (enough : phrase.height ≤ fuel)
    (stops : phrase.Stops mark rest) : parse mark fuel part (phrase.rows ++ rest) = some (phrase, rest) := by
  induction fuel generalizing part rest with
  | zero => exact absurd phrase.height_pos (Nat.not_lt.2 enough)
  | succ fuel ih =>
    cases phrase with
    | plain => exact parse_plain fits fuel
    | nil => exact parse_nil stops fuel
    | done => exact parse_done stops fuel
    | noGroup => exact parse_noGroup stops fuel
    | braces _ body closing =>
      obtain ⟨opens, inner, closes⟩ := fits
      have ends : body.Stops mark (closing :: rest) := by
        intro found here
        exact .inl (Option.some.inj (Eq.trans here.symm closes))
      have read := ih inner (Nat.le_of_succ_le_succ enough) ends
      simp [rows, parse, opens, read, take?_cons closes]
    | switch _ _ groups closing =>
      obtain ⟨switches, opens, inner, closes⟩ := fits
      have ends : groups.Stops mark (closing :: rest) := by
        intro found here
        exact Option.some.inj (Eq.trans here.symm closes)
      have read := ih inner (Nat.le_of_succ_le_succ enough) ends
      simp [rows, parse, switches, take?_cons opens, read, take?_cons closes]
    | loop | otherwise =>
      have read := ih fits.2 (Nat.le_of_succ_le_succ enough) stops
      simp [rows, parse, fits.1, read]
    | test | orTest =>
      obtain ⟨tests, inner, later, closed⟩ := fits
      obtain ⟨small, smaller⟩ := Nat.max_le.1 (Nat.le_of_succ_le_succ enough)
      have readBody := ih inner small (.of_chain later closed stops)
      have readChain := ih later smaller stops
      simp [rows, parse, tests, readBody, readChain]
    | cons =>
      obtain ⟨small, smaller⟩ := Nat.max_le.1 (Nat.le_of_succ_le_succ enough)
      have readFirst := ih fits.1 small (.of_list fits.2 stops)
      have readList := ih fits.2 smaller stops
      rw [rows, List.append_assoc, parse_cons fits.1, readFirst, Option.bind_some, readList, Option.map_some]
    | group label _ _ list groups =>
      obtain ⟨cases, here, later, others⟩ := fits
      obtain ⟨small, smaller⟩ := Nat.max_le.1 (Nat.le_of_succ_le_succ enough)
      obtain ⟨small', smallest⟩ := Nat.max_le.1 smaller
      have ends : list.Stops mark (groups.rows ++ rest) := .of_groups others stops
      have readFirst := ih here small (.of_list later ends)
      have readList := ih later small' ends
      have readGroups := ih others smallest stops
      obtain ⟨taken, dropped⟩ := labels_append (fun row mem => cases row (.tail _ mem)) here
        (list.rows ++ (groups.rows ++ rest))
      simp [rows, parse, cases label, taken, dropped, readFirst, readList, readGroups]

theorem read?_rows {phrase : Phrase α .list} (fits : phrase.Fits mark) : read? mark phrase.rows = some phrase := by
  have stops : phrase.Stops mark [] := by
    intro found here
    exact absurd here (by simp [next?])
  have parsed := parse_rows fits phrase.height_le stops
  rw [List.append_nil] at parsed
  rw [read?]
  change (parse mark (2 * phrase.rows.length + Part.list.least) .list phrase.rows).bind _ = _
  rw [parsed]
  rfl

section Map

variable {β : Type} {g : α → β} {mark' : β → Option Mark}

def map (g : α → β) {part : Part} : Phrase α part → Phrase β part
  | plain row => plain (g row)
  | braces opening body closing => braces (g opening) (body.map g) (g closing)
  | test head body chain => test (g head) (body.map g) (chain.map g)
  | loop head body => loop (g head) (body.map g)
  | switch head opening groups closing => switch (g head) (g opening) (groups.map g) (g closing)
  | nil => nil
  | cons first rest => cons (first.map g) (rest.map g)
  | done => done
  | otherwise head body => otherwise (g head) (body.map g)
  | orTest head body chain => orTest (g head) (body.map g) (chain.map g)
  | noGroup => noGroup
  | group label labels first rest groups =>
    group (g label) (labels.map g) (first.map g) (rest.map g) (groups.map g)

theorem rows_map (g : α → β) (phrase : Phrase α part) : (phrase.map g).rows = phrase.rows.map g := by
  induction phrase with
  | _ => simp_all [map, rows]

theorem heads_map (g : α → β) (phrase : Phrase α part) : (phrase.map g).heads = phrase.heads.map g := by
  induction phrase with
  | _ => simp_all [map, heads]

theorem isClosed_map (g : α → β) (phrase : Phrase α part) : (phrase.map g).isClosed = phrase.isClosed := by
  induction phrase with
  | _ => simp_all [map, isClosed]

theorem fits_map (phrase : Phrase α part) : (phrase.map g).Fits mark' ↔ phrase.Fits fun row => mark' (g row) := by
  induction phrase with
  | _ => simp_all [map, Fits, heads_map, isClosed_map]

end Map

def append : Phrase α .list → Phrase α .list → Phrase α .list
  | nil, more => more
  | cons first rest, more => cons first (rest.append more)

variable (list more : Phrase α .list)

theorem rows_append : (list.append more).rows = list.rows ++ more.rows := by
  fun_induction append list more with
  | case1 => rfl
  | case2 _ _ _ ih => simp [rows, ih]

theorem branches_append : (list.append more).branches = list.branches ++ more.branches := by
  fun_induction append list more with
  | case1 => rfl
  | case2 _ _ _ ih => simp [branches, ih]

theorem fits_append : (list.append more).Fits mark ↔ list.Fits mark ∧ more.Fits mark := by
  fun_induction append list more with
  | case1 => simp [Fits]
  | case2 _ _ _ ih => simp [Fits, ih, and_assoc]

end Phrase

def Mark.levelAfter (level : Nat) : Mark → Nat
  | opening => level + 1
  | closing => level - 1
  | _ => level

variable {reserved : List String}

theorem Mark.levelAfter_of_ofRow {row : List Char} {mark : Mark}
    (found : Mark.ofRow reserved row = some mark) (level : Nat) :
    Layout.levelAfter level row = mark.levelAfter level := by
  rcases Mark.cases_of_ofRow found with ⟨word, rest, whole, starts, continues, follows⟩ | ⟨rfl, rfl⟩ | ⟨rfl, rfl⟩ |
    ⟨rfl | rfl, rfl⟩
  · have front : row.head? ≠ some '\x7d' := by
      intro brace
      rw [brace] at starts
      exact absurd starts (by decide)
    have back : row.getLast? ≠ some '\x7b' := by
      intro brace
      rw [whole] at brace
      rcases List.eq_nil_or_concat' rest with rfl | ⟨before, last, rfl⟩
      · rw [List.append_nil] at brace
        exact absurd (continues _ (List.mem_of_getLast? brace)) (by decide)
      · rw [← List.append_assoc, List.getLast?_concat] at brace
        obtain rfl := Option.some.inj brace
        cases follows with
        | label _ same =>
          have last := congrArg List.getLast? same
          rw [List.getLast?_concat] at last
          exact absurd last (by decide)
        | goto _ _ same =>
          have last := congrArg List.getLast? same
          rw [List.getLast?_concat, ← List.append_assoc, List.getLast?_concat] at last
          exact absurd last (by decide)
        | other _ ends =>
          rcases ends with empty | ⟨c, listed, same⟩
          · simp at empty
          · rw [List.getLast?_concat] at same
            obtain rfl := Option.some.inj same
            exact absurd listed (by decide)
    have kept : mark.levelAfter level = level := by
      cases follows with
      | label | goto => rfl
      | other unnamed =>
        cases mark with
        | opening | closing => exact absurd unnamed (by decide)
        | _ => rfl
    rw [Layout.levelAfter, if_neg back, Layout.levelOf, if_neg front, kept]
  · rfl
  · rfl
  · rfl
  · rfl

theorem Mark.foldl_levelAfter_of_case {rows : List (List Char)}
    (cases : ∀ row ∈ rows, Mark.ofRow reserved row = some .case) (level : Nat) :
    rows.foldl Layout.levelAfter level = level := by
  induction rows with
  | nil => rfl
  | cons row rows ih =>
    rw [List.foldl_cons, Mark.levelAfter_of_ofRow (cases row (.head _))]
    exact ih fun row mem => cases row (.tail _ mem)

theorem Phrase.foldl_levelAfter {part : Part} {phrase : Phrase (List Char) part}
    (fits : phrase.Fits (Mark.ofRow reserved)) (level : Nat) : phrase.rows.foldl Layout.levelAfter level = level := by
  induction phrase generalizing level with
  | plain =>
    obtain ⟨mark, found, isPlain⟩ := (Option.any_eq_true _ _).1 fits
    have after := Mark.levelAfter_of_ofRow found level
    cases mark <;> first | exact after | simp [Mark.isPlain] at isPlain
  | nil | done | noGroup => rfl
  | braces _ _ _ ih =>
    obtain ⟨opens, inner, closes⟩ := fits
    simp [rows, Mark.levelAfter_of_ofRow opens, Mark.levelAfter_of_ofRow closes, ih inner, Mark.levelAfter]
  | switch _ _ _ _ ih =>
    obtain ⟨switches, opens, inner, closes⟩ := fits
    simp [rows, Mark.levelAfter_of_ofRow switches, Mark.levelAfter_of_ofRow opens, Mark.levelAfter_of_ofRow closes,
      ih inner, Mark.levelAfter]
  | loop head body ih | otherwise head body ih =>
    simp [rows, Mark.levelAfter_of_ofRow fits.1, ih fits.2, Mark.levelAfter]
  | test head body chain ihBody ihChain | orTest head body chain ihBody ihChain =>
    obtain ⟨tests, inner, later, -⟩ := fits
    simp [rows, Mark.levelAfter_of_ofRow tests, ihBody inner, ihChain later, Mark.levelAfter]
  | cons _ _ ihFirst ihRest => simp [rows, ihFirst fits.1, ihRest fits.2]
  | group _ _ _ _ _ ihFirst ihRest ihGroups =>
    obtain ⟨cases, here, later, others⟩ := fits
    rw [rows, ← List.cons_append, List.foldl_append, Mark.foldl_levelAfter_of_case cases,
      List.foldl_append, ihFirst here, List.foldl_append, ihRest later, ihGroups others]

end Reflow
