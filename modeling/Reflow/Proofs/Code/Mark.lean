import Reflow.Proofs.Body
import Reflow.Proofs.Program.Texts

namespace Reflow

open Program (IsWord)

inductive Mark
  /-- A statement of one row: an assignment, a call, a return, a break, and those that do nothing. -/
  | statement
  | label (name : String)
  | goto (name : String)
  | test
  | orTest
  | otherwise
  | loop
  | switch
  | case
  | opening
  | closing
  deriving Repr, DecidableEq

namespace Mark

def keywords : List String :=
  ["auto", "break", "case", "char", "const", "continue", "default", "do", "double", "else", "enum", "extern", "float",
    "for", "goto", "if", "inline", "int", "long", "register", "restrict", "return", "short", "signed", "sizeof",
    "static",
    "struct", "switch", "typedef", "union", "unsigned", "void", "volatile", "while", "_Alignas", "_Alignof", "_Atomic",
    "_Bool", "_Complex", "_Generic", "_Imaginary", "_Noreturn", "_Static_assert", "_Thread_local"]

variable (reserved : List String)

def isName (s : String) : Bool :=
  s.toList.head?.any Text.startsName && s.toList.all Text.continuesName && s ∉ reserved

def isNumber (s : String) : Bool :=
  match s.toList with
  | '-' :: digits => !digits.isEmpty && digits.all Char.isDigit
  | digits => !digits.isEmpty && digits.all Char.isDigit

def ofHeader (mark : Mark) (rest : List Char) : Option Mark :=
  ((Token.enclosed? [' ', '('] ')' rest).filter (isName reserved)).map fun _ => mark

def ofKeyword (rest : List Char) : List (String × Option Mark) :=
  [("if", ofHeader reserved test rest), ("while", ofHeader reserved loop rest),
    ("switch", ofHeader reserved switch rest),
    ("else", if rest = [] then some otherwise else (Text.after? [' ', 'i', 'f'] rest).bind (ofHeader reserved orTest)),
    ("goto", ((Token.enclosed? [' '] ';' rest).filter (isName reserved)).map goto),
    ("return", if rest = [';'] then some statement
      else ((Token.enclosed? [' '] ';' rest).filter (isName reserved)).map fun _ => statement),
    ("break", if rest = [';'] then some statement else none),
    ("case", ((Token.enclosed? [' '] ':' rest).filter isNumber).map fun _ => case),
    ("default", if rest = [':'] then some case else none)]

def ofWord (word : String) (rest : List Char) : Option Mark :=
  if isName reserved word && rest = [':', ';'] then some (label word)
  else if isName reserved word && Token.opensStatement rest && rest.getLast? = some ';' then some statement
  else ((ofKeyword reserved rest).lookup word).join

def ofPunctuation : List Char → Option Mark
  | ['\x7b'] => some opening
  | ['\x7d'] => some closing
  | ['\x7b', '\x7d'] | [';'] => some statement
  | _ => none

def ofRow (row : List Char) : Option Mark :=
  if row.head?.any Text.continuesName then
    ofWord reserved (String.ofList (row.takeWhile Text.continuesName)) (row.dropWhile Text.continuesName)
  else ofPunctuation row

/-! ## Rows with a word -/

variable {reserved} {word name text : String} {rest : List Char} {named : String → Prop}

theorem isName_iff : isName reserved name = true ↔ IsWord name ∧ name ∉ reserved := by
  unfold isName IsWord
  cases chars : name.toList with
  | nil => simp
  | cons => simp

theorem isName_nil (isWord : IsWord name) : isName [] name = true :=
  isName_iff.2 ⟨isWord, List.not_mem_nil⟩

theorem ofRow_word (isWord : IsWord word) (ends : ∀ c ∈ rest.head?, Text.continuesName c = false) :
    ofRow reserved (word.toList ++ rest) = ofWord reserved word rest := by
  obtain ⟨c, letters, chars, -, continues⟩ := isWord
  have taken : (word.toList ++ rest).takeWhile Text.continuesName = word.toList := by
    rw [List.takeWhile_append_of_pos continues]
    cases rest with
    | nil => simp
    | cons d => simp [List.takeWhile_cons_of_neg, ends d rfl]
  have dropped : (word.toList ++ rest).dropWhile Text.continuesName = rest := by
    rw [List.dropWhile_append_of_pos continues]
    cases rest with
    | nil => rfl
    | cons d => simp [List.dropWhile_cons_of_neg, ends d rfl]
  have first : (word.toList ++ rest).head?.any Text.continuesName = true := by
    rw [chars]
    simpa using continues c (by simp [chars])
  rw [ofRow, if_pos first, taken, dropped, String.ofList_toList]

theorem ofRow_label (isName : isName reserved name = true) :
    ofRow reserved (name ++ ":;").toList = some (label name) := by
  have chars : (name ++ ":;").toList = name.toList ++ [':', ';'] := by simp
  rw [chars, ofRow_word (isName_iff.1 isName).1 (by simp; decide), ofWord, isName]
  rfl

theorem ofRow_statement (isName : isName reserved name = true) (opens : Token.opensStatement rest = true)
    (last : rest.getLast? = some ';') : ofRow reserved (name.toList ++ rest) = some statement := by
  have noLabel : rest ≠ [':', ';'] := by
    rintro rfl
    exact absurd opens (by decide)
  have ends : ∀ c ∈ rest.head?, Text.continuesName c = false := by
    intro c found
    revert opens
    fun_cases Token.opensStatement rest with
    | case1 | case2 =>
      obtain rfl := Option.some.inj found
      exact fun _ => by decide
    | case3 => simp
  rw [ofRow_word (isName_iff.1 isName).1 ends, ofWord, isName, opens, last]
  simp [noLabel]

theorem ofRow_keyword (isWord : IsWord word) (ends : ∀ c ∈ rest.head?, Text.continuesName c = false)
    (noLabel : rest ≠ [':', ';']) (noStatement : Token.opensStatement rest = false) {found : Option Mark}
    (listed : (ofKeyword reserved rest).lookup word = some found) : ofRow reserved (word.toList ++ rest) = found := by
  rw [ofRow_word isWord ends, ofWord, listed]
  simp [noLabel, noStatement]

theorem enclosed?_filter (opening : List Char) (closing : Char) {name : String} {accepted : String → Bool}
    (accepts : accepted name = true) :
    (Token.enclosed? opening closing (opening ++ (name.toList ++ [closing]))).filter accepted = some name := by
  rw [Token.enclosed?_append]
  simp [accepts]

theorem ofHeader_name (mark : Mark) (isName : isName reserved name = true) :
    ofHeader reserved mark ([' ', '('] ++ (name.toList ++ [')'])) = some mark := by
  rw [ofHeader, enclosed?_filter _ _ isName]
  rfl

theorem ofRow_header (isWord : IsWord word) (isName : isName reserved name = true) (mark : Mark)
    (listed : ∀ rest, (ofKeyword reserved rest).lookup word = some (ofHeader reserved mark rest)) :
    ofRow reserved (word ++ " (" ++ name ++ ")").toList = some mark := by
  have chars : (word ++ " (" ++ name ++ ")").toList = word.toList ++ ([' ', '('] ++ (name.toList ++ [')'])) := by simp
  rw [chars, ofRow_keyword isWord (by simp; decide) (by simp) rfl (listed _), ofHeader_name mark isName]

theorem ofRow_if (isName : isName reserved name = true) :
    ofRow reserved ("if" ++ " (" ++ name ++ ")").toList = some test :=
  ofRow_header Token.isWord_if isName test fun _ => rfl

theorem ofRow_while (isName : isName reserved name = true) :
    ofRow reserved ("while" ++ " (" ++ name ++ ")").toList = some loop :=
  ofRow_header Token.isWord_while isName loop fun _ => rfl

theorem isWord_switch : IsWord "switch" :=
  Token.isWord_of_all (c := 's') rfl rfl rfl

section

variable (isName : isName reserved name = true)
include isName

theorem ofRow_switch : ofRow reserved ("switch" ++ " (" ++ name ++ ")").toList = some switch :=
  ofRow_header isWord_switch isName switch fun _ => rfl

theorem ofRow_elseIf : ofRow reserved ("else if (" ++ name ++ ")").toList = some orTest := by
  have chars : ("else if (" ++ name ++ ")").toList =
      "else".toList ++ ([' ', 'i', 'f'] ++ ([' ', '('] ++ (name.toList ++ [')']))) := by simp
  rw [chars, ofRow_keyword Token.isWord_else (by simp; decide) (by simp) rfl rfl, if_neg (by simp),
    Token.after?_append, Option.bind_some, ofHeader_name orTest isName]

theorem ofRow_goto : ofRow reserved ("goto " ++ name ++ ";").toList = some (goto name) := by
  have chars : ("goto " ++ name ++ ";").toList = "goto".toList ++ ([' '] ++ (name.toList ++ [';'])) := by simp
  have noStatement : Token.opensStatement ([' '] ++ (name.toList ++ [';'])) = false :=
    Token.opensStatement_blank (isName_iff.1 isName).1 [';']
  rw [chars, ofRow_keyword Token.isWord_goto (by simp; decide) (by simp) noStatement rfl, enclosed?_filter _ _ isName]
  rfl

theorem ofRow_gives : ofRow reserved ("return " ++ name ++ ";").toList = some statement := by
  have chars : ("return " ++ name ++ ";").toList = "return".toList ++ ([' '] ++ (name.toList ++ [';'])) := by simp
  have noStatement : Token.opensStatement ([' '] ++ (name.toList ++ [';'])) = false :=
    Token.opensStatement_blank (isName_iff.1 isName).1 [';']
  rw [chars, ofRow_keyword Token.isWord_return (by simp; decide) (by simp) noStatement rfl, if_neg (by simp),
    enclosed?_filter _ _ isName]
  rfl

end

theorem isNumber_toString (n : Int) : isNumber (toString n) = true := by
  have digits (n : Nat) : (!(Nat.toDigits 10 n).isEmpty && (Nat.toDigits 10 n).all Char.isDigit) = true := by
    have all : (Nat.toDigits 10 n).all Char.isDigit = true :=
      List.all_eq_true.2 fun c mem => Nat.isDigit_of_mem_toDigits (by decide) (by decide) mem
    simp [all, Nat.toDigits_ne_nil]
  rw [Int.toString_eq_repr]
  cases n with
  | ofNat n =>
    have chars : (Int.repr (.ofNat n)).toList = Nat.toDigits 10 n := by simp [Int.repr]
    have noSign : ∀ ds, Nat.toDigits 10 n ≠ '-' :: ds := by
      intro ds same
      have sign := Nat.isDigit_of_mem_toDigits (b := 10) (n := n) (c := '-') (by decide) (by decide) (by simp [same])
      exact absurd sign (by decide)
    rw [isNumber, chars]
    split
    · rename_i ds same
      exact absurd same (noSign ds)
    · exact digits n
  | negSucc n =>
    have chars : (Int.repr (.negSucc n)).toList = '-' :: Nat.toDigits 10 (n + 1) := by simp [Int.repr]
    rw [isNumber, chars]
    exact digits (n + 1)

theorem opensStatement_number (isNumber : isNumber name = true) (rest : List Char) :
    Token.opensStatement (' ' :: (name.toList ++ rest)) = false := by
  rw [Mark.isNumber] at isNumber
  split at isNumber
  · rename_i digits same
    rw [same]
    rfl
  · cases same : name.toList with
    | nil => simp [same] at isNumber
    | cons c =>
      have ne : c ≠ '=' := by
        rintro rfl
        simp only [same, List.all_cons, Bool.and_eq_true] at isNumber
        exact absurd isNumber.2.1 (by decide)
      simp [Token.opensStatement, ne]

theorem isWord_case : IsWord "case" :=
  Token.isWord_of_all (c := 'c') rfl rfl rfl

theorem ofRow_case (isNumber : isNumber name = true) : ofRow reserved ("case " ++ name ++ ":").toList = some case := by
  have chars : ("case " ++ name ++ ":").toList = "case".toList ++ ([' '] ++ (name.toList ++ [':'])) := by simp
  have noStatement : Token.opensStatement ([' '] ++ (name.toList ++ [':'])) = false :=
    opensStatement_number isNumber [':']
  rw [chars, ofRow_keyword isWord_case (by simp; decide) (by simp) noStatement rfl, enclosed?_filter _ _ isNumber]
  rfl

/-! ## The rows of a mark -/

theorem eq_append_of_enclosed? {opening cs : List Char} {closing : Char}
    (found : Token.enclosed? opening closing cs = some name) : cs = opening ++ (name.toList ++ [closing]) := by
  obtain ⟨inside, after, found⟩ := Option.bind_eq_some_iff.1 found
  split at found
  · rename_i last
    obtain rfl := Option.some.inj found
    have whole : inside = inside.dropLast ++ [closing] := by
      rw [← List.dropLast_append_getLast? closing last]
      simp
    rw [Text.eq_append_of_after? after, String.toList_ofList, ← whole]
  · simp at found

inductive Follows (reserved : List String) (word : String) (rest : List Char) : Mark → Prop
  | label (isName : isName reserved word = true) (same : rest = [':', ';']) : Follows reserved word rest (label word)
  | goto {name : String} (isName : isName reserved name = true) (jumps : word = "goto")
      (same : rest = [' '] ++ (name.toList ++ [';'])) : Follows reserved word rest (goto name)
  | other {mark : Mark} (unnamed : mark ∈ [statement, test, orTest, otherwise, loop, switch, case])
      (ends : rest = [] ∨ ∃ c ∈ [';', ')', ':'], rest.getLast? = some c) : Follows reserved word rest mark

theorem exists_of_filter_map {accepted : String → Bool} {opening cs : List Char} {closing : Char} {g : String → Mark}
    {mark : Mark} (found : ((Token.enclosed? opening closing cs).filter accepted).map g = some mark) :
    ∃ name, cs = opening ++ (name.toList ++ [closing]) ∧ accepted name = true ∧ mark = g name := by
  obtain ⟨name, kept, rfl⟩ := Option.map_eq_some_iff.1 found
  obtain ⟨inside, accepts⟩ := Option.filter_eq_some_iff.1 kept
  exact ⟨name, eq_append_of_enclosed? inside, accepts, rfl⟩

theorem follows_of_ofHeader {mark mark' : Mark} {skipped rest' : List Char} (split : rest = skipped ++ rest')
    (unnamed : mark ∈ [statement, test, orTest, otherwise, loop, switch, case])
    (found : ofHeader reserved mark rest' = some mark') : Follows reserved word rest mark' := by
  obtain ⟨name, rfl, -, rfl⟩ := exists_of_filter_map found
  refine .other unnamed (.inr ⟨')', by simp, ?_⟩)
  rw [split, ← List.append_assoc, ← List.append_assoc, List.getLast?_concat]

theorem follows_of_mem_ofKeyword {mark : Mark} (mem : (word, some mark) ∈ ofKeyword reserved rest) :
    Follows reserved word rest mark := by
  have one {closed : List Char} {c : Char} (here : c ∈ [';', ')', ':']) (ends : closed.getLast? = some c)
      (unnamed : mark ∈ [statement, test, orTest, otherwise, loop, switch, case]) (same : rest = closed) :
      Follows reserved word rest mark :=
    .other unnamed (.inr ⟨c, here, same ▸ ends⟩)
  simp only [ofKeyword, List.mem_cons, Prod.mk.injEq, List.not_mem_nil, or_false] at mem
  rcases mem with ⟨-, found⟩ | ⟨-, found⟩ | ⟨-, found⟩ | ⟨-, found⟩ | ⟨jumps, found⟩ | ⟨-, found⟩ | ⟨-, found⟩ |
    ⟨-, found⟩ | ⟨-, found⟩
  · exact follows_of_ofHeader (List.nil_append rest).symm (by simp) found.symm
  · exact follows_of_ofHeader (List.nil_append rest).symm (by simp) found.symm
  · exact follows_of_ofHeader (List.nil_append rest).symm (by simp) found.symm
  · split at found
    · rename_i empty
      obtain rfl := Option.some.inj found
      exact .other (by simp) (.inl empty)
    · obtain ⟨rest', after, found⟩ := Option.bind_eq_some_iff.1 found.symm
      exact follows_of_ofHeader (Text.eq_append_of_after? after) (by simp) found
  · obtain ⟨name, same, isName, rfl⟩ := exists_of_filter_map found.symm
    exact .goto isName jumps same
  · split at found
    · rename_i same
      obtain rfl := Option.some.inj found
      exact one (c := ';') (by simp) rfl (by simp) same
    · obtain ⟨name, same, -, rfl⟩ := exists_of_filter_map found.symm
      exact one (c := ';') (by simp) (by rw [← List.append_assoc, List.getLast?_concat]) (by simp) same
  · split at found
    · rename_i same
      obtain rfl := Option.some.inj found
      exact one (c := ';') (by simp) rfl (by simp) same
    · simp at found
  · obtain ⟨name, same, -, rfl⟩ := exists_of_filter_map found.symm
    exact one (c := ':') (by simp) (by rw [← List.append_assoc, List.getLast?_concat]) (by simp) same
  · split at found
    · rename_i same
      obtain rfl := Option.some.inj found
      exact one (c := ':') (by simp) rfl (by simp) same
    · simp at found

theorem follows_of_ofWord {mark : Mark} (found : ofWord reserved word rest = some mark) :
    Follows reserved word rest mark := by
  rw [ofWord] at found
  split at found
  · rename_i here
    obtain rfl := Option.some.inj found
    simp only [Bool.and_eq_true, decide_eq_true_eq] at here
    exact .label here.1 here.2
  · split at found
    · rename_i here
      obtain rfl := Option.some.inj found
      simp only [Bool.and_eq_true, decide_eq_true_eq] at here
      exact .other (by simp) (.inr ⟨';', by simp, here.2⟩)
    · exact follows_of_mem_ofKeyword (mem_of_lookup (Option.join_eq_some_iff.1 found))

theorem cases_of_ofRow {row : List Char} {mark : Mark} (found : ofRow reserved row = some mark) :
    (∃ word rest, row = word.toList ++ rest ∧ row.head?.any Text.continuesName ∧
      (∀ c ∈ word.toList, Text.continuesName c) ∧ Follows reserved word rest mark) ∨
    (row = ['\x7b'] ∧ mark = opening) ∨ (row = ['\x7d'] ∧ mark = closing) ∨
    ((row = ['\x7b', '\x7d'] ∨ row = [';']) ∧ mark = statement) := by
  rw [ofRow] at found
  split at found
  · rename_i starts
    refine .inl ⟨_, _, ?_, starts, ?_, follows_of_ofWord found⟩
    · rw [String.toList_ofList, List.takeWhile_append_dropWhile]
    · rw [String.toList_ofList]
      exact fun c mem => List.mem_takeWhile_imp mem
  · revert found
    fun_cases ofPunctuation row with
    | case1 => exact fun found => .inr (.inl ⟨rfl, (Option.some.inj found).symm⟩)
    | case2 => exact fun found => .inr (.inr (.inl ⟨rfl, (Option.some.inj found).symm⟩))
    | case3 => exact fun found => .inr (.inr (.inr ⟨.inl rfl, (Option.some.inj found).symm⟩))
    | case4 => exact fun found => .inr (.inr (.inr ⟨.inr rfl, (Option.some.inj found).symm⟩))
    | case5 => simp

theorem eq_of_ofRow_label {row : List Char} (found : ofRow reserved row = some (label name)) :
    row = (name ++ ":;").toList ∧ isName reserved name = true := by
  rcases cases_of_ofRow found with ⟨word, rest, rfl, -, -, follows⟩ | ⟨-, other⟩ | ⟨-, other⟩ | ⟨-, other⟩
  · cases follows with
    | label isName same => exact ⟨by simp [same], isName⟩
    | other unnamed => simp at unnamed
  · simp at other
  · simp at other
  · simp at other

theorem eq_of_ofRow_goto {row : List Char} (found : ofRow reserved row = some (goto name)) :
    row = ("goto " ++ name ++ ";").toList ∧ isName reserved name = true := by
  rcases cases_of_ofRow found with ⟨word, rest, rfl, -, -, follows⟩ | ⟨-, other⟩ | ⟨-, other⟩ | ⟨-, other⟩
  · cases follows with
    | goto isName jumps same => exact ⟨by simp [jumps, same], isName⟩
    | other unnamed => simp at unnamed
  · simp at other
  · simp at other
  · simp at other

/-! ## Texts of statements -/

theorem ofRow_passing (isName : ∀ {name}, named name → isName reserved name = true) (passing : IsPassing named text) :
    ofRow reserved text.toList = some statement := by
  cases passing with
  | assigns _ _ here _ chars | calls _ _ here _ chars =>
    rw [chars]
    exact ofRow_statement (isName here) rfl (by rw [List.getLast?_concat])
  | returns same =>
    have chars : text.toList = "return".toList ++ [';'] := by rw [same]; rfl
    rw [chars, ofRow_keyword Token.isWord_return (by simp; decide) (by simp) rfl rfl, if_pos rfl]
  | gives name here same =>
    rw [same]
    exact ofRow_gives (isName here)

theorem oneLine_passing (isWord : ∀ {name}, named name → IsWord name) (passing : IsPassing named text) :
    Text.OneLine text.toList := by
  cases passing with
  | assigns _ _ here inner chars | calls _ _ here inner chars =>
    rw [chars]
    exact Token.oneLine_word (isWord here) _ ';' (by simpa using inner) (by decide)
  | returns same =>
    have chars : text.toList = "return".toList ++ ([] ++ [';']) := by rw [same]; rfl
    rw [chars]
    exact Token.oneLine_word Token.isWord_return [] ';' (by simp) (by decide)
  | gives name here same =>
    have chars : text.toList = "return".toList ++ ((' ' :: name.toList) ++ [';']) := by rw [same]; simp
    rw [chars]
    exact Token.oneLine_word Token.isWord_return _ ';' (by simp [(isWord here).lineFeed_not_mem]) (by decide)

end Mark

/-! ## Lines -/

namespace Line

def row (line : Line) : List Char :=
  (rows line.text).headD []

structure IsMarked (reserved : List String) (mark : Mark) (line : Line) : Prop where
  single : rows line.text = [line.row]
  mark : Mark.ofRow reserved line.row = some mark

variable {reserved : List String} {mark : Mark} {line : Line} {text name : String} {b x : BlockId}
  {id : StmtId} {named : String → Prop}

theorem IsMarked.of_rows (cs : List Char) (single : rows line.text = [cs])
    (marked : Mark.ofRow reserved cs = some mark) :
    line.IsMarked reserved mark := by
  have first : line.row = cs := by rw [row, single]; rfl
  exact ⟨by rw [first, single], by rw [first, marked]⟩

theorem IsMarked.of_oneLine (single : Text.OneLine line.text.toList)
    (marked : Mark.ofRow reserved line.text.toList = some mark) : line.IsMarked reserved mark :=
  .of_rows _ single.lines_eq marked

theorem IsMarked.of_lineFeed (same : line.text = text ++ "\n") (single : Text.OneLine text.toList)
    (marked : Mark.ofRow reserved text.toList = some mark) : line.IsMarked reserved mark := by
  refine .of_rows _ ?_ marked
  have chars : line.text.toList = text.toList ++ ['\n'] := by simp [same]
  rw [rows, chars, single.lines_lineFeed_eq]

theorem isMarked_label (isName : Mark.isName reserved name = true) :
    (label b name).IsMarked reserved (.label name) := by
  refine .of_oneLine ?_ (Mark.ofRow_label isName)
  have single := Token.oneLine_word (Mark.isName_iff.1 isName).1 [':'] ';' (by decide) (by decide)
  simpa [Line.text] using single

theorem isMarked_jump (isName : Mark.isName reserved name = true) (nested : Bool) :
    (jump x name nested).IsMarked reserved (.goto name) := by
  refine .of_oneLine ?_ (Mark.ofRow_goto isName)
  have inner : '\n' ∉ ' ' :: name.toList := by simp [(Mark.isName_iff.1 isName).1.lineFeed_not_mem]
  have single := Token.oneLine_word Token.isWord_goto _ ';' inner (by decide)
  simpa [Line.text] using single

theorem isMarked_openBrace : openBrace.IsMarked reserved .opening :=
  .of_rows ['\x7b'] (by decide) rfl

theorem isMarked_closeBrace : closeBrace.IsMarked reserved .closing :=
  .of_rows ['\x7d'] (by decide) rfl

theorem isMarked_emptyBraces : emptyBraces.IsMarked reserved .statement :=
  .of_rows ['\x7b', '\x7d'] (by decide) rfl

theorem isMarked_emptyStmt : emptyStmt.IsMarked reserved .statement :=
  .of_rows [';'] (by decide) rfl

theorem isMarked_leaveSwitch : leaveSwitch.IsMarked reserved .statement := by
  refine .of_rows ("break".toList ++ [';']) (by decide) ?_
  rw [Mark.ofRow_keyword (Token.isWord_of_all (c := 'b') rfl rfl rfl) (by simp; decide) (by simp) rfl rfl, if_pos rfl]

theorem isMarked_elseBranch : (elseBranch b).IsMarked reserved .otherwise := by
  refine .of_rows ("else".toList ++ []) ?_ ?_
  · change rows "else" = _
    decide
  · rw [Mark.ofRow_keyword Token.isWord_else (by simp) (by simp) rfl rfl, if_pos rfl]

theorem isMarked_elseIf (isName : Mark.isName reserved name = true) : (elseIf b name).IsMarked reserved .orTest := by
  refine .of_oneLine ?_ (Mark.ofRow_elseIf isName)
  have inner : '\n' ∉ [' ', 'i', 'f', ' ', '('] ++ name.toList := by
    simp [(Mark.isName_iff.1 isName).1.lineFeed_not_mem]
  have single := Token.oneLine_word Token.isWord_else _ ')' inner (by decide)
  simpa [Line.text] using single

theorem isMarked_caseLabel (label : CaseLabel) : (caseLabel label).IsMarked reserved .case := by
  cases label with
  | value n =>
    have text : (caseLabel (.value n)).text = "case " ++ toString n ++ ":" := rfl
    refine .of_oneLine ?_ ?_
    · rw [text]
      have inner : '\n' ∉ ' ' :: (toString n).toList := by
        simpa using Program.FunctionOf.lineFeed_not_mem_toString n
      have single := Token.oneLine_word Mark.isWord_case _ ':' inner (by decide)
      simpa using single
    · rw [text]
      exact Mark.ofRow_case (Mark.isNumber_toString n)
  | otherwise =>
    refine .of_rows ("default".toList ++ [':']) (by decide) ?_
    rw [Mark.ofRow_keyword (Token.isWord_of_all (c := 'd') rfl rfl rfl) (by simp; decide) (by simp) rfl rfl, if_pos rfl]

section Named

variable (isName : ∀ {name}, named name → Mark.isName reserved name = true)

include isName

theorem isMarked_copy {copy : Copy} (names : named copy.dest ∧ named copy.source) :
    (Line.copy b copy).IsMarked reserved .statement := by
  have isWord {name : String} (here : named name) : Program.IsWord name := (Mark.isName_iff.1 (isName here)).1
  have passing : IsPassing named copy.text := copy.isPassing isWord names
  exact .of_oneLine (Mark.oneLine_passing isWord passing) (Mark.ofRow_passing isName passing)

theorem isMarked_again (passing : IsPassing named text) : (stmt b id (text ++ "\n")).IsMarked reserved .statement := by
  have isWord {name : String} (here : named name) : Program.IsWord name := (Mark.isName_iff.1 (isName here)).1
  exact .of_lineFeed rfl (Mark.oneLine_passing isWord passing) (Mark.ofRow_passing isName passing)

end Named

end Line

def Kind.Shows (reserved : List String) (own : Option String) (labels : Labels) (line : Line) : Kind → Prop
  | .plain | .init => line.IsMarked reserved .statement
  | .virtual => False
  | .label => ∃ name, own = some name ∧ line.IsMarked reserved (.label name)
  | .conditional .. | .multiway _ => line.IsMarked reserved .test
  | .loop .. => line.IsMarked reserved .loop
  | .switch .. => line.IsMarked reserved .switch
  | .jump targets => ∃ target name, targets = [target] ∧ labels.label target = .ok name ∧
      line.IsMarked reserved (.goto name)

theorem Kind.Shows.exists_mark {kind : Kind} {reserved : List String} {own : Option String} {labels : Labels}
    {line : Line}
    (shows : kind.Shows reserved own labels line) : ∃ mark, line.IsMarked reserved mark := by
  cases kind with
  | virtual => exact shows.elim
  | label =>
    obtain ⟨name, -, marked⟩ := shows
    exact ⟨_, marked⟩
  | jump =>
    obtain ⟨target, name, -, -, marked⟩ := shows
    exact ⟨_, marked⟩
  | _ => exact ⟨_, shows⟩

theorem Emitter.Legible.shows {e : Emitter} {named : String → Prop} {reserved : List String} (legible : e.Legible named)
    (isName : ∀ {name}, named name → Mark.isName reserved name = true) {b : BlockId} {stmts : List (Stmt × Kind)}
    (ok : e.procedure.classified b = .ok stmts) {stmt : Stmt × Kind} (mem : stmt ∈ stmts) {text : String}
    (rendered : e.render stmt.1.id (e.names b) = .ok text) :
    stmt.2.Shows reserved (e.procedure.label? b) e.labels (.stmt b stmt.1.id text) := by
  have spelled := legible.texts ok stmt mem rendered
  have passing (passing : IsPassing named text) : (Line.stmt b stmt.1.id text).IsMarked reserved .statement :=
    .of_oneLine (Mark.oneLine_passing legible.isWord passing) (Mark.ofRow_passing isName passing)
  obtain ⟨stmt, kind⟩ := stmt
  cases kind with
  | plain => exact passing spelled
  | init => exact passing spelled
  | virtual => exact spelled
  | label =>
    obtain ⟨name, own, here, rfl⟩ := spelled
    have label := Line.isMarked_label (b := b) (isName here)
    exact ⟨name, own, label.single, label.mark⟩
  | conditional =>
    obtain ⟨name, here, rfl⟩ := spelled
    exact .of_oneLine (Token.oneLine_header Token.isWord_if (legible.isWord here)) (Mark.ofRow_if (isName here))
  | loop =>
    obtain ⟨name, here, rfl⟩ := spelled
    exact .of_oneLine (Token.oneLine_header Token.isWord_while (legible.isWord here)) (Mark.ofRow_while (isName here))
  | multiway =>
    obtain ⟨name, here, rfl⟩ := spelled
    exact .of_oneLine (Token.oneLine_header Token.isWord_if (legible.isWord here)) (Mark.ofRow_if (isName here))
  | switch =>
    obtain ⟨name, here, rfl⟩ := spelled
    exact .of_oneLine (Token.oneLine_header Mark.isWord_switch (legible.isWord here)) (Mark.ofRow_switch (isName here))
  | jump =>
    obtain ⟨target, name, same, labelled, rfl⟩ := spelled
    have jump := Line.isMarked_jump (x := target) (isName (legible.label labelled).1) false
    exact ⟨target, name, same, labelled, jump.single, jump.mark⟩

end Reflow
