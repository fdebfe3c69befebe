import Reflow.Body
import Reflow.Proofs.Code.Reader
import Reflow.Proofs.Layout
import Reflow.Proofs.Program.WellFormed

namespace Reflow

open Program (IsWord)

namespace Token

variable {word : String} {rest : List Char}
  {text : String} {name : String} {cond : String}

theorem ofLine_word (isWord : IsWord word) (ends : ∀ c ∈ rest.head?, Text.continuesName c = false) :
    ofLine (word.toList ++ rest) = ofWord (String.ofList (word.toList ++ rest)) word rest := by
  obtain ⟨c, letters, chars, -, continues⟩ := isWord
  have first : Text.continuesName c = true := continues c (by simp [chars])
  have more : ∀ d ∈ letters, Text.continuesName d = true := by
    intro d mem
    exact continues d (by simp [chars, mem])
  have taken : (letters ++ rest).takeWhile Text.continuesName = letters := by
    rw [List.takeWhile_append_of_pos more]
    cases rest with
    | nil => simp
    | cons d => simp [List.takeWhile_cons_of_neg, ends d rfl]
  have dropped : (letters ++ rest).dropWhile Text.continuesName = rest := by
    rw [List.dropWhile_append_of_pos more]
    cases rest with
    | nil => rfl
    | cons d => simp [List.dropWhile_cons_of_neg, ends d rfl]
  have back : String.ofList (c :: letters) = word := by
    rw [← chars, String.ofList_toList]
  rw [chars, List.cons_append, ofLine, if_pos first, taken, dropped, back]

theorem after?_append (head cs : List Char) : Text.after? head (head ++ cs) = some cs := by
  induction head with
  | nil => rfl
  | cons c head ih => simp [Text.after?, ih]

theorem enclosed?_append (opening : List Char) (closing : Char) (inside : String) :
    enclosed? opening closing (opening ++ (inside.toList ++ [closing])) = some inside := by
  simp [enclosed?, after?_append]

theorem ofHeader_append (token : String → Token) (cond : String) :
    ofHeader token ([' ', '('] ++ (cond.toList ++ [')'])) = token cond := by
  rw [ofHeader, enclosed?_append]
  rfl

theorem oneLine_word (isWord : IsWord word) (rest : List Char) (last : Char) (inner : '\n' ∉ rest)
    (mark : Text.isBlank last = false) : Text.OneLine (word.toList ++ (rest ++ [last])) where
  head := by
    obtain ⟨c, letters, chars, -, continues⟩ := isWord
    intro d found
    rw [chars, List.cons_append, List.head?_cons, Option.mem_some_iff] at found
    rw [← found]
    exact Text.isBlank_of_continuesName (continues c (by simp [chars]))
  last := by
    intro d found
    rw [← List.append_assoc, List.getLast?_concat, Option.mem_some_iff] at found
    rw [← found]
    exact mark
  some := by simp
  inner := by
    have lineFeed : Text.isBlank '\n' = true := by decide
    have ne : '\n' ≠ last := by
      rintro rfl
      rw [lineFeed] at mark
      exact absurd mark (by decide)
    simp [isWord.lineFeed_not_mem, inner, ne]

theorem ofText_of_oneLine (single : Text.OneLine text.toList) : ofText text = ofLine text.toList := by
  simp [ofText, single.lines_eq]

theorem ofText_lineFeed (single : Text.OneLine text.toList) :
    ofText (text ++ "\n") = ofLine text.toList := by
  have chars : (text ++ "\n").toList = text.toList ++ ['\n'] := by simp
  rw [ofText, chars, single.lines_lineFeed_eq]
  simp

theorem ofText_layOut (indent : Nat) (lines : List Line) :
    ofText (layOut indent lines) = lines.flatMap fun line => ofText line.text := by
  rw [ofText, layOut, Layout.lines_layOut, List.flatMap_map, List.flatMap_assoc]
  rfl

theorem isWord_of_all {s : String} {c : Char} {rest : List Char} (chars : s.toList = c :: rest)
    (starts : Text.startsName c = true) (letters : s.toList.all Text.continuesName = true) : IsWord s :=
  ⟨c, rest, chars, starts, List.all_eq_true.1 letters⟩

theorem isWord_if : IsWord "if" :=
  isWord_of_all (c := 'i') rfl rfl rfl

theorem isWord_else : IsWord "else" :=
  isWord_of_all (c := 'e') rfl rfl rfl

theorem isWord_while : IsWord "while" :=
  isWord_of_all (c := 'w') rfl rfl rfl

theorem isWord_goto : IsWord "goto" :=
  isWord_of_all (c := 'g') rfl rfl rfl

theorem isWord_return : IsWord "return" :=
  isWord_of_all (c := 'r') rfl rfl rfl

theorem ofText_label (isWord : IsWord name) : ofText (name ++ ":;") = [label name] := by
  have chars : (name ++ ":;").toList = name.toList ++ ([':'] ++ [';']) := by simp
  have single := oneLine_word isWord [':'] ';' (by decide) (by decide)
  rw [ofText_of_oneLine (chars ▸ single), chars, ofLine_word isWord (by simp; decide)]
  rfl

theorem opensStatement_blank (isWord : IsWord name) (rest : List Char) :
    opensStatement (' ' :: (name.toList ++ rest)) = false := by
  obtain ⟨c, letters, chars, starts, -⟩ := isWord
  have ne : c ≠ '=' := by
    rintro rfl
    exact absurd starts (by decide)
  rw [chars, List.cons_append]
  simp [opensStatement, ne]

theorem ofText_goto (isWord : IsWord name) : ofText ("goto " ++ name ++ ";") = [goto name] := by
  have chars : ("goto " ++ name ++ ";").toList = "goto".toList ++ ((' ' :: name.toList) ++ [';']) := by
    simp
  have inner : '\n' ∉ ' ' :: name.toList := by simp [isWord.lineFeed_not_mem]
  have single := oneLine_word isWord_goto _ ';' inner (by decide)
  have read := enclosed?_append [' '] ';' name
  simp only [List.singleton_append] at read
  rw [ofText_of_oneLine (chars ▸ single), chars, ofLine_word isWord_goto (by simp; decide), ofWord]
  simp [read, opensStatement_blank isWord]

theorem oneLine_header {name cond : String} (isWord : IsWord name) (isCond : IsWord cond) :
    Text.OneLine (name ++ " (" ++ cond ++ ")").toList := by
  have inner : '\n' ∉ ' ' :: '(' :: cond.toList := by simp [isCond.lineFeed_not_mem]
  simpa using oneLine_word isWord _ ')' inner (by decide)

theorem ofLine_header {name cond : String} (isWord : IsWord name) : ofLine (name ++ " (" ++ cond ++ ")").toList =
      ofWord (name ++ " (" ++ cond ++ ")") name ([' ', '('] ++ (cond.toList ++ [')'])) := by
  have chars : (name ++ " (" ++ cond ++ ")").toList = name.toList ++ ([' ', '('] ++ (cond.toList ++ [')'])) := by simp
  have line : String.ofList (name.toList ++ ([' ', '('] ++ (cond.toList ++ [')']))) = name ++ " (" ++ cond ++ ")" := by
    rw [← chars, String.ofList_toList]
  rw [chars, ofLine_word isWord (by simp; decide), line]

theorem ofText_if (isCond : IsWord cond) : ofText ("if" ++ " (" ++ cond ++ ")") = [ifTest cond] := by
  rw [ofText_of_oneLine (oneLine_header isWord_if isCond), ofLine_header isWord_if, ofWord, ofHeader_append]
  simp [opensStatement]

theorem ofText_while (isCond : IsWord cond) :
    ofText ("while" ++ " (" ++ cond ++ ")") = [whileTest cond] := by
  rw [ofText_of_oneLine (oneLine_header isWord_while isCond), ofLine_header isWord_while, ofWord,
    ofHeader_append whileTest]
  simp [opensStatement]

theorem ofText_elseIf (isCond : IsWord cond) :
    ofText ("else if (" ++ cond ++ ")") = [otherwise, ifTest cond] := by
  have chars : ("else if (" ++ cond ++ ")").toList =
      "else".toList ++ ([' ', 'i', 'f'] ++ ([' ', '('] ++ (cond.toList ++ [')']))) := by simp
  have inner : '\n' ∉ [' ', 'i', 'f', ' ', '('] ++ cond.toList := by
    simp [isCond.lineFeed_not_mem]
  have single : Text.OneLine ("else if (" ++ cond ++ ")").toList := by
    simpa using oneLine_word isWord_else _ ')' inner (by decide)
  rw [ofText_of_oneLine single, chars, ofLine_word isWord_else (by simp; decide), ofWord, after?_append,
    Option.map_some, ofHeader_append]
  simp [opensStatement]

theorem ofText_else : ofText "else" = [otherwise] := by
  decide

theorem ofText_openBrace : ofText "\x7b" = [opening] := by
  decide

theorem ofText_closeBrace : ofText "\x7d" = [closing] := by
  decide

theorem ofText_emptyBraces : ofText "\x7b\x7d" = [opening, closing] := by
  decide

theorem ofText_emptyStmt : ofText ";" = [empty] := by
  decide

theorem ofText_comment (single : Text.OneLine ("//" ++ text).toList) : ofText ("//" ++ text) = [] := by
  have chars : ("//" ++ text).toList = '/' :: '/' :: text.toList := by simp
  have slash : Text.continuesName '/' = false := by decide
  rw [ofText_of_oneLine single, chars]
  simp [ofLine, slash, ofMarks]

structure IsStatement (text : String) : Prop where
  single : Text.OneLine text.toList
  token : ofLine text.toList = [plain text]

theorem isStatement_word (isWord : IsWord word) (rest : List Char) (opens : opensStatement rest)
    (inner : '\n' ∉ rest) (chars : text.toList = word.toList ++ (rest ++ [';'])) : IsStatement text where
  single := chars ▸ oneLine_word isWord rest ';' inner (by decide)
  token := by
    have back : String.ofList (word.toList ++ (rest ++ [';'])) = text := by
      rw [← chars, String.ofList_toList]
    obtain ⟨tail, rfl⟩ | ⟨tail, rfl⟩ : (∃ tail, rest = ' ' :: '=' :: tail) ∨ ∃ tail, rest = '(' :: tail := by
      revert opens
      fun_cases opensStatement rest with
      | case1 tail => exact fun _ => .inl ⟨tail, rfl⟩
      | case2 tail => exact fun _ => .inr ⟨tail, rfl⟩
      | case3 => simp
    · rw [chars, ofLine_word isWord (by simp; decide), ofWord, back]
      simp [opensStatement]
    · rw [chars, ofLine_word isWord (by simp; decide), ofWord, back]
      simp [opensStatement]

theorem ofLine_return (ends : ∀ c ∈ rest.head?, Text.continuesName c = false)
    (noLabel : rest ≠ [':', ';']) (noStatement : opensStatement rest = false)
    (chars : text.toList = "return".toList ++ rest) : ofLine text.toList = [ret text] := by
  have back : String.ofList ("return".toList ++ rest) = text := by
    rw [← chars, String.ofList_toList]
  rw [chars, ofLine_word isWord_return ends, ofWord, if_neg noLabel, back, noStatement]
  simp

end Token

end Reflow
