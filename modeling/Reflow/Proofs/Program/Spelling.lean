import Reflow.Proofs.Program.Literals

namespace Reflow.Program

def valueText (name : String) : List Char :=
  '%' :: name.toList

def targetText (name : String) : List Char :=
  '^' :: name.toList

def pairText (first second : List Char) : List Char :=
  '[' :: (first ++ ',' :: ' ' :: (second ++ [']']))

def moreText (items : List (List Char)) : List Char :=
  items.flatMap fun item => ',' :: ' ' :: item

def listText : List (List Char) → List Char
  | [] => []
  | item :: items => item ++ moreText items

def caseText : CaseLabel → List Char
  | .value n => decimal n
  | .otherwise => "default".toList

def operandsText : NamedInstr → List Char
  | .any [] => []
  | .any operands => ' ' :: listText (operands.map valueText)
  | .const n => ' ' :: decimal n
  | .binary _ left right => ' ' :: listText [valueText left, valueText right]
  | .copy source => ' ' :: valueText source
  | .call callee operands => ' ' :: '@' :: (callee.toList ++ moreText (operands.map valueText))
  | .init var n => ' ' :: listText [valueText var, decimal n]
  | .vuse source => ' ' :: valueText source
  | .label name => ' ' :: name.toList
  | .asm => []
  | .ret none => []
  | .ret (some result) => ' ' :: valueText result
  | .br target => ' ' :: targetText target
  | .condbr cond thenBlock elseBlock => ' ' :: listText [valueText cond, targetText thenBlock, targetText elseBlock]
  | .loop cond body exit => ' ' :: listText [valueText cond, targetText body, targetText exit]
  | .multiif cond target arms otherwise =>
    ' ' :: listText (((cond, target) :: arms).map (fun (v, b) => pairText (valueText v) (targetText b)) ++
      otherwise.toList.map fun b => '[' :: (targetText b ++ [']']))
  | .switch selector arms =>
    ' ' :: listText (valueText selector :: arms.map fun (case, b) => pairText (caseText case) (targetText b))
  | .goto target => ' ' :: targetText target

def Statement.line (stmt : Statement String String) : List Char :=
  match stmt.result with
  | none => stmt.instr.op.name.toList ++ operandsText stmt.instr
  | some name => valueText name ++ ' ' :: '=' :: ' ' :: (stmt.instr.op.name.toList ++ operandsText stmt.instr)

def Phi.line (phi : Phi String String) : List Char :=
  valueText phi.name ++ ' ' :: '=' :: ' ' :: (phi.op.name.toList ++
    ' ' :: listText (phi.incoming.map fun (b, v) => pairText (targetText b) (valueText v)))

def Block.itemLines (block : NamedBlock) : List (List Char) :=
  block.phis.map (·.line) ++ block.stmts.map (·.line)

def Block.lines (block : NamedBlock) : List (List Char) :=
  (block.name.toList ++ [':']) :: block.itemLines

def FunctionOf.header (f : FunctionOf String String) : List Char :=
  f.name.toList ++ '(' :: (listText (f.args.map valueText) ++ [')', ' ', '\x7b'])

def FunctionOf.lines (f : FunctionOf String String) : List (List Char) :=
  f.header :: (f.blocks.flatMap (·.lines) ++ [['\x7d']])

def FunctionOf.named (f : Function) : FunctionOf String String :=
  ⟨f.name, f.args, f.blocks.map (·.map f.valueName f.blockName)⟩

def lines (program : Program) : List (List Char) :=
  program.functions.flatMap (·.named.lines)

inductive Gap : List Char → Prop
  | nil : Gap []
  | blank {c : Char} {cs : List Char} (isBlank : Text.isBlank c = true) (gap : Gap cs) : Gap (c :: cs)
  | comment {text cs : List Char} (line : '\n' ∉ text) (gap : Gap cs) : Gap (';' :: (text ++ '\n' :: cs))

def Tail (cs : List Char) : Prop :=
  Gap cs ∨ ∃ gap text, Gap gap ∧ '\n' ∉ text ∧ cs = gap ++ ';' :: text

/-- A text that starts with lines, each followed by blanks and comments with a line feed or by the end. -/
def Spread : List (List Char) → List Char → Prop
  | [], cs => Tail cs
  | line :: lines, cs => ∃ after, cs = line ++ after ∧
      ((∃ gap rest, Gap gap ∧ '\n' ∈ gap ∧ after = gap ++ rest ∧ Spread lines rest) ∨ (lines = [] ∧ Tail after))

def IsSpelling (program : Program) (text : String) : Prop :=
  ∃ gap rest, Gap gap ∧ Spread program.lines rest ∧ text.toList = gap ++ rest

def plainText (program : Program) : String :=
  String.ofList (program.lines.flatMap (· ++ ['\n']))

variable {cs : List Char} {text : List Char} {gap : List Char} {lines : List (List Char)}

theorem spread_flatMap {gap tail : List Char} (isGap : Gap gap) (lineFeed : '\n' ∈ gap) (isTail : Tail tail)
    (lines : List (List Char)) : Spread lines (lines.flatMap (· ++ gap) ++ tail) := by
  induction lines with
  | nil => exact isTail
  | cons line lines ih =>
    refine ⟨gap ++ (lines.flatMap (· ++ gap) ++ tail), by simp, .inl ⟨gap, _, isGap, lineFeed, rfl, ih⟩⟩

theorem isSpelling_plainText (program : Program) : program.IsSpelling program.plainText := by
  have spread := spread_flatMap (.blank (by decide) .nil) (.head _) (.inl .nil) program.lines
  exact ⟨[], _, .nil, spread, by simp [plainText]⟩

theorem skipFrom_comment (newlines : Bool) (line : '\n' ∉ text) (rest : List Char) :
    skipFrom newlines true (text ++ rest) = skipFrom newlines true rest := by
  induction text with
  | nil => rfl
  | cons c text ih =>
    rw [List.mem_cons, not_or] at line
    rw [List.cons_append, skipFrom, if_neg (Ne.symm line.1)]
    exact ih line.2

theorem skipFrom_semicolon (newlines : Bool) (cs : List Char) :
    skipFrom newlines false (';' :: cs) = skipFrom newlines true cs := by
  simp [skipFrom]

theorem ne_semicolon_of_isBlank {c : Char} (blank : Text.isBlank c = true) : c ≠ ';' := by
  rintro rfl
  exact absurd blank (by decide)

theorem Gap.skip_append (isGap : Gap gap) (rest : List Char) : skip (gap ++ rest) = skip rest := by
  induction isGap with
  | nil => rfl
  | @blank c cs isBlank gap ih =>
    rw [← ih, List.cons_append, skip, skipFrom]
    split
    · rfl
    · simp [ne_semicolon_of_isBlank isBlank, skip]
  | @comment _ _ line _ ih =>
    rw [← ih, List.cons_append, List.append_assoc, skip, skipFrom_semicolon, skipFrom_comment true line]
    simp [skipFrom, skip]

theorem Tail.skip_eq (tail : Tail cs) : skip cs = [] := by
  rcases tail with gap | ⟨gap, text, isGap, line, rfl⟩
  · simpa [skip, skipFrom] using gap.skip_append []
  · have comment := skipFrom_comment true line []
    rw [isGap.skip_append, skip, skipFrom_semicolon]
    simpa [skipFrom] using comment

theorem atLineEnd_comment (line : '\n' ∉ text) (rest : List Char) :
    atLineEnd (skipInLine (';' :: (text ++ '\n' :: rest))) = true := by
  rw [skipInLine, skipFrom_semicolon, skipFrom_comment false line]
  simp [skipFrom, atLineEnd]

theorem Gap.atLineEnd (isGap : Gap gap) {rest : List Char}
    (ends : '\n' ∈ gap ∨ atLineEnd (skipInLine rest) = true) : atLineEnd (skipInLine (gap ++ rest)) = true := by
  induction isGap with
  | nil => simpa using ends
  | @blank c cs isBlank gap ih =>
    rw [List.cons_append, skipInLine, skipFrom]
    split
    · simp [Program.atLineEnd, *]
    · rename_i other
      have later := ih (by simpa [Ne.symm other] using ends)
      simpa [ne_semicolon_of_isBlank isBlank, isBlank, skipInLine] using later
  | @comment _ _ line =>
    rw [List.cons_append, List.append_assoc]
    exact atLineEnd_comment line _

theorem continuesName_semicolon : Text.continuesName ';' = false := by
  decide

theorem Gap.endsName {gap rest : List Char} (isGap : Gap gap) (ends : gap = [] → EndsName rest) :
    EndsName (gap ++ rest) := by
  cases isGap with
  | nil => exact ends rfl
  | blank isBlank => exact .cons (Text.continuesName_of_isBlank isBlank)
  | comment => exact .cons continuesName_semicolon

theorem Tail.endsName (tail : Tail cs) : EndsName cs := by
  rcases tail with gap | ⟨gap, text, isGap, -, rfl⟩
  · have ends : EndsName (cs ++ []) := gap.endsName fun _ => by simp [EndsName]
    simpa using ends
  · exact isGap.endsName fun _ => .cons continuesName_semicolon

theorem Tail.atLineEnd (tail : Tail cs) : atLineEnd (skipInLine cs) = true := by
  rcases tail with gap | ⟨gap, text, isGap, line, rfl⟩
  · have ends : Program.atLineEnd (skipInLine (cs ++ [])) = true := gap.atLineEnd (.inr rfl)
    simpa using ends
  · refine isGap.atLineEnd (.inr ?_)
    have comment := skipFrom_comment false line []
    rw [skipInLine, skipFrom_semicolon, ← List.append_nil text, comment]
    rfl

def IsLine (line : List Char) : Prop :=
  ∃ c rest, line = c :: rest ∧ IsSolid c ∧ c ≠ ',' ∧ c ≠ ':'

theorem IsLine.ne_nil {line : List Char} (isLine : IsLine line) : line ≠ [] := by
  obtain ⟨c, rest, rfl, -⟩ := isLine
  simp

theorem At.head_skip (each : ∀ line ∈ lines, IsLine line)
    (at_ : At lines cs) : ∀ c ∈ (skip cs).head?, c ≠ ',' ∧ c ≠ ':' := by
  intro c head
  cases lines with
  | nil => simp [show skip cs = [] from at_] at head
  | cons line =>
    obtain ⟨after, found, -⟩ := at_
    obtain ⟨d, rest, rfl, -, free⟩ := each line (.head _)
    rw [found] at head
    obtain rfl : d = c := by simpa using head
    exact free

theorem Spread.at_ {gap text : List Char} (each : ∀ line ∈ lines, IsLine line)
    (isGap : Gap gap) (spread : Spread lines text) : At lines (gap ++ text) := by
  induction lines generalizing gap text with
  | nil => exact (isGap.skip_append text).trans (Tail.skip_eq spread)
  | cons line lines ih =>
    obtain ⟨after, rfl, ends⟩ := spread
    have later : ∀ line ∈ lines, IsLine line := fun line mem => each line (.tail _ mem)
    obtain ⟨c, rest, rfl, solid, -⟩ := each line (.head _)
    refine ⟨after, ?_, ?_⟩
    · rw [isGap.skip_append, List.cons_append, skip_cons solid]
    · rcases ends with ⟨gap, rest, isGap, lineFeed, rfl, spread⟩ | ⟨rfl, tail⟩
      · have next := ih later isGap spread
        refine ⟨⟨isGap.endsName ?_, isGap.atLineEnd (.inl lineFeed), next.head_skip later⟩, next⟩
        rintro rfl
        simp at lineFeed
      · have next : At [] after := tail.skip_eq
        exact ⟨⟨tail.endsName, tail.atLineEnd, next.head_skip (by simp)⟩, next⟩

end Reflow.Program
