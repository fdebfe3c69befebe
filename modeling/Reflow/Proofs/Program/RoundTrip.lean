import Reflow.Proofs.Program.ReadBack
import Reflow.Proofs.Program.View

/-!
# Writing and reading a program

Reading the lines of a program gives the program back, whatever blanks and comments stand around them.
-/

namespace Reflow.Program

open Reader

variable {cs : List Char} {lines : List (List Char)} {name : String} {defined : List String} {fuel : Nat}
  {f : Function} {block : NamedBlock} {blocks : List NamedBlock} {args : List String}

/-! ## Blocks -/

structure Block.Spellable (block : NamedBlock) : Prop where
  shaped : block.Shaped
  labelled : block.Labelled
  written : block.Written
  incoming : ∀ phi ∈ block.phis, ∀ pair ∈ phi.incoming, IsWord pair.1 ∧ IsWord pair.2
  stmts : ∀ stmt ∈ block.stmts, Program.Spellable stmt.instr

def Block.names (block : NamedBlock) : List String :=
  block.phis.map (·.name) ++ block.stmts.filterMap (·.result)

def Closes (lines : List (List Char)) : Prop :=
  ∃ line rest, lines = line :: rest ∧ (line = ['\x7d'] ∨ ∃ name, IsWord name ∧ line = name.toList ++ [':'])

theorem Closes.blockEnds (closes : Closes lines) (at_ : At lines cs) : blockEnds (skip cs) = true := by
  obtain ⟨line, rest, rfl, kind⟩ := closes
  obtain ⟨after, found, -, -⟩ := at_
  rw [found]
  rcases kind with rfl | ⟨name, word, rfl⟩
  · rfl
  · have scanned := scanName_eq word (word.skip_eq (':' :: after)) (endsName_mark (by decide))
    have mark : skip (':' :: after) = ':' :: after := rfl
    rw [List.append_assoc, List.singleton_append]
    simp only [Program.blockEnds, scanned, mark, List.head?_cons, decide_true, Bool.or_true]

theorem isTerminated_eq_false (shaped : block.Shaped)
    {before more : List (Statement String String)} {stmt : Statement String String}
    (stmts : block.stmts = before ++ stmt :: more) : isTerminated before = false := by
  rw [isTerminated, Option.any_eq_false]
  intro last mem
  have inside : last ∈ block.stmts.dropLast := by
    rw [stmts, List.dropLast_append_of_ne_nil (by simp)]
    exact List.mem_append_left _ (List.mem_of_getLast? mem)
  simpa using shaped.terminated last inside

theorem readBlockItems_stmts {phis : List (Phi String String)} (before : List (Statement String String))
    {more : List (Statement String String)} (spellable : Block.Spellable ⟨name, phis, before ++ more⟩)
    (closes : Closes lines) (at_ : At (more.map (·.line) ++ lines) cs)
    (fresh : (defined ++ more.filterMap (·.result)).Nodup) (enough : more.length ≤ fuel) :
    ∃ rest, (readBlockItems (fuel + 1) ⟨name, phis, before⟩ defined).Reads cs
      (⟨name, phis, before ++ more⟩, defined ++ more.filterMap (·.result)) rest ∧ At lines rest := by
  induction more generalizing before cs defined fuel with
  | nil =>
    refine ⟨skip cs, .get (.set ?_), at_.congr (skip_skip cs)⟩
    rw [if_pos (closes.blockEnds at_)]
    simpa using Reads.pure
  | cons stmt more ih =>
    cases fuel with
    | zero => simp at enough
    | succ =>
      obtain ⟨after, found, ends, next⟩ := at_
      have mem : stmt ∈ before ++ stmt :: more := by simp
      have shaped := spellable.shaped.stmts stmt mem
      have new : ∀ name ∈ stmt.result, name ∉ defined := by
        intro name result given
        rw [List.filterMap_cons_some result] at fresh
        exact List.disjoint_of_nodup_append fresh given (.head _)
      have named : (stmt :: more).filterMap (·.result) = stmt.result.toList ++ more.filterMap (·.result) := by
        cases result : stmt.result <;> simp [result]
      have skipped : skip (skip cs) = stmt.line ++ after := (skip_skip cs).trans found
      obtain ⟨rest, read, left⟩ := stmt.reads ends shaped (spellable.stmts stmt mem) new skipped
      have later : Block.Spellable ⟨name, phis, (before ++ [stmt]) ++ more⟩ := by simpa using spellable
      have freshLater : ((defined ++ stmt.result.toList) ++ more.filterMap (·.result)).Nodup := by
        rwa [List.append_assoc, ← named]
      obtain ⟨last, others, at_⟩ :=
        ih (before ++ [stmt]) later (next.congr left) freshLater (Nat.le_of_succ_le_succ enough)
      refine ⟨last, .get (.set ?_), at_⟩
      have inside : blockEnds (skip cs) = false := by
        rw [found]
        exact Statement.blockEnds_line (spellable.labelled.written stmt mem) ends
      have first : (stmt.instr.op = .label && !before.isEmpty) = false := by
        cases before with
        | nil => simp
        | cons => simpa using spellable.labelled.first stmt (by simp)
      rw [inside, isTerminated_eq_false spellable.shaped rfl, stmt.not_ahead shaped ends.name skipped]
      refine read.bind ?_
      dsimp only
      rw [first]
      simpa [named] using others

theorem readBlockItems_reads (before : List (Phi String String)) {more : List (Phi String String)}
    {stmts : List (Statement String String)} (spellable : Block.Spellable ⟨name, before ++ more, stmts⟩)
    (closes : Closes lines) (at_ : At (more.map (·.line) ++ (stmts.map (·.line) ++ lines)) cs)
    (fresh : (defined ++ (more.map (·.name) ++ stmts.filterMap (·.result))).Nodup)
    (enough : more.length + stmts.length ≤ fuel) :
    ∃ rest, (readBlockItems (fuel + 1) ⟨name, before, []⟩ defined).Reads cs
      (⟨name, before ++ more, stmts⟩, defined ++ (more.map (·.name) ++ stmts.filterMap (·.result))) rest ∧
      At lines rest := by
  induction more generalizing before cs defined fuel with
  | nil =>
    simp only [List.append_nil, List.map_nil, List.nil_append, List.length_nil, Nat.zero_add] at *
    exact readBlockItems_stmts [] spellable closes at_ fresh enough
  | cons phi more ih =>
    cases fuel with
    | zero => simp at enough
    | succ fuel =>
      obtain ⟨after, found, ends, next⟩ := at_
      have mem : phi ∈ before ++ phi :: more := by simp
      have word := spellable.shaped.phis phi mem
      have new : phi.name ∉ defined := fun given =>
        List.disjoint_of_nodup_append fresh given (by simp)
      have skipped : skip (skip cs) = phi.line ++ after := (skip_skip cs).trans found
      have some := spellable.written.incoming phi mem
      have read := Phi.reads ends word some (spellable.incoming phi mem) new skipped
      have later : Block.Spellable ⟨name, (before ++ [phi]) ++ more, stmts⟩ := by simpa using spellable
      have freshLater : ((defined ++ [phi.name]) ++ (more.map (·.name) ++ stmts.filterMap (·.result))).Nodup := by
        simpa using fresh
      have enoughLater : more.length + stmts.length ≤ fuel := by
        rw [List.length_cons] at enough
        omega
      obtain ⟨last, others, at_⟩ :=
        ih (before ++ [phi]) later (next.congr (skip_skipInLine after)) freshLater enoughLater
      refine ⟨last, .get (.set ?_), at_⟩
      have inside : blockEnds (skip cs) = false := by
        rw [found]
        exact blockEnds_value _
      rw [inside, Phi.ahead word skipped]
      exact read.bind (by simpa using others)

theorem IsWord.isLine (word : IsWord name) (rest : List Char) : IsLine (name.toList ++ rest) := by
  obtain ⟨c, letters, chars, starts, continues⟩ := word
  have solid := isSolid_of_continuesName (continues c (by simp [chars]))
  refine ⟨c, letters ++ rest, by rw [chars, List.cons_append], solid, ?_⟩
  exact ⟨ne_of_startsName starts (by decide), ne_of_startsName starts (by decide)⟩

theorem isLine_value (rest : List Char) : IsLine ('%' :: rest) :=
  ⟨'%', rest, rfl, ⟨by decide, by decide⟩, by decide, by decide⟩

theorem Statement.isLine (stmt : Statement String String) : IsLine stmt.line := by
  obtain ⟨result, instr⟩ := stmt
  cases result with
  | none => exact (isWord_opName (op_mem_written instr)).1.isLine _
  | some => exact isLine_value _

theorem Block.isLine_itemLines (block : NamedBlock) : ∀ line ∈ block.itemLines, IsLine line := by
  intro line mem
  rcases List.mem_append.1 mem with inPhis | inStmts
  · obtain ⟨phi, -, rfl⟩ := List.mem_map.1 inPhis
    exact isLine_value _
  · obtain ⟨stmt, -, rfl⟩ := List.mem_map.1 inStmts
    exact stmt.isLine

theorem Block.reads (spellable : block.Spellable) (closes : Closes lines)
    (at_ : At (block.lines ++ lines) cs) (new : block.name ∉ blocks.map (·.name))
    (fresh : (defined ++ block.names).Nodup) :
    ∃ rest, (readBlock blocks defined).Reads cs (block, defined ++ block.names) rest ∧ At lines rest := by
  obtain ⟨after, found, ends, next⟩ := at_
  have word := spellable.written.name
  have long := At.length_le (fun line mem => (block.isLine_itemLines line mem).ne_nil) next
  have enough : block.phis.length + block.stmts.length ≤ after.length := by simpa [Block.itemLines] using long
  obtain ⟨name, phis, stmts⟩ := block
  have items : At (phis.map (·.line) ++ (stmts.map (·.line) ++ lines)) after := by
    rw [← List.append_assoc]
    exact next
  obtain ⟨rest, read, left⟩ := readBlockItems_reads [] spellable closes items fresh enough
  refine ⟨rest, ?_, left⟩
  rw [List.append_assoc] at found
  refine (readName_reads word found (endsName_mark (by decide))).bind ((expect_reads rfl).bind ?_)
  rw [if_neg (by simpa using new)]
  exact read

theorem closes_blocks (words : ∀ block ∈ blocks, IsWord block.name)
    (lines : List (List Char)) : Closes (blocks.flatMap (·.lines) ++ ['\x7d'] :: lines) := by
  cases blocks with
  | nil => exact ⟨_, lines, rfl, .inl rfl⟩
  | cons block => exact ⟨_, _, rfl, .inr ⟨block.name, words block (.head _), rfl⟩⟩

theorem readBlocks_reads (function : String) (before : List NamedBlock) {more : List NamedBlock}
    (spellable : ∀ block ∈ more, block.Spellable) (blockNames : ((before ++ more).map (·.name)).Nodup)
    (at_ : At (more.flatMap (·.lines) ++ ['\x7d'] :: lines) cs) (fresh : (defined ++ more.flatMap (·.names)).Nodup)
    (enough : more.length ≤ fuel) :
    ∃ rest, (readBlocks function (fuel + 1) before defined).Reads cs (before ++ more) rest ∧ At lines rest := by
  induction more generalizing before cs defined fuel with
  | nil =>
    obtain ⟨after, found, -, next⟩ := at_
    refine ⟨after, (tryChar_reads found).bind ?_, next⟩
    simpa using Reads.pure
  | cons block more ih =>
    cases fuel with
    | zero => simp at enough
    | succ =>
      have later : ∀ block ∈ more, block.Spellable := fun block mem =>
        spellable block (.tail _ mem)
      have first := spellable block (.head _)
      rw [List.flatMap_cons, List.append_assoc] at at_
      rw [List.flatMap_cons, ← List.append_assoc] at fresh
      have new : block.name ∉ before.map (·.name) := by
        rw [List.map_append] at blockNames
        exact fun given => List.disjoint_of_nodup_append blockNames given (by simp)
      have closes := closes_blocks (fun block mem => (later block mem).written.name) lines
      obtain ⟨rest, read, next⟩ :=
        Block.reads first closes (at_.congr (skip_skip cs)) new (List.nodup_append.1 fresh).1
      obtain ⟨last, others, left⟩ := ih (before ++ [block]) later (by simpa using blockNames) next fresh
        (Nat.le_of_succ_le_succ enough)
      refine ⟨last, ?_, left⟩
      obtain ⟨after, found, -, -⟩ := at_
      obtain ⟨c, letters, chars, starts, -⟩ := first.written.name
      have letter : c ≠ '\x7d' := ne_of_startsName starts (by decide)
      rw [chars, List.cons_append, List.cons_append] at found
      rw [found] at read
      refine (tryChar_reads_other found letter).bind (.get ?_)
      exact read.bind (by simpa using others)

/-! ## Functions -/

structure FunctionOf.Spellable (f : FunctionOf String String) : Prop where
  name : IsWord f.name
  nonempty : f.blocks ≠ []
  args : ∀ arg ∈ f.args, IsWord arg
  blocks : ∀ block ∈ f.blocks, block.Spellable
  names : (f.args ++ f.blocks.flatMap (·.names)).Nodup
  blockNames : (f.blocks.map (·.name)).Nodup

theorem readArgs_more {arg : String} (words : ∀ name ∈ arg :: args, IsWord name)
    {before : List String} (fresh : (before ++ arg :: args).Nodup) {cs rest : List Char}
    (found : skip cs = listText ((arg :: args).map valueText) ++ ')' :: rest) (enough :
    args.length ≤ fuel) : (readArgs (fuel + 2) before).Reads cs (before ++ arg :: args) rest := by
  have word := words arg (.head _)
  have new : arg ∉ before := fun given => List.disjoint_of_nodup_append fresh given (.head _)
  induction args generalizing arg before cs fuel with
  | nil =>
    simp only [List.map_cons, List.map_nil, listText, moreText_nil, List.append_nil, valueText,
      List.cons_append] at found
    refine (tryChar_reads_other found (by decide)).bind ?_
    refine (readValueName_reads word rfl (endsName_mark (by decide))).bind ((define_reads new _).bind ?_)
    refine (tryChar_reads_other (c := ',') rfl (by decide)).bind (.get ?_)
    exact (tryChar_reads rfl).bind .pure
  | cons next args ih =>
    cases fuel with
    | zero => simp at enough
    | succ =>
      have later : ∀ name ∈ next :: args, IsWord name := fun name mem =>
        words name (.tail _ mem)
      have freshLater : ((before ++ [arg]) ++ next :: args).Nodup := by simpa using fresh
      have newLater : next ∉ before ++ [arg] := fun given =>
        List.disjoint_of_nodup_append freshLater given (.head _)
      simp only [List.map_cons, listText, moreText_cons, valueText, List.cons_append, List.append_assoc] at found
      refine (tryChar_reads_other found (by decide)).bind ?_
      refine (readValueName_reads word rfl (endsName_mark (by decide))).bind ((define_reads new _).bind ?_)
      refine (tryChar_reads rfl).bind ?_
      have foundLater : skip (' ' :: '%' :: (next.toList ++ (moreText (args.map valueText) ++ ')' :: rest))) =
          listText ((next :: args).map valueText) ++ ')' :: rest := by
        simp only [List.map_cons, listText, valueText, List.cons_append, List.append_assoc]
        rfl
      have others := ih later freshLater foundLater (Nat.le_of_succ_le_succ enough) (later next (.head _)) newLater
      simpa using others

theorem readArgs_reads (words : ∀ name ∈ args, IsWord name) (fresh : args.Nodup)
    (rest : List Char) :
    (bounded fun fuel => readArgs fuel []).Reads (listText (args.map valueText) ++ ')' :: rest) args rest := by
  refine .bounded ?_
  cases args with
  | nil => exact (tryChar_reads rfl).bind .pure
  | cons arg args =>
    have long := length_le_moreText (args.map valueText)
    obtain ⟨fuel, length, enough⟩ : ∃ fuel,
        (listText ((arg :: args).map valueText) ++ ')' :: rest).length + 1 = fuel + 2 ∧ args.length ≤ fuel := by
      simp only [List.map_cons, listText, valueText, List.length_append, List.length_cons, List.length_map] at long ⊢
      exact ⟨arg.toList.length + 1 + (moreText (args.map valueText)).length + rest.length, by omega, by omega⟩
    have word := words arg (.head _)
    have found : skip (listText ((arg :: args).map valueText) ++ ')' :: rest) = _ := rfl
    rw [length]
    exact readArgs_more words fresh found enough

theorem FunctionOf.Written.idxOf_valueName (written : f.Written) {v : Nat} (named : f.IsNamed v name) :
    (f.values.map (·.name?)).idxOf (some (f.valueName v)) = v := by
  rw [named.valueName_eq]
  obtain ⟨value, found, named⟩ := named
  have known : some name ∈ f.values.map (·.name?) :=
    List.mem_map.2 ⟨value, List.mem_of_getElem? found, named⟩
  have first := List.getElem?_idxOf known
  rw [List.getElem?_map, Option.map_eq_some_iff] at first
  obtain ⟨value', found', named'⟩ := first
  exact FunctionOf.index_eq_of_filterMap_nodup written.names found' found named' named

theorem FunctionOf.blockName_eq {b : Nat} (inside : b < f.blocks.length) :
    f.blocks[b]?.map (·.name) = some (f.blockName b) := by
  simp [blockName, inside]

theorem FunctionOf.Written.idxOf_blockName (written : f.Written) {b : Nat}
    (inside : b < f.blocks.length) : (f.blocks.map (·.name)).idxOf (f.blockName b) = b := by
  have named := FunctionOf.blockName_eq inside
  rw [← List.getElem?_map] at named
  obtain ⟨bound, same⟩ := List.getElem?_eq_some_iff.1 named
  rw [← same]
  exact written.blockNames.idxOf_getElem b bound

/-! ## References there and back -/

section References

variable {V B V' B' : Type} {f : V → V'} {g : B → B'} {f' : V' → V} {g' : B' → B}

theorem map_map_eq_self {α β : Type} {h : α → β} {h' : β → α} {as : List α} (back : ∀ a ∈ as, h' (h a) = a) :
    (as.map h).map h' = as := by
  rw [List.map_map]
  exact (List.map_congr_left back).trans (List.map_id as)

theorem map_map_instr {instr : Instr V B} (reads : ∀ v ∈ instr.reads, f' (f v) = v)
    (targets : ∀ b ∈ instr.targets, g' (g b) = b) : (instr.map f g).map f' g' = instr := by
  cases instr with
  | any => exact congrArg Instr.any (map_map_eq_self reads)
  | call callee => exact congrArg (Instr.call callee) (map_map_eq_self reads)
  | ret result => cases result <;> simp_all [Instr.map, Instr.reads]
  | multiif cond target arms otherwise =>
    have pairs : ∀ arm ∈ arms, (f' (f arm.1), g' (g arm.2)) = arm := fun arm mem =>
      Prod.ext (reads arm.1 (.tail _ (List.mem_map_of_mem mem)))
        (targets arm.2 (List.mem_append_left _ (.tail _ (List.mem_map_of_mem mem))))
    have first := reads cond (.head _)
    have block := targets target (List.mem_append_left _ (.head _))
    have last : (otherwise.map g).map g' = otherwise := by
      cases otherwise with
      | none => rfl
      | some b => simpa using targets b (List.mem_append_right _ (by simp))
    have rest : (arms.map fun arm => (f arm.1, g arm.2)).map (fun arm => (f' arm.1, g' arm.2)) = arms :=
      map_map_eq_self pairs
    simp only [Instr.map, first, block, last]
    exact congrArg (Instr.multiif cond target · otherwise) rest
  | switch selector arms =>
    have pairs : ∀ arm ∈ arms, (arm.1, g' (g arm.2)) = arm := fun arm mem =>
      Prod.ext rfl (targets arm.2 (List.mem_map_of_mem mem))
    have rest : (arms.map fun arm => (arm.1, g arm.2)).map (fun arm => (arm.1, g' arm.2)) = arms :=
      map_map_eq_self pairs
    simp only [Instr.map, reads selector (.head _)]
    exact congrArg (Instr.switch selector) rest
  | _ => simp_all [Instr.map, Instr.reads, Instr.targets]

theorem map_map_block {block : Block V B} (reads : ∀ value ∈ block.values, ∀ v ∈ value.reads, f' (f v) = v)
    (targets : ∀ value ∈ block.values, ∀ b ∈ value.targets, g' (g b) = b) : (block.map f g).map f' g' = block := by
  obtain ⟨name, phis, stmts⟩ := block
  have phiBack : ∀ phi ∈ phis, (phi.map f g).map f' g' = phi := by
    intro phi mem
    have listed : Value.phi phi ∈ Block.values ⟨name, phis, stmts⟩ :=
      List.mem_append_left _ (List.mem_map_of_mem mem)
    have pairs : ∀ pair ∈ phi.incoming, (g' (g pair.1), f' (f pair.2)) = pair := fun pair inPhi =>
      Prod.ext (targets _ listed pair.1 (List.mem_map_of_mem inPhi)) (reads _ listed pair.2 (List.mem_map_of_mem inPhi))
    have incoming : (phi.incoming.map fun pair => (g pair.1, f pair.2)).map (fun pair => (g' pair.1, f' pair.2)) =
        phi.incoming :=
      map_map_eq_self pairs
    exact congrArg (Phi.mk phi.name phi.isVirtual) incoming
  have stmtBack : ∀ stmt ∈ stmts, Statement.mk stmt.result ((stmt.instr.map f g).map f' g') = stmt := by
    intro stmt mem
    have listed : Value.statement stmt ∈ Block.values ⟨name, phis, stmts⟩ :=
      List.mem_append_right _ (List.mem_map_of_mem mem)
    rw [map_map_instr (reads _ listed) (targets _ listed)]
  have phisBack : (phis.map (·.map f g)).map (·.map f' g') = phis := map_map_eq_self phiBack
  have stmtsBack : (stmts.map fun stmt => Statement.mk stmt.result (stmt.instr.map f g)).map
      (fun stmt => Statement.mk stmt.result (stmt.instr.map f' g')) = stmts := map_map_eq_self stmtBack
  exact congrArg₂ (Block.mk name) phisBack stmtsBack

end References

namespace FunctionOf

variable {f : Function}

theorem values_named (f : Function) : f.named.values = f.values.map (·.map f.valueName f.blockName) :=
  FunctionOf.values_map f.valueName f.blockName f.name f.args f.blocks

theorem mem_values_of_mem_block {block : Block Nat Nat} (listed : block ∈ f.blocks) {value : Value Nat Nat}
    (mem : value ∈ block.values) : value ∈ f.values :=
  List.mem_append_right _ (List.mem_flatMap.2 ⟨block, listed, mem⟩)

section

variable (written : f.Written)
include written

variable {value : Value Nat Nat}

theorem Written.isNamed (mem : value ∈ f.values) {v : Nat} (read : v ∈ value.reads) :
    f.IsNamed v (f.valueName v) := by
  obtain ⟨source, name, found, named⟩ := written.reads value mem v read
  have isNamed : f.IsNamed v name := ⟨source, found, named⟩
  rwa [isNamed.valueName_eq]

theorem Written.resolve_named : resolve f.named = .ok f := by
  have names : f.named.values.map (·.name?) = f.values.map (·.name?) := by
    simp [values_named, Function.comp_def]
  have blockNames : f.named.blocks.map (·.name) = f.blocks.map (·.name) := by
    simp [named, Block.map, Function.comp_def]
  have reads : (f.named.values.flatMap (·.reads)).find? (fun name => some name ∉ f.values.map (·.name?)) = none := by
    rw [List.find?_eq_none]
    intro name mem
    simp only [values_named, List.flatMap_map, Value.reads_map, List.mem_flatMap, List.mem_map] at mem
    obtain ⟨value, listed, v, read, rfl⟩ := mem
    obtain ⟨source, found, named⟩ := written.isNamed listed read
    simpa using ⟨source, List.mem_of_getElem? found, named⟩
  have targets : (f.named.values.flatMap (·.targets)).find? (· ∉ f.blocks.map (·.name)) = none := by
    rw [List.find?_eq_none]
    intro name mem
    simp only [values_named, List.flatMap_map, Value.targets_map, List.mem_flatMap, List.mem_map] at mem
    obtain ⟨value, listed, b, target, rfl⟩ := mem
    have named := blockName_eq (written.targets value listed b target)
    rw [← List.getElem?_map] at named
    simpa using List.mem_of_getElem? named
  simp only [resolve, names, blockNames, reads, targets]
  have blocks : f.named.blocks.map (·.map (fun name => (f.values.map (·.name?)).idxOf (some name))
      (f.blocks.map (·.name)).idxOf) = f.blocks := by
    refine map_map_eq_self fun block listed => map_map_block ?_ ?_
    · intro value mem v read
      exact written.idxOf_valueName (written.isNamed (mem_values_of_mem_block listed mem) read)
    · intro value mem b target
      exact written.idxOf_blockName (written.targets value (mem_values_of_mem_block listed mem) b target)
  rw [blocks]
  rfl

theorem Written.isWord_valueName (mem : value ∈ f.values) {v : Nat} (read : v ∈ value.reads) :
    IsWord (f.valueName v) := by
  obtain ⟨source, found, named⟩ := written.isNamed mem read
  exact written.toShaped.isWord_name (List.mem_of_getElem? found) named

theorem Written.isWord_blockName (mem : value ∈ f.values) {b : Nat}
    (target : b ∈ value.targets) : IsWord (f.blockName b) := by
  have named := blockName_eq (written.targets value mem b target)
  obtain ⟨block, found, same⟩ := Option.map_eq_some_iff.1 named
  rw [← same]
  exact (written.written block (List.mem_of_getElem? found)).name

theorem Written.spellable_block {block : Block Nat Nat} (listed : block ∈ f.blocks) :
    (block.map f.valueName f.blockName).Spellable where
  shaped := (written.blocks block listed).map _ _
  labelled := (written.labelled block listed).map _ _
  written := (written.written block listed).map _ _
  incoming := by
    intro renamed mem pair inPhi
    obtain ⟨phi, listedPhi, rfl⟩ := List.mem_map.1 mem
    obtain ⟨pair, listedPair, rfl⟩ := List.mem_map.1 inPhi
    have value := mem_values_of_mem_block listed (List.mem_append_left _ (List.mem_map_of_mem listedPhi))
    exact ⟨written.isWord_blockName value (List.mem_map_of_mem listedPair),
      written.isWord_valueName value (List.mem_map_of_mem listedPair)⟩
  stmts := by
    intro renamed mem
    obtain ⟨stmt, listedStmt, rfl⟩ := List.mem_map.1 mem
    have value := mem_values_of_mem_block listed (List.mem_append_right _ (List.mem_map_of_mem listedStmt))
    have shaped := ((written.blocks block listed).stmts stmt listedStmt).map f.valueName f.blockName
    have isWritten := ((written.labelled block listed).written stmt listedStmt).map f.valueName f.blockName
    refine ⟨?_, ?_, shaped.callee, isWritten, ?_⟩
    · intro name renamed
      rw [Instr.reads_map] at renamed
      obtain ⟨v, read, rfl⟩ := List.mem_map.1 renamed
      exact written.isWord_valueName value read
    · intro name renamed
      rw [Instr.targets_map] at renamed
      obtain ⟨b, target, rfl⟩ := List.mem_map.1 renamed
      exact written.isWord_blockName value target
    · simpa using (written.written block listed).numbers stmt listedStmt

end

theorem filterMap_values (f : FunctionOf String String) :
    f.values.filterMap (·.name?) = f.args ++ f.blocks.flatMap (·.names) := by
  have args : (f.args.map (Value.argument (V := String) (B := String))).filterMap (·.name?) = f.args := by
    simp [List.filterMap_map, Value.name?]
  have block (block : NamedBlock) : block.values.filterMap (·.name?) = block.names := by
    simp [Block.values, Block.names, List.filterMap_map, Value.name?]
  simp only [values, List.filterMap_append, args, List.filterMap_flatMap, block]

theorem Written.spellable (written : f.Written) : f.named.Spellable where
  name := written.name
  nonempty := by simpa [named] using written.nonempty
  args := written.args
  blocks := by
    intro renamed mem
    obtain ⟨block, listed, rfl⟩ := List.mem_map.1 mem
    exact written.spellable_block listed
  names := by
    rw [← filterMap_values, values_named]
    simpa [List.filterMap_map, Function.comp_def] using written.names
  blockNames := by simpa [named, Block.map, Function.comp_def] using written.blockNames

end FunctionOf

/-! ## Programs -/

theorem length_le_flatMap_lines (blocks : List NamedBlock) : blocks.length ≤ (blocks.flatMap (·.lines)).length := by
  induction blocks with
  | nil => simp
  | cons block =>
    have some : 0 < block.lines.length := by simp [Block.lines]
    simp only [List.flatMap_cons, List.length_cons, List.length_append]
    omega

theorem Block.isLine_lines {block : NamedBlock} (word : IsWord block.name) : ∀ line ∈ block.lines, IsLine line := by
  intro line mem
  rcases List.mem_cons.1 mem with rfl | inItems
  · exact word.isLine _
  · exact block.isLine_itemLines line inItems

theorem FunctionOf.Spellable.isLine_lines {f : FunctionOf String String} (spellable : f.Spellable) :
    ∀ line ∈ f.lines, IsLine line := by
  intro line mem
  rcases List.mem_cons.1 mem with rfl | inBody
  · exact spellable.name.isLine _
  · rcases List.mem_append.1 inBody with inBlocks | last
    · obtain ⟨block, listed, inBlock⟩ := List.mem_flatMap.1 inBlocks
      exact Block.isLine_lines (spellable.blocks block listed).written.name line inBlock
    · obtain rfl := List.mem_singleton.1 last
      exact ⟨_, [], rfl, ⟨by decide, by decide⟩, by decide, by decide⟩

theorem FunctionOf.Written.readsBack {f : Function} (written : f.Written) (at_ : At (f.named.lines ++ lines) cs)
    {functions : List Function} (new : f.name ∉ functions.map (·.name)) :
    ∃ rest, (readFunction functions).Reads cs f rest ∧ At lines rest := by
  have spellable := written.spellable
  obtain ⟨after, found, -, body⟩ := at_
  have blocksAt : At (f.named.blocks.flatMap (·.lines) ++ ['\x7d'] :: lines) after := by
    change At ((f.named.blocks.flatMap (·.lines) ++ [['\x7d']]) ++ lines) after at body
    rwa [List.append_assoc] at body
  have nonempty : ∀ line ∈ f.named.blocks.flatMap (·.lines), line ≠ [] := fun line mem =>
    (spellable.isLine_lines line (.tail _ (List.mem_append_left _ mem))).ne_nil
  have enough := (length_le_flatMap_lines f.named.blocks).trans (At.length_le nonempty blocksAt)
  obtain ⟨rest, read, left⟩ :=
    readBlocks_reads f.name [] spellable.blocks spellable.blockNames blocksAt spellable.names enough
  refine ⟨rest, ?_, left⟩
  simp only [FunctionOf.header, List.append_assoc, List.cons_append, List.nil_append] at found
  refine (readName_reads written.name found (endsName_mark (by decide))).bind ?_
  rw [if_neg (by simpa using new)]
  refine (expect_reads rfl).bind ?_
  refine (readArgs_reads spellable.args (List.nodup_append.1 spellable.names).1 _).bind ((expect_reads rfl).bind ?_)
  refine Reads.bind (.bounded read) ?_
  rw [if_neg (by simpa using spellable.nonempty)]
  have resolved : resolve ⟨f.name, f.named.args, [] ++ f.named.blocks⟩ = .ok f := written.resolve_named
  rw [resolved]
  exact .pure

theorem readFunctions_reads (before : List Function) {more : List Function} (written : Written ⟨before ++ more⟩)
    (at_ : At (more.flatMap (·.named.lines)) cs) (enough : more.length ≤ fuel) :
    ∃ rest, (readFunctions (fuel + 1) before).Reads cs (before ++ more) rest := by
  induction more generalizing before cs fuel with
  | nil =>
    have done : skip cs = [] := at_
    refine ⟨skip cs, .get (.set ?_)⟩
    rw [if_pos (by simp [done])]
    simpa using Reads.pure
  | cons f more ih =>
    cases fuel with
    | zero => simp at enough
    | succ =>
      have new : f.name ∉ before.map (·.name) := by
        have names := written.names
        rw [List.map_append] at names
        exact fun given => List.disjoint_of_nodup_append names given (by simp)
      have first := written.functions f (by simp)
      rw [List.flatMap_cons] at at_
      obtain ⟨rest, read, left⟩ := first.readsBack (at_.congr (skip_skip cs)) new
      obtain ⟨last, others⟩ := ih (before ++ [f]) (by simpa using written) left (Nat.le_of_succ_le_succ enough)
      refine ⟨last, .get (.set ?_)⟩
      obtain ⟨after, found, -, -⟩ := at_
      have some : (skip cs).isEmpty = false := by
        have head : f.named.header ≠ [] := (first.name.isLine _).ne_nil
        simp [found, head]
      rw [some]
      exact read.bind (by simpa using others)

theorem Written.isLine_lines {program : Program} (written : program.Written) : ∀ line ∈ program.lines, IsLine line := by
  intro line mem
  obtain ⟨f, listed, inFunction⟩ := List.mem_flatMap.1 mem
  exact (written.functions f listed).spellable.isLine_lines line inFunction

theorem length_le_lines (program : Program) : program.functions.length ≤ program.lines.length := by
  obtain ⟨functions⟩ := program
  rw [lines]
  induction functions with
  | nil => simp
  | cons _ _ ih =>
    simp only [List.flatMap_cons, List.length_cons, List.length_append, FunctionOf.lines] at ih ⊢
    omega

/-- Reading undoes writing. A program that is read can be written in lines, and every text that holds these lines, with
any blanks, blank lines and comments before, between and after them, is read as the same program. -/
theorem parse_isSpelling {text : String} {program : Program} (parsed : parse text = .ok program) :
    program.IsSpelling program.plainText ∧ ∀ spelled, program.IsSpelling spelled → parse spelled = .ok program := by
  refine ⟨isSpelling_plainText program, ?_⟩
  rintro spelled ⟨gap, rest, isGap, spread, chars⟩
  have written := parse_written parsed
  have at_ : At program.lines spelled.toList := by
    rw [chars]
    exact Spread.at_ written.isLine_lines isGap spread
  have long : program.lines.length ≤ spelled.toList.length := by
    have whole : At (program.lines ++ []) spelled.toList := by rwa [List.append_nil]
    exact At.length_le (fun line mem => (written.isLine_lines line mem).ne_nil) whole
  obtain ⟨left, read⟩ := readFunctions_reads [] written at_ ((length_le_lines program).trans long)
  have ran : (bounded fun fuel => readFunctions fuel []).run spelled.toList = .ok (program.functions, left) := read
  rw [parse, ran]

def keywords : Program where
  functions :=
    [ { name := "ret", args := ["any"]
        blocks :=
          [⟨"phi", [], [⟨some "vphi", .any []⟩, ⟨none, .br 1⟩]⟩,
           ⟨"ret", [⟨"x", false, [(0, 1)]⟩],
              [⟨none, .label "asm"⟩, ⟨some "c", .const (-7)⟩, ⟨none, .ret none⟩]⟩] } ]

theorem parse_keywords : ∃ text, parse text = .ok keywords :=
  ⟨_, parse_join
    ["ret(%any)\x7bphi: %vphi =\n", "br ^ret ret:\n", "%x = phi [^phi, %vphi] label asm\n", "%c = const -0x7 ret\n\x7d"]
    (by decide)⟩

def remarkedKeywords : String :=
  String.join [";phi\n\n\t", "ret(%any) \x7b;phi\n\n\t", "phi:;phi\n\n\t", "%vphi = any;phi\n\n\t", "br ^ret;phi\n\n\t",
      "ret:;phi\n\n\t", "%x = phi [^phi, %vphi];phi\n\n\t", "label asm;phi\n\n\t", "%c = const -7;phi\n\n\t",
      "ret;phi\n\n\t", "\x7d;phi\n\n\t", ";end"]

theorem remarkedKeywords_read : keywords.IsSpelling remarkedKeywords ∧ parse remarkedKeywords = .ok keywords := by
  obtain ⟨text, parsed⟩ := parse_keywords
  have line : '\n' ∉ ['p', 'h', 'i'] := by decide
  have isGap : Gap ";phi\n\n\t".toList := .comment line (.blank (by decide) (.blank (by decide) .nil))
  have isTail : Tail ";end".toList := .inr ⟨[], ['e', 'n', 'd'], .nil, by decide, rfl⟩
  have spelling : keywords.IsSpelling remarkedKeywords := by
    refine ⟨_, _, isGap, spread_flatMap isGap (by decide) isTail keywords.lines, ?_⟩
    rw [remarkedKeywords, String.toList_join]
    decide +kernel
  exact ⟨spelling, (parse_isSpelling parsed).2 remarkedKeywords spelling⟩

end Reflow.Program
