import Mathlib.Data.List.Basic
import MutationRules.Configuration.Basic
import MutationRules.Proofs.RuleName.Codec
import MutationRules.Proofs.Text.Pieces
import MutationRules.Proofs.Traversal

/-!
# Reading configuration lines

A line is read by its own separators: behind the key and the arrow, entries end in
semicolons, and the first comma with a blank behind it divides the name of a rule from
its replacement. A line is read as the rules of its group exactly if no operand has a
semicolon in its text.
-/

namespace MutationRules

namespace Configuration

/-! ## The reader -/

/-- Ends an entry of a line. -/
def entryEnd : Char := ';'

/-- The text before the first comma with a blank behind it, and the text after them. -/
def splitRule? : List Char → Option (List Char × List Char)
  | ',' :: ' ' :: rest => some ([], rest)
  | c :: rest => (splitRule? rest).map fun parts => (c :: parts.1, parts.2)
  | [] => none

/-- Read an entry: a blank, the name of a rule and its replacement. -/
def readRule? : List Char → Option (List Char × List Char)
  | ' ' :: rest => splitRule? rest
  | _ => none

/-- Read entries, each with its end. -/
def readRules? (text : List Char) : Option (List (List Char × List Char)) :=
  if (text.splitOn entryEnd).getLast? = some [] then
    (text.splitOn entryEnd).dropLast.mapM readRule?
  else none

/-- Read the line of a key. -/
def readLine? (key : Expression) (line : List Char) : Option (List (List Char × List Char)) :=
  if (key.text ++ " -->").toList.isPrefixOf line then
    readRules? (line.drop (key.text ++ " -->").toList.length)
  else none

/-- Whether the line of a group is read as the names and replacements of its rules. -/
def IsReadable (group : RuleGroup) : Prop :=
  readLine? group.key (line group).toList =
    some (group.rules.map fun rule => (rule.name.toList, rule.replacement.text.toList))

instance (group : RuleGroup) : Decidable (IsReadable group) :=
  inferInstanceAs (Decidable (_ = _))

/-! ## Entries -/

/-- The characters of an entry but its end. -/
def entryText (rule : Rule) : List Char :=
  ' ' :: (rule.name.toList ++ ',' :: ' ' :: rule.replacement.text.toList)

theorem toList_entry (rule : Rule) : (entry rule).toList = entryText rule ++ [entryEnd] := by
  simp [entry, entryText, entryEnd]

/-- A split entry has the comma and the blank between its parts. -/
theorem eq_of_splitRule? {text name replacement : List Char}
    (h : splitRule? text = some (name, replacement)) :
    text = name ++ ',' :: ' ' :: replacement := by
  fun_induction splitRule? text generalizing name with
  | case1 rest =>
    obtain ⟨rfl, rfl⟩ : [] = name ∧ rest = replacement := by simpa using h
    rfl
  | case2 c rest _ ih =>
    obtain ⟨⟨n, r⟩, hrest, he⟩ := Option.map_eq_some_iff.1 h
    obtain ⟨rfl, rfl⟩ : c :: n = name ∧ r = replacement := by simpa using he
    rw [ih hrest, List.cons_append]
  | case3 => simp at h

/-- A name without a comma is split off. -/
theorem splitRule?_append {name replacement : List Char} (h : ',' ∉ name) :
    splitRule? (name ++ ',' :: ' ' :: replacement) = some (name, replacement) := by
  induction name with
  | nil => rfl
  | cons c rest ih =>
    have hc : ¬ c = ',' := fun he => h (he ▸ List.mem_cons_self ..)
    rw [List.cons_append, splitRule?, ih fun hm => h (List.mem_cons_of_mem _ hm)]
    · rfl
    · exact fun _ he => absurd he hc

/-- An entry is read as a rule whose name has no comma exactly if it is the entry of this rule. -/
theorem readRule?_eq_some_iff {rule : Rule} (h : ',' ∉ rule.name.toList) {text : List Char} :
    readRule? text = some (rule.name.toList, rule.replacement.text.toList) ↔
      text = entryText rule := by
  constructor
  · intro hread
    unfold readRule? at hread
    split at hread
    next rest => rw [eq_of_splitRule? hread, entryText]
    next => simp at hread
  · rintro rfl
    exact splitRule?_append h

/-- Entries are read as rules exactly if they are the entries of these rules. -/
theorem mapM_readRule?_eq_some_iff {rules : List Rule}
    (hnames : ∀ rule ∈ rules, ',' ∉ rule.name.toList) {pieces : List (List Char)} :
    pieces.mapM readRule? =
        some (rules.map fun rule => (rule.name.toList, rule.replacement.text.toList)) ↔
      pieces = rules.map entryText := by
  rw [mapM_eq_some_iff, List.forall₂_map_right_iff]
  induction rules generalizing pieces with
  | nil => simp
  | cons rule rest ih =>
    obtain ⟨hrule, hrest⟩ := List.forall_mem_cons.1 hnames
    rw [List.forall₂_cons_right_iff, List.map_cons]
    constructor
    · rintro ⟨piece, others, hpiece, hothers, rfl⟩
      rw [(readRule?_eq_some_iff hrule).1 hpiece, (ih hrest).1 hothers]
    · rintro rfl
      exact ⟨_, _, (readRule?_eq_some_iff hrule).2 rfl, (ih hrest).2 rfl, rfl⟩

/-! ## Lines -/

/-- A line is the key, the arrow and the entries with their ends. -/
theorem toList_line (group : RuleGroup) : (line group).toList =
    (group.key.text ++ " -->").toList ++
      group.rules.flatMap fun rule => entryText rule ++ [entryEnd] := by
  rw [line, String.toList_append, String.toList_join, List.flatMap_map]
  simp only [toList_entry]

/-- The line of a group is read entry by entry. -/
theorem isReadable_iff_splitOn {group : RuleGroup}
    (hnames : ∀ rule ∈ group.rules, ',' ∉ rule.name.toList) : IsReadable group ↔
      (group.rules.flatMap fun rule => entryText rule ++ [entryEnd]).splitOn entryEnd =
        group.rules.map entryText ++ [[]] := by
  rw [IsReadable, toList_line, readLine?, if_pos (by simp), List.drop_left, readRules?]
  generalize (group.rules.flatMap fun rule => entryText rule ++ [entryEnd]).splitOn entryEnd =
    pieces
  constructor
  · intro h
    split at h
    next hlast =>
      obtain ⟨entries, rfl⟩ := List.getLast?_eq_some_iff.1 hlast
      rw [List.dropLast_concat] at h
      rw [(mapM_readRule?_eq_some_iff hnames).1 h]
    next => simp at h
  · rintro rfl
    rw [if_pos List.getLast?_concat, List.dropLast_concat]
    exact (mapM_readRule?_eq_some_iff hnames).2 rfl

/-- Entries with their ends are divided into the entries if none has an end inside. -/
theorem splitOn_entries_iff {rules : List Rule} :
    (rules.flatMap fun rule => entryText rule ++ [entryEnd]).splitOn entryEnd =
        rules.map entryText ++ [[]] ↔ ∀ rule ∈ rules, entryEnd ∉ entryText rule := by
  have hpieces : ((rules.map entryText).flatMap fun piece => piece ++ [entryEnd]).splitOn entryEnd =
      rules.map entryText ++ [[]] ↔ ∀ piece ∈ rules.map entryText, entryEnd ∉ piece :=
    Text.splitOn_flatMap_concat_iff
  rwa [List.flatMap_map, List.forall_mem_map] at hpieces

/-! ## Lines of rules with their names -/

/-- A name keeps a character that is neither blank nor punctuation. -/
theorem mem_encodeSide {text : List Char} : entryEnd ∈ RuleName.encodeSide text ↔
    entryEnd ∈ text := by
  rw [RuleName.encodeSide, List.mem_map]
  constructor
  · rintro ⟨c, hc, he⟩
    split at he
    · exact absurd he (by decide)
    · exact he ▸ (List.mem_filter.1 hc).1
  · intro h
    exact ⟨entryEnd, List.mem_filter.2 ⟨h, by decide⟩, if_neg (by decide)⟩

/-- A name has no comma. -/
theorem comma_not_mem_encode (b : Binding) : ',' ∉ (RuleName.encode b).toList :=
  fun hc => (RuleName.of_mem_encode hc).2 (by decide)

/-- The text of an operand ends an entry if its kind does. -/
theorem mem_operand_text {o : Operand} : entryEnd ∈ o.text.toList ↔
    entryEnd ∈ o.kind.token.toList := by
  obtain ⟨kind, slot?⟩ := o
  cases slot? with
  | none => rfl
  | some slot =>
    rw [Operand.text, String.toList_append, List.mem_append, Nat.toList_repr]
    refine or_iff_left fun h => ?_
    exact absurd (Nat.isDigit_of_mem_toDigits (by decide) (by decide) h) (by decide)

/-- The text of an expression ends an entry if an operand does. -/
theorem mem_expression_text {e : Expression} : entryEnd ∈ e.text.toList ↔
    ∃ o ∈ e.operands, entryEnd ∈ o.kind.token.toList := by
  have htoken : entryEnd ∉ e.operator.token.toList := by cases e.operator <;> decide
  simp only [Expression.mem_text_iff (by decide) htoken, mem_operand_text]

/-- The line of a group whose rules have their names is read as these rules exactly if no kind of
an operand holds the end of an entry. -/
theorem isReadable_iff {group : RuleGroup}
    (hnames : ∀ rule ∈ group.rules, rule.name = RuleName.encode ⟨group.key, rule.replacement⟩) :
    IsReadable group ↔ ∀ rule ∈ group.rules,
      ∀ o ∈ group.key.operands ++ rule.replacement.operands, entryEnd ∉ o.kind.token.toList := by
  have hcommas : ∀ rule ∈ group.rules, ',' ∉ rule.name.toList := fun rule hr =>
    hnames rule hr ▸ comma_not_mem_encode _
  rw [isReadable_iff_splitOn hcommas, splitOn_entries_iff]
  refine forall₂_congr fun rule hr => ?_
  have hentry : entryEnd ∈ entryText rule ↔
      entryEnd ∈ group.key.text.toList ∨ entryEnd ∈ rule.replacement.text.toList := by
    have hblank : ¬ entryEnd = ' ' := by decide
    have hcomma : ¬ entryEnd = ',' := by decide
    have hmark : ¬ entryEnd = RuleName.sideSeparator := by decide
    rw [entryText, hnames rule hr, RuleName.encode, String.toList_ofList]
    simp [hblank, hcomma, hmark, mem_encodeSide]
  rw [hentry, mem_expression_text, mem_expression_text]
  simp only [List.mem_append, not_or, not_exists, not_and, or_imp, forall_and]

end Configuration

end MutationRules
