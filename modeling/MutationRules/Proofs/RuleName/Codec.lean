import MutationRules.RuleName.Decode
import MutationRules.Settings.Basic

/-!
# Writing and reading rule names

A plain text is one that a name can carry as an operand: it is not empty and has
neither blanks nor structural characters. An expression with plain operands is
spelled as its mnemonic and its operands, a separator before each of them and one
more behind the last, and this spelling is read back piece by piece. The name of
a binding therefore determines its operators and its operand texts.
-/

namespace MutationRules

open Text (isBlank unspaced)

/-! ## Plain texts -/

/-- Neither a blank nor a character with a meaning in expressions and names. -/
def IsPlainChar (c : Char) : Prop := isBlank c = false ∧ c ∉ structuralChars

instance (c : Char) : Decidable (IsPlainChar c) := inferInstanceAs (Decidable (_ ∧ _))

/-- A text that can stand as an operand in a rule name. -/
def IsPlain (text : String) : Prop := text ≠ "" ∧ ∀ c ∈ text.toList, IsPlainChar c

-- character by character of the text, not of all characters there are
instance (text : String) : Decidable (IsPlain text) :=
  have : Decidable (∀ c ∈ text.toList, IsPlainChar c) := List.decidableBAll IsPlainChar text.toList
  inferInstanceAs (Decidable (_ ∧ _))

/-- The admissible literals are the plain texts other than the tokens of categories. -/
theorem isAdmissible_iff {literal : String} :
    isAdmissible literal = true ↔
      IsPlain literal ∧ literal ∉ Kind.categories.map Kind.token := by
  simp only [isAdmissible, Bool.and_eq_true, bne_iff_ne, Bool.not_eq_true', List.all_eq_true,
    List.contains_eq_mem, decide_eq_false_iff_not, IsPlain, IsPlainChar]
  exact and_right_comm

/-- The mnemonic of every operator is plain. -/
theorem isPlain_token (op : Operator) : IsPlain op.token := by
  cases op <;> decide

/-- Texts that begin with a mnemonic begin with the same one if nothing plain follows it. -/
theorem Operator.eq_of_token_append_eq {op op' : Operator} {rest rest' : List Char}
    (hrest : ∀ c ∈ rest.head?, ¬ IsPlainChar c) (hrest' : ∀ c ∈ rest'.head?, ¬ IsPlainChar c)
    (h : op.token.toList ++ rest = op'.token.toList ++ rest') : op = op' ∧ rest = rest' := by
  -- the mnemonic is all that stands before the first character that is not plain
  have hplain : ∀ {op : Operator} {rest : List Char}, (∀ c ∈ rest.head?, ¬ IsPlainChar c) →
      (op.token.toList ++ rest).takeWhile (fun c => decide (IsPlainChar c)) =
        op.token.toList := by
    intro op rest hrest
    rw [List.takeWhile_append_of_pos fun c hc => decide_eq_true ((isPlain_token op).2 c hc)]
    cases rest with
    | nil => exact List.append_nil _
    | cons c rest =>
      rw [List.takeWhile_cons_of_neg (by simpa using hrest c rfl), List.append_nil]
  have htokens : op.token.toList = op'.token.toList := by
    rw [← hplain hrest, h, hplain hrest']
  obtain rfl := Operator.token_injective (String.toList_injective htokens)
  exact ⟨rfl, List.append_cancel_left h⟩

/-- The tokens of categories are plain. -/
theorem isPlain_of_mem_categories {kind : Kind} (h : kind ∈ Kind.categories) :
    IsPlain kind.token := by
  have hall : ∀ k ∈ Kind.categories, IsPlain k.token := by decide
  exact hall kind h

theorem isPlainChar_of_isDigit {c : Char} (h : c.isDigit = true) : IsPlainChar c := by
  have hc := Char.isDigit_iff_toNat.1 h
  simp only [show '0'.toNat = 48 from rfl, show '9'.toNat = 57 from rfl] at hc
  constructor
  · simp only [isBlank, Text.blankRanges, List.any_cons, List.any_nil, Bool.or_false,
      Bool.or_eq_false_iff, Bool.and_eq_false_iff, decide_eq_false_iff_not]
    omega
  · intro hm
    simp only [structuralChars, List.mem_cons, List.not_mem_nil, or_false] at hm
    rcases hm with rfl | rfl | rfl | rfl | rfl <;> simp at hc

/-- A slot number behind a plain text leaves it plain. -/
theorem IsPlain.append_repr {text : String} (h : IsPlain text) (n : Nat) :
    IsPlain (text ++ n.repr) := by
  constructor
  · intro he
    exact h.1 (String.append_eq_empty_iff.1 he).1
  · intro c hc
    rw [String.toList_append, List.mem_append, Nat.toList_repr] at hc
    rcases hc with hc | hc
    · exact h.2 c hc
    · exact isPlainChar_of_isDigit (Nat.isDigit_of_mem_toDigits (by decide) (by decide) hc)

/-- An operand of a plain kind has a plain text, whether or not it has a slot. -/
theorem Operand.isPlain_text {operand : Operand} (h : IsPlain operand.kind.token) :
    IsPlain operand.text := by
  obtain ⟨kind, slot?⟩ := operand
  cases slot? with
  | none => exact h
  | some slot => exact h.append_repr slot

namespace RuleName

/-! ## Writing -/

/-- Plain characters are kept when an expression is written in a name. -/
theorem encodeSide_of_plain {text : List Char} (h : ∀ c ∈ text, IsPlainChar c) :
    encodeSide text = text := by
  have hpunctuation : ∀ c ∈ punctuation, c ∈ structuralChars := by
    simp [punctuation, structuralChars]
  have hu : unspaced text = text := by
    rw [unspaced, List.filter_eq_self]
    intro c hc
    simp [(h c hc).1]
  rw [encodeSide, hu]
  calc text.map (fun c => if c ∈ punctuation then operandSeparator else c)
      = text.map id := List.map_congr_left fun c hc =>
          if_neg fun hp => (h c hc).2 (hpunctuation c hp)
    _ = text := List.map_id text

/-- A written side has no blanks and no punctuation. -/
theorem of_mem_encodeSide {text : List Char} {c : Char} (h : c ∈ encodeSide text) :
    isBlank c = false ∧ c ∉ punctuation := by
  obtain ⟨x, hx, rfl⟩ := List.mem_map.1 h
  split
  next => decide
  next hpunctuation => exact ⟨by simpa using (List.mem_filter.1 hx).2, hpunctuation⟩

/-- A name has no blanks and no punctuation. -/
theorem of_mem_encode {b : Binding} {c : Char} (h : c ∈ (encode b).toList) :
    isBlank c = false ∧ c ∉ punctuation := by
  rw [encode, String.toList_ofList, List.mem_append, List.mem_cons] at h
  rcases h with h | rfl | h
  · exact of_mem_encodeSide h
  · decide
  · exact of_mem_encodeSide h

/-- A name is read as it stands. -/
theorem unspaced_encode (b : Binding) : unspaced (encode b).toList = (encode b).toList := by
  rw [unspaced, List.filter_eq_self]
  intro c hc
  simp [(of_mem_encode hc).1]

/-- The comma and the blank between two plain texts become one separator. -/
theorem encodeSide_intercalate {texts : List (List Char)}
    (h : ∀ t ∈ texts, ∀ c ∈ t, IsPlainChar c) :
    encodeSide ([',', ' '].intercalate texts) = [operandSeparator].intercalate texts := by
  induction texts with
  | nil => rfl
  | cons t rest ih =>
    have ht := encodeSide_of_plain (h t (List.mem_cons_self ..))
    cases rest with
    | nil => simpa only [List.intercalate_singleton] using ht
    | cons u rest =>
      have hsep : encodeSide [',', ' '] = [operandSeparator] := by decide
      rw [List.intercalate_cons_cons, List.intercalate_cons_cons, encodeSide_append,
        encodeSide_append, ht, hsep, ih fun v hv => h v (List.mem_cons_of_mem _ hv)]

/-- A character that separators do not have is in a text with separators if it is in a part. -/
theorem mem_intercalate_iff {separator : List Char} {c : Char} (h : c ∉ separator)
    {parts : List (List Char)} : c ∈ separator.intercalate parts ↔ ∃ part ∈ parts, c ∈ part := by
  induction parts with
  | nil => simp
  | cons part rest ih =>
    cases rest with
    | nil => simp
    | cons next rest =>
      rw [List.intercalate_cons_cons, List.mem_append, List.mem_append, ih, or_iff_left h]
      simp

/-- A side as a name spells it: the mnemonic, then each operand after a separator, and one more
separator behind the last operand. -/
def Side.spelling (side : Side) : List Char :=
  match side.operands with
  | [] => side.operator.token.toList
  | operands =>
    side.operator.token.toList ++
      operandSeparator :: ([operandSeparator].intercalate (operands.map String.toList) ++
        [operandSeparator])

/-- Whether no operand of a side is empty or has a blank, a separator or a mark. -/
structure Side.IsReadable (side : Side) : Prop where
  /-- The operands are not empty. -/
  ne_empty : ∀ o ∈ side.operands, o ≠ ""
  /-- The operands have no blanks. -/
  unspaced : ∀ o ∈ side.operands, ∀ c ∈ o.toList, isBlank c = false
  /-- The operands have no separators. -/
  separated : ∀ o ∈ side.operands, operandSeparator ∉ o.toList
  /-- The operands have no marks. -/
  unmarked : ∀ o ∈ side.operands, sideSeparator ∉ o.toList

/-- Plain operands can be read. -/
theorem Side.isReadable_of_plain {side : Side} (h : ∀ o ∈ side.operands, IsPlain o) :
    side.IsReadable where
  ne_empty := fun o ho => (h o ho).1
  unspaced := fun o ho c hc => ((h o ho).2 c hc).1
  separated := fun o ho hm => ((h o ho).2 _ hm).2 (by decide)
  unmarked := fun o ho hm => ((h o ho).2 _ hm).2 (by decide)

/-- A name as it is spelled: its two sides with a mark between. -/
def spelling (n : RuleName) : String :=
  .ofList (n.matched.spelling ++ sideSeparator :: n.replacement.spelling)

end RuleName

/-- The operator of an expression with the texts of its operands. -/
def Expression.side (e : Expression) : RuleName.Side := ⟨e.operator, e.operands.map Operand.text⟩

/-- The characters of an expression with operands. -/
theorem Expression.toList_text_cons (op : Operator) (o : Operand) (rest : List Operand) :
    (text ⟨op, o :: rest⟩).toList = op.token.toList ++ (['('] ++
      ([',', ' '].intercalate ((o :: rest).map (String.toList ∘ Operand.text)) ++ [')'])) := by
  simp [text, String.toList_intercalate]

/-- The text of an expression depends on its operator and the texts of its operands. -/
theorem Expression.text_congr {e e' : Expression} (h : e.side = e'.side) : e.text = e'.text := by
  obtain ⟨op, operands⟩ := e
  obtain ⟨op', operands'⟩ := e'
  obtain ⟨rfl, htexts⟩ : op = op' ∧ operands.map Operand.text = operands'.map Operand.text := by
    simpa [side] using h
  cases operands with
  | nil =>
    obtain rfl := List.map_eq_nil_iff.1 htexts.symm
    rfl
  | cons o rest =>
    cases operands' with
    | nil => simp at htexts
    | cons o' rest' => simp only [text, htexts]

/-- Expressions of one text have one operator. -/
theorem Expression.operator_eq_of_text_eq {e e' : Expression} (h : e.text = e'.text) :
    e.operator = e'.operator := by
  have hbegin : ∀ e : Expression, ∃ rest, e.text.toList = e.operator.token.toList ++ rest ∧
      ∀ c ∈ rest.head?, ¬ IsPlainChar c := by
    rintro ⟨op, operands⟩
    cases operands with
    | nil => exact ⟨[], (List.append_nil _).symm, by simp⟩
    | cons o rest =>
      refine ⟨_, toList_text_cons op o rest, fun c hc => ?_⟩
      obtain rfl := Option.some.inj hc
      decide
  obtain ⟨rest, htext, hrest⟩ := hbegin e
  obtain ⟨rest', htext', hrest'⟩ := hbegin e'
  have hjoined := congrArg String.toList h
  rw [htext, htext'] at hjoined
  exact (Operator.eq_of_token_append_eq hrest hrest' hjoined).1

/-- A character that an expression only has in its operands. -/
theorem Expression.mem_text_iff {e : Expression} {c : Char} (hc : c ∉ ['(', ')', ',', ' '])
    (htoken : c ∉ e.operator.token.toList) :
    c ∈ e.text.toList ↔ ∃ o ∈ e.operands, c ∈ o.text.toList := by
  obtain ⟨op, operands⟩ := e
  cases operands with
  | nil => simpa [text] using htoken
  | cons o rest =>
    have hopen : c ∉ ['('] := fun hm => hc (by simp_all)
    have hclose : c ∉ [')'] := fun hm => hc (by simp_all)
    have hcomma : c ∉ [',', ' '] := fun hm => hc (by simp_all)
    rw [toList_text_cons, List.mem_append, List.mem_append, List.mem_append, or_iff_right htoken,
      or_iff_right hopen, or_iff_left hclose, RuleName.mem_intercalate_iff hcomma]
    constructor
    · rintro ⟨_, hpart, hmem⟩
      obtain ⟨x, hx, rfl⟩ := List.mem_map.1 hpart
      exact ⟨x, hx, hmem⟩
    · rintro ⟨x, hx, hmem⟩
      exact ⟨_, List.mem_map_of_mem hx, hmem⟩

/-- Whether the operands of an expression have plain texts. -/
def Expression.HasPlainOperands (e : Expression) : Prop := ∀ t ∈ e.side.operands, IsPlain t

/-- A binding between expressions with plain operands. -/
structure Binding.HasPlainOperands (b : Binding) : Prop where
  /-- The operands of the matched expression are plain. -/
  key : b.key.HasPlainOperands
  /-- The operands of the replacement are plain. -/
  replacement : b.replacement.HasPlainOperands

namespace RuleName

/-- An expression with plain operands is written as its side is spelled. -/
theorem encodeSide_text {e : Expression} (h : e.HasPlainOperands) :
    encodeSide e.text.toList = e.side.spelling := by
  obtain ⟨op, operands⟩ := e
  have htoken := encodeSide_of_plain (isPlain_token op).2
  cases operands with
  | nil => exact htoken
  | cons o rest =>
    have hplain : ∀ t ∈ (o :: rest).map (String.toList ∘ Operand.text), ∀ c ∈ t, IsPlainChar c := by
      intro t ht
      obtain ⟨x, hx, rfl⟩ := List.mem_map.1 ht
      exact (h x.text (List.mem_map_of_mem hx)).2
    have hopen : encodeSide ['('] = [operandSeparator] := by decide
    have hclose : encodeSide [')'] = [operandSeparator] := by decide
    rw [Expression.toList_text_cons, encodeSide_append, encodeSide_append, encodeSide_append,
      htoken, hopen, hclose, encodeSide_intercalate hplain]
    simp [Expression.side, Side.spelling]

/-! ## Reading -/

/-- The parts of a spelled side are its mnemonic, its operands and the nothing behind the last
separator. -/
theorem splitOn_spelling {op : Operator} {o : String} {rest : List String}
    (h : ∀ t ∈ o :: rest, operandSeparator ∉ t.toList) :
    (Side.spelling ⟨op, o :: rest⟩).splitOn operandSeparator =
      op.token.toList :: ((o :: rest).map String.toList ++ [[]]) := by
  have htoken : operandSeparator ∉ op.token.toList := fun hm =>
    ((isPlain_token op).2 _ hm).2 (by decide)
  have hparts : ∀ l ∈ (o :: rest).map String.toList, operandSeparator ∉ l := by
    intro l hl
    obtain ⟨t, ht, rfl⟩ := List.mem_map.1 hl
    exact h t ht
  rw [Side.spelling, List.splitOn_append_cons_self_of_not_mem htoken,
    List.splitOn_append_cons_self, List.splitOn_intercalate _ hparts (by simp), List.splitOn_nil]

/-- A spelled side is read as itself. -/
theorem decodeSide_spelling (name : String) {side : Side} (h : side.IsReadable) :
    decodeSide name side.spelling = .ok side := by
  obtain ⟨op, operands⟩ := side
  cases operands with
  | nil =>
    have htoken : operandSeparator ∉ op.token.toList := fun hm =>
      ((isPlain_token op).2 _ hm).2 (by decide)
    simp [decodeSide, Side.spelling, List.splitOn_eq_singleton htoken, withoutClosing]
  | cons o rest =>
    have hempty : [] ∉ (o :: rest).map String.toList := by
      intro hm
      obtain ⟨t, ht, he⟩ := List.mem_map.1 hm
      exact h.ne_empty t ht (String.toList_eq_nil_iff.1 he)
    have hclosing : withoutClosing ((o :: rest).map String.toList ++ [[]]) =
        (o :: rest).map String.toList := by
      simp only [withoutClosing, List.getLast?_concat, if_true, List.dropLast_concat]
    simp only [decodeSide, splitOn_spelling h.separated, List.headD_cons,
      String.ofList_toList, Operator.ofToken?_token, List.tail_cons, hclosing, if_neg hempty]
    simp [Function.comp_def]

/-- A name with one mark between two sides is read side by side. -/
theorem decode_of_sides {name : String} {matched replacement : List Char}
    (h : unspaced name.toList = matched ++ sideSeparator :: replacement)
    (hm : sideSeparator ∉ matched) (hr : sideSeparator ∉ replacement) :
    decode name = (do
      let m ← decodeSide name matched
      let r ← decodeSide name replacement
      return ⟨m, r⟩) := by
  rw [decode, h, List.splitOn_append_cons_self_of_not_mem hm, List.splitOn_eq_singleton hr]

/-- A side is spelled with plain characters, separators and the characters of its operands. -/
theorem mem_spelling {side : Side} {c : Char} (hc : c ∈ side.spelling) :
    IsPlainChar c ∨ c = operandSeparator ∨ ∃ o ∈ side.operands, c ∈ o.toList := by
  by_cases hsep : c = operandSeparator
  · exact Or.inr (Or.inl hsep)
  obtain ⟨op, operands⟩ := side
  cases operands with
  | nil => exact Or.inl ((isPlain_token op).2 c hc)
  | cons o rest =>
    have hnot : c ∉ [operandSeparator] := fun hm => hsep (List.mem_singleton.1 hm)
    rw [Side.spelling, List.mem_append, List.mem_cons, List.mem_append, List.mem_singleton,
      mem_intercalate_iff hnot] at hc
    rcases hc with hc | hc | ⟨_, ht, hc⟩ | hc
    · exact Or.inl ((isPlain_token op).2 c hc)
    · exact absurd hc hsep
    · obtain ⟨t, hmem, rfl⟩ := List.mem_map.1 ht
      exact Or.inr (Or.inr ⟨t, hmem, hc⟩)
    · exact absurd hc hsep

/-- A side that can be read is spelled without blanks and marks. -/
theorem Side.IsReadable.of_mem_spelling {side : Side} (h : side.IsReadable) {c : Char}
    (hc : c ∈ side.spelling) : isBlank c = false ∧ c ≠ sideSeparator := by
  rcases mem_spelling hc with hp | rfl | ⟨o, ho, hc⟩
  · exact ⟨hp.1, fun he => hp.2 (he ▸ by decide)⟩
  · decide
  · exact ⟨h.unspaced o ho c hc, fun he => h.unmarked o ho (he ▸ hc)⟩

/-- A name that is spelled with sides that can be read is read as these sides. -/
theorem decode_spelling {n : RuleName} (hm : n.matched.IsReadable) (hr : n.replacement.IsReadable) :
    decode n.spelling = .ok n := by
  have hunspaced : unspaced n.spelling.toList =
      n.matched.spelling ++ sideSeparator :: n.replacement.spelling := by
    rw [spelling, String.toList_ofList, unspaced, List.filter_eq_self]
    simp only [List.forall_mem_append, List.forall_mem_cons, Bool.not_eq_true']
    exact ⟨fun c hc => (hm.of_mem_spelling hc).1, by decide,
      fun c hc => (hr.of_mem_spelling hc).1⟩
  rw [decode_of_sides hunspaced (fun hc => (hm.of_mem_spelling hc).2 rfl)
    (fun hc => (hr.of_mem_spelling hc).2 rfl), decodeSide_spelling _ hm, decodeSide_spelling _ hr]
  rfl

/-- The name of a binding with plain operands is spelled with the two sides of the binding. -/
theorem encode_eq_spelling {b : Binding} (h : b.HasPlainOperands) :
    encode b = spelling ⟨b.key.side, b.replacement.side⟩ := by
  rw [encode, spelling, encodeSide_text h.key, encodeSide_text h.replacement]

/-- The name of a binding with plain operands is read as the two sides of the binding. -/
theorem decode_encode_of_plain {b : Binding} (h : b.HasPlainOperands) :
    decode (encode b) = .ok ⟨b.key.side, b.replacement.side⟩ := by
  rw [encode_eq_spelling h]
  exact decode_spelling (Side.isReadable_of_plain h.key) (Side.isReadable_of_plain h.replacement)

/-- Bindings with plain operands and one name have the same two sides. -/
theorem sides_eq_of_encode_eq {a b : Binding} (ha : a.HasPlainOperands)
    (hb : b.HasPlainOperands) (h : encode a = encode b) :
    a.key.side = b.key.side ∧ a.replacement.side = b.replacement.side := by
  have hdecoded := (decode_encode_of_plain ha).symm.trans (h ▸ decode_encode_of_plain hb)
  simpa using hdecoded

end RuleName

end MutationRules
