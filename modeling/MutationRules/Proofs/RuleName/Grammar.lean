import MutationRules.Proofs.RuleName.Codec
import MutationRules.Proofs.Text.Pieces

/-!
# The grammar of rule names

A side is spelled as a mnemonic and any number of operands, each after a separator,
with an optional separator behind. A name is read exactly if, without its blanks, it
is two spelled sides with one mark between, and then it is read as these sides. A name
that is not read has a fault, and its first fault is the error.
-/

namespace MutationRules

namespace RuleName

open Text (unspaced)

variable {name : String} {text first : List Char} {others : List (List Char)}

/-! ## Spellings and faults of a side -/

/-- The mnemonic of a side, then each operand after a separator. -/
def Side.unclosed (side : Side) : List Char :=
  side.operator.token.toList ++
    (side.operands.map String.toList).flatMap (operandSeparator :: ·)

/-- Whether a text spells a side. -/
structure Side.SpelledBy (side : Side) (text : List Char) : Prop where
  /-- No operand is empty. -/
  ne_empty : ∀ o ∈ side.operands, o ≠ ""
  /-- No operand has a separator. -/
  separated : ∀ o ∈ side.operands, operandSeparator ∉ o.toList
  /-- One more separator may stand behind. -/
  closing : text = side.unclosed ∨ text = side.unclosed ++ [operandSeparator]

/-- What stands before the first separator of a side. -/
def mnemonic (text : List Char) : List Char := text.takeWhile (· != operandSeparator)

/-- Whether nothing stands between two separators of a side. -/
def HasEmptyOperand (text : List Char) : Prop :=
  ∃ before after, text = before ++ operandSeparator :: operandSeparator :: after

/-- The fault of a side in a name. An unknown mnemonic comes before an empty operand. -/
inductive SideFault (name : String) (text : List Char) : DecodeError → Prop
  /-- The mnemonic belongs to no operator. -/
  | unknownOperator (h : ∀ op : Operator, op.token.toList ≠ mnemonic text) :
      SideFault name text (.unknownOperator name (.ofList (mnemonic text)))
  /-- An operand of a known operator is empty. -/
  | emptyOperand (op : Operator) (h : op.token.toList = mnemonic text)
      (hempty : HasEmptyOperand text) : SideFault name text (.malformedName name)

/-! ## Reading a side -/

theorem operandSeparator_not_mem_token (op : Operator) : operandSeparator ∉ op.token.toList :=
  fun hm => ((isPlain_token op).2 _ hm).2 (by decide)

/-- The token of an operator is known as its own. -/
theorem ofToken?_ofList_eq_none_iff {token : List Char} :
    Operator.ofToken? (.ofList token) = none ↔ ∀ op : Operator, op.token.toList ≠ token := by
  rw [Option.eq_none_iff_forall_ne_some]
  refine forall_congr' fun op => not_congr ?_
  rw [Operator.ofToken?_eq_some_iff]
  constructor
  · intro h
    rw [h, String.toList_ofList]
  · rintro rfl
    exact String.ofList_toList.symm

/-- At most the empty piece behind a closing separator is left out. -/
theorem eq_withoutClosing (parts : List (List Char)) :
    parts = withoutClosing parts ∨ parts = withoutClosing parts ++ [[]] := by
  unfold withoutClosing
  by_cases hlast : parts.getLast? = some []
  · right
    obtain ⟨before, rfl⟩ := List.getLast?_eq_some_iff.1 hlast
    simp
  · left
    rw [if_neg hlast]

/-- A side divided into a known mnemonic and operands is read as these, if none is empty. -/
theorem decodeSide_of_splitOn (h : text.splitOn operandSeparator = first :: others) :
    decodeSide name text =
      match Operator.ofToken? (.ofList first) with
      | none => .error (.unknownOperator name (.ofList first))
      | some op =>
        if [] ∈ withoutClosing others then .error (.malformedName name)
        else .ok ⟨op, (withoutClosing others).map String.ofList⟩ := by
  rw [decodeSide, h]
  rfl

/-- Two separators meet behind the first one or later. -/
theorem hasEmptyOperand_append_cons (hfirst : operandSeparator ∉ first) {rest : List Char} :
    HasEmptyOperand (first ++ operandSeparator :: rest) ↔
      (∃ after, rest = operandSeparator :: after) ∨ HasEmptyOperand rest := by
  constructor
  · rintro ⟨before, after, h⟩
    rcases List.append_eq_append_iff.1 h with ⟨between, rfl, hrest⟩ | ⟨between, rfl, hrest⟩
    · cases between with
      | nil => exact Or.inl ⟨after, by simpa using hrest⟩
      | cons c between =>
        rw [List.cons_append, List.cons.injEq] at hrest
        exact Or.inr ⟨between, after, hrest.2⟩
    · cases between with
      | nil => exact Or.inl ⟨after, by simpa [eq_comm] using hrest⟩
      | cons c between =>
        rw [List.cons_append, List.cons.injEq] at hrest
        exact absurd (by simp [hrest.1]) hfirst
  · rintro (⟨after, rfl⟩ | ⟨before, after, rfl⟩)
    · exact ⟨first, after, rfl⟩
    · exact ⟨first ++ operandSeparator :: before, after, by simp⟩

/-- An operand of a divided side is empty if a piece is that is not left out. -/
theorem hasEmptyOperand_iff (h : text.splitOn operandSeparator = first :: others) :
    HasEmptyOperand text ↔ [] ∈ withoutClosing others := by
  obtain ⟨rfl, hfirst, hothers⟩ := Text.splitOn_eq_cons_iff.1 h
  clear h
  induction others generalizing first with
  | nil =>
    have hnone : ¬ HasEmptyOperand first := by
      rintro ⟨before, after, rfl⟩
      simp at hfirst
    simpa [withoutClosing] using hnone
  | cons piece rest ih =>
    obtain ⟨hpiece, hrest⟩ := List.forall_mem_cons.1 hothers
    rw [List.flatMap_cons, List.cons_append, hasEmptyOperand_append_cons hfirst, ih hpiece hrest]
    -- a piece can be left out only if it is the last
    cases rest with
    | nil =>
      have hhead : ¬ ∃ after, piece = operandSeparator :: after := by
        rintro ⟨after, rfl⟩
        simp at hpiece
      by_cases hempty : piece = []
      · simp [withoutClosing, hempty]
      · simp [withoutClosing, hempty, hhead, Ne.symm hempty]
    | cons next rest =>
      have hhead : (∃ after, piece ++ operandSeparator :: (next ++ rest.flatMap
          (operandSeparator :: ·)) = operandSeparator :: after) ↔ [] = piece := by
        cases piece with
        | nil => simp
        | cons c piece =>
          have hc : ¬ c = operandSeparator := fun he => hpiece (by simp [he])
          simp [hc]
      have hpieces : withoutClosing (piece :: next :: rest) =
          piece :: withoutClosing (next :: rest) := by
        by_cases hlast : (next :: rest).getLast? = some []
        · simp [withoutClosing, hlast]
        · simp [withoutClosing, hlast]
      rw [hpieces, List.mem_cons, List.flatMap_cons, List.cons_append]
      exact or_congr_left hhead

theorem Side.SpelledBy.nil_not_mem {side : Side} (h : side.SpelledBy text) :
    [] ∉ side.operands.map String.toList := by
  intro hm
  obtain ⟨o, ho, he⟩ := List.mem_map.1 hm
  exact h.ne_empty o ho (String.toList_eq_nil_iff.1 he)

/-- A text that spells a side is divided into the mnemonic and the operands. -/
theorem Side.SpelledBy.exists_splitOn {side : Side} (h : side.SpelledBy text) :
    ∃ others, text.splitOn operandSeparator = side.operator.token.toList :: others ∧
      withoutClosing others = side.operands.map String.toList := by
  have htoken := operandSeparator_not_mem_token side.operator
  have hfree : ∀ piece ∈ side.operands.map String.toList, operandSeparator ∉ piece :=
    List.forall_mem_map.2 h.separated
  rcases h.closing with rfl | rfl
  · refine ⟨_, Text.splitOn_eq_cons_iff.2 ⟨rfl, htoken, hfree⟩, ?_⟩
    rw [withoutClosing, if_neg fun hlast => h.nil_not_mem (List.mem_of_getLast? hlast)]
  · refine ⟨side.operands.map String.toList ++ [[]],
      Text.splitOn_eq_cons_iff.2 ⟨by simp [unclosed], htoken, ?_⟩, by simp [withoutClosing]⟩
    intro piece hp
    rcases List.mem_append.1 hp with hp | hp
    · exact hfree piece hp
    · rw [List.mem_singleton.1 hp]
      exact List.not_mem_nil

/-- A text is read as the side that it spells. -/
theorem Side.SpelledBy.decodeSide {side : Side} (h : side.SpelledBy text) :
    decodeSide name text = .ok side := by
  obtain ⟨others, hsplit, hoperands⟩ := h.exists_splitOn
  rw [decodeSide_of_splitOn hsplit, hoperands, String.ofList_toList, Operator.ofToken?_token]
  simp [h.nil_not_mem, Function.comp_def]

/-- A text with a fault is refused for this fault. -/
theorem SideFault.decodeSide {e : DecodeError} (h : SideFault name text e) :
    decodeSide name text = .error e := by
  obtain ⟨first, others, hsplit⟩ := Text.exists_splitOn_eq_cons operandSeparator text
  have hmnemonic : mnemonic text = first := Text.takeWhile_of_splitOn hsplit
  rw [decodeSide_of_splitOn hsplit]
  cases h with
  | unknownOperator h =>
    rw [hmnemonic] at h ⊢
    rw [ofToken?_ofList_eq_none_iff.2 h]
  | emptyOperand op h hempty =>
    rw [← hmnemonic, ← h, String.ofList_toList, Operator.ofToken?_token]
    exact if_pos ((hasEmptyOperand_iff hsplit).1 hempty)

/-- A text spells a side or has a fault. -/
theorem spelledBy_or_sideFault (name : String) (text : List Char) :
    (∃ side : Side, side.SpelledBy text) ∨ ∃ e, SideFault name text e := by
  obtain ⟨first, others, hsplit⟩ := Text.exists_splitOn_eq_cons operandSeparator text
  have hmnemonic : mnemonic text = first := Text.takeWhile_of_splitOn hsplit
  by_cases hknown : ∃ op : Operator, op.token.toList = first
  · obtain ⟨op, hop⟩ := hknown
    by_cases hempty : HasEmptyOperand text
    · exact Or.inr ⟨_, .emptyOperand op (hop.trans hmnemonic.symm) hempty⟩
    · left
      obtain ⟨htext, _, hfree⟩ := Text.splitOn_eq_cons_iff.1 hsplit
      rw [hasEmptyOperand_iff hsplit] at hempty
      have hoperands : ((withoutClosing others).map String.ofList).map String.toList =
          withoutClosing others := by
        simp [Function.comp_def]
      refine ⟨⟨op, (withoutClosing others).map String.ofList⟩, ?_, ?_, ?_⟩
      · intro o ho he
        obtain ⟨piece, hp, rfl⟩ := List.mem_map.1 ho
        have hnil : piece = [] := by simpa using he
        exact hempty (hnil ▸ hp)
      · intro o ho
        obtain ⟨piece, hp, rfl⟩ := List.mem_map.1 ho
        rw [String.toList_ofList]
        refine hfree piece ?_
        rcases eq_withoutClosing others with he | he
        · rwa [he]
        · rw [he]
          exact List.mem_append_left _ hp
      · rw [Side.unclosed, hoperands, hop]
        rcases eq_withoutClosing others with he | he
        · left
          rwa [← he]
        · right
          rw [htext]
          conv_lhs => rw [he]
          simp
  · right
    refine ⟨_, .unknownOperator ?_⟩
    rw [hmnemonic]
    exact fun op hop => hknown ⟨op, hop⟩

/-! ## Spellings and faults of a name -/

/-- Whether a text is two sides with the only mark between them. -/
structure Divides (text matched replacement : List Char) : Prop where
  /-- The mark stands between the sides. -/
  text_eq : text = matched ++ sideSeparator :: replacement
  /-- The matched side has no mark. -/
  matched_free : sideSeparator ∉ matched
  /-- The replacement has no mark. -/
  replacement_free : sideSeparator ∉ replacement

/-- Whether a text spells a name. -/
def SpelledBy (n : RuleName) (text : List Char) : Prop :=
  ∃ matched replacement, Divides text matched replacement ∧
    n.matched.SpelledBy matched ∧ n.replacement.SpelledBy replacement

/-- The first fault of a name: of its division, of its matched side, of its replacement. -/
inductive Fault (name : String) : DecodeError → Prop
  /-- There is not one mark. -/
  | division (h : (unspaced name.toList).count sideSeparator ≠ 1) : Fault name (.malformedName name)
  /-- The matched side has a fault. -/
  | matched {matched replacement : List Char} {e : DecodeError}
      (h : Divides (unspaced name.toList) matched replacement) (hfault : SideFault name matched e) :
      Fault name e
  /-- The matched side is spelled and the replacement has a fault. -/
  | replacement {matched replacement : List Char} {side : Side} {e : DecodeError}
      (h : Divides (unspaced name.toList) matched replacement) (hside : side.SpelledBy matched)
      (hfault : SideFault name replacement e) : Fault name e

/-- A text has one mark exactly if it is two sides. -/
theorem count_eq_one_iff {text : List Char} : text.count sideSeparator = 1 ↔
    ∃ matched replacement, Divides text matched replacement := by
  obtain ⟨first, others, hsplit⟩ := Text.exists_splitOn_eq_cons sideSeparator text
  rw [Text.count_of_splitOn hsplit]
  constructor
  · intro h
    obtain ⟨replacement, rfl⟩ := List.length_eq_one_iff.1 h
    obtain ⟨htext, hm, hr⟩ := Text.splitOn_eq_cons_iff.1 hsplit
    exact ⟨first, replacement, by simpa using htext, hm, by simpa using hr⟩
  · rintro ⟨matched, replacement, rfl, hm, hr⟩
    rw [List.splitOn_append_cons_self_of_not_mem hm, List.splitOn_eq_singleton hr] at hsplit
    exact congrArg List.length (List.cons.inj hsplit).2.symm

/-- A name is read as the sides that it spells. -/
theorem SpelledBy.decode {n : RuleName} (h : n.SpelledBy (unspaced name.toList)) :
    decode name = .ok n := by
  obtain ⟨matched, replacement, ⟨htext, hm, hr⟩, hmatched, hreplacement⟩ := h
  rw [decode_of_sides htext hm hr, hmatched.decodeSide, hreplacement.decodeSide]
  rfl

/-- A name with a fault is refused for this fault. -/
theorem Fault.decode {e : DecodeError} (h : Fault name e) : decode name = .error e := by
  cases h with
  | division h =>
    unfold RuleName.decode
    split
    next matched replacement hsplit =>
      exact absurd (Text.count_of_splitOn hsplit) h
    next => rfl
  | matched h hfault =>
    rw [decode_of_sides h.text_eq h.matched_free h.replacement_free, hfault.decodeSide]
    rfl
  | replacement h hside hfault =>
    rw [decode_of_sides h.text_eq h.matched_free h.replacement_free, hside.decodeSide,
      hfault.decodeSide]
    rfl

/-- A name is spelled or has a fault. -/
theorem spelledBy_or_fault (name : String) :
    (∃ n : RuleName, n.SpelledBy (unspaced name.toList)) ∨ ∃ e, Fault name e := by
  by_cases hcount : (unspaced name.toList).count sideSeparator = 1
  · obtain ⟨matched, replacement, h⟩ := count_eq_one_iff.1 hcount
    rcases spelledBy_or_sideFault name matched with ⟨m, hm⟩ | ⟨e, he⟩
    · rcases spelledBy_or_sideFault name replacement with ⟨r, hr⟩ | ⟨e, he⟩
      · exact Or.inl ⟨⟨m, r⟩, matched, replacement, h, hm, hr⟩
      · exact Or.inr ⟨e, .replacement h hm he⟩
    · exact Or.inr ⟨e, .matched h he⟩
  · exact Or.inr ⟨_, .division hcount⟩

/-- Reading accepts exactly the names that, without their blanks, are spelled by the grammar, and
gives the only sides that they spell. Any other name is refused for its first fault. -/
theorem decode_iff_grammar (name : String) :
    (∀ n, decode name = .ok n ↔ n.SpelledBy (unspaced name.toList) ∧
      ∀ other : RuleName, other.SpelledBy (unspaced name.toList) → other = n) ∧
    ∀ e, decode name = .error e ↔ Fault name e := by
  constructor
  · intro n
    constructor
    · intro hok
      rcases spelledBy_or_fault name with ⟨m, hm⟩ | ⟨e, he⟩
      · obtain rfl : m = n := Except.ok.inj (hm.decode.symm.trans hok)
        exact ⟨hm, fun other ho => Except.ok.inj (ho.decode.symm.trans hok)⟩
      · exact nomatch he.decode.symm.trans hok
    · rintro ⟨h, _⟩
      exact h.decode
  · intro e
    constructor
    · intro herror
      rcases spelledBy_or_fault name with ⟨m, hm⟩ | ⟨e', he⟩
      · exact nomatch hm.decode.symm.trans herror
      · obtain rfl : e' = e := Except.error.inj (he.decode.symm.trans herror)
        exact he
    · exact Fault.decode

-- both sides have a fault: the unknown operator of the matched one counts
example : decode "FOO$ x!ADD$$" = .error (.unknownOperator "FOO$ x!ADD$$" "FOO") := by decide

end RuleName

end MutationRules
