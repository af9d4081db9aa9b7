import MutationRules.Proofs.RuleName.Grammar

/-!
# Names that are read as they were written

A name keeps neither blanks nor punctuation, and is divided wherever it has a separator
or a mark. So whatever is read from a written name is plain, and a binding is read back
from its name exactly if its operands are plain. Names of such bindings agree exactly
where the bindings have the same operators and operand texts.
-/

namespace MutationRules

namespace RuleName

open Text (isBlank unspaced)

variable {name : String} {text : List Char}

/-! ## Operands that are read -/

/-- A name that is read is spelled as it is read. -/
theorem spelledBy_of_decode {n : RuleName} (h : decode name = .ok n) :
    n.SpelledBy (unspaced name.toList) := by
  rcases spelledBy_or_fault name with ⟨m, hm⟩ | ⟨e, he⟩
  · obtain rfl : m = n := Except.ok.inj (hm.decode.symm.trans h)
    exact hm
  · exact nomatch he.decode.symm.trans h

/-- The operands of a side stand in the text that spells it. -/
theorem Side.SpelledBy.subset {side : Side} (h : side.SpelledBy text) {o : String}
    (ho : o ∈ side.operands) : o.toList ⊆ text := by
  intro c hc
  have hunclosed : c ∈ side.unclosed := by
    rw [Side.unclosed, List.mem_append, List.mem_flatMap]
    exact Or.inr ⟨o.toList, List.mem_map_of_mem ho, List.mem_cons_of_mem _ hc⟩
  rcases h.closing with rfl | rfl
  · exact hunclosed
  · exact List.mem_append_left _ hunclosed

/-- The operands of a side are plain if the text that spells it has no blank, no punctuation and no
mark. -/
theorem Side.SpelledBy.isPlain {side : Side} (h : side.SpelledBy text)
    (hkept : ∀ c ∈ text, isBlank c = false ∧ c ∉ punctuation) (hmark : sideSeparator ∉ text) :
    ∀ o ∈ side.operands, IsPlain o := by
  intro o ho
  refine ⟨h.ne_empty o ho, fun c hc => ?_⟩
  have hmem := h.subset ho hc
  refine ⟨(hkept c hmem).1, fun hstructural => ?_⟩
  have hcases : c ∈ punctuation ∨ c = operandSeparator ∨ c = sideSeparator := by
    simpa [structuralChars, punctuation, operandSeparator, sideSeparator, or_assoc]
      using hstructural
  rcases hcases with hpunctuation | rfl | rfl
  · exact (hkept c hmem).2 hpunctuation
  · exact h.separated o ho hc
  · exact hmark hmem

variable {a b : Binding}

/-- Whatever operands a binding has, those that are read from its name are plain. -/
theorem isPlain_of_decode_encode {n : RuleName} (h : decode (encode b) = .ok n) :
    (∀ o ∈ n.matched.operands, IsPlain o) ∧ ∀ o ∈ n.replacement.operands, IsPlain o := by
  obtain ⟨matched, replacement, hdivides, hmatched, hreplacement⟩ := spelledBy_of_decode h
  have hkept : ∀ c ∈ matched ++ sideSeparator :: replacement,
      isBlank c = false ∧ c ∉ punctuation := by
    intro c hc
    rw [← hdivides.text_eq, unspaced_encode] at hc
    exact of_mem_encode hc
  rw [List.forall_mem_append, List.forall_mem_cons] at hkept
  exact ⟨hmatched.isPlain hkept.1 hdivides.matched_free,
    hreplacement.isPlain hkept.2.2 hdivides.replacement_free⟩

/-! ## Bindings that are read back -/

/-- A binding is read back from its name exactly if its operands are plain. -/
theorem decode_encode_eq_sides_iff :
    decode (encode b) = .ok ⟨b.key.side, b.replacement.side⟩ ↔ b.HasPlainOperands := by
  constructor
  · intro h
    obtain ⟨hmatched, hreplacement⟩ := isPlain_of_decode_encode h
    exact ⟨hmatched, hreplacement⟩
  · exact decode_encode_of_plain

/-- The name of a binding depends on its two sides only. -/
theorem encode_eq_of_sides_eq (hkey : a.key.side = b.key.side)
    (hreplacement : a.replacement.side = b.replacement.side) : encode a = encode b := by
  rw [encode, encode, Expression.text_congr hkey, Expression.text_congr hreplacement]

/-- A binding is read back from its name, operators and operand texts unchanged, exactly if every
operand of its two sides is plain; and names of bindings with plain operands are equal exactly if
their operators and operand texts are. -/
theorem decode_encode_iff_plain (b : Binding) :
    (decode (encode b) = .ok ⟨b.key.side, b.replacement.side⟩ ↔ b.HasPlainOperands) ∧
      (b.HasPlainOperands → ∀ other : Binding, other.HasPlainOperands →
        (encode b = encode other ↔
          b.key.side = other.key.side ∧ b.replacement.side = other.replacement.side)) := by
  refine ⟨decode_encode_eq_sides_iff, fun hb other hother => ?_⟩
  constructor
  · exact sides_eq_of_encode_eq hb hother
  · rintro ⟨hkey, hreplacement⟩
    exact encode_eq_of_sides_eq hkey hreplacement

/-- A sum replaced by a difference of the exchanged operands. -/
def exchangedDifference : Binding where
  key := ⟨.add, [.atSlot .arithExpr 0, .atSlot .arithVar 1]⟩
  replacement := ⟨.sub, [.atSlot .arithVar 1, .atSlot .arithExpr 0]⟩

/-- The same sum and difference of literals that are spelled like the operands. -/
def spelledDifference : Binding where
  key := ⟨.add, [.bare (.literal "@1"), .bare (.literal "V2")]⟩
  replacement := ⟨.sub, [.bare (.literal "V2"), .bare (.literal "@1")]⟩

/-- Two bindings of the same texts have one name, although their operands differ. -/
theorem differences_decode : exchangedDifference.HasPlainOperands ∧
    spelledDifference.HasPlainOperands ∧ exchangedDifference ≠ spelledDifference ∧
    decode (encode exchangedDifference) =
      .ok ⟨⟨.add, ["@1", "V2"]⟩, ⟨.sub, ["V2", "@1"]⟩⟩ ∧
    encode exchangedDifference = encode spelledDifference := by
  have hplain : ∀ texts ∈ [["@1", "V2"], ["V2", "@1"]], ∀ t ∈ texts, IsPlain t := by decide
  have hexchanged : exchangedDifference.HasPlainOperands :=
    ⟨hplain _ (by decide), hplain _ (by decide)⟩
  have hspelled : spelledDifference.HasPlainOperands :=
    ⟨hplain _ (by decide), hplain _ (by decide)⟩
  obtain ⟨hread, hnames⟩ := decode_encode_iff_plain exchangedDifference
  exact ⟨hexchanged, hspelled, by decide, hread.2 hexchanged,
    (hnames hexchanged spelledDifference hspelled).2 ⟨by decide, by decide⟩⟩

-- a comma in an operand divides it into two
example : decode (encode ⟨⟨.arithConst, []⟩, ⟨.add, [.bare (.literal "1,2")]⟩⟩) =
    .ok ⟨⟨.arithConst, []⟩, ⟨.add, ["1", "2"]⟩⟩ := by decide

end RuleName

end MutationRules
