import MutationRules.Proofs.RuleName.Codec
import MutationRules.Taxonomy.Basic

/-!
# Admissible kinds

A kind is admissible if its text can stand in a rule name without being taken for that
of another: it is a category or an admissible literal. The texts of admissible kinds
tell them apart, and so do those of operands tell the slots, as long as slot numbers
have one digit.
-/

namespace MutationRules

namespace Kind

/-- A category, or a literal that can stand in a rule name. -/
def IsAdmissible : Kind → Prop
  | .literal text => isAdmissible text = true
  | _ => True

instance : DecidablePred IsAdmissible
  | .literal text => inferInstanceAs (Decidable (isAdmissible text = true))
  | .arithExpr | .arithVar | .arithConst | .pointerVar | .addressExpr => .isTrue trivial

variable {a b : Kind}

theorem isAdmissible_of_mem_categories (h : a ∈ categories) : a.IsAdmissible := by
  cases a with
  | literal text => simp [categories] at h
  | arithExpr | arithVar | arithConst | pointerVar | addressExpr => trivial

/-- The text of an admissible kind is plain. -/
theorem IsAdmissible.isPlain (h : a.IsAdmissible) : IsPlain a.token := by
  cases a with
  | literal text => exact (isAdmissible_iff.1 h).1
  | arithExpr | arithVar | arithConst | pointerVar | addressExpr =>
    exact isPlain_of_mem_categories (by decide)

/-- An admissible literal is not spelled like a category. -/
theorem IsAdmissible.text_ne {text : String} (h : (literal text).IsAdmissible)
    (hb : b ∈ categories) : text ≠ b.token := by
  rintro rfl
  exact (isAdmissible_iff.1 h).2 (List.mem_map_of_mem hb)

theorem IsAdmissible.rank_eq (ha : a.IsAdmissible) (hb : b.IsAdmissible)
    (h : a.token = b.token) : a.rank = b.rank := by
  cases a with
  | literal text =>
    cases b with
    | literal text' => rfl
    | arithExpr | arithVar | arithConst | pointerVar | addressExpr =>
      exact absurd h (ha.text_ne (by decide))
  | arithExpr | arithVar | arithConst | pointerVar | addressExpr =>
    cases b with
    | literal text' => exact absurd h.symm (hb.text_ne (by decide))
    | arithExpr | arithVar | arithConst | pointerVar | addressExpr => simp_all [token, rank]

/-- Admissible kinds of one text are equal. -/
theorem IsAdmissible.eq_of_token_eq (ha : a.IsAdmissible) (hb : b.IsAdmissible)
    (h : a.token = b.token) : a = b :=
  eq_of_token_of_rank h (ha.rank_eq hb h)

/-- Lists of admissible kinds of the same texts are equal. -/
theorem eq_of_map_token_eq {as bs : List Kind} (ha : ∀ a ∈ as, a.IsAdmissible)
    (hb : ∀ b ∈ bs, b.IsAdmissible) (h : as.map token = bs.map token) : as = bs := by
  induction as generalizing bs with
  | nil => exact (List.map_eq_nil_iff.1 h.symm).symm
  | cons a as ih =>
    cases bs with
    | nil => simp at h
    | cons b bs =>
      obtain ⟨hhead, htail⟩ := List.cons.inj h
      rw [List.forall_mem_cons] at ha hb
      rw [ha.1.eq_of_token_eq hb.1 hhead, ih ha.2 hb.2 htail]

end Kind

namespace Operand

/-- The text of an operand ends in the number of its slot. -/
theorem position_eq_of_text_eq {a b : Kind} {p q : Nat} (hp : p < 9) (hq : q < 9)
    (h : (atSlot a p).text = (atSlot b q).text) : p = q := by
  have hdigit : ∀ {n : Nat}, n < 9 → (n + 1).repr.toList = [(n + 1).digitChar] := by
    intro n hn
    rw [Nat.repr_of_lt (by omega), String.toList_singleton]
  have hlast := congrArg (fun s => s.toList.getLast?) h
  simp only [text_atSlot, String.toList_append, hdigit hp, hdigit hq, List.getLast?_concat,
    Option.some.injEq] at hlast
  have hcode := congrArg Char.toNat hlast
  rw [Nat.toNat_digitChar_of_lt_ten (by omega), Nat.toNat_digitChar_of_lt_ten (by omega)] at hcode
  omega

end Operand

namespace Constants

/-- Whether a kind is one of the literals of the settings. -/
def Holds (constants : Constants) (kind : Kind) : Prop :=
  kind ∈ constants.scalarConstants ∨ kind ∈ constants.shuffleCounters ∨
    kind ∈ constants.caseRemovalCounters ∨ kind ∈ constants.calleeNames

/-- Whether a kind is a literal that the replacements of a matcher are given: an offset of a
constant, a counter of a call or a switch, or a callee that has another to be exchanged with. -/
def Supplies (constants : Constants) : Operator → Kind → Prop
  | .arithConst, kind => kind ∈ constants.scalarConstants
  | .call, kind => kind ∈ constants.shuffleCounters ∨
      kind ∈ constants.calleeNames ∧ ∃ other ∈ constants.calleeNames, other ≠ kind
  | .switch, kind => kind ∈ constants.shuffleCounters ∨ kind ∈ constants.caseRemovalCounters
  | _, _ => False

theorem Supplies.holds {constants : Constants} {matcher : Operator} {kind : Kind}
    (h : constants.Supplies matcher kind) : constants.Holds kind := by
  unfold Supplies at h
  split at h
  · exact Or.inl h
  · exact Or.inr (h.imp id fun hcallee => Or.inr hcallee.1)
  · exact Or.inr (h.imp id Or.inl)
  · exact h.elim

/-- The literals of accepted settings are admissible. -/
theorem isAdmissible_of_holds {settings : Settings} (hv : settings.validate = .ok ())
    {kind : Kind} (h : (ofSettings settings).Holds kind) : kind.IsAdmissible := by
  have hliteral : ∃ text ∈ settings.literals, .literal text = kind := by
    simp only [Holds, ofSettings, KindSet.mem_literals] at h
    simp only [Settings.literals, List.mem_append]
    rcases h with ⟨text, ht, rfl⟩ | ⟨text, ht, rfl⟩ | ⟨text, ht, rfl⟩ | ⟨text, ht, rfl⟩
    all_goals exact ⟨text, by simp [ht], rfl⟩
  obtain ⟨text, ht, rfl⟩ := hliteral
  have hnone := Settings.validate_eq_ok_iff.1 hv
  rw [Settings.inadmissible, List.filter_eq_nil_iff] at hnone
  have hadmissible : isAdmissible text = true := by simpa using hnone text ht
  exact hadmissible

/-- Zero is an admissible literal. -/
theorem isAdmissible_zero : zero.IsAdmissible := by decide

end Constants

end MutationRules
