import MutationRules.Proofs.RuleName.RoundTrip
import MutationRules.RuleSet.Synthesis

/-!
# Accepted literals

Settings are checked character by character, names are written and read as a whole, and
yet both agree on the literals that may stand in a rule: a literal is accepted exactly if
it is not the token of a category and the name of a constant's sum with it is read with
this literal. Settings that are refused name all literals that are not accepted.
-/

namespace MutationRules

namespace RuleName

/-- The sum of a constant and a literal, in place of the constant. -/
def shift (literal : String) : Binding :=
  Taxonomy.bareBinding .arithConst .add [.arithConst, .literal literal]

/-- Whether the name of a constant's sum with a literal is read with this literal. -/
def Carries (literal : String) : Prop :=
  ∃ name, decode (encode (shift literal)) = .ok name ∧ name.replacement.operands = ["C", literal]

/-- The shift by a literal has plain operands if the literal is plain. -/
theorem hasPlainOperands_shift_iff {literal : String} :
    (shift literal).HasPlainOperands ↔ IsPlain literal := by
  have hconst : IsPlain Kind.arithConst.token := isPlain_of_mem_categories (by decide)
  have hoperands : (shift literal).replacement.side.operands =
      [Kind.arithConst.token, literal] := rfl
  have hreplacement : (shift literal).replacement.HasPlainOperands ↔ IsPlain literal := by
    rw [Expression.HasPlainOperands, hoperands]
    simp [hconst]
  constructor
  · exact fun h => hreplacement.1 h.replacement
  · exact fun h => ⟨by simp [Expression.HasPlainOperands, Expression.side, shift,
      Taxonomy.bareBinding], hreplacement.2 h⟩

/-- Names carry the plain texts. -/
theorem carries_iff_isPlain {literal : String} : Carries literal ↔ IsPlain literal := by
  constructor
  · rintro ⟨name, hread, hoperands⟩
    have hplain := (isPlain_of_decode_encode hread).2
    rw [hoperands] at hplain
    exact hplain literal (by simp)
  · intro h
    exact ⟨_, decode_encode_of_plain (hasPlainOperands_shift_iff.2 h), rfl⟩

end RuleName

namespace Settings

variable {settings : Settings} {literal : String}

/-- Settings with one literal. -/
def ofLiteral (literal : String) : Settings where
  scalarConstants := [literal]
  shuffleCounters := []
  caseRemovalCounters := []
  calleeNames := []

/-- Whether a literal is accepted: settings with no other literal are valid. -/
def Accepts (literal : String) : Prop := (ofLiteral literal).validate = .ok ()

theorem accepts_iff_isAdmissible : Accepts literal ↔ isAdmissible literal = true := by
  rw [Accepts, validate_eq_ok_iff]
  simp [inadmissible, literals, ofLiteral]

instance : DecidablePred Accepts := fun _ => decidable_of_iff _ accepts_iff_isAdmissible.symm

/-- The literals that are not accepted, repeats kept: offsets, then shuffle counters, removal
counters and callees. -/
def refused (settings : Settings) : List String :=
  (settings.scalarConstants ++ settings.shuffleCounters ++ settings.caseRemovalCounters ++
    settings.calleeNames).filter fun literal => ¬ Accepts literal

theorem inadmissible_eq_refused (settings : Settings) :
    settings.inadmissible = settings.refused := by
  refine List.filter_congr fun literal _ => ?_
  simp [accepts_iff_isAdmissible]

/-- Settings are refused for their inadmissible literals, if there are any. -/
theorem validate_eq_error_iff {e : TaxonomyError} : settings.validate = .error e ↔
    settings.inadmissible ≠ [] ∧ e = .invalidLiteral settings.inadmissible := by
  unfold validate
  split
  next hnone => simp [hnone]
  next hsome =>
    rw [Except.error.injEq, eq_comm]
    exact (and_iff_right hsome).symm

/-- A literal is accepted exactly if it is not the token of a category and names carry it. Settings
are refused exactly if one of their literals is not accepted, and then for all such literals. -/
theorem accepts_iff_carries :
    (∀ literal, Accepts literal ↔
      literal ∉ Kind.categories.map Kind.token ∧ RuleName.Carries literal) ∧
    ∀ (settings : Settings) (e : TaxonomyError), settings.validate = .error e ↔
      (∃ literal ∈ settings.literals, ¬ Accepts literal) ∧
        e = .invalidLiteral settings.refused := by
  constructor
  · intro literal
    rw [accepts_iff_isAdmissible, isAdmissible_iff, RuleName.carries_iff_isPlain, and_comm]
  · intro settings e
    have hsome : settings.refused ≠ [] ↔ ∃ literal ∈ settings.literals, ¬ Accepts literal := by
      rw [refused, Ne, List.filter_eq_nil_iff, literals]
      simp
    rw [validate_eq_error_iff, inadmissible_eq_refused, hsome]

-- a literal with a mark inside is refused twice, a token once, and the plain one is not
example : ({ scalarConstants := ["a!b", "1"], calleeNames := ["V", "a!b"] } : Settings).validate =
    .error (.invalidLiteral ["a!b", "V", "a!b"]) := by decide

end Settings

end MutationRules
