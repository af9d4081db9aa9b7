import MutationRules.Classification.Selective
import MutationRules.Proofs.Classification.Refinement
import MutationRules.Proofs.RuleName.RoundTrip

/-!
# Spelling variants of rule names

A name may be spelled with blanks anywhere and with or without a separator behind its sides.
All variants that are read alike have one canonical spelling, which is one of them, and every
name that is written for plain operands is canonical. A mnemonic has no mark, so no variant is
taken for one; only the spelling itself tells variants apart when names are classified.
-/

namespace MutationRules

namespace RuleName

open Text (isBlank unspaced)

variable {name name' c : String} {n : RuleName} {text : List Char}

/-! ## Canonical spellings -/

/-- The canonical spelling of a name that can be read. -/
def canonical? (name : String) : Except DecodeError String := (decode name).map spelling

/-- A side that a text without blanks and marks spells can be read. -/
theorem Side.SpelledBy.isReadable {side : Side} (h : side.SpelledBy text)
    (hblank : ∀ c ∈ text, isBlank c = false) (hmark : sideSeparator ∉ text) : side.IsReadable where
  ne_empty := h.ne_empty
  unspaced := fun _ ho c hc => hblank c (h.subset ho hc)
  separated := h.separated
  unmarked := fun _ ho hc => hmark (h.subset ho hc)

/-- The sides that are read from a name can be read. -/
theorem isReadable_of_decode (h : decode name = .ok n) :
    n.matched.IsReadable ∧ n.replacement.IsReadable := by
  obtain ⟨matched, replacement, hdivides, hmatched, hreplacement⟩ := spelledBy_of_decode h
  have hblank : ∀ c ∈ matched ++ sideSeparator :: replacement, isBlank c = false := by
    intro c hc
    rw [← hdivides.text_eq] at hc
    simpa using (List.mem_filter.1 hc).2
  rw [List.forall_mem_append, List.forall_mem_cons] at hblank
  exact ⟨hmatched.isReadable hblank.1 hdivides.matched_free,
    hreplacement.isReadable hblank.2.2 hdivides.replacement_free⟩

/-- What is read from a name is read from its canonical spelling too. -/
theorem decode_spelling_of_decode (h : decode name = .ok n) : decode n.spelling = .ok n :=
  decode_spelling (isReadable_of_decode h).1 (isReadable_of_decode h).2

theorem canonical?_eq_ok_iff : canonical? name = .ok c ↔
    ∃ n, decode name = .ok n ∧ n.spelling = c := by
  rw [canonical?, map_eq_ok_iff]

theorem exists_canonical?_iff : (∃ c, canonical? name = .ok c) ↔ Decodes name :=
  exists_map_eq_ok_iff

/-- A canonical spelling is read as the names that have it, and is its own. -/
theorem decode_canonical (h : canonical? name = .ok c) :
    decode c = decode name ∧ canonical? c = .ok c := by
  obtain ⟨n, hn, rfl⟩ := canonical?_eq_ok_iff.1 h
  have hread := decode_spelling_of_decode hn
  exact ⟨hread.trans hn.symm, canonical?_eq_ok_iff.2 ⟨n, hread, rfl⟩⟩

/-- A name is read as another that can be read if they have one canonical spelling. -/
theorem decode_eq_iff_canonical?_eq (h : Decodes name) :
    decode name = decode name' ↔ canonical? name = canonical? name' := by
  constructor
  · intro he
    rw [canonical?, canonical?, he]
  · intro he
    obtain ⟨c, hc⟩ := exists_canonical?_iff.2 h
    rw [← (decode_canonical hc).1, (decode_canonical (he ▸ hc)).1]

/-- The name of a binding with plain operands is canonical. -/
theorem canonical?_encode {b : Binding} (h : b.HasPlainOperands) :
    canonical? (encode b) = .ok (encode b) :=
  canonical?_eq_ok_iff.2 ⟨_, decode_encode_of_plain h, (encode_eq_spelling h).symm⟩

/-! ## Answers about names that are read alike -/

/-- A name that can be read is not taken for a mnemonic, which has no mark. -/
theorem isStatementDeletion_of_decode (h : decode name = .ok n) :
    isStatementDeletion name = .ok (n.replacement.operator = .deleteStatement) := by
  have hnone : Operator.ofToken? (.ofList (unspaced name.toList)) = none := by
    rw [ofToken?_ofList_eq_none_iff]
    intro op hop
    obtain ⟨matched, replacement, hdivides, _⟩ := spelledBy_of_decode h
    have hmark : sideSeparator ∈ op.token.toList := by
      rw [hop, hdivides.text_eq]
      exact List.mem_append_right _ (List.mem_cons_self ..)
    exact ((isPlain_token op).2 _ hmark).2 (by decide)
  simp [isStatementDeletion, hnone, h, bind, Except.bind, pure, Except.pure]

/-- What is answered about a name without quoting it depends on what is read from it. -/
theorem answers_eq_of_decode_eq (h : Decodes name) (he : decode name' = decode name) :
    (∀ (t : Taxonomy) (g : Granularity), g ≠ .exact → t.classify name' g = t.classify name g) ∧
    isStatementDeletion name' = isStatementDeletion name ∧
    ∀ (t : Taxonomy) (set : SelectiveSet),
      t.selectiveLabel name' set = t.selectiveLabel name set := by
  obtain ⟨n, hn⟩ := h
  refine ⟨fun t g hg => ?_, ?_, fun t set => ?_⟩
  · rw [Taxonomy.classify, Taxonomy.classify, he, hn]
    cases g with
    | exact => exact absurd rfl hg
    | allAncestors | category | family | operator | operatorSwap => rfl
  · rw [isStatementDeletion_of_decode hn, isStatementDeletion_of_decode (he.trans hn)]
  · rw [Taxonomy.selectiveLabel, Taxonomy.selectiveLabel, he]

/-- Every name that can be read has a canonical spelling, which is read as the name is and is its
own canonical spelling. Names are read alike exactly if they have one canonical spelling, and names
written for plain operands are canonical. Classes other than the spelling itself, statement deletion
and membership in selective sets are the same for a name and its canonical spelling. -/
theorem canonical_answers (name : String) :
    ((∃ c, canonical? name = .ok c) ↔ Decodes name) ∧
    (∀ c, canonical? name = .ok c → decode c = decode name ∧ canonical? c = .ok c) ∧
    (Decodes name →
      ∀ name', decode name = decode name' ↔ canonical? name = canonical? name') ∧
    (∀ b : Binding, b.HasPlainOperands → encode b = name → canonical? name = .ok name) ∧
    ∀ c, canonical? name = .ok c →
      (∀ (t : Taxonomy) (g : Granularity), g ≠ .exact → t.classify c g = t.classify name g) ∧
      isStatementDeletion c = isStatementDeletion name ∧
      ∀ (t : Taxonomy) (set : SelectiveSet),
        t.selectiveLabel c set = t.selectiveLabel name set := by
  refine ⟨exists_canonical?_iff, fun c => decode_canonical,
    fun h name' => decode_eq_iff_canonical?_eq h, ?_, fun c hc => ?_⟩
  · rintro b hb rfl
    exact canonical?_encode hb
  · exact answers_eq_of_decode_eq (exists_canonical?_iff.1 ⟨c, hc⟩) (decode_canonical hc).1

/-- The name of a difference with exchanged operands, spelled with blanks and without one of the
closing separators. -/
def spacedDifference : String := " ADD$@1$V2 ! SUB $V2$@1$"

/-- The canonical spelling is the name that is written for the difference. -/
theorem spacedDifference_answers : Decodes spacedDifference ∧
    spacedDifference ≠ encode exchangedDifference ∧
    canonical? spacedDifference = .ok (encode exchangedDifference) ∧
    decode (encode exchangedDifference) = decode spacedDifference ∧
    exchangedDifference.HasPlainOperands ∧
    canonical? (encode exchangedDifference) = .ok (encode exchangedDifference) ∧
    canonical? spacedDifference = canonical? (encode exchangedDifference) ∧
    (∀ t : Taxonomy, t.classify (encode exchangedDifference) .operatorSwap =
      t.classify spacedDifference .operatorSwap) ∧
    isStatementDeletion (encode exchangedDifference) = isStatementDeletion spacedDifference ∧
    ∀ t : Taxonomy, t.selectiveLabel (encode exchangedDifference) .offutt =
      t.selectiveLabel spacedDifference .offutt := by
  have hcanonical : canonical? spacedDifference = .ok (encode exchangedDifference) := by decide
  have hplain : exchangedDifference.HasPlainOperands := by
    have htexts : ∀ texts ∈ [["@1", "V2"], ["V2", "@1"]], ∀ o ∈ texts, IsPlain o := by decide
    exact ⟨htexts _ (by decide), htexts _ (by decide)⟩
  obtain ⟨hdecodes, hread, halike, _, hanswers⟩ := canonical_answers spacedDifference
  have hname := (canonical_answers (encode exchangedDifference)).2.2.2.1 _ hplain rfl
  have hdecoded := hdecodes.1 ⟨_, hcanonical⟩
  obtain ⟨hclasses, hdeletion, hlabels⟩ := hanswers _ hcanonical
  exact ⟨hdecoded, by decide, hcanonical, (hread _ hcanonical).1, hplain, hname,
    (halike hdecoded _).1 (hread _ hcanonical).1.symm, fun t => hclasses t _ (by decide),
    hdeletion, fun t => hlabels t _⟩

end RuleName

end MutationRules
