import MutationRules.Proofs.Configuration.Contents
import MutationRules.Proofs.Configuration.Standard
import MutationRules.Proofs.RuleSet.Influence

/-!
# What configurations tell about settings

The text of the standard configuration tells the offsets, the counters and the pairs of
callees, as these are the bare operands of rules. It depends on nothing else in the
settings, so two settings have one configuration exactly if they agree.
-/

namespace MutationRules

/-- Sets with the same pairs of different members are equal, unless neither has such a pair. -/
theorem eq_or_card_lt_two {α : Type} [DecidableEq α] {s s' : Finset α}
    (h : ∀ a b, a ∈ s ∧ b ∈ s ∧ a ≠ b ↔ a ∈ s' ∧ b ∈ s' ∧ a ≠ b) :
    s = s' ∨ s.card < 2 ∧ s'.card < 2 := by
  have hcard : 1 < s.card ↔ 1 < s'.card := by
    simp only [Finset.one_lt_card_iff, h]
  by_cases hs : 1 < s.card
  · left
    have hs' := hcard.1 hs
    ext a
    constructor
    · intro ha
      obtain ⟨b, hb, hne⟩ := Finset.exists_mem_ne hs a
      exact ((h a b).1 ⟨ha, hb, hne.symm⟩).1
    · intro ha
      obtain ⟨b, hb, hne⟩ := Finset.exists_mem_ne hs' a
      exact ((h a b).2 ⟨ha, hb, hne.symm⟩).1
  · right
    have hs' := mt hcard.2 hs
    omega

namespace Standard

open MutationRules.Configuration (HasBareRule)

section

variable {settings : Settings} {t : Taxonomy} (h : Taxonomy.standard settings = .ok t)

include h

/-- The rules of a replacement that is given literals are those of its bare operands. -/
theorem hasBareRule_iff {set : RuleSet} (hset : t.synthesize = .ok set)
    {matcher replacer : Operator} (hp : (matcher, replacer) ∈ Taxonomy.supplyingPairs)
    {texts : List String} : HasBareRule set matcher ⟨replacer, texts⟩ ↔
      ∃ kinds ∈ t.bareOperands matcher replacer, kinds.map Kind.token = texts := by
  obtain ⟨hm, hformat, hr⟩ := of_mem_supplyingPairs h hp
  have hside : ∀ replacer kinds, (Taxonomy.bareBinding matcher replacer kinds).replacement.side =
      ⟨replacer, kinds.map Kind.token⟩ := by
    intro replacer kinds
    simp [Taxonomy.bareBinding, Expression.side, Function.comp_def]
  constructor
  · rintro ⟨g, hg, hkey, rule, hrule, hsame⟩
    obtain ⟨m, _, bs, groups, hbs, hgrouping, hg⟩ := Taxonomy.exists_grouping_of_mem hset hg
    obtain ⟨a, ha, hakey⟩ := hgrouping.exists_key hg
    obtain rfl : m = matcher := by
      rw [← Taxonomy.key_operator_of_mem_bindings hbs ha, hakey, hkey]
    obtain ⟨b, hb, _, rfl⟩ := (hgrouping.mem_rules_iff hg).1 hrule
    obtain ⟨replacer', _, kinds, hkinds, rfl⟩ :=
      (Taxonomy.mem_bindings_iff_of_format_eq_nil hformat hbs).1 hb
    obtain ⟨rfl, rfl⟩ := RuleName.Side.mk.inj ((hside replacer' kinds).symm.trans hsame)
    exact ⟨kinds, hkinds, rfl⟩
  · rintro ⟨kinds, hkinds, rfl⟩
    obtain ⟨g, hg, hkey, hrule⟩ := Taxonomy.exists_rule_of_bareOperands hset hm hformat hr hkinds
    exact ⟨g, hg, hkey, _, hrule, hside replacer kinds⟩

/-! ## Literals among bare operands -/

/-- The literals that a replacement is given last are those of the settings. -/
theorem mem_texts_iff {matcher replacer : Operator} {first : List Kind}
    {supplied : Constants → KindSet} {texts : Settings → List String}
    (hoperands : ∀ t : Taxonomy, t.bareOperands matcher replacer =
      (supplied t.constants).toList.map fun kind => first ++ [kind])
    (hsupplied : ∀ settings, supplied (.ofSettings settings) = .literals (texts settings))
    {literal : String} :
    (∃ kinds ∈ t.bareOperands matcher replacer,
      kinds.map Kind.token = first.map Kind.token ++ [literal]) ↔ literal ∈ texts settings := by
  rw [hoperands, Taxonomy.constants_of_built h, hsupplied]
  simp [Kind.token]

/-- The callees that a call is given are two that differ. -/
theorem mem_calleeNames_iff {a b : String} :
    (∃ kinds ∈ t.bareOperands .call .newCallee, kinds.map Kind.token = [a, b]) ↔
      a ∈ settings.calleeNames ∧ b ∈ settings.calleeNames ∧ a ≠ b := by
  have hne : ¬ b = a ↔ ¬ a = b := not_congr eq_comm
  simp [Taxonomy.bareOperands, Taxonomy.constants_of_built h, Constants.ofSettings, Kind.token, hne]

end

variable {settings settings' : Settings} {t t' : Taxonomy}

/-- Settings agree if their configurations have the same text. -/
theorem agrees_of_render_eq (h : Taxonomy.standard settings = .ok t)
    (h' : Taxonomy.standard settings' = .ok t') {set set' : RuleSet}
    (hset : t.synthesize = .ok set) (hset' : t'.synthesize = .ok set') {withHeader : Bool}
    (htext : Configuration.render withHeader set = Configuration.render withHeader set') :
    settings.Agrees settings' := by
  have hplain : ∀ g ∈ set.groups, g.IsPlain := fun _ hg =>
    (hasAdmissibleKinds h).isPlain_of_mem_groups hset hg
  have hplain' : ∀ g ∈ set'.groups, g.IsPlain := fun _ hg =>
    (hasAdmissibleKinds h').isPlain_of_mem_groups hset' hg
  have htold : ∀ {matcher replacer : Operator} {texts : List String},
      (matcher, replacer) ∈ Taxonomy.supplyingPairs →
        ((∃ kinds ∈ t.bareOperands matcher replacer, kinds.map Kind.token = texts) ↔
          ∃ kinds ∈ t'.bareOperands matcher replacer, kinds.map Kind.token = texts) := by
    intro matcher replacer texts hp
    rw [← hasBareRule_iff h hset hp, ← hasBareRule_iff h' hset' hp]
    exact ⟨.of_render_eq hplain hplain' htext, .of_render_eq hplain' hplain htext.symm⟩
  have hsame : ∀ {matcher replacer : Operator} (first : List Kind) (supplied : Constants → KindSet)
      (texts : Settings → List String), (matcher, replacer) ∈ Taxonomy.supplyingPairs →
        (∀ t : Taxonomy, t.bareOperands matcher replacer =
          (supplied t.constants).toList.map fun kind => first ++ [kind]) →
        (∀ settings, supplied (.ofSettings settings) = .literals (texts settings)) →
          (texts settings).toFinset = (texts settings').toFinset := by
    intro matcher replacer first supplied texts hp hoperands hsupplied
    ext literal
    rw [List.mem_toFinset, List.mem_toFinset, ← mem_texts_iff h hoperands hsupplied, htold hp,
      mem_texts_iff h' hoperands hsupplied]
  exact {
    scalarConstants := hsame [.arithConst] Constants.scalarConstants Settings.scalarConstants
      (show (.arithConst, .add) ∈ _ by decide) (fun _ => rfl) fun _ => rfl
    shuffleCounters := hsame [] Constants.shuffleCounters Settings.shuffleCounters
      (show (.call, .shuffleArguments) ∈ _ by decide) (fun _ => rfl) fun _ => rfl
    caseRemovalCounters := hsame [] Constants.caseRemovalCounters Settings.caseRemovalCounters
      (show (.switch, .removeCases) ∈ _ by decide) (fun _ => rfl) fun _ => rfl
    calleeNames := eq_or_card_lt_two fun a b => by
      simp only [List.mem_toFinset]
      rw [← mem_calleeNames_iff h, htold (by decide), mem_calleeNames_iff h'] }

end Standard

namespace Configuration

/-- The standard configurations of accepted settings have the same text exactly if the settings
agree. In particular the text does not depend on the order of literals and on repeats. -/
theorem render_eq_iff_agrees (settings settings' : Settings) (hv : settings.validate = .ok ())
    (hv' : settings'.validate = .ok ()) :
    ∃ t set t' set', Taxonomy.standard settings = .ok t ∧ t.synthesize = .ok set ∧
      Taxonomy.standard settings' = .ok t' ∧ t'.synthesize = .ok set' ∧
      (∀ withHeader, render withHeader set = render withHeader set' ↔
        settings.Agrees settings') ∧
      (settings.scalarConstants.toFinset = settings'.scalarConstants.toFinset →
        settings.shuffleCounters.toFinset = settings'.shuffleCounters.toFinset →
        settings.caseRemovalCounters.toFinset = settings'.caseRemovalCounters.toFinset →
        settings.calleeNames.toFinset = settings'.calleeNames.toFinset →
          ∀ withHeader, render withHeader set = render withHeader set') := by
  obtain ⟨t, set, ht, hset, _⟩ := Settings.synthesizes_of_validate hv
  obtain ⟨t', set', ht', hset', _⟩ := Settings.synthesizes_of_validate hv'
  have hsame : settings.Agrees settings' → ∀ withHeader,
      render withHeader set = render withHeader set' := by
    intro hagrees withHeader
    rw [Standard.synthesize_eq_of_agrees ht ht' hagrees hset hset']
  refine ⟨t, set, t', set', ht, hset, ht', hset', fun withHeader => ⟨fun htext => ?_, fun h => ?_⟩,
    fun hscalars hshuffles hremovals hcallees => ?_⟩
  · exact Standard.agrees_of_render_eq ht ht' hset hset' htext
  · exact hsame h withHeader
  · exact hsame ⟨hscalars, hshuffles, hremovals, Or.inl hcallees⟩

/-- Default literals in another order and with a repeat. -/
def reorderedSettings : Settings where
  scalarConstants := ["1", "-1", "1"]
  calleeNames := ["basename", "dirname"]

/-- The reordered literals have the default configuration. -/
theorem reorderedSettings_render : ({} : Settings).validate = .ok () ∧
    reorderedSettings.validate = .ok () ∧
    ∃ t set t' set', Taxonomy.standard {} = .ok t ∧ t.synthesize = .ok set ∧
      Taxonomy.standard reorderedSettings = .ok t' ∧ t'.synthesize = .ok set' ∧
      ∀ withHeader, render withHeader set = render withHeader set' := by
  have hv : ({} : Settings).validate = .ok () := by decide
  have hv' : reorderedSettings.validate = .ok () := by decide
  obtain ⟨t, set, t', set', ht, hset, ht', hset', hiff, _⟩ :=
    render_eq_iff_agrees {} reorderedSettings hv hv'
  have hagrees : ({} : Settings).Agrees reorderedSettings :=
    ⟨by decide, rfl, rfl, Or.inl (by decide)⟩
  exact ⟨hv, hv', t, set, t', set', ht, hset, ht', hset', fun w => (hiff w).2 hagrees⟩

end Configuration

end MutationRules
