import Mathlib.Data.Finset.Card
import MutationRules.Proofs.RuleSet.Standard

/-!
# What settings change in the standard rule set

The slots of replacements that may be given literals admit no category, so they fit no
matcher with operands, and bindings of the other replacements do not depend on the
settings. Literals reach a rule as bare operands only. Two settings whose replacements
are given the same bare operands have one rule set.
-/

namespace MutationRules

namespace Taxonomy

variable {t t' : Taxonomy} {matcher replacer : Operator}

/-- A replacement without a kind in common with a matcher has no binding. -/
theorem bindAt?_eq_none (hslots : t.format replacer ≠ [])
    (hdisjoint : ∀ candidates ∈ t.format matcher, ∀ required ∈ t.format replacer,
      ∀ kind ∈ candidates, kind ∉ required) (placement : Placement) :
    t.bindAt? matcher replacer placement = none := by
  have hresolve : ∀ required ∈ t.format replacer, ∀ position kind,
      resolveAt (t.format matcher) required position ≠ some kind := by
    intro required hr position kind hkind
    obtain ⟨candidates, hc, hk⟩ := Option.bind_eq_some_iff.1 hkind
    exact hdisjoint candidates (List.mem_of_getElem? hc) required hr kind
      (KindSet.mem_of_resolve hk) (KindSet.mem_required_of_resolve hk)
  rw [Option.eq_none_iff_forall_ne_some]
  intro b hb
  cases bindAt?_eq_some_iff.1 hb with
  | whole hf hkey => exact hslots hf
  | slot hf hkind hkey => exact hresolve _ (hf ▸ List.mem_cons_self ..) _ _ hkind
  | pair hf hleft hright hkey => exact hresolve _ (hf ▸ List.mem_cons_self ..) _ _ hleft

/-- Bindings at placements depend on the formats of the matcher and the replacement and on whether
the operands of the replacement commute. -/
theorem filterMap_bindAt?_congr (hmatcher : t.format matcher = t'.format matcher)
    (hreplacer : t.format replacer = t'.format replacer)
    (hcommutes : t.isCommutative replacer = t'.isCommutative replacer) :
    (t.placements matcher replacer).filterMap (t.bindAt? matcher replacer) =
      (t'.placements matcher replacer).filterMap (t'.bindAt? matcher replacer) := by
  have hplacements : t.placements matcher replacer = t'.placements matcher replacer := by
    simp only [placements, hmatcher, hreplacer, hcommutes]
  rw [hplacements]
  refine List.filterMap_congr fun placement _ => ?_
  simp only [bindAt?, hmatcher, hreplacer]

end Taxonomy

namespace Standard

open Declaration (Topic)

variable {settings settings' : Settings} {t t' : Taxonomy} {matcher : Operator}
  (h : Taxonomy.standard settings = .ok t) (h' : Taxonomy.standard settings' = .ok t')

include h h'

/-! ## What settings do not change -/

theorem matchers_eq : t.matchers = t'.matchers := by
  refine Increasing.eq_of_mem_iff t.replacements.increasing t'.replacements.increasing fun op => ?_
  exact (mem_matchers_iff h).trans (mem_matchers_iff h').symm

theorem replacers_eq (matcher : Operator) : t.replacers matcher = t'.replacers matcher := by
  refine Increasing.eq_of_mem_iff (OrderedSet.increasing _) (OrderedSet.increasing _) fun op => ?_
  exact (mem_replacers_iff h).trans (mem_replacers_iff h').symm

theorem isCommutative_eq (op : Operator) : t.isCommutative op = t'.isCommutative op := by
  rw [Bool.eq_iff_iff, isCommutative_iff h, isCommutative_iff h']

/-- The format of an operator that is not given literals. -/
theorem format_eq {op : Operator} (ho : op ∉ literalOperators) : t.format op = t'.format op := by
  obtain ⟨operators, hdeclared, hmem⟩ :=
    (Taxonomy.format_eq_iff_of_built h).1 (Eq.refl (t.format op))
  rcases mem_formats_of_not_literal hdeclared (.ofSettings settings') with hliteral | hdeclared'
  · exact absurd (hliteral op hmem) ho
  · exact ((Taxonomy.format_eq_iff_of_built h').2 ⟨operators, hdeclared', hmem⟩).symm

/-- The format of a matcher. -/
theorem format_eq_of_mem_matchers (hm : matcher ∈ t.matchers) :
    t.format matcher = t'.format matcher := by
  have hall : ∀ table ∈ Topic.table.statements replacements, ∀ m ∈ table.1,
      m ∉ literalOperators := by
    decide
  obtain ⟨table, htable, hmem⟩ := (mem_matchers_iff h).1 hm
  exact format_eq h h' (hall table htable matcher hmem)

/-- The bindings of a matcher with operands. -/
theorem slotBindings_eq (hm : matcher ∈ t.matchers) (replacer : Operator) :
    (t.placements matcher replacer).filterMap (t.bindAt? matcher replacer) =
      (t'.placements matcher replacer).filterMap (t'.bindAt? matcher replacer) := by
  by_cases hliteral : replacer ∈ literalOperators
  · have hnone : ∀ {settings : Settings} {t : Taxonomy}, Taxonomy.standard settings = .ok t →
        matcher ∈ t.matchers →
        (t.placements matcher replacer).filterMap (t.bindAt? matcher replacer) = [] := by
      intro settings t h hm
      obtain ⟨hslots, hkinds⟩ := isLiteral_of_mem_format h hliteral
      refine List.filterMap_eq_nil_iff.2 fun placement _ =>
        Taxonomy.bindAt?_eq_none hslots ?_ placement
      intro candidates hc required hr kind hk hrequired
      have hcategory := mem_categories_of_mem_format h hm hc hk
      obtain ⟨text, rfl⟩ := hkinds required hr kind hrequired
      simp [Kind.categories] at hcategory
    rw [hnone h hm, hnone h' (matchers_eq h h' ▸ hm)]
  · exact Taxonomy.filterMap_bindAt?_congr (format_eq_of_mem_matchers h h' hm)
      (format_eq h h' hliteral) (isCommutative_eq h h' replacer)

/-- The groups of a matcher, if its replacements are given the same bare operands. -/
theorem synthesizeMatcher_eq (hm : matcher ∈ t.matchers)
    (hbare : ∀ replacer, t.bareOperands matcher replacer = t'.bareOperands matcher replacer) :
    t.synthesizeMatcher matcher = t'.synthesizeMatcher matcher := by
  obtain ⟨groups, hgroups⟩ := exists_groups h hm
  obtain ⟨groups', hgroups'⟩ := exists_groups h' (matchers_eq h h' ▸ hm)
  obtain ⟨bs, hbs, _, rfl⟩ := Taxonomy.synthesizeMatcher_eq_ok_iff.1 hgroups
  obtain ⟨bs', hbs', _, rfl⟩ := Taxonomy.synthesizeMatcher_eq_ok_iff.1 hgroups'
  rw [hgroups, hgroups']
  refine congrArg (fun bs => Except.ok (RuleGroup.collect bs)) ?_
  have hformat := format_eq_of_mem_matchers h h' hm
  have hreplacers := replacers_eq h h' matcher
  by_cases hnil : t.format matcher = []
  · rw [Taxonomy.bindings_eq_nullaryBindings hnil] at hbs
    rw [Taxonomy.bindings_eq_nullaryBindings (hformat ▸ hnil)] at hbs'
    obtain ⟨_, rfl⟩ := Taxonomy.nullaryBindings_eq_ok_iff.1 hbs
    obtain ⟨_, rfl⟩ := Taxonomy.nullaryBindings_eq_ok_iff.1 hbs'
    have hbareReplacers : t.bareReplacers matcher = t'.bareReplacers matcher := by
      unfold Taxonomy.bareReplacers
      split
      · rfl
      · exact hreplacers
    rw [hbareReplacers]
    refine List.flatMap_congr fun replacer _ => ?_
    rw [Taxonomy.bareBindings, Taxonomy.bareBindings, hbare replacer]
  · obtain ⟨_, rfl⟩ := (Taxonomy.bindings_eq_ok_iff hnil).1 hbs
    obtain ⟨_, rfl⟩ := (Taxonomy.bindings_eq_ok_iff (hformat ▸ hnil)).1 hbs'
    rw [hreplacers]
    exact List.flatMap_congr fun replacer _ => slotBindings_eq h h' hm replacer

/-- The rule set, if all replacements are given the same bare operands. -/
theorem synthesize_eq_ok {set : RuleSet}
    (hbare : ∀ matcher replacer,
      t.bareOperands matcher replacer = t'.bareOperands matcher replacer)
    (hset : t.synthesize = .ok set) : t'.synthesize = .ok set := by
  obtain ⟨parts, hparts, hflat, hnames⟩ := Taxonomy.synthesize_eq_ok_iff.1 hset
  refine Taxonomy.synthesize_eq_ok_iff.2 ⟨parts, ?_, hflat, hnames⟩
  rw [← matchers_eq h h']
  rw [forall₂_iff_getElem?] at hparts ⊢
  refine ⟨hparts.1, fun i m hi => ?_⟩
  obtain ⟨groups, hgroups, hok⟩ := hparts.2 i m hi
  rw [synthesizeMatcher_eq h h' (List.mem_of_getElem? hi) (hbare m)] at hok
  exact ⟨groups, hgroups, hok⟩

end Standard

/-! ## Settings that agree -/

/-- Whether settings give replacements the same literals: the same offsets and counters, and the
same callees unless neither names two, which could be exchanged. -/
structure Settings.Agrees (settings settings' : Settings) : Prop where
  /-- The offsets are the same. -/
  scalarConstants : settings.scalarConstants.toFinset = settings'.scalarConstants.toFinset
  /-- The counters for shuffles are the same. -/
  shuffleCounters : settings.shuffleCounters.toFinset = settings'.shuffleCounters.toFinset
  /-- The counters for removed cases are the same. -/
  caseRemovalCounters :
    settings.caseRemovalCounters.toFinset = settings'.caseRemovalCounters.toFinset
  /-- The callees are the same or too few. -/
  calleeNames : settings.calleeNames.toFinset = settings'.calleeNames.toFinset ∨
    settings.calleeNames.toFinset.card < 2 ∧ settings'.calleeNames.toFinset.card < 2

/-- Literals are kept as the set of their texts. -/
theorem KindSet.literals_eq_iff {texts texts' : List String} :
    literals texts = literals texts' ↔ texts.toFinset = texts'.toFinset := by
  rw [List.toFinset.ext_iff]
  constructor
  · intro h text
    have hmem : Kind.literal text ∈ literals texts ↔ Kind.literal text ∈ literals texts' := by
      rw [h]
    simpa using hmem
  · intro h
    refine OrderedSet.ext fun kind => ?_
    simp only [mem_literals, h]

namespace Standard

variable {settings settings' : Settings} {t t' : Taxonomy}

/-- A single callee is exchanged with none. -/
theorem bareOperands_newCallee_eq_nil (h : Taxonomy.standard settings = .ok t)
    (hfew : settings.calleeNames.toFinset.card < 2) :
    t.bareOperands .call .newCallee = [] := by
  have hsame := Finset.card_le_one.1 (Nat.le_of_lt_succ hfew)
  have hone : ∀ a ∈ t.constants.calleeNames, ∀ b ∈ t.constants.calleeNames, a = b := by
    rw [Taxonomy.constants_of_built h]
    intro a ha b hb
    obtain ⟨x, hx, rfl⟩ := KindSet.mem_literals.1 ha
    obtain ⟨y, hy, rfl⟩ := KindSet.mem_literals.1 hb
    rw [hsame x (List.mem_toFinset.2 hx) y (List.mem_toFinset.2 hy)]
  refine List.flatMap_eq_nil_iff.2 fun matched hmatched => ?_
  rw [List.map_eq_nil_iff, List.filter_eq_nil_iff]
  intro replacing hreplacing
  rw [hone replacing hreplacing matched hmatched]
  simp

/-- Replacements are given the same bare operands by settings that agree. -/
theorem bareOperands_eq (h : Taxonomy.standard settings = .ok t)
    (h' : Taxonomy.standard settings' = .ok t') (hagrees : settings.Agrees settings')
    (matcher replacer : Operator) :
    t.bareOperands matcher replacer = t'.bareOperands matcher replacer := by
  have hsupplied : ∀ (supplied : Constants → KindSet) (texts : Settings → List String),
      (∀ settings, supplied (.ofSettings settings) = .literals (texts settings)) →
        (texts settings).toFinset = (texts settings').toFinset →
          supplied t.constants = supplied t'.constants := by
    intro supplied texts hliterals hsame
    rw [Taxonomy.constants_of_built h, Taxonomy.constants_of_built h', hliterals, hliterals]
    exact KindSet.literals_eq_iff.2 hsame
  have hscalars := hsupplied Constants.scalarConstants Settings.scalarConstants (fun _ => rfl)
    hagrees.scalarConstants
  have hshuffles := hsupplied Constants.shuffleCounters Settings.shuffleCounters (fun _ => rfl)
    hagrees.shuffleCounters
  have hremovals := hsupplied Constants.caseRemovalCounters Settings.caseRemovalCounters
    (fun _ => rfl) hagrees.caseRemovalCounters
  cases matcher with
  | arithConst =>
    cases replacer with
    | add => simp only [Taxonomy.bareOperands, hscalars]
    | _ => rfl
  | call =>
    cases replacer with
    | shuffleArguments => simp only [Taxonomy.bareOperands, hshuffles]
    | newCallee =>
      rcases hagrees.calleeNames with hsame | ⟨hfew, hfew'⟩
      · simp only [Taxonomy.bareOperands, hsupplied Constants.calleeNames Settings.calleeNames
          (fun _ => rfl) hsame]
      · rw [bareOperands_newCallee_eq_nil h hfew, bareOperands_newCallee_eq_nil h' hfew']
    | _ => rfl
  | switch =>
    cases replacer with
    | shuffleCaseTargets => simp only [Taxonomy.bareOperands, hshuffles]
    | removeCases => simp only [Taxonomy.bareOperands, hremovals]
    | _ => rfl
  | _ => exact Taxonomy.bareOperands_eq_of_not_mem (by decide) replacer

/-- Settings that agree have one rule set. -/
theorem synthesize_eq_of_agrees (h : Taxonomy.standard settings = .ok t)
    (h' : Taxonomy.standard settings' = .ok t') (hagrees : settings.Agrees settings')
    {set set' : RuleSet} (hset : t.synthesize = .ok set) (hset' : t'.synthesize = .ok set') :
    set = set' := by
  have hok := synthesize_eq_ok h h' (bareOperands_eq h h' hagrees) hset
  exact Except.ok.inj (hok.symm.trans hset')

end Standard

end MutationRules
