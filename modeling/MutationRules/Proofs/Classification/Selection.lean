import MutationRules.Proofs.Classification.Spelling

/-!
# Deletions and selected mutations by class

Whether a rule deletes a statement and how a selective set labels it is found out from the
two class paths of its operators. Where these are read back from the class of the rule, the
class alone decides both: it deletes if its replacing path ends in the mnemonic of deletion,
and is labelled by the first pattern that its paths meet.
-/

namespace MutationRules

namespace SelectiveSet

variable {patterns : List Pattern} {matched replacement : ClassPath}

/-- The label of the first pattern that two classes meet. -/
def labelOf? (patterns : List Pattern) (matched replacement : ClassPath) : Option String :=
  (patterns.find? fun p => p.matched.holds matched && p.replacement.holds replacement).map
    Pattern.label

/-- The first pattern is passed over only if its classes do not meet it. -/
theorem labelOf?_cons (p : Pattern) (patterns : List Pattern) :
    labelOf? (p :: patterns) matched replacement =
      if p.matched.holds matched && p.replacement.holds replacement then some p.label
      else labelOf? patterns matched replacement := by
  cases hp : p.matched.holds matched && p.replacement.holds replacement with
  | true => simp only [labelOf?, List.find?_cons, hp, Option.map_some, if_true]
  | false => simp only [labelOf?, List.find?_cons, hp, Bool.false_eq_true, if_false]

/-- No label is given that no pattern has. -/
theorem mem_of_labelOf?_eq_some {label : String}
    (h : labelOf? patterns matched replacement = some label) :
    label ∈ patterns.map Pattern.label := by
  obtain ⟨p, hp, rfl⟩ := Option.map_eq_some_iff.1 h
  exact List.mem_map_of_mem (List.mem_of_find?_eq_some hp)

/-- The leaf of absolute values counts before all other patterns. -/
theorem labelOf?_offutt_eq_abs_iff (h : offutt.patterns? = some patterns) :
    labelOf? patterns matched replacement = some "ABS" ↔ replacement.leaf = "ABS" := by
  obtain rfl := Option.some.inj h
  rw [labelOf?_cons]
  by_cases hleaf : replacement.leaf = "ABS"
  · simp [Condition.holds, hleaf]
  · refine iff_of_false (fun hlabel => ?_) hleaf
    rw [if_neg (by simp [Condition.holds, hleaf])] at hlabel
    have hother := mem_of_labelOf?_eq_some hlabel
    simp at hother

end SelectiveSet

namespace Taxonomy

variable {settings : Settings} {declarations : List Declaration} {t : Taxonomy}
  {name : String} {decoded : RuleName}

/-- A rule is labelled by the paths of its operators. -/
theorem selectiveLabel_of_decode (hname : RuleName.decode name = .ok decoded) {set : SelectiveSet}
    {patterns : List SelectiveSet.Pattern} (h : set.patterns? = some patterns) :
    t.selectiveLabel name set = .ok (SelectiveSet.labelOf? patterns
      (t.classPath decoded.matched.operator) (t.classPath decoded.replacement.operator)) := by
  simp only [selectiveLabel, h, hname, SelectiveSet.labelOf?]

/-- A rule deletes if its replacing path ends in the mnemonic of deletion. -/
theorem isStatementDeletion_eq_leaf (ht : ofDeclarations settings declarations = .ok t)
    (hname : RuleName.decode name = .ok decoded) : RuleName.isStatementDeletion name =
      .ok (decide ((t.classPath decoded.replacement.operator).leaf = "DELSTMT")) := by
  have htoken : (t.classPath decoded.replacement.operator).leaf = "DELSTMT" ↔
      decoded.replacement.operator = .deleteStatement := by
    rw [leaf_classPath ht]
    constructor
    · intro h
      exact Operator.token_injective h
    · intro h
      rw [h]
      rfl
  rw [RuleName.isStatementDeletion_of_decode hname]
  simp only [htoken]

/-- The paths of a rule are read back from its class. -/
theorem HasPlainClasses.exists_label (h : t.HasPlainClasses)
    (ht : ofDeclarations settings declarations = .ok t)
    (hname : RuleName.decode name = .ok decoded) :
    ∃ label, t.classOf name .operator = .ok label ∧ ClassPath.parsePair? label =
      some (t.classPath decoded.matched.operator, t.classPath decoded.replacement.operator) := by
  have hpaths : t.pathsOf? decoded .operator =
      some (t.classPath decoded.matched.operator, t.classPath decoded.replacement.operator) := rfl
  obtain ⟨hm, hr⟩ := h.isReadable_of_pathsOf? ht hpaths
  exact ⟨_, classOf_of_pathsOf? hname hpaths, ClassPath.parsePair?_pairText hm hr⟩

/-- Deletions and labels are decided by classes, if no segment of a class has a divider: rules of
one class have the same answers. A rule deletes exactly if the replacing path that is read from its
class ends in the mnemonic of deletion. It has the label of absolute values, whatever other patterns
its paths meet, exactly if this path ends in their mnemonic. -/
theorem answers_by_class (ht : ofDeclarations settings declarations = .ok t)
    (hplain : t.HasPlainClasses) :
    (∀ name name', RuleName.Decodes name → RuleName.Decodes name' →
      t.classOf name .operator = t.classOf name' .operator → ∃ deletes label?,
        RuleName.isStatementDeletion name = .ok deletes ∧
        RuleName.isStatementDeletion name' = .ok deletes ∧
        t.selectiveLabel name .offutt = .ok label? ∧
        t.selectiveLabel name' .offutt = .ok label?) ∧
    ∀ name, RuleName.Decodes name → ∃ label matched replacement deletes label?,
      t.classOf name .operator = .ok label ∧
      ClassPath.parsePair? label = some (matched, replacement) ∧
      RuleName.isStatementDeletion name = .ok deletes ∧
      (deletes = true ↔ replacement.leaf = "DELSTMT") ∧
      t.selectiveLabel name .offutt = .ok label? ∧
      (label? = some "ABS" ↔ replacement.leaf = "ABS") := by
  obtain ⟨patterns, hpatterns⟩ : ∃ patterns, SelectiveSet.offutt.patterns? = some patterns :=
    ⟨_, rfl⟩
  constructor
  · rintro name name' ⟨decoded, hname⟩ ⟨decoded', hname'⟩ hsame
    have hpaths := hplain.paths_eq_of_classOf_eq ht hname hname' rfl rfl hsame
    obtain ⟨hm, hr⟩ := Prod.mk.inj hpaths
    refine ⟨_, _, isStatementDeletion_eq_leaf ht hname, ?_,
      selectiveLabel_of_decode hname hpatterns, ?_⟩
    · rw [hr]
      exact isStatementDeletion_eq_leaf ht hname'
    · rw [hm, hr]
      exact selectiveLabel_of_decode hname' hpatterns
  · rintro name ⟨decoded, hname⟩
    obtain ⟨label, hlabel, hread⟩ := hplain.exists_label ht hname
    exact ⟨label, _, _, _, _, hlabel, hread, isStatementDeletion_eq_leaf ht hname,
      decide_eq_true_iff, selectiveLabel_of_decode hname hpatterns,
      SelectiveSet.labelOf?_offutt_eq_abs_iff hpatterns⟩

/-- Where all operators stand under the class of arithmetic, absolute values still have their own
label, however their name is spelled. -/
theorem arithmeticSiblings_answered : ∃ t, ofDeclarations {} (siblings ["AO"]) = .ok t ∧
    t.HasPlainClasses ∧ RuleName.Decodes "V!ABS$V$" ∧ RuleName.Decodes " V$1 ! ABS" ∧
    t.classOf "V!ABS$V$" .operator = t.classOf " V$1 ! ABS" .operator ∧
    RuleName.isStatementDeletion "V!ABS$V$" = .ok false ∧
    RuleName.isStatementDeletion " V$1 ! ABS" = .ok false ∧
    t.selectiveLabel "V!ABS$V$" .offutt = .ok (some "ABS") ∧
    t.selectiveLabel " V$1 ! ABS" .offutt = .ok (some "ABS") := by
  obtain ⟨t, ht, hsegments⟩ := exists_siblings (show "" ∉ ["AO"] by decide)
  have hplain : t.HasPlainClasses := by
    intro op segment hsegment
    rw [hsegments] at hsegment
    rcases List.mem_pair.1 hsegment with rfl | rfl
    · decide
    · exact (ClassPath.isSegment_token op).2
  have hname : RuleName.decode "V!ABS$V$" = .ok ⟨⟨.arithVar, []⟩, ⟨.abs, ["V"]⟩⟩ := by decide
  have hspaced : RuleName.decode " V$1 ! ABS" = .ok ⟨⟨.arithVar, ["1"]⟩, ⟨.abs, []⟩⟩ := by
    decide
  have hclass : t.classOf "V!ABS$V$" .operator = t.classOf " V$1 ! ABS" .operator :=
    (classOf_of_pathsOf? hname rfl).trans (classOf_of_pathsOf? hspaced rfl).symm
  obtain ⟨hsame, hanswers⟩ := answers_by_class ht hplain
  obtain ⟨deletes, label?, hdeletes, hdeletes', hlabel, hlabel'⟩ :=
    hsame _ _ ⟨_, hname⟩ ⟨_, hspaced⟩ hclass
  obtain ⟨label, matched, replacement, deletes', found?, hwhole, hread, hanswer, hdeletion,
    hfound, habs⟩ := hanswers _ ⟨_, hname⟩
  obtain rfl : deletes' = deletes := Except.ok.inj (hanswer.symm.trans hdeletes)
  obtain rfl : found? = label? := Except.ok.inj (hfound.symm.trans hlabel)
  have hleaf : replacement.leaf = "ABS" := by
    obtain ⟨label', hwhole', hread'⟩ := hplain.exists_label ht hname
    obtain rfl := Except.ok.inj (hwhole.symm.trans hwhole')
    obtain ⟨_, rfl⟩ := Prod.mk.inj (Option.some.inj (hread.symm.trans hread'))
    exact leaf_classPath ht .abs
  have hkept : deletes' = false := by
    rw [← Bool.not_eq_true, hdeletion, hleaf]
    decide
  have habsolute := habs.2 hleaf
  rw [hkept] at hdeletes hdeletes'
  rw [habsolute] at hlabel hlabel'
  exact ⟨t, ht, hplain, ⟨_, hname⟩, ⟨_, hspaced⟩, hclass, hdeletes, hdeletes', hlabel, hlabel'⟩

end Taxonomy

end MutationRules
