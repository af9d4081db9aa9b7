import MutationRules.Proofs.Descriptor.Classification
import MutationRules.Proofs.Ordered.Tally
import MutationRules.Report.Classification

/-!
# Histograms of finer and coarser classes

The histogram of some classes counts each label as often as it occurs. Names of one fine class
are of one coarse class, so what is counted under a coarse label is what is counted under the
fine labels that belong to it.
-/

namespace MutationRules

/-! ## Counts -/

namespace MutantClass

variable {classes : List MutantClass}

/-- A histogram tallies labels, each occurrence as one. -/
theorem histogram_eq_tally (classes : List MutantClass) :
    histogram classes = OrderedMap.tally label (fun _ => 1) classes := rfl

/-- The counts of some labels add up to the number of mutants with one of them. -/
theorem sumWhere_histogram (classes : List MutantClass) (p : String → Bool) :
    (histogram classes).sumWhere p = classes.countP fun c => p c.label := by
  rw [histogram_eq_tally, OrderedMap.sumWhere_tally, List.map_const',
    List.sum_replicate_nat, Nat.mul_one, List.countP_eq_length_filter]

/-- A label is counted if it occurs, and then as often as it does. -/
theorem get?_histogram_eq_some_iff {label : String} {count : Nat} :
    (histogram classes).get? label = some count ↔
      0 < count ∧ count = classes.countP fun c => c.label = label := by
  rw [histogram_eq_tally, OrderedMap.get?_tally_eq_some_iff, List.map_const',
    List.sum_replicate_nat, Nat.mul_one, ← List.countP_eq_length_filter]
  refine and_congr_left fun hcount => ?_
  rw [hcount, List.countP_pos_iff]
  simp

/-- Only labels that occur are counted. -/
theorem pos_of_get?_histogram {label : String} {count : Nat}
    (h : (histogram classes).get? label = some count) : 0 < count :=
  (get?_histogram_eq_some_iff.1 h).1

/-- The class with another label. -/
def relabel (f : String → String) (c : MutantClass) : MutantClass := { c with label := f c.label }

/-- What is counted under a new label was counted under those that became it. -/
theorem get?_histogram_relabel (f : String → String) {label : String} {count : Nat} :
    (histogram (classes.map (relabel f))).get? label = some count ↔
      0 < count ∧ count = (histogram classes).sumWhere fun old => f old = label := by
  rw [get?_histogram_eq_some_iff, List.countP_map, sumWhere_histogram]
  rfl

end MutantClass

namespace Taxonomy

variable {settings : Settings} {t : Taxonomy} {fine coarse g : Granularity}
  {descriptor : Descriptor} {ids : List String} {classes : List MutantClass}

/-! ## Coarser classes -/

/-- The coarser class of a name is that of its finer class. -/
theorem exists_coarsening (ht : standard settings = .ok t) (hpos : 1 ≤ coarse.level)
    (hlevel : coarse.level < fine.level) :
    ∃ coarsen : String → String, ∀ name label,
      t.classOf name fine = .ok label → t.classOf name coarse = .ok (coarsen label) := by
  have hsteps := Granularity.transGen_step hpos hlevel
  have hlabel : ∀ label, ∃ label', ∀ name,
      t.classOf name fine = .ok label → t.classOf name coarse = .ok label' := by
    intro label
    by_cases h : ∃ name, t.classOf name fine = .ok label
    · obtain ⟨name, hname⟩ := h
      obtain ⟨decoded, hdecoded⟩ := exists_classOf_iff.1 ⟨label, hname⟩
      obtain ⟨label', hlabel'⟩ := exists_classOf (t := t) hdecoded coarse
      refine ⟨label', fun name' hname' => ?_⟩
      obtain ⟨decoded', hdecoded'⟩ := exists_classOf_iff.1 ⟨label, hname'⟩
      rw [← hlabel']
      exact (hasPlainClasses_standard ht).classOf_eq_of_transGen ht hsteps hdecoded' hdecoded
        (hname'.trans hname.symm)
    · exact ⟨label, fun name hname => absurd ⟨name, hname⟩ h⟩
  choose coarsen hcoarsen using hlabel
  exact ⟨coarsen, fun name label => hcoarsen label name⟩

/-- Mutants that are classified are classified at coarser granularities, with coarser labels. -/
theorem classifyMutants_relabel {coarsen : String → String}
    (hcoarsen : ∀ name label,
      t.classOf name fine = .ok label → t.classOf name coarse = .ok (coarsen label))
    (h : t.classifyMutants descriptor ids fine = .ok classes) :
    t.classifyMutants descriptor ids coarse = .ok (classes.map (MutantClass.relabel coarsen)) := by
  rw [classifyMutants_eq_ok_iff] at h
  rw [classifyMutants_eq_ok_iff, List.forall₂_map_right_iff]
  refine h.imp fun id c ⟨record, hrecord, hc⟩ => ⟨record, hrecord, hc.id, hc.rule, ?_⟩
  exact hcoarsen _ _ hc.label

/-- As many mutants are classified as given ids have a record. -/
theorem length_of_classifyMutants_eq_ok
    (h : t.classifyMutants descriptor ids g = .ok classes) :
    classes.length = (ids.filter descriptor.contains).length :=
  (classifyMutants_eq_ok_iff.1 h).length_eq.symm

/-- With standard operators, a coarser granularity relabels the classes of a finer one, and its
histogram counts under each label what the finer one counts under the labels that became it. The
counts of any histogram are positive, and add up to the mutants that a report considers: those of
the given ids that have a record. -/
theorem histograms_agree (ht : standard settings = .ok t) :
    (∀ coarse fine : Granularity, 1 ≤ coarse.level → coarse.level < fine.level →
      ∃ coarsen : String → String,
        (∀ name label,
          t.classOf name fine = .ok label → t.classOf name coarse = .ok (coarsen label)) ∧
        ∀ (descriptor : Descriptor) ids classes,
          t.classifyMutants descriptor ids fine = .ok classes →
            t.classifyMutants descriptor ids coarse =
              .ok (classes.map (MutantClass.relabel coarsen)) ∧
            ∀ label count,
              (MutantClass.histogram (classes.map (MutantClass.relabel coarsen))).get? label =
                  some count ↔
                0 < count ∧
                count = (MutantClass.histogram classes).sumWhere fun old => coarsen old = label) ∧
    ∀ (g : Granularity) (descriptor : Descriptor) ids classes,
      t.classifyMutants descriptor ids g = .ok classes →
        (∀ label count, (MutantClass.histogram classes).get? label = some count → 0 < count) ∧
        (MutantClass.histogram classes).values.sum = (ids.filter descriptor.contains).length ∧
        ∀ level, (ClassificationReport.ofClasses classes level).considered =
          (ids.filter descriptor.contains).length := by
  refine ⟨fun coarse fine hpos hlevel => ?_, fun g descriptor ids classes h =>
    ⟨fun label count => MutantClass.pos_of_get?_histogram, ?_,
      fun level => length_of_classifyMutants_eq_ok h⟩⟩
  · obtain ⟨coarsen, hcoarsen⟩ := exists_coarsening ht hpos hlevel
    exact ⟨coarsen, hcoarsen, fun descriptor ids classes h =>
      ⟨classifyMutants_relabel hcoarsen h,
        fun label count => MutantClass.get?_histogram_relabel coarsen⟩⟩
  · rw [OrderedMap.sum_values, MutantClass.sumWhere_histogram, List.countP_true]
    exact length_of_classifyMutants_eq_ok h

/-- A mutant that is given twice counts twice, and an id without a record does not count. -/
theorem repeatedMutants_agree : ∃ t, standard {} = .ok t ∧ ∃ classes coarsen,
    t.classifyMutants fourMutants ["2", "9", "2", "1"] .operatorSwap = .ok classes ∧
    t.classifyMutants fourMutants ["2", "9", "2", "1"] .category =
      .ok (classes.map (MutantClass.relabel coarsen)) ∧
    (MutantClass.histogram classes).values.sum = 3 := by
  obtain ⟨t, ht⟩ := Standard.exists_standard Settings.validate_default
  have hsubset : ["2", "9", "2", "1"] ⊆ ["1", "2", "9"] := by decide
  obtain ⟨classes, hclasses⟩ := (exists_classifyMutants_iff (t := t) (g := .operatorSwap)).2
    fun id hid => decodes_of_fourMutants id (hsubset hid)
  obtain ⟨hcoarser, hcounts⟩ := histograms_agree ht
  obtain ⟨coarsen, _, hrelabel⟩ := hcoarser .category .operatorSwap (by decide) (by decide)
  obtain ⟨hcategories, _⟩ := hrelabel fourMutants _ classes hclasses
  obtain ⟨_, hsum, _⟩ := hcounts .operatorSwap fourMutants _ classes hclasses
  exact ⟨t, ht, classes, coarsen, hclasses, hcategories, hsum.trans (by decide)⟩

end Taxonomy

end MutationRules
