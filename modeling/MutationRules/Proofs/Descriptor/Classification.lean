import MutationRules.Descriptor.Basic
import MutationRules.Proofs.Classification.Refinement
import MutationRules.Proofs.Text.Order

/-!
# Classes of the mutants of a descriptor

A classification goes through ids one by one: an id without a record is passed over, and the
first record whose rule name cannot be read stops it. The mutants that are nobody's
duplicates are listed in order, so each of them is classified once, and the records of the
others are never read.
-/

namespace MutationRules

/-- Whether a mutant is listed as a duplicate. -/
def Duplicates.Drops (duplicates : Duplicates) (id : String) : Prop :=
  ∃ kept others, duplicates.get? kept = some others ∧ id ∈ others

namespace Descriptor

/-- Whether a mutant has a record and is nobody's duplicate. -/
def Keeps (descriptor : Descriptor) (duplicates : Duplicates) (id : String)
    (record : MutantRecord) : Prop :=
  descriptor.get? id = some record ∧ ¬ duplicates.Drops id

variable {descriptor descriptor' : Descriptor} {duplicates : Duplicates} {id : String}

theorem mem_dropped_iff :
    id ∈ OrderedSet.ofList duplicates.values.flatten ↔ duplicates.Drops id := by
  simp only [OrderedSet.mem_ofList, List.mem_flatten, OrderedMap.values, List.mem_map]
  constructor
  · rintro ⟨_, ⟨⟨kept, others⟩, hentry, rfl⟩, hid⟩
    exact ⟨kept, others, OrderedMap.mem_entries_iff.1 hentry, hid⟩
  · rintro ⟨kept, others, hget, hid⟩
    exact ⟨others, ⟨(kept, others), OrderedMap.mem_entries_iff.2 hget, rfl⟩, hid⟩

/-- The mutants that are nobody's duplicates are listed in order, each once. -/
theorem lists_candidates (descriptor : Descriptor) (duplicates : Duplicates) :
    Lists Text.Precedes (fun id => ∃ record, descriptor.Keeps duplicates id record)
      (descriptor.candidates duplicates) where
  ordered := descriptor.lists_keys.ordered.filter _
  mem_iff id := by
    rw [candidates, List.mem_filter, descriptor.lists_keys.mem_iff, Bool.not_eq_true',
      decide_eq_false_iff_not, mem_dropped_iff, ← exists_and_right]
    rfl

theorem keeps_iff {record : MutantRecord} : descriptor.Keeps duplicates id record ↔
    id ∈ descriptor.candidates duplicates ∧ descriptor.get? id = some record := by
  rw [(lists_candidates descriptor duplicates).mem_iff]
  constructor
  · exact fun h => ⟨⟨record, h⟩, h.1⟩
  · rintro ⟨⟨_, _, hid⟩, hrecord⟩
    exact ⟨hrecord, hid⟩

/-- The candidates depend on the records of mutants that are not dropped. -/
theorem candidates_congr
    (h : ∀ id, ¬ duplicates.Drops id → descriptor'.get? id = descriptor.get? id) :
    descriptor'.candidates duplicates = descriptor.candidates duplicates := by
  refine (lists_candidates descriptor' duplicates).eq_of_precedes ?_
  refine ⟨(lists_candidates descriptor duplicates).ordered, fun id => ?_⟩
  rw [(lists_candidates descriptor duplicates).mem_iff]
  refine exists_congr fun record => and_congr_left fun hid => ?_
  rw [h id hid]

end Descriptor

namespace Taxonomy

variable {t : Taxonomy} {g : Granularity} {descriptor descriptor' : Descriptor}
  {duplicates : Duplicates} {ids : List String} {name : String} {e : DecodeError}

/-! ## One mutant -/

/-- Whether a mutant is classified as its record says. -/
structure IsClassOf (t : Taxonomy) (g : Granularity) (id : String) (record : MutantRecord)
    (c : MutantClass) : Prop where
  /-- The mutant is named. -/
  id : c.id = id
  /-- Its rule is spelled as in the record. -/
  rule : c.rule = record.ruleName
  /-- Its class is that of the rule. -/
  label : t.classOf record.ruleName g = .ok c.label

/-- What becomes of one mutant. -/
def classifyRecord (t : Taxonomy) (g : Granularity) (mutant : String × MutantRecord) :
    Except DecodeError MutantClass := do
  return ⟨mutant.1, mutant.2.ruleName, ← t.classOf mutant.2.ruleName g⟩

theorem classifyMutants_eq : t.classifyMutants descriptor ids g =
    (ids.filterMap fun id => (descriptor.get? id).map (id, ·)).mapM (t.classifyRecord g) := rfl

theorem classifyRecord_eq_ok_iff {id : String} {record : MutantRecord} {c : MutantClass} :
    t.classifyRecord g (id, record) = .ok c ↔ t.IsClassOf g id record c := by
  rw [classifyRecord, bind_eq_ok_iff]
  constructor
  · rintro ⟨label, hlabel, hc⟩
    obtain rfl := Except.ok.inj hc
    exact ⟨rfl, rfl, hlabel⟩
  · rintro ⟨rfl, hrule, hlabel⟩
    exact ⟨c.label, hlabel, by rw [← hrule]; rfl⟩

theorem classifyRecord_eq_error_iff {id : String} {record : MutantRecord} :
    t.classifyRecord g (id, record) = .error e ↔ RuleName.decode record.ruleName = .error e := by
  rw [classifyRecord, bind_eq_error_iff, classOf_eq_error_iff]
  simp [pure, Except.pure]

theorem exists_classifyRecord_iff {id : String} {record : MutantRecord} :
    (∃ c, t.classifyRecord g (id, record) = .ok c) ↔ RuleName.Decodes record.ruleName := by
  rw [← exists_classOf_iff (t := t) (g := g)]
  constructor
  · rintro ⟨c, hc⟩
    exact ⟨c.label, (classifyRecord_eq_ok_iff.1 hc).label⟩
  · rintro ⟨label, hlabel⟩
    exact ⟨⟨id, record.ruleName, label⟩, classifyRecord_eq_ok_iff.2 ⟨rfl, rfl, hlabel⟩⟩

/-! ## Mutants one by one -/

/-- The mutants with a record are classified in order, as often as they are given. -/
theorem classifyMutants_eq_ok_iff {classes : List MutantClass} :
    t.classifyMutants descriptor ids g = .ok classes ↔
      List.Forall₂ (fun id c => ∃ record, descriptor.get? id = some record ∧
        t.IsClassOf g id record c) (ids.filter descriptor.contains) classes := by
  rw [classifyMutants_eq, mapM_eq_ok_iff, forall₂_filterMap_left_iff]
  simp only [Option.isSome_map, Option.map_eq_some_iff, exists_exists_and_eq_and,
    classifyRecord_eq_ok_iff]
  rfl

/-- The first rule name that cannot be read is the error. -/
theorem classifyMutants_eq_error_iff :
    t.classifyMutants descriptor ids g = .error e ↔ ∃ before id after,
      ids = before ++ id :: after ∧
      (∀ other ∈ before, ∀ record, descriptor.get? other = some record →
        RuleName.Decodes record.ruleName) ∧
      ∃ record, descriptor.get? id = some record ∧
        RuleName.decode record.ruleName = .error e := by
  rw [classifyMutants_eq, mapM_eq_error_iff, exists_split_filterMap_iff]
  simp only [Option.map_eq_some_iff, exists_exists_and_eq_and, classifyRecord_eq_error_iff,
    forall_exists_index, and_imp, forall_apply_eq_imp_iff₂, exists_classifyRecord_iff]

/-- Mutants are classified if the rule name of each record can be read. -/
theorem exists_classifyMutants_iff :
    (∃ classes, t.classifyMutants descriptor ids g = .ok classes) ↔
      ∀ id ∈ ids, ∀ record, descriptor.get? id = some record →
        RuleName.Decodes record.ruleName := by
  rw [classifyMutants_eq, exists_mapM_eq_ok_iff]
  simp only [List.mem_filterMap, Option.map_eq_some_iff, forall_exists_index, and_imp,
    Prod.forall, Prod.mk.injEq]
  constructor
  · intro h id hid record hrecord
    exact exists_classifyRecord_iff.1 (h id record id hid record hrecord rfl rfl)
  · rintro h _ _ id hid record hrecord rfl rfl
    exact exists_classifyRecord_iff.2 (h id hid record hrecord)

/-- Only the records of the given mutants count. -/
theorem classifyMutants_congr
    (h : ∀ id ∈ ids, descriptor'.get? id = descriptor.get? id) :
    t.classifyMutants descriptor' ids g = t.classifyMutants descriptor ids g := by
  rw [classifyMutants_eq, classifyMutants_eq]
  congr 1
  exact List.filterMap_congr fun id hid => by rw [h id hid]

/-! ## The candidates -/

/-- The candidates are classified in order, each once. -/
theorem lists_of_classifyMutants_eq_ok {classes : List MutantClass}
    (h : t.classifyMutants descriptor (descriptor.candidates duplicates) g = .ok classes) :
    Lists Text.Precedes (fun id => ∃ record, descriptor.Keeps duplicates id record)
      (classes.map MutantClass.id) := by
  have hcandidates := descriptor.lists_candidates duplicates
  have hall : ∀ id ∈ descriptor.candidates duplicates, descriptor.contains id = true := by
    intro id hid
    obtain ⟨record, hrecord, _⟩ := (hcandidates.mem_iff id).1 hid
    rw [OrderedMap.contains, hrecord, Option.isSome_some]
  rw [classifyMutants_eq_ok_iff, List.filter_eq_self.2 hall] at h
  have hids : List.Forall₂ Eq (descriptor.candidates duplicates) (classes.map MutantClass.id) := by
    refine List.forall₂_map_right_iff.2 (h.imp fun id c hclass => ?_)
    obtain ⟨_, _, hc⟩ := hclass
    exact hc.id.symm
  rw [List.forall₂_eq_eq_eq] at hids
  exact hids ▸ hcandidates

/-- The first candidate in order whose rule name cannot be read is the error. -/
theorem classifyMutants_candidates_eq_error_iff :
    t.classifyMutants descriptor (descriptor.candidates duplicates) g = .error e ↔
      ∃ id record, descriptor.Keeps duplicates id record ∧
        RuleName.decode record.ruleName = .error e ∧
        ∀ other record', descriptor.Keeps duplicates other record' →
          Text.Precedes other id → RuleName.Decodes record'.ruleName := by
  have hordered := (descriptor.lists_candidates duplicates).ordered
  have hsplit := @exists_split_iff_of_pairwise _ _ Text.not_precedes_of_precedes _ hordered
  simp only [Descriptor.keeps_iff]
  rw [classifyMutants_eq_error_iff]
  constructor
  · rintro ⟨before, id, after, hids, hbefore, record, hrecord, he⟩
    obtain ⟨hid, hfirst⟩ := hsplit.1 ⟨before, after, hids, hbefore⟩
    exact ⟨id, record, ⟨hid, hrecord⟩, he,
      fun other record' h hother => hfirst other h.1 hother record' h.2⟩
  · rintro ⟨id, record, ⟨hid, hrecord⟩, he, hfirst⟩
    obtain ⟨before, after, hids, hbefore⟩ := hsplit.2 ⟨hid,
      fun other h hother record' hrecord' => hfirst other record' ⟨h, hrecord'⟩ hother⟩
    exact ⟨before, id, after, hids, hbefore, record, hrecord, he⟩

/-- A classification of the mutants that are nobody's duplicates succeeds exactly if all of their
rule names can be read. It then lists each of them once, in order, by its record, and otherwise
gives the fault of the first name that cannot be read; the records of duplicates do not count. Any
ids are classified one by one, and those without a record are passed over. -/
theorem candidates_classified (t : Taxonomy) (descriptor : Descriptor) (g : Granularity) :
    (∀ duplicates : Duplicates,
      ((∃ classes, t.classifyMutants descriptor (descriptor.candidates duplicates) g =
          .ok classes) ↔
        ∀ id record, descriptor.Keeps duplicates id record →
          RuleName.Decodes record.ruleName) ∧
      (∀ classes, t.classifyMutants descriptor (descriptor.candidates duplicates) g =
          .ok classes →
        Lists Text.Precedes (fun id => ∃ record, descriptor.Keeps duplicates id record)
          (classes.map MutantClass.id) ∧
        ∀ c ∈ classes, ∃ record, descriptor.get? c.id = some record ∧
          c.rule = record.ruleName ∧ t.classOf record.ruleName g = .ok c.label) ∧
      (∀ e, t.classifyMutants descriptor (descriptor.candidates duplicates) g = .error e ↔
        ∃ id record, descriptor.Keeps duplicates id record ∧
          RuleName.decode record.ruleName = .error e ∧
          ∀ other record', descriptor.Keeps duplicates other record' →
            Text.Precedes other id → RuleName.Decodes record'.ruleName) ∧
      ∀ descriptor' : Descriptor,
        (∀ id, ¬ duplicates.Drops id → descriptor'.get? id = descriptor.get? id) →
        t.classifyMutants descriptor' (descriptor'.candidates duplicates) g =
          t.classifyMutants descriptor (descriptor.candidates duplicates) g) ∧
    ∀ ids : List String,
      (∀ classes, t.classifyMutants descriptor ids g = .ok classes ↔
        List.Forall₂ (fun id c => ∃ record, descriptor.get? id = some record ∧
          t.IsClassOf g id record c) (ids.filter descriptor.contains) classes) ∧
      ∀ e, t.classifyMutants descriptor ids g = .error e ↔ ∃ before id after,
        ids = before ++ id :: after ∧
        (∀ other ∈ before, ∀ record, descriptor.get? other = some record →
          RuleName.Decodes record.ruleName) ∧
        ∃ record, descriptor.get? id = some record ∧
          RuleName.decode record.ruleName = .error e := by
  refine ⟨fun duplicates => ⟨?_, fun classes h => ⟨lists_of_classifyMutants_eq_ok h, ?_⟩,
    fun e => classifyMutants_candidates_eq_error_iff, fun descriptor' h => ?_⟩,
    fun ids => ⟨fun classes => classifyMutants_eq_ok_iff, fun e => classifyMutants_eq_error_iff⟩⟩
  · simp only [exists_classifyMutants_iff, Descriptor.keeps_iff, and_imp]
    exact forall_congr' fun id => forall_comm
  · intro c hc
    obtain ⟨id, _, record, hrecord, hclass⟩ :=
      exists_mem_of_forall₂ (classifyMutants_eq_ok_iff.1 h).flip hc
    exact ⟨record, hclass.id ▸ hrecord, hclass.rule, hclass.label⟩
  · rw [Descriptor.candidates_congr h]
    refine classifyMutants_congr fun id hid => h id ?_
    obtain ⟨_, _, hkept⟩ := ((descriptor.lists_candidates duplicates).mem_iff id).1 hid
    exact hkept

/-- A descriptor of four mutants, of which the third has no readable rule name. -/
def fourMutants : Descriptor := .ofList [
  ("1", ⟨"STMT!DELSTMT", none, none, ∅⟩), ("2", ⟨"ADD$@1$@2$!SUB$@2$@1$", none, none, ∅⟩),
  ("3", ⟨"nonsense", none, none, ∅⟩), ("4", ⟨"STMT!TRAPSTMT", none, none, ∅⟩)]

/-- The first two mutants have readable rule names, and there is no ninth mutant. -/
theorem decodes_of_fourMutants : ∀ id ∈ ["1", "2", "9"], ∀ record,
    fourMutants.get? id = some record → RuleName.Decodes record.ruleName := by
  intro id hid record hrecord
  simp only [List.mem_cons, List.not_mem_nil, or_false] at hid
  rcases hid with rfl | rfl | rfl
  · cases hrecord
    exact ⟨⟨⟨.statement, []⟩, ⟨.deleteStatement, []⟩⟩, rfl⟩
  · cases hrecord
    exact ⟨⟨⟨.add, ["@1", "@2"]⟩, ⟨.sub, ["@2", "@1"]⟩⟩, rfl⟩
  · cases hrecord

/-- The third mutant and the fourth are duplicates of each other, the fourth also of itself, and the
second has a duplicate that is unknown. -/
def tangledDuplicates : Duplicates := .ofList [
  ("2", ["3", "9"]), ("3", ["4"]), ("4", ["3", "4"])]

/-- The first two mutants are classified; the third stops a classification it takes part in. -/
theorem fourMutants_classified : ∃ t, standard {} = .ok t ∧
    fourMutants.candidates tangledDuplicates = ["1", "2"] ∧
    (∃ classes, t.classifyMutants fourMutants (fourMutants.candidates tangledDuplicates) .operator =
        .ok classes ∧
      Lists Text.Precedes (fun id => ∃ record, fourMutants.Keeps tangledDuplicates id record)
        (classes.map MutantClass.id)) ∧
    t.classifyMutants fourMutants ["2", "9", "2", "3", "1"] .operator =
      .error (.malformedName "nonsense") := by
  obtain ⟨t, ht⟩ := Standard.exists_standard Settings.validate_default
  have hcandidates : fourMutants.candidates tangledDuplicates = ["1", "2"] := by decide
  obtain ⟨hall, hids⟩ := candidates_classified t fourMutants .operator
  obtain ⟨hok, hlists, _⟩ := hall tangledDuplicates
  have hdecodes : ∀ id record, fourMutants.Keeps tangledDuplicates id record →
      RuleName.Decodes record.ruleName := by
    intro id record h
    obtain ⟨hid, hrecord⟩ := Descriptor.keeps_iff.1 h
    rw [hcandidates] at hid
    exact decodes_of_fourMutants id (List.mem_append_left ["9"] hid) record hrecord
  obtain ⟨classes, hclasses⟩ := hok.2 hdecodes
  refine ⟨t, ht, hcandidates, ⟨classes, hclasses, (hlists classes hclasses).1⟩, ?_⟩
  refine ((hids _).2 _).2 ⟨["2", "9", "2"], "3", ["1"], rfl, fun other hother => ?_, _, rfl, rfl⟩
  have hsubset : ["2", "9", "2"] ⊆ ["1", "2", "9"] := by decide
  exact decodes_of_fourMutants other (hsubset hother)

end Taxonomy

end MutationRules
