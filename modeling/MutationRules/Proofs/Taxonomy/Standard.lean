import MutationRules.Proofs.Operand.Admissible
import MutationRules.Proofs.Ordered.Extensionality
import MutationRules.Proofs.Taxonomy.Description
import MutationRules.RuleSet.Synthesis
import MutationRules.Taxonomy.Standard

/-!
# The standard taxonomy is complete

The standard declarations describe every operator once, whatever the literals of the
settings, so accepted settings have a standard taxonomy. Its formats have at most two
slots, and its literals are those of the settings and the truth values.
-/

namespace MutationRules

namespace Standard

open Declaration (Topic)

variable {constants : Constants}

/-- The standard declarations of a sort are those of the part in which it is declared. -/
theorem mem_declarations_iff {β : Type} (topic : Topic β) {part : List Declaration}
    (hpart : topic.statements (declarations constants) = topic.statements part) (statement : β) :
    topic.declare statement ∈ declarations constants ↔ statement ∈ topic.statements part := by
  rw [← hpart, Topic.mem_statements_iff]

theorem mem_formats_iff {operators : List Operator} {slots : Format} :
    .format operators slots ∈ declarations constants ↔
      (operators, slots) ∈ Topic.format.statements (formats constants) :=
  mem_declarations_iff .format rfl (operators, slots)

/-- Replacements that may be given literals of the settings. -/
def literalOperators : List Operator :=
  [.constantValue, .newCallee, .shuffleArguments, .shuffleCaseTargets, .removeCases]

/-- The formats of other operators do not depend on the literals of the settings. -/
theorem mem_formats_of_not_literal {operators : List Operator} {slots : Format}
    (h : .format operators slots ∈ declarations constants) (constants' : Constants) :
    (∀ op ∈ operators, op ∈ literalOperators) ∨
      .format operators slots ∈ declarations constants' := by
  have hall : ∀ said ∈ Topic.format.statements (formats constants),
      (∀ op ∈ said.1, op ∈ literalOperators) ∨
        said ∈ Topic.format.statements (formats constants') := by
    simp [formats, Topic.statements, Topic.format, Operator.matchOnlyFamilies, literalOperators]
  exact (hall _ (mem_formats_iff.1 h)).imp_right mem_formats_iff.2

/-- The standard declarations describe every operator once. -/
theorem isDescription_declarations (constants : Constants) :
    Taxonomy.IsDescription (declarations constants) where
  -- the literals stand in formats only, so the operators may be read off for any settings
  formatted := show (((declarations (.ofSettings {})).flatMap Declaration.clauses).filterMap
      Clause.formatted?).Perm Operator.all by
    decide +kernel
  classed := show (((declarations (.ofSettings {})).flatMap Declaration.clauses).filterMap
      Clause.classed?).Perm Operator.all by
    decide +kernel
  segmented := show ∀ family ∈ Topic.family.statements classes, "" ∉ family.2 by decide +kernel
  matched := show ∀ table ∈ Topic.table.statements replacements,
      ∀ place ∈ Topic.role.statements roles, place.2 = .replaceOnly →
        ∀ op ∈ table.1, op ∉ place.1 by
    decide +kernel
  replacing := show ∀ table ∈ Topic.table.statements replacements,
      ∀ place ∈ Topic.role.statements roles, place.2 = .matchOnly →
        ∀ op ∈ table.2.1, op ∉ place.1 by
    decide +kernel

/-- A standard format has at most two slots. -/
theorem length_le_two {operators : List Operator} {slots : Format}
    (h : .format operators slots ∈ declarations constants) : slots.length ≤ 2 := by
  have hall : ∀ said ∈ Topic.format.statements (formats constants), said.2.length ≤ 2 := by
    simp [formats, Topic.statements, Topic.format, Operator.matchOnlyFamilies]
  exact hall _ (mem_formats_iff.1 h)

/-- Whether a kind is a category, a truth value or a literal of the settings. -/
def Admits (constants : Constants) (kind : Kind) : Prop :=
  kind ∈ Kind.categories ∨ kind ∈ Constants.booleans ∨ constants.Holds kind

/-- The slots of a standard format admit categories, truth values and literals of the settings. -/
theorem admits_of_mem {operators : List Operator} {slots : Format}
    (h : .format operators slots ∈ declarations constants) :
    ∀ candidates ∈ slots, ∀ kind ∈ candidates, Admits constants kind := by
  have hcategories : ∀ candidates : KindSet, (∀ k ∈ candidates.toList, k ∈ Kind.categories) →
      ∀ kind ∈ candidates, Admits constants kind := fun _ hall kind hk => Or.inl (hall kind hk)
  have harithmetic := hcategories .arithmetic (by decide)
  have hpointer := hcategories .pointer (by decide)
  have hscalar := hcategories (.single .arithVar) (by decide)
  have haddress := hcategories (.single .pointerVar) (by decide)
  have hbooleans : ∀ kind ∈ Constants.booleans, Admits constants kind :=
    fun kind hk => Or.inr (Or.inl hk)
  have hzero : ∀ kind ∈ KindSet.single Constants.zero, Admits constants kind := by
    intro kind hk
    have hall : ∀ k ∈ (KindSet.single Constants.zero).toList, k ∈ Constants.booleans := by decide
    exact hbooleans kind (hall kind hk)
  have hscalars : ∀ kind ∈ constants.scalarConstants, Admits constants kind :=
    fun kind hk => Or.inr (Or.inr (Or.inl hk))
  have hshuffles : ∀ kind ∈ constants.shuffleCounters, Admits constants kind :=
    fun kind hk => Or.inr (Or.inr (Or.inr (Or.inl hk)))
  have hremovals : ∀ kind ∈ constants.caseRemovalCounters, Admits constants kind :=
    fun kind hk => Or.inr (Or.inr (Or.inr (Or.inr (Or.inl hk))))
  have hcallees : ∀ kind ∈ constants.calleeNames, Admits constants kind :=
    fun kind hk => Or.inr (Or.inr (Or.inr (Or.inr (Or.inr hk))))
  have hall : ∀ said ∈ Topic.format.statements (formats constants),
      ∀ candidates ∈ said.2, ∀ kind ∈ candidates, Admits constants kind := by
    simp +contextual [formats, Topic.statements, Topic.format, Operator.matchOnlyFamilies, or_imp,
      harithmetic, hpointer, hscalar, haddress, hbooleans, hzero, hscalars, hshuffles, hremovals,
      hcallees]
  exact hall _ (mem_formats_iff.1 h)

/-- The slots of a standard format admit categories only, unless its operators are never
matched. -/
theorem mem_categories_of_mem {operators : List Operator} {slots : Format}
    (h : .format operators slots ∈ declarations constants) :
    (∀ op ∈ operators, op ∈ Operator.replaceOnly) ∨
      ∀ candidates ∈ slots, ∀ kind ∈ candidates.toList, kind ∈ Kind.categories := by
  have hall : ∀ said ∈ Topic.format.statements (formats constants),
      (∀ op ∈ said.1, op ∈ Operator.replaceOnly) ∨
        ∀ candidates ∈ said.2, ∀ kind ∈ candidates.toList, kind ∈ Kind.categories := by
    have hcategories : ∀ candidates ∈ [KindSet.arithmetic, .pointer, .single .arithVar,
        .single .pointerVar], ∀ kind ∈ candidates.toList, kind ∈ Kind.categories := by decide
    have hreplace : ∀ op ∈ [Operator.keepOperand, .constantValue, .newCallee, .shuffleArguments,
        .shuffleCaseTargets, .removeCases], op ∈ Operator.replaceOnly := by decide
    simp only [List.forall_mem_cons] at hcategories hreplace
    simp +contextual [formats, Topic.statements, Topic.format, Operator.matchOnlyFamilies,
      hcategories, hreplace]
  exact hall _ (mem_formats_iff.1 h)

/-! ## The taxonomy of accepted settings -/

/-- Accepted settings have a standard taxonomy. -/
theorem exists_standard {settings : Settings} (hv : settings.validate = .ok ()) :
    ∃ t, Taxonomy.standard settings = .ok t :=
  Taxonomy.exists_ofDeclarations hv (isDescription_declarations _)

variable {settings : Settings} {t : Taxonomy} (h : Taxonomy.standard settings = .ok t)

include h

/-- A standard taxonomy has at most two slots per operator. -/
theorem length_format_le (op : Operator) : (t.format op).length ≤ 2 := by
  obtain ⟨operators, hdeclared, _⟩ := (Taxonomy.format_eq_iff_of_built h).1 (Eq.refl (t.format op))
  exact length_le_two hdeclared

/-- A standard taxonomy admits categories, truth values and literals of its settings. -/
theorem admits_of_mem_format {op : Operator} {candidates : KindSet}
    (hc : candidates ∈ t.format op) {kind : Kind} (hk : kind ∈ candidates) :
    Admits (.ofSettings settings) kind := by
  obtain ⟨operators, hdeclared, _⟩ := (Taxonomy.format_eq_iff_of_built h).1 (Eq.refl (t.format op))
  exact admits_of_mem hdeclared candidates hc kind hk

/-- The matchers of a standard taxonomy are those of the tables. -/
theorem mem_matchers_iff {matcher : Operator} : matcher ∈ t.matchers ↔
    ∃ table ∈ Topic.table.statements replacements, matcher ∈ table.1 := by
  rw [Taxonomy.mem_matchers_iff_of_built h]
  constructor
  · rintro ⟨matchers, replacers, excluded, hdeclared, hm⟩
    exact ⟨_, (mem_declarations_iff .table rfl (_, _, _)).1 hdeclared, hm⟩
  · rintro ⟨table, hstated, hm⟩
    exact ⟨_, _, _, (mem_declarations_iff .table rfl table).2 hstated, hm⟩

/-- The formats of standard matchers admit categories only. -/
theorem mem_categories_of_mem_format {matcher : Operator} (hm : matcher ∈ t.matchers)
    {candidates : KindSet} (hc : candidates ∈ t.format matcher) {kind : Kind}
    (hk : kind ∈ candidates) : kind ∈ Kind.categories := by
  obtain ⟨operators, hdeclared, ho⟩ :=
    (Taxonomy.format_eq_iff_of_built h).1 (Eq.refl (t.format matcher))
  have hmatched : ∀ table ∈ Topic.table.statements replacements, ∀ m ∈ table.1,
      m ∉ Operator.replaceOnly := by decide
  obtain ⟨table, htable, hmem⟩ := (mem_matchers_iff h).1 hm
  rcases mem_categories_of_mem hdeclared with hreplace | hall
  · exact absurd (hreplace matcher ho) (hmatched table htable matcher hmem)
  · exact hall candidates hc kind hk

/-- Arithmetic operators take two arithmetic values. -/
theorem format_arithmetic {op : Operator} (ho : op ∈ Operator.arithmetic) :
    t.format op = [.arithmetic, .arithmetic] :=
  (Taxonomy.format_eq_iff_of_built h).2
    ⟨Operator.arithmetic, by simp [declarations, formats], ho⟩

/-- The new callee takes the matched and the replacing one. -/
theorem format_newCallee : t.format .newCallee =
    [.literals settings.calleeNames, .literals settings.calleeNames] :=
  (Taxonomy.format_eq_iff_of_built h).2
    ⟨[.newCallee], by simp [declarations, formats, Constants.ofSettings], List.mem_singleton_self _⟩

/-- A constant value is an offset, zero or a truth value. -/
theorem format_constantValue : t.format .constantValue =
    [((KindSet.literals settings.scalarConstants).union (KindSet.single Constants.zero)).union
      Constants.booleans] :=
  (Taxonomy.format_eq_iff_of_built h).2
    ⟨[.constantValue], by simp [declarations, formats, Constants.ofSettings],
      List.mem_singleton_self _⟩

/-- Arguments and case targets are shuffled by a counter. -/
theorem format_shuffle {op : Operator}
    (ho : op ∈ [Operator.shuffleArguments, .shuffleCaseTargets]) :
    t.format op = [.literals settings.shuffleCounters] :=
  (Taxonomy.format_eq_iff_of_built h).2
    ⟨[.shuffleArguments, .shuffleCaseTargets],
      by simp [declarations, formats, Constants.ofSettings], ho⟩

/-- Cases are removed by a counter. -/
theorem format_removeCases : t.format .removeCases = [.literals settings.caseRemovalCounters] :=
  (Taxonomy.format_eq_iff_of_built h).2
    ⟨[.removeCases], by simp [declarations, formats, Constants.ofSettings],
      List.mem_singleton_self _⟩

/-- The slots of replacements that may be given literals admit nothing else. -/
theorem isLiteral_of_mem_format {op : Operator} (ho : op ∈ literalOperators) :
    t.format op ≠ [] ∧
      ∀ required ∈ t.format op, ∀ kind ∈ required, ∃ text, .literal text = kind := by
  cases op with
  | constantValue =>
    rw [format_constantValue h]
    refine ⟨List.cons_ne_nil _ _, ?_⟩
    simp only [List.forall_mem_singleton, OrderedSet.mem_union, Constants.booleans,
      KindSet.mem_literals]
    rintro kind ((⟨text, _, rfl⟩ | hzero) | ⟨text, _, rfl⟩)
    · exact ⟨text, rfl⟩
    · exact ⟨"0", (List.mem_singleton.1 (OrderedSet.mem_ofList.1 hzero)).symm⟩
    · exact ⟨text, rfl⟩
  | newCallee => simp [format_newCallee h]
  | shuffleArguments | shuffleCaseTargets => simp [format_shuffle h]
  | removeCases => simp [format_removeCases h]
  | _ => exact absurd ho (by decide)

/-- Statements are removed without operands. -/
theorem format_removal {op : Operator} (ho : op ∈ [Operator.deleteStatement, .trapStatement]) :
    t.format op = [] :=
  (Taxonomy.format_eq_iff_of_built h).2
    ⟨[.deleteStatement, .trapStatement], by simp [declarations, formats], ho⟩

/-- Operators that are only matched take no operands. -/
theorem format_matchOnly (family : List Operator) (hf : family ∈ Operator.matchOnlyFamilies)
    {op : Operator} (ho : op ∈ family) : t.format op = [] := by
  have hall : ∀ family ∈ Operator.matchOnlyFamilies,
      (family, []) ∈ Topic.format.statements (formats (.ofSettings settings)) := by
    simp [formats, Topic.statements, Topic.format, Operator.matchOnlyFamilies]
  exact (Taxonomy.format_eq_iff_of_built h).2 ⟨family, mem_formats_iff.2 (hall family hf), ho⟩

/-- Operators without operands are only matched or remove statements. -/
theorem mem_of_format_eq_nil {op : Operator} (ho : t.format op = []) :
    op ∈ Taxonomy.nullaryMatchers ∨ op ∈ [Operator.deleteStatement, .trapStatement] := by
  obtain ⟨operators, hdeclared, hmem⟩ := (Taxonomy.format_eq_iff_of_built h).1 ho
  have hall : ∀ said ∈ Topic.format.statements (formats (.ofSettings settings)), said.2 = [] →
      ∀ op ∈ said.1, op ∈ Taxonomy.nullaryMatchers ∨
        op ∈ [Operator.deleteStatement, .trapStatement] := by
    simp [formats, Topic.statements, Topic.format, Operator.matchOnlyFamilies]
    decide
  exact hall _ (mem_formats_iff.1 hdeclared) rfl op hmem

/-- The replacements of a standard taxonomy are those of the tables. -/
theorem mem_replacers_iff {matcher replacer : Operator} : replacer ∈ t.replacers matcher ↔
    ∃ table ∈ Topic.table.statements replacements, matcher ∈ table.1 ∧ replacer ∈ table.2.1 ∧
      replacer ≠ matcher ∧ replacer ∉ table.2.2 := by
  rw [← Taxonomy.allows_iff, Taxonomy.allows_iff_of_built h]
  constructor
  · rintro ⟨matchers, replacers, excluded, hdeclared, hr⟩
    exact ⟨_, (mem_declarations_iff .table rfl (_, _, _)).1 hdeclared, hr⟩
  · rintro ⟨table, hstated, hr⟩
    exact ⟨_, _, _, (mem_declarations_iff .table rfl table).2 hstated, hr⟩

/-- The replacements of a matcher, read off the tables. -/
theorem replacers_eq_of_tables {matcher : Operator} {operators : List Operator}
    (hordered : operators.Pairwise fun a b => compare a b = .lt)
    (hall : ∀ r ∈ Operator.all, r ∈ operators ↔ ∃ table ∈ Topic.table.statements replacements,
      matcher ∈ table.1 ∧ r ∈ table.2.1 ∧ r ≠ matcher ∧ r ∉ table.2.2) :
    t.replacers matcher = operators := by
  apply Increasing.eq_of_mem_iff (OrderedSet.increasing _) hordered
  intro r
  exact (mem_replacers_iff h).trans (hall r r.mem_all).symm

/-- A call is removed, or given another callee or other arguments. -/
theorem replacers_call : t.replacers .call =
    [.deleteStatement, .trapStatement, .newCallee, .shuffleArguments] :=
  replacers_eq_of_tables h (by decide) (by decide +kernel)

/-- A switch is removed, or given other targets or fewer cases. -/
theorem replacers_switch : t.replacers .switch =
    [.deleteStatement, .trapStatement, .shuffleCaseTargets, .removeCases] :=
  replacers_eq_of_tables h (by decide) (by decide +kernel)

/-- The commutative operators of a standard taxonomy are those declared so. -/
theorem isCommutative_iff {op : Operator} : t.isCommutative op = true ↔
    ∃ operators ∈ Topic.commutative.statements commutative, op ∈ operators := by
  rw [Taxonomy.isCommutative_iff_of_built h]
  exact exists_congr fun operators =>
    and_congr_left' (mem_declarations_iff .commutative rfl operators)

end Standard

end MutationRules
