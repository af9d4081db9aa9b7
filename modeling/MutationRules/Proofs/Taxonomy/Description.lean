import MutationRules.Proofs.Taxonomy.Build

/-!
# Complete descriptions

Declarations state formats, classes, roles, replacements and which operators commute. If they
describe every operator once and put none where its role forbids it, which can be checked,
they make a taxonomy, and this says of formats and replacements what they state.
-/

namespace MutationRules

namespace Declaration

/-! ## Statements -/

/-- A sort of declarations, by what they state. -/
structure Topic (β : Type) where
  /-- The declaration that states something. -/
  declare : β → Declaration
  /-- What a declaration states, if it is of this sort. -/
  stated? : Declaration → Option β
  /-- Only its own declaration states something. -/
  stated?_eq_some_iff : ∀ d statement, stated? d = some statement ↔ d = declare statement := by
    intro d statement
    cases d <;> simp [Prod.ext_iff]

namespace Topic

/-- The declarations of formats. -/
def format : Topic (List Operator × Format) where
  declare statement := .format statement.1 statement.2
  stated?
    | .format operators slots => some (operators, slots)
    | _ => none

/-- The declarations of classes. -/
def family : Topic (List Operator × List String) where
  declare statement := .family statement.1 statement.2
  stated?
    | .family operators parent => some (operators, parent)
    | _ => none

/-- The declarations of roles. -/
def role : Topic (List Operator × Role) where
  declare statement := .role statement.1 statement.2
  stated?
    | .role operators place => some (operators, place)
    | _ => none

/-- The declarations of commutative operators. -/
def commutative : Topic (List Operator) where
  declare := .commutative
  stated?
    | .commutative operators => some operators
    | _ => none

/-- The declarations of replacements: matchers, replacements and exclusions. -/
def table : Topic (List Operator × List Operator × List Operator) where
  declare statement := .replace statement.1 statement.2.1 statement.2.2
  stated?
    | .replace matchers replacers excluded => some (matchers, replacers, excluded)
    | _ => none

variable {β : Type} {topic : Topic β} {declarations part : List Declaration} {statement : β}

/-- What the declarations of a sort among some state. -/
def statements (topic : Topic β) (declarations : List Declaration) : List β :=
  declarations.filterMap topic.stated?

theorem mem_statements_iff :
    statement ∈ topic.statements declarations ↔ topic.declare statement ∈ declarations := by
  simp [statements, topic.stated?_eq_some_iff]

end Topic

end Declaration

namespace Taxonomy

open Declaration (Topic)

variable {settings : Settings} {declarations : List Declaration} {t : Taxonomy}

/-! ## Complete descriptions -/

/-- Declarations that describe every operator once and put none where its role forbids it. -/
structure IsDescription (declarations : List Declaration) : Prop where
  /-- Every operator has one format. -/
  formatted : ((declarations.flatMap Declaration.clauses).filterMap Clause.formatted?).Perm
    Operator.all
  /-- Every operator has one class. -/
  classed : ((declarations.flatMap Declaration.clauses).filterMap Clause.classed?).Perm
    Operator.all
  /-- No class has an empty segment. -/
  segmented : ∀ family ∈ Topic.family.statements declarations, "" ∉ family.2
  /-- No matcher is declared to replace only. -/
  matched : ∀ table ∈ Topic.table.statements declarations,
    ∀ place ∈ Topic.role.statements declarations, place.2 = .replaceOnly →
      ∀ op ∈ table.1, op ∉ place.1
  /-- No replacement is declared to be matched only. -/
  replacing : ∀ table ∈ Topic.table.statements declarations,
    ∀ place ∈ Topic.role.statements declarations, place.2 = .matchOnly →
      ∀ op ∈ table.2.1, op ∉ place.1

theorem isDescription_iff : IsDescription declarations ↔
    ((declarations.flatMap Declaration.clauses).filterMap Clause.formatted?).Perm Operator.all ∧
    ((declarations.flatMap Declaration.clauses).filterMap Clause.classed?).Perm Operator.all ∧
    (∀ family ∈ Topic.family.statements declarations, "" ∉ family.2) ∧
    (∀ table ∈ Topic.table.statements declarations,
      ∀ place ∈ Topic.role.statements declarations, place.2 = .replaceOnly →
        ∀ op ∈ table.1, op ∉ place.1) ∧
    ∀ table ∈ Topic.table.statements declarations,
      ∀ place ∈ Topic.role.statements declarations, place.2 = .matchOnly →
        ∀ op ∈ table.2.1, op ∉ place.1 :=
  ⟨fun h => ⟨h.formatted, h.classed, h.segmented, h.matched, h.replacing⟩,
    fun ⟨formatted, classed, segmented, matched, replacing⟩ =>
      ⟨formatted, classed, segmented, matched, replacing⟩⟩

instance : DecidablePred IsDescription := fun _ => decidable_of_iff _ isDescription_iff.symm

/-- An operator has a role other than both sides only if it is declared. -/
theorem exists_role_of_draft {op : Operator} {place : Role} (hplace : place ≠ .both)
    (h : (Draft.ofClauses (declarations.flatMap Declaration.clauses)).role op = place) :
    ∃ operators, .role operators place ∈ declarations ∧ op ∈ operators := by
  apply (Clause.mem_clauses_iff (c := .role op place)).1
  apply Draft.mem_of_get?_roles
  rw [Draft.role] at h
  cases hrole : (Draft.ofClauses (declarations.flatMap Declaration.clauses)).roles.get? op with
  | none =>
    rw [hrole] at h
    exact absurd h.symm hplace
  | some p =>
    rw [hrole] at h
    exact congrArg some h

/-- Accepted settings and a complete description make a taxonomy. -/
theorem exists_ofDeclarations (hv : settings.validate = .ok ())
    (hd : IsDescription declarations) : ∃ t, ofDeclarations settings declarations = .ok t := by
  have hsegmented : ∀ c ∈ declarations.flatMap Declaration.clauses, c.Segmented := by
    intro c hc
    cases c with
    | family op parent =>
      obtain ⟨operators, hdeclared, _⟩ := Clause.mem_clauses_iff.1 hc
      exact hd.segmented (operators, parent) (Topic.mem_statements_iff.2 hdeclared)
    | format | role | commutative | replace => trivial
  have hdefect := Draft.defect?_ofClauses_eq_none_iff.2
    ⟨hd.formatted.nodup_iff.2 Operator.nodup_all, hd.classed.nodup_iff.2 Operator.nodup_all,
      hsegmented⟩
  have hdescribed : ∀ op : Operator,
      ((Draft.ofClauses (declarations.flatMap Declaration.clauses)).formats.get? op).isSome = true ∧
      ((Draft.ofClauses (declarations.flatMap Declaration.clauses)).classPaths.get? op).isSome =
        true := fun op =>
    ⟨Draft.isSome_formats_ofClauses.2 (hd.formatted.mem_iff.2 op.mem_all),
      (Draft.isSome_classPaths_ofClauses hsegmented).2 (hd.classed.mem_iff.2 op.mem_all)⟩
  have hplaced :
      (Draft.ofClauses (declarations.flatMap Declaration.clauses)).misplaced? = none := by
    rw [Draft.misplaced?_eq_none_iff]
    intro matcher hmatcher
    constructor
    · intro hrole
      obtain ⟨matchers, replacers, excluded, hdeclared, hm⟩ :=
        Clause.exists_matches_iff.1 (Draft.isSome_replacements_ofClauses.1 hmatcher)
      obtain ⟨operators, hplace, ho⟩ := exists_role_of_draft (by decide) hrole
      exact hd.matched (matchers, replacers, excluded) (Topic.mem_statements_iff.2 hdeclared)
        (operators, _) (Topic.mem_statements_iff.2 hplace) rfl _ hm ho
    · intro replacer hreplacer hrole
      obtain ⟨matchers, replacers, excluded, hdeclared, _, hr, _⟩ :=
        Clause.exists_allows_iff.1 (Draft.mem_replacers_ofClauses.1 hreplacer)
      obtain ⟨operators, hplace, ho⟩ := exists_role_of_draft (by decide) hrole
      exact hd.replacing (matchers, replacers, excluded) (Topic.mem_statements_iff.2 hdeclared)
        (operators, _) (Topic.mem_statements_iff.2 hplace) rfl _ hr ho
  obtain ⟨t, ht⟩ := Draft.exists_build_iff.2 ⟨hdefect, hdescribed, hplaced⟩
  exact ⟨t, ofDeclarations_eq_ok_iff.2 ⟨hv, ht⟩⟩

/-! ## What a taxonomy has of its description -/

/-- The operators of some declarations with the formats that are stated for them. -/
def statedFormats (declarations : List Declaration) : List (Operator × Format) :=
  (Topic.format.statements declarations).flatMap fun statement =>
    statement.1.map fun op => (op, statement.2)

/-- The matchers of some declarations with the replacements that are stated for them. -/
def statedPairs (declarations : List Declaration) : List (Operator × Operator) :=
  (Topic.table.statements declarations).flatMap fun table =>
    table.1.flatMap fun matcher =>
      (table.2.1.filter fun r => r ≠ matcher ∧ r ∉ table.2.2).map fun r => (matcher, r)

/-- The format of an operator is the one that is stated. -/
theorem format_eq_iff_mem_statedFormats (h : ofDeclarations settings declarations = .ok t)
    {op : Operator} {slots : Format} :
    t.format op = slots ↔ (op, slots) ∈ statedFormats declarations := by
  rw [format_eq_iff_of_built h, statedFormats, List.mem_flatMap]
  constructor
  · rintro ⟨operators, hdeclared, ho⟩
    exact ⟨(operators, slots), Topic.mem_statements_iff.2 hdeclared, List.mem_map.2 ⟨op, ho, rfl⟩⟩
  · rintro ⟨⟨operators, _⟩, hstated, hmem⟩
    obtain ⟨_, ho, hop⟩ := List.mem_map.1 hmem
    obtain ⟨rfl, rfl⟩ := Prod.mk.inj hop
    exact ⟨operators, Topic.mem_statements_iff.1 hstated, ho⟩

/-- A replacement is allowed if it is stated for the matcher. -/
theorem allows_iff_mem_statedPairs (h : ofDeclarations settings declarations = .ok t)
    {matcher replacer : Operator} :
    t.allows matcher replacer = true ↔ (matcher, replacer) ∈ statedPairs declarations := by
  rw [allows_iff_of_built h]
  simp only [statedPairs, List.mem_flatMap, List.mem_map, List.mem_filter, decide_eq_true_eq]
  constructor
  · rintro ⟨matchers, replacers, excluded, hdeclared, hm, hr, hallowed⟩
    exact ⟨(matchers, replacers, excluded), Topic.mem_statements_iff.2 hdeclared, matcher, hm,
      replacer, ⟨hr, hallowed⟩, rfl⟩
  · rintro ⟨⟨matchers, replacers, excluded⟩, hstated, m, hm, r, ⟨hr, hallowed⟩, hpair⟩
    obtain ⟨rfl, rfl⟩ := Prod.mk.inj hpair
    exact ⟨matchers, replacers, excluded, Topic.mem_statements_iff.1 hstated, hm, hr, hallowed⟩

/-- A complete description makes a taxonomy with the stated formats and replacements. -/
theorem exists_described (hd : IsDescription declarations) :
    ∃ t, ofDeclarations {} declarations = .ok t ∧
      (∀ op slots, t.format op = slots ↔ (op, slots) ∈ statedFormats declarations) ∧
      ∀ matcher replacer, t.allows matcher replacer = true ↔
        (matcher, replacer) ∈ statedPairs declarations := by
  obtain ⟨t, ht⟩ := exists_ofDeclarations Settings.validate_default hd
  exact ⟨t, ht, fun _ _ => format_eq_iff_mem_statedFormats ht,
    fun _ _ => allows_iff_mem_statedPairs ht⟩

/-- Declarations that describe all operators alike and put them under one parent. -/
def siblings (parent : List String) : List Declaration := [
  .format Operator.all [],
  .family Operator.all parent]

theorem isDescription_siblings {parent : List String} (h : "" ∉ parent) :
    IsDescription (siblings parent) where
  formatted := List.Perm.refl Operator.all
  classed := List.Perm.refl Operator.all
  segmented := by
    intro family hfamily
    obtain rfl : family = (Operator.all, parent) := List.mem_singleton.1 hfamily
    exact h
  matched := by simp [siblings, Topic.statements, Topic.table]
  replacing := by simp [siblings, Topic.statements, Topic.table]

/-- The classes of operators under one parent differ in their last segments. -/
theorem exists_siblings {parent : List String} (h : "" ∉ parent) :
    ∃ t, ofDeclarations {} (siblings parent) = .ok t ∧
      ∀ op, (t.classPath op).segments = parent ++ [op.token] := by
  obtain ⟨t, ht⟩ := exists_ofDeclarations Settings.validate_default (isDescription_siblings h)
  refine ⟨t, ht, fun op => ?_⟩
  obtain ⟨operators, parent', hdeclared, _, _, hsegments⟩ := exists_classPath_of_built ht op
  obtain ⟨_, rfl⟩ : operators = Operator.all ∧ parent' = parent := by
    simpa [siblings] using hdeclared
  exact hsegments

end Taxonomy

end MutationRules
