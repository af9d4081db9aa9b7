import MutationRules.Proofs.Ordered.Extensionality
import MutationRules.Proofs.Taxonomy.Description

/-!
# The verdict on declarations

Whether declarations make a taxonomy is settled by what they say about single operators, in
order. The first clause that repeats a format or a class, or leaves a segment of a class
empty, is refused whatever comes later. Without one, each operator needs a format and a
class, and the last roles of the operators must let them stand where the table puts them.
-/

namespace MutationRules

/-- A table of replacements is determined by its matchers and the replacements of each. -/
theorem ReplacementTable.ext {table table' : ReplacementTable}
    (hmatchers : ∀ matcher, matcher ∈ table.keys ↔ matcher ∈ table'.keys)
    (hreplacers : ∀ matcher replacer,
      replacer ∈ table.replacers matcher ↔ replacer ∈ table'.replacers matcher) :
    table = table' := by
  refine OrderedMap.ext fun matcher => ?_
  have hm := hmatchers matcher
  have hr : table.replacers matcher = table'.replacers matcher :=
    OrderedSet.ext (hreplacers matcher)
  rw [OrderedMap.mem_keys_iff, OrderedMap.mem_keys_iff] at hm
  rw [replacers, replacers] at hr
  cases h : table.get? matcher <;> cases h' : table'.get? matcher <;> simp_all

/-- What is said about single operators, in order. -/
abbrev History := List Clause

namespace History

/-- The clauses of some declarations. -/
abbrev ofDeclarations (declarations : List Declaration) : History :=
  declarations.flatMap Declaration.clauses

/-! ## What a history says -/

/-- Whether an operator is given a format. -/
def Formats (history : History) (op : Operator) : Prop := ∃ slots, .format op slots ∈ history

/-- Whether an operator is given a class. -/
def Classes (history : History) (op : Operator) : Prop := ∃ parent, .family op parent ∈ history

/-- Whether a path is a class that an operator is given, down to the operator's token. -/
def GivesClass (history : History) (op : Operator) (path : ClassPath) : Prop :=
  ∃ parent, .family op parent ∈ history ∧ path.segments = parent ++ [op.token]

/-- The role that an operator is given last, and both sides if it is given none. -/
def lastRole (history : History) (op : Operator) : Role :=
  (history.reverse.findSome? (Clause.role? op)).getD .both

/-- Whether a matcher has a table of replacements. -/
def Matches (history : History) (matcher : Operator) : Prop := ∃ c ∈ history, c.Matches matcher

/-- Whether an operator may replace a matcher. -/
def Allows (history : History) (matcher replacer : Operator) : Prop :=
  ∃ c ∈ history, c.Allows matcher replacer

/-! ## What is wrong with a history -/

/-- What is wrong with a clause that comes after some others. -/
inductive Refuses (before : History) : Clause → TaxonomyError → Prop
  /-- The operator is given a format again. -/
  | format {op : Operator} {slots : Format} (h : before.Formats op) :
      Refuses before (.format op slots) (.duplicateFormat op)
  /-- A segment of the class is empty. -/
  | segment {op : Operator} {parent : List String} (h : "" ∈ parent) :
      Refuses before (.family op parent) (.missingClassPath op)
  /-- The operator is given a class again. -/
  | family {op : Operator} {parent : List String} {first second : ClassPath} (h : "" ∉ parent)
      (hfirst : before.GivesClass op first) (hsecond : second.segments = parent ++ [op.token]) :
      Refuses before (.family op parent) (.duplicateClassPath op first second)

/-- Whether a clause of a history is refused after those before it. -/
def Records (history : History) (defect : TaxonomyError) : Prop :=
  ∃ before c after, history = before ++ c :: after ∧ Refuses before c defect

/-- Whether no clause of a history is refused. -/
def IsConsistent (history : History) : Prop := ∀ defect, ¬ history.Records defect

/-- Whether a defect is that of the first clause which is refused. -/
def RecordsFirst (history : History) (defect : TaxonomyError) : Prop :=
  ∃ before c after, history = before ++ c :: after ∧ IsConsistent before ∧ Refuses before c defect

/-- What an operator lacks; its format is asked for before its class. -/
inductive Lacks (history : History) (op : Operator) : TaxonomyError → Prop
  /-- It has no format. -/
  | format (h : ¬ history.Formats op) : Lacks history op (.unknownOperator op)
  /-- It has a format and no class. -/
  | family (hformat : history.Formats op) (h : ¬ history.Classes op) :
      Lacks history op (.missingClassPath op)

/-- What is wrong with the table of a matcher: its own role, or that of its first replacement that
is only matched. -/
inductive Misplaces (history : History) (matcher : Operator) : TaxonomyError → Prop
  /-- The matcher only replaces. -/
  | matcher (h : history.lastRole matcher = .replaceOnly) :
      Misplaces history matcher (.replaceOnlyMatcher matcher)
  /-- A replacement is only matched. -/
  | replacer {replacer : Operator} (hmatcher : history.lastRole matcher ≠ .replaceOnly)
      (hallowed : history.Allows matcher replacer)
      (h : history.lastRole replacer = .matchOnly)
      (hfirst : ∀ earlier, earlier.index < replacer.index → history.Allows matcher earlier →
        history.lastRole earlier ≠ .matchOnly) :
      Misplaces history matcher (.matchOnlyReplacer matcher replacer)

/-- Whether a taxonomy holds what a history says, and no more. -/
structure IsHeldBy (history : History) (t : Taxonomy) : Prop where
  /-- The formats are those given. -/
  format : ∀ op, .format op (t.format op) ∈ history
  /-- The classes are those given. -/
  classPath : ∀ op, history.GivesClass op (t.classPath op)
  /-- The last roles count. -/
  role : ∀ op, t.role op = history.lastRole op
  /-- There is a table for each matcher. -/
  matchers : ∀ matcher, matcher ∈ t.matchers ↔ history.Matches matcher
  /-- The table has the replacements. -/
  allows : ∀ matcher replacer, t.allows matcher replacer = true ↔ history.Allows matcher replacer
  /-- The commutative operators are those said to be. -/
  commutative : ∀ op, t.isCommutative op = true ↔ .commutative op ∈ history

/-- What becomes of a history with some literals: the taxonomy that holds it or its first defect. -/
inductive Verdict (constants : Constants) (history : History) :
    Except TaxonomyError Taxonomy → Prop
  /-- A clause is refused. -/
  | refused {defect : TaxonomyError} (h : history.RecordsFirst defect) :
      Verdict constants history (.error defect)
  /-- An operator is not described, and none before it. -/
  | incomplete {op : Operator} {defect : TaxonomyError} (hc : history.IsConsistent)
      (hfirst : ∀ earlier, earlier.index < op.index → ∀ e, ¬ history.Lacks earlier e)
      (h : history.Lacks op defect) : Verdict constants history (.error defect)
  /-- An operator is misplaced in the table of a matcher, and none in the tables before it. -/
  | misplaced {matcher : Operator} {defect : TaxonomyError} (hc : history.IsConsistent)
      (hdescribed : ∀ op e, ¬ history.Lacks op e) (hmatches : history.Matches matcher)
      (hfirst : ∀ earlier, earlier.index < matcher.index → history.Matches earlier →
        ∀ e, ¬ history.Misplaces earlier e)
      (h : history.Misplaces matcher defect) : Verdict constants history (.error defect)
  /-- Nothing is wrong. -/
  | complete {t : Taxonomy} (hc : history.IsConsistent) (hdescribed : ∀ op e, ¬ history.Lacks op e)
      (hplaced : ∀ matcher, history.Matches matcher → ∀ e, ¬ history.Misplaces matcher e)
      (h : history.IsHeldBy t) (hconstants : t.constants = constants) :
      Verdict constants history (.ok t)

/-! ## Refused clauses -/

variable {history : History} {c : Clause} {op : Operator} {defect : TaxonomyError}

/-- A clause is refused up to the last clause, or the last one is. -/
theorem records_concat : (history ++ [c]).Records defect ↔
    history.Records defect ∨ Refuses history c defect :=
  exists_split_concat_iff

/-- A history is consistent if it is so up to the last clause, which is not refused then. -/
theorem isConsistent_concat : (history ++ [c]).IsConsistent ↔
    history.IsConsistent ∧ ∀ defect, ¬ Refuses history c defect := by
  simp only [IsConsistent, records_concat, not_or, forall_and]

/-- The first refused clause comes before the last clause, or is the last one. -/
theorem recordsFirst_concat : (history ++ [c]).RecordsFirst defect ↔
    history.RecordsFirst defect ∨ history.IsConsistent ∧ Refuses history c defect :=
  exists_split_concat_iff

/-- What is recorded first stays so, whatever comes later. -/
theorem RecordsFirst.append (h : history.RecordsFirst defect) (more : History) :
    (history ++ more).RecordsFirst defect := by
  obtain ⟨before, c, after, rfl, hbefore, hc⟩ := h
  exact ⟨before, c, after ++ more, by simp, hbefore, hc⟩

theorem formats_iff : history.Formats op ↔ op ∈ history.filterMap Clause.formatted? := by
  rw [List.mem_filterMap]
  constructor
  · rintro ⟨slots, h⟩
    exact ⟨_, h, rfl⟩
  · rintro ⟨c, h, hc⟩
    cases c with
    | format o slots => exact ⟨slots, Option.some.inj hc ▸ h⟩
    | family | role | commutative | replace => cases hc

theorem classes_iff : history.Classes op ↔ op ∈ history.filterMap Clause.classed? := by
  rw [List.mem_filterMap]
  constructor
  · rintro ⟨parent, h⟩
    exact ⟨_, h, rfl⟩
  · rintro ⟨c, h, hc⟩
    cases c with
    | family o parent => exact ⟨parent, Option.some.inj hc ▸ h⟩
    | format | role | commutative | replace => cases hc

/-- A draft without a defect has the class paths that are given. -/
theorem get?_classPaths_eq_some_iff (h : (Draft.ofClauses history).defect? = none)
    {path : ClassPath} :
    (Draft.ofClauses history).classPaths.get? op = some path ↔ history.GivesClass op path := by
  obtain ⟨_, hclassed, hsegmented⟩ := Draft.defect?_ofClauses_eq_none_iff.1 h
  rw [Draft.get?_classPaths_ofClauses, Draft.findSome?_classPath?_eq_some_iff hclassed hsegmented]
  rfl

/-- A draft without a defect objects to the clauses that are refused. -/
theorem objection?_eq_some_iff (h : (Draft.ofClauses history).defect? = none) :
    c.objection? (Draft.ofClauses history) = some defect ↔ Refuses history c defect := by
  cases c with
  | format o slots =>
    rw [Clause.objection?, OrderedMap.contains, Option.ite_none_right_eq_some,
      Draft.isSome_formats_ofClauses, ← formats_iff]
    constructor
    · rintro ⟨hf, ⟨⟩⟩
      exact .format hf
    · rintro ⟨hf⟩
      exact ⟨hf, rfl⟩
  | family o parent =>
    rw [Clause.objection?]
    cases hp : ClassPath.ofSegments? (parent ++ [o.token]) with
    | none =>
      have hempty : "" ∈ parent := by
        by_contra hsound
        have hsome := (@ClassPath.isSome_ofSegments?_token parent o).2 hsound
        simp [hp] at hsome
      constructor
      · rintro ⟨⟩
        exact .segment hempty
      · rintro (_ | _ | ⟨hsound, _, _⟩)
        · rfl
        · exact absurd hempty hsound
    | some second =>
      obtain ⟨hempty, hsegments⟩ := ClassPath.ofSegments?_eq_some_iff.1 hp
      have hsound : "" ∉ parent := fun h => hempty (List.mem_append_left _ h)
      simp only [Option.map_eq_some_iff, get?_classPaths_eq_some_iff h]
      constructor
      · rintro ⟨first, hfirst, rfl⟩
        exact .family hsound hfirst hsegments
      · rintro (_ | hparent | ⟨_, hfirst, hsecond⟩)
        · exact absurd hparent hsound
        · obtain rfl := Option.some.inj
            (hp.symm.trans (ClassPath.ofSegments?_eq_some_iff.2 ⟨hempty, hsecond⟩))
          exact ⟨_, hfirst, rfl⟩
  | role | commutative | replace =>
    refine iff_of_false (by simp [Clause.objection?]) ?_
    rintro ⟨⟩

/-- A draft remembers the defect of the first clause that is refused, if there is one. -/
theorem defect?_ofClauses (history : History) :
    ((Draft.ofClauses history).defect? = none ↔ history.IsConsistent) ∧
      ∀ defect, (Draft.ofClauses history).defect? = some defect ↔ history.RecordsFirst defect := by
  induction history using List.reverseRecOn with
  | nil => simp [Draft.ofClauses, IsConsistent, Records, RecordsFirst]
  | append_singleton history c ih =>
    obtain ⟨hnone, hsome⟩ := ih
    constructor
    · rw [Draft.ofClauses_concat, Draft.defect?_assert, Option.or_eq_none_iff, isConsistent_concat,
        ← hnone]
      refine and_congr_right fun h => ?_
      simp only [Option.eq_none_iff_forall_ne_some, Ne, objection?_eq_some_iff h]
    · intro defect
      rw [Draft.ofClauses_concat, Draft.defect?_assert, Option.or_eq_some_iff, recordsFirst_concat,
        hsome, ← hnone]
      exact or_congr_right (and_congr_right objection?_eq_some_iff)

/-! ## Consistent histories -/

/-- The draft of a consistent history has no defect. -/
theorem IsConsistent.defect? (h : history.IsConsistent) :
    (Draft.ofClauses history).defect? = none :=
  (defect?_ofClauses history).1.2 h

/-- A draft has the format that a consistent history gives. -/
theorem IsConsistent.get?_formats (h : history.IsConsistent) {slots : Format} :
    (Draft.ofClauses history).formats.get? op = some slots ↔ .format op slots ∈ history := by
  obtain ⟨hformatted, _, _⟩ := Draft.defect?_ofClauses_eq_none_iff.1 h.defect?
  rw [Draft.get?_formats_ofClauses, Draft.findSome?_format?_eq_some_iff hformatted]

theorem role_ofClauses : (Draft.ofClauses history).role op = history.lastRole op := by
  rw [Draft.role, Draft.get?_roles_ofClauses, lastRole]

/-- A draft has an entry for an operator that lacks nothing, else it names what is lacking. -/
theorem IsConsistent.entry_eq_error_iff (h : history.IsConsistent) :
    (Draft.ofClauses history).entry op = .error defect ↔ history.Lacks op defect := by
  have hformats : history.Formats op ↔
      ((Draft.ofClauses history).formats.get? op).isSome = true := by
    rw [Draft.isSome_formats_ofClauses, formats_iff]
  have hclasses : history.Classes op ↔
      ((Draft.ofClauses history).classPaths.get? op).isSome = true := by
    obtain ⟨_, _, hsegmented⟩ := Draft.defect?_ofClauses_eq_none_iff.1 h.defect?
    rw [Draft.isSome_classPaths_ofClauses hsegmented, classes_iff]
  rw [Draft.entry]
  constructor
  · intro hentry
    cases hf : (Draft.ofClauses history).formats.get? op with
    | none =>
      rw [hf] at hentry
      cases hentry
      exact .format (by simp [hformats, hf])
    | some slots =>
      cases hc : (Draft.ofClauses history).classPaths.get? op with
      | none =>
        rw [hf, hc] at hentry
        cases hentry
        exact .family (by simp [hformats, hf]) (by simp [hclasses, hc])
      | some path =>
        rw [hf, hc] at hentry
        cases hentry
  · rintro (hf | ⟨hf, hc⟩)
    · rw [hformats, Option.not_isSome_iff_eq_none] at hf
      rw [hf]
    · rw [hformats, Option.isSome_iff_exists] at hf
      rw [hclasses, Option.not_isSome_iff_eq_none] at hc
      obtain ⟨slots, hf⟩ := hf
      rw [hf, hc]

theorem IsConsistent.exists_entry_iff (h : history.IsConsistent) :
    (∃ e, (Draft.ofClauses history).entry op = .ok e) ↔ ∀ e, ¬ history.Lacks op e := by
  simp only [← h.entry_eq_error_iff]
  cases (Draft.ofClauses history).entry op <;> simp

/-- A draft finds what is misplaced in the table of a matcher. -/
theorem misplacedIn?_ofClauses {matcher : Operator} :
    (Draft.ofClauses history).misplacedIn? matcher = some defect ↔
      history.Misplaces matcher defect := by
  simp only [Draft.misplacedIn?_eq_some_iff, role_ofClauses, Draft.mem_replacers_ofClauses]
  constructor
  · rintro (⟨hm, rfl⟩ | ⟨hm, replacer, hallowed, hr, rfl, hfirst⟩)
    · exact .matcher hm
    · exact .replacer hm hallowed hr fun o ho ha => hfirst o ha ho
  · rintro (hm | ⟨hm, hallowed, hr, hfirst⟩)
    · exact Or.inl ⟨hm, rfl⟩
    · exact Or.inr ⟨hm, _, hallowed, hr, rfl, fun o ha ho => hfirst o ho ha⟩

theorem misplaced?_ofClauses_eq_none_iff : (Draft.ofClauses history).misplaced? = none ↔
    ∀ matcher, history.Matches matcher → ∀ e, ¬ history.Misplaces matcher e := by
  rw [Draft.misplaced?_eq, List.findSome?_eq_none_iff]
  simp only [OrderedMap.mem_keys_iff, Draft.isSome_replacements_ofClauses,
    Option.eq_none_iff_forall_ne_some, Ne, misplacedIn?_ofClauses]
  rfl

theorem misplaced?_ofClauses_eq_some_iff : (Draft.ofClauses history).misplaced? = some defect ↔
    ∃ matcher, history.Matches matcher ∧ history.Misplaces matcher defect ∧
      ∀ earlier, earlier.index < matcher.index → history.Matches earlier →
        ∀ e, ¬ history.Misplaces earlier e := by
  simp only [Draft.misplaced?_eq_some_iff, Draft.isSome_replacements_ofClauses,
    Option.eq_none_iff_forall_ne_some, Ne, misplacedIn?_ofClauses]
  rfl

/-! ## The verdict -/

variable {constants : Constants} {t : Taxonomy}

/-- The taxonomy of a consistent history holds what it says. -/
theorem IsConsistent.isHeldBy_iff (h : history.IsConsistent) : history.IsHeldBy t ↔
    (∀ op, (Draft.ofClauses history).entry op = .ok ⟨t.entry op, t.operator_entry op⟩) ∧
      t.replacements = (Draft.ofClauses history).replacements ∧
      t.commutative = (Draft.ofClauses history).commutative := by
  simp only [Draft.entry_eq_ok_iff, h.get?_formats, get?_classPaths_eq_some_iff h.defect?,
    role_ofClauses]
  constructor
  · intro held
    refine ⟨fun op => ⟨held.format op, held.classPath op, (held.role op).symm⟩, ?_, ?_⟩
    · refine ReplacementTable.ext (fun matcher => ?_) fun matcher replacer => ?_
      · rw [OrderedMap.mem_keys_iff (m := (Draft.ofClauses history).replacements),
          Draft.isSome_replacements_ofClauses]
        exact held.matchers matcher
      · rw [Draft.mem_replacers_ofClauses]
        exact Taxonomy.allows_iff.symm.trans (held.allows matcher replacer)
    · refine OrderedSet.ext fun op => ?_
      rw [Draft.mem_commutative_ofClauses, ← held.commutative, Taxonomy.isCommutative,
        decide_eq_true_eq]
  · rintro ⟨hentries, hreplacements, hcommutative⟩
    refine {
      format := fun op => (hentries op).1
      classPath := fun op => (hentries op).2.1
      role := fun op => (hentries op).2.2.symm
      matchers := fun matcher => ?_
      allows := fun matcher replacer => ?_
      commutative := fun op => ?_ }
    · rw [Taxonomy.matchers, hreplacements, OrderedMap.mem_keys_iff,
        Draft.isSome_replacements_ofClauses]
      rfl
    · rw [Taxonomy.allows, hreplacements, ReplacementTable.allows, decide_eq_true_eq,
        Draft.mem_replacers_ofClauses]
      rfl
    · rw [Taxonomy.isCommutative, hcommutative, decide_eq_true_eq, Draft.mem_commutative_ofClauses]

/-- Clauses are completed to what the verdict on them says. -/
theorem build_ofClauses_eq_iff {result : Except TaxonomyError Taxonomy} :
    (Draft.ofClauses history).build constants = result ↔ history.Verdict constants result := by
  obtain ⟨hnone, hsome⟩ := defect?_ofClauses history
  cases result with
  | error defect =>
    rw [Draft.build_eq_error_iff, hsome, hnone]
    constructor
    · rintro (h | ⟨hc, ⟨op, hop, hfirst⟩ | ⟨hall, hm⟩⟩)
      · exact .refused h
      · exact .incomplete hc (fun o ho => hc.exists_entry_iff.1 (hfirst o ho))
          (hc.entry_eq_error_iff.1 hop)
      · obtain ⟨matcher, hmatches, h, hfirst⟩ := misplaced?_ofClauses_eq_some_iff.1 hm
        exact .misplaced hc (fun op => hc.exists_entry_iff.1 (hall op)) hmatches hfirst h
    · rintro (h | ⟨hc, hfirst, h⟩ | ⟨hc, hall, hmatches, hfirst, h⟩)
      · exact Or.inl h
      · exact Or.inr ⟨hc, Or.inl ⟨_, hc.entry_eq_error_iff.2 h,
          fun o ho => hc.exists_entry_iff.2 (hfirst o ho)⟩⟩
      · exact Or.inr ⟨hc, Or.inr ⟨fun op => hc.exists_entry_iff.2 (hall op),
          misplaced?_ofClauses_eq_some_iff.2 ⟨_, hmatches, h, hfirst⟩⟩⟩
  | ok t =>
    rw [Draft.build_eq_ok_iff, hnone, misplaced?_ofClauses_eq_none_iff]
    constructor
    · rintro ⟨hc, hentries, hplaced, hreplacements, hcommutative, hconstants⟩
      exact .complete hc (fun op => hc.exists_entry_iff.1 ⟨_, hentries op⟩) hplaced
        (hc.isHeldBy_iff.2 ⟨hentries, hreplacements, hcommutative⟩) hconstants
    · intro h
      cases h with
      | complete hc _ hplaced h hconstants =>
        obtain ⟨hentries, hreplacements, hcommutative⟩ := hc.isHeldBy_iff.1 h
        exact ⟨hc, hentries, hplaced, hreplacements, hcommutative, hconstants⟩

/-- What becomes of declarations is determined by what they say of single operators, in order. The
first clause that is refused stays the reason whatever else is declared, and a taxonomy holds, at
the place of each operator, its only format, its last role and a class that ends in its token. -/
theorem build_eq_iff_verdict (constants : Constants) (declarations : List Declaration) :
    (∀ result, (Draft.ofDeclarations declarations).build constants = result ↔
      (ofDeclarations declarations).Verdict constants result) ∧
    (∀ defect, (ofDeclarations declarations).RecordsFirst defect → ∀ more,
      (Draft.ofDeclarations (declarations ++ more)).build constants = .error defect) ∧
    ∀ t, (Draft.ofDeclarations declarations).build constants = .ok t → ∀ op : Operator,
      ∃ e, t.entries[op.index]? = some e ∧ e.operator = op ∧
        (∀ slots, .format op slots ∈ ofDeclarations declarations ↔ slots = e.format) ∧
        e.role = lastRole (ofDeclarations declarations) op ∧ e.classPath.leaf = op.token := by
  have hbuild : ∀ ds result, (Draft.ofDeclarations ds).build constants = result ↔
      (ofDeclarations ds).Verdict constants result := by
    intro ds result
    rw [Draft.ofDeclarations_eq, build_ofClauses_eq_iff]
  refine ⟨hbuild declarations, fun defect h more => ?_, fun t ht op => ?_⟩
  · rw [hbuild, ofDeclarations, List.flatMap_append]
    exact .refused (h.append _)
  · rw [hbuild] at ht
    cases ht with
    | complete hc _ _ held _ =>
      obtain ⟨parent, _, hsegments⟩ := held.classPath op
      refine ⟨t.entry op, t.getElem?_entries op, t.operator_entry op, fun slots => ?_,
        held.role op, ?_⟩
      · have hgiven := hc.get?_formats.2 (held.format op)
        rw [← hc.get?_formats, hgiven, Option.some.injEq]
        exact eq_comm
      · have hpath : (t.entry op).classPath.segments = parent ++ [op.token] := hsegments
        simp [ClassPath.leaf, hpath]

/-- Operators of one class without operands, where addition is given two roles. -/
def twoRoles : List Declaration := [
  .format Operator.all [], .family Operator.all ["CLASS"],
  .role [.add] .matchOnly, .role [.add] .replaceOnly]

/-- The second role of addition counts, and a second format is refused, whatever comes later. -/
theorem twoRoles_verdict : ∃ t, (Draft.ofDeclarations twoRoles).build (.ofSettings {}) = .ok t ∧
    (∃ e, t.entries[Operator.add.index]? = some e ∧ e.operator = .add ∧
      (∀ slots, .format .add slots ∈ ofDeclarations twoRoles ↔ slots = e.format) ∧
      e.role = lastRole (ofDeclarations twoRoles) .add ∧ e.classPath.leaf = "ADD") ∧
    lastRole (ofDeclarations twoRoles) .add = .replaceOnly ∧
    (ofDeclarations (twoRoles ++ [.format [.add] []])).RecordsFirst (.duplicateFormat .add) ∧
    (Draft.ofDeclarations (twoRoles ++ [.format [.add] []] ++ [.family [.sub] [""]])).build
      (.ofSettings {}) = .error (.duplicateFormat .add) := by
  have hd : Taxonomy.IsDescription twoRoles := by decide +kernel
  obtain ⟨t, ht⟩ := Taxonomy.exists_ofDeclarations Settings.validate_default hd
  have hbuild : (Draft.ofDeclarations twoRoles).build (.ofSettings {}) = .ok t := by
    rw [Draft.ofDeclarations_eq]
    exact (Taxonomy.ofDeclarations_eq_ok_iff.1 ht).2
  have hconsistent : (ofDeclarations twoRoles).IsConsistent := by
    rw [Draft.ofDeclarations_eq] at hbuild
    exact (defect?_ofClauses _).1.1 (Draft.build_eq_ok_iff.1 hbuild).1
  have hfirst : (ofDeclarations (twoRoles ++ [.format [.add] []])).RecordsFirst
      (.duplicateFormat .add) := by
    refine recordsFirst_concat.2 (Or.inr ⟨hconsistent, .format ⟨[], ?_⟩⟩)
    exact Clause.mem_clauses_iff.2 ⟨Operator.all, by simp [twoRoles, Clause.declaration], by decide⟩
  exact ⟨t, hbuild, (build_eq_iff_verdict _ _).2.2 t hbuild .add, rfl, hfirst,
    (build_eq_iff_verdict _ _).2.1 _ hfirst _⟩

end History

end MutationRules
