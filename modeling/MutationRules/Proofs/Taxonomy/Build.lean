import MutationRules.Proofs.Taxonomy.Draft

/-!
# Taxonomies built from declarations

A draft becomes a taxonomy if it has no defect, describes every operator and puts none
where its role forbids it. The taxonomy then has the one format that is declared for
each operator and allows exactly the replacements that are declared.
-/

namespace MutationRules

theorem Operator.nodup_all : all.Nodup := Increasing.nodup increasing_all

theorem Operator.compare_eq_lt_iff {a b : Operator} : compare a b = .lt ↔ a.index < b.index :=
  Nat.compare_eq_lt

/-- Operators in declaration order before one of them are those declared earlier. -/
theorem Operator.exists_split_iff {operators : List Operator} (h : Increasing operators)
    {Q : Operator → Prop} {op : Operator} :
    (∃ before after, operators = before ++ op :: after ∧ ∀ o ∈ before, Q o) ↔
      op ∈ operators ∧ ∀ o ∈ operators, o.index < op.index → Q o := by
  simp only [← compare_eq_lt_iff]
  exact exists_split_iff_of_pairwise (fun hab hba => by
    rw [compare_eq_lt_iff] at hab hba
    omega) h

/-- The first of some operators in declaration order is the one declared first. -/
theorem Operator.exists_first_iff {operators : List Operator} (h : Increasing operators)
    {P Q : Operator → Prop} :
    (∃ before op after, operators = before ++ op :: after ∧ (∀ o ∈ before, Q o) ∧ P op) ↔
      ∃ op ∈ operators, P op ∧ ∀ o ∈ operators, o.index < op.index → Q o := by
  constructor
  · rintro ⟨before, op, after, hsplit, hbefore, hop⟩
    obtain ⟨hmem, hfirst⟩ := (exists_split_iff h).1 ⟨before, after, hsplit, hbefore⟩
    exact ⟨op, hmem, hop, hfirst⟩
  · rintro ⟨op, hmem, hop, hfirst⟩
    obtain ⟨before, after, hsplit, hbefore⟩ := (exists_split_iff h).2 ⟨hmem, hfirst⟩
    exact ⟨before, op, after, hsplit, hbefore, hop⟩

/-- What is found first among operators in declaration order is found for none declared earlier. -/
theorem Operator.findSome?_eq_some_iff {β : Type} {operators : List Operator}
    (h : Increasing operators) {f : Operator → Option β} {b : β} :
    operators.findSome? f = some b ↔ ∃ op ∈ operators, f op = some b ∧
      ∀ o ∈ operators, o.index < op.index → f o = none := by
  rw [List.findSome?_eq_some_iff, ← exists_first_iff h]
  simp only [and_comm (b := ∀ o ∈ _, f o = none)]

/-- A traversal of operators in declaration order stops at the one declared first at which its step
does. -/
theorem Operator.mapM_eq_error_iff {ε β : Type} {operators : List Operator}
    (h : Increasing operators) {f : Operator → Except ε β} {e : ε} :
    operators.mapM f = .error e ↔ ∃ op ∈ operators, f op = .error e ∧
      ∀ o ∈ operators, o.index < op.index → ∃ b, f o = .ok b := by
  rw [MutationRules.mapM_eq_error_iff, exists_first_iff h]

/-- The entry of an operator stands at the operator's place. -/
theorem Taxonomy.getElem?_entries (t : Taxonomy) (op : Operator) :
    t.entries[op.index]? = some (t.entry op) :=
  List.getElem?_eq_getElem (t.length_entries ▸ op.index_lt)

namespace Draft

variable {d : Draft} {constants : Constants} {op : Operator}

/-! ## Entries -/

/-- An entry holds the format, the class path and the role that the draft has. -/
theorem entry_eq_ok_iff {e : { e : OperatorEntry // e.operator = op }} :
    d.entry op = .ok e ↔ d.formats.get? op = some e.val.format ∧
      d.classPaths.get? op = some e.val.classPath ∧ d.role op = e.val.role := by
  obtain ⟨⟨o, slots, place, path⟩, rfl⟩ := e
  rw [entry]
  cases d.formats.get? o with
  | none => simp
  | some slots =>
    cases d.classPaths.get? o with
    | none => simp
    | some path =>
      simp only [Except.ok.injEq, Subtype.mk.injEq, OperatorEntry.mk.injEq, true_and,
        Option.some.injEq]
      exact and_congr_right fun _ => and_comm

/-- An operator has an entry if it has a format and a class path. -/
theorem exists_entry_iff : (∃ e, d.entry op = .ok e) ↔
    (d.formats.get? op).isSome = true ∧ (d.classPaths.get? op).isSome = true := by
  rw [entry]
  cases d.formats.get? op with
  | none => simp
  | some slots => cases d.classPaths.get? op <;> simp

/-- Making entries is a traversal of the operators. -/
theorem map_entries (operators : List Operator) : (d.entries operators).map Subtype.val =
    operators.mapM fun op => (d.entry op).map Subtype.val := by
  induction operators with
  | nil => rfl
  | cons op rest ih =>
    rw [List.mapM_cons, ← ih, entries]
    cases d.entry op with
    | error defect => rfl
    | ok e => cases d.entries rest <;> rfl

/-- Entries are made operator by operator. -/
theorem entries_eq_ok_iff {operators : List Operator}
    {es : { es : List OperatorEntry // es.map OperatorEntry.operator = operators }} :
    d.entries operators = .ok es ↔
      List.Forall₂ (fun op e => ∃ h, d.entry op = .ok ⟨e, h⟩) operators es.val := by
  have hval : d.entries operators = .ok es ↔
      (d.entries operators).map Subtype.val = .ok es.val := by
    rw [map_eq_ok_iff]
    constructor
    · exact fun h => ⟨es, h, rfl⟩
    · rintro ⟨es', h, he⟩
      rw [h, Subtype.ext he]
  rw [hval, map_entries, mapM_eq_ok_iff]
  simp [map_eq_ok_iff]

/-- Some operators have entries if each of them does. -/
theorem exists_entries_iff {operators : List Operator} :
    (∃ es, d.entries operators = .ok es) ↔ ∀ op ∈ operators, ∃ e, d.entry op = .ok e := by
  rw [← exists_map_eq_ok_iff, map_entries, exists_mapM_eq_ok_iff]
  simp only [exists_map_eq_ok_iff]

/-- Without an entry for each operator, the first one without is named. -/
theorem entries_eq_error_iff {operators : List Operator} {defect : TaxonomyError} :
    d.entries operators = .error defect ↔ ∃ before op after, operators = before ++ op :: after ∧
      (∀ o ∈ before, ∃ e, d.entry o = .ok e) ∧ d.entry op = .error defect := by
  rw [← map_eq_error_iff, map_entries, mapM_eq_error_iff]
  simp only [map_eq_error_iff, exists_map_eq_ok_iff]

/-! ## Completion -/

/-- What is misplaced in the table of a matcher: the matcher, or its first replacement that is only
matched. -/
def misplacedIn? (d : Draft) (matcher : Operator) : Option TaxonomyError :=
  if d.role matcher = .replaceOnly then some (.replaceOnlyMatcher matcher)
  else (d.replacements.replacers matcher).toList.findSome? fun replacer =>
    if d.role replacer = .matchOnly then some (.matchOnlyReplacer matcher replacer) else none

/-- The tables are searched matcher by matcher. -/
theorem misplaced?_eq : d.misplaced? = d.replacements.keys.findSome? d.misplacedIn? := by
  rw [misplaced?, OrderedMap.keys, List.findSome?_map]
  rw [← List.head?_filterMap, ← List.head?_filterMap]
  refine congrArg List.head? (List.filterMap_congr fun entry hentry => ?_)
  obtain ⟨matcher, replacers⟩ := entry
  have hr : d.replacements.get? matcher = some replacers := OrderedMap.mem_entries_iff.1 hentry
  rw [Function.comp_apply, misplacedIn?, ReplacementTable.replacers, hr, Option.getD_some]

theorem misplacedIn?_eq_none_iff {matcher : Operator} : d.misplacedIn? matcher = none ↔
    d.role matcher ≠ .replaceOnly ∧
      ∀ replacer ∈ d.replacements.replacers matcher, d.role replacer ≠ .matchOnly := by
  rw [misplacedIn?]
  by_cases hm : d.role matcher = .replaceOnly
  · simp [hm]
  · simp [hm, List.findSome?_eq_none_iff]

/-- Operators stand where they may if no matcher only replaces and no replacement is only
matched. -/
theorem misplaced?_eq_none_iff : d.misplaced? = none ↔
    ∀ matcher, (d.replacements.get? matcher).isSome = true →
      d.role matcher ≠ .replaceOnly ∧
        ∀ replacer ∈ d.replacements.replacers matcher, d.role replacer ≠ .matchOnly := by
  rw [misplaced?_eq, List.findSome?_eq_none_iff]
  simp only [OrderedMap.mem_keys_iff, misplacedIn?_eq_none_iff]

theorem misplacedIn?_eq_some_iff {matcher : Operator} {defect : TaxonomyError} :
    d.misplacedIn? matcher = some defect ↔
      (d.role matcher = .replaceOnly ∧ defect = .replaceOnlyMatcher matcher) ∨
      (d.role matcher ≠ .replaceOnly ∧ ∃ replacer ∈ d.replacements.replacers matcher,
        d.role replacer = .matchOnly ∧ defect = .matchOnlyReplacer matcher replacer ∧
          ∀ o ∈ d.replacements.replacers matcher, o.index < replacer.index →
            d.role o ≠ .matchOnly) := by
  rw [misplacedIn?]
  by_cases hm : d.role matcher = .replaceOnly
  · simp [hm, eq_comm]
  · rw [if_neg hm, Operator.findSome?_eq_some_iff (d.replacements.replacers matcher).increasing]
    simp [hm, eq_comm, and_assoc]

/-- The first misplaced operator is that of the first table with one. -/
theorem misplaced?_eq_some_iff {defect : TaxonomyError} : d.misplaced? = some defect ↔
    ∃ matcher, (d.replacements.get? matcher).isSome = true ∧
      d.misplacedIn? matcher = some defect ∧
        ∀ o, o.index < matcher.index → (d.replacements.get? o).isSome = true →
          d.misplacedIn? o = none := by
  have hkeys : Increasing d.replacements.keys := d.replacements.increasing
  rw [misplaced?_eq, Operator.findSome?_eq_some_iff hkeys]
  simp only [OrderedMap.mem_keys_iff]
  exact exists_congr fun matcher => and_congr_right fun _ => and_congr_right fun _ =>
    forall_congr' fun o => ⟨fun h ho hs => h hs ho, fun h hs ho => h ho hs⟩

/-- What a draft is completed to. -/
theorem build_eq_ok_iff {t : Taxonomy} : d.build constants = .ok t ↔
    d.defect? = none ∧ (∀ op, d.entry op = .ok ⟨t.entry op, t.operator_entry op⟩) ∧
      d.misplaced? = none ∧ t.replacements = d.replacements ∧ t.commutative = d.commutative ∧
        t.constants = constants := by
  have hentries : d.entries Operator.all = .ok ⟨t.entries, t.complete⟩ ↔
      ∀ op, d.entry op = .ok ⟨t.entry op, t.operator_entry op⟩ := by
    rw [entries_eq_ok_iff, forall₂_iff_getElem?]
    constructor
    · rintro ⟨_, h⟩ op
      obtain ⟨e, he, _, hentry⟩ := h op.index op op.getElem?_all_index
      obtain rfl := Option.some.inj ((t.getElem?_entries op).symm.trans he)
      exact hentry
    · refine fun h => ⟨t.length_entries, fun i op hop => ⟨t.entry op, ?_, _, h op⟩⟩
      have hi : i = op.index :=
        (List.getElem?_inj (List.getElem?_eq_some_iff.1 hop).1 Operator.nodup_all).1
          (hop.trans op.getElem?_all_index.symm)
      rw [hi]
      exact t.getElem?_entries op
  rw [← hentries, build]
  cases d.defect? with
  | some defect => simp
  | none =>
    rw [bind_eq_ok_iff, eq_self_iff_true, true_and]
    constructor
    · rintro ⟨⟨es, hes⟩, hok, h⟩
      cases hm : d.misplaced? with
      | some defect => simp [hm] at h
      | none =>
        simp only [hm, pure, Except.pure, Except.ok.injEq] at h
        subst h
        exact ⟨hok, rfl, rfl, rfl, rfl⟩
    · rintro ⟨hok, hm, hr, hc, hk⟩
      refine ⟨_, hok, ?_⟩
      rw [hm, ← hr, ← hc, ← hk]
      rfl

/-- Why a draft is not completed: for its defect, else for the first operator without an entry, else
for the first misplaced one. -/
theorem build_eq_error_iff {defect : TaxonomyError} : d.build constants = .error defect ↔
    d.defect? = some defect ∨ d.defect? = none ∧
      ((∃ op, d.entry op = .error defect ∧ ∀ o, o.index < op.index → ∃ e, d.entry o = .ok e) ∨
        (∀ op, ∃ e, d.entry op = .ok e) ∧ d.misplaced? = some defect) := by
  have hentries : d.entries Operator.all = .error defect ↔
      ∃ op, d.entry op = .error defect ∧ ∀ o, o.index < op.index → ∃ e, d.entry o = .ok e := by
    rw [entries_eq_error_iff, Operator.exists_first_iff Operator.increasing_all]
    simp only [Operator.mem_all, true_and, forall_true_left]
  have hall : (∃ es, d.entries Operator.all = .ok es) ↔ ∀ op, ∃ e, d.entry op = .ok e := by
    rw [exists_entries_iff]
    exact forall_congr' fun op => forall_prop_of_true op.mem_all
  rw [build, ← hentries, ← hall]
  cases d.defect? with
  | some found => simp
  | none =>
    cases d.entries Operator.all with
    | error found => simp [bind, Except.bind]
    | ok es => cases d.misplaced? <;> simp [bind, Except.bind, pure, Except.pure]

/-- A draft is completed if it has no defect, describes every operator and misplaces none. -/
theorem exists_build_iff : (∃ t, d.build constants = .ok t) ↔ d.defect? = none ∧
    (∀ op, (d.formats.get? op).isSome = true ∧ (d.classPaths.get? op).isSome = true) ∧
      d.misplaced? = none := by
  constructor
  · rintro ⟨t, h⟩
    obtain ⟨hd, he, hm, _⟩ := build_eq_ok_iff.1 h
    exact ⟨hd, fun op => exists_entry_iff.1 ⟨_, he op⟩, hm⟩
  · rintro ⟨hd, he, hm⟩
    obtain ⟨es, hes⟩ := exists_entries_iff.2 fun (op : Operator) (_ : op ∈ Operator.all) =>
      exists_entry_iff.2 (he op)
    rw [build, hd]
    simp [hes, hm]

end Draft

namespace Taxonomy

variable {settings : Settings} {declarations : List Declaration} {t : Taxonomy}

/-! ## What a built taxonomy says -/

theorem ofDeclarations_eq_ok_iff : ofDeclarations settings declarations = .ok t ↔
    settings.validate = .ok () ∧
      (Draft.ofClauses (declarations.flatMap Declaration.clauses)).build (.ofSettings settings) =
        .ok t := by
  rw [ofDeclarations, bind_eq_ok_iff, Draft.ofDeclarations_eq]
  constructor
  · rintro ⟨⟨⟩, h⟩
    exact h
  · intro h
    exact ⟨(), h⟩

/-- The literals of a built taxonomy are those of its settings. -/
theorem constants_of_built (h : ofDeclarations settings declarations = .ok t) :
    t.constants = .ofSettings settings :=
  (Draft.build_eq_ok_iff.1 (ofDeclarations_eq_ok_iff.1 h).2).2.2.2.2.2

/-- The format of an operator is the one declared for it. -/
theorem format_eq_iff_of_built (h : ofDeclarations settings declarations = .ok t) {op : Operator}
    {slots : Format} : t.format op = slots ↔
      ∃ operators, .format operators slots ∈ declarations ∧ op ∈ operators := by
  obtain ⟨hd, he, _⟩ := Draft.build_eq_ok_iff.1 (ofDeclarations_eq_ok_iff.1 h).2
  have hformat := (Draft.entry_eq_ok_iff.1 (he op)).1
  rw [Draft.get?_formats_ofClauses] at hformat
  have hclause : _ ↔ ∃ operators, .format operators slots ∈ declarations ∧ op ∈ operators :=
    Clause.mem_clauses_iff (c := .format op slots)
  rw [← hclause,
    ← Draft.findSome?_format?_eq_some_iff (Draft.defect?_ofClauses_eq_none_iff.1 hd).1, hformat,
    Option.some.injEq]
  rfl

/-- A replacement is allowed if it is declared. -/
theorem allows_iff_of_built (h : ofDeclarations settings declarations = .ok t)
    {matcher replacer : Operator} : t.allows matcher replacer = true ↔
      ∃ matchers replacers excluded, .replace matchers replacers excluded ∈ declarations ∧
        matcher ∈ matchers ∧ replacer ∈ replacers ∧ replacer ≠ matcher ∧
          replacer ∉ excluded := by
  have hr := (Draft.build_eq_ok_iff.1 (ofDeclarations_eq_ok_iff.1 h).2).2.2.2.1
  rw [allows, hr, ReplacementTable.allows, decide_eq_true_eq, Draft.mem_replacers_ofClauses,
    Clause.exists_allows_iff]

/-- An operator is commutative if it is declared so. -/
theorem isCommutative_iff_of_built (h : ofDeclarations settings declarations = .ok t)
    {op : Operator} : t.isCommutative op = true ↔
      ∃ operators, .commutative operators ∈ declarations ∧ op ∈ operators := by
  have hc := (Draft.build_eq_ok_iff.1 (ofDeclarations_eq_ok_iff.1 h).2).2.2.2.2.1
  rw [isCommutative, hc, decide_eq_true_eq, Draft.mem_commutative_ofClauses]
  exact Clause.mem_clauses_iff (c := .commutative op)

/-- A built taxonomy has a table for the operators that are declared as matchers. -/
theorem mem_matchers_iff_of_built (h : ofDeclarations settings declarations = .ok t)
    {matcher : Operator} : matcher ∈ t.matchers ↔
      ∃ matchers replacers excluded, .replace matchers replacers excluded ∈ declarations ∧
        matcher ∈ matchers := by
  have hr := (Draft.build_eq_ok_iff.1 (ofDeclarations_eq_ok_iff.1 h).2).2.2.2.1
  rw [matchers, hr, OrderedMap.mem_keys_iff, Draft.isSome_replacements_ofClauses,
    Clause.exists_matches_iff]

/-- An operator has the role that the draft has for it. -/
theorem role_of_built (h : ofDeclarations settings declarations = .ok t) (op : Operator) :
    t.role op = (Draft.ofClauses (declarations.flatMap Declaration.clauses)).role op := by
  obtain ⟨_, he, _⟩ := Draft.build_eq_ok_iff.1 (ofDeclarations_eq_ok_iff.1 h).2
  exact (Draft.entry_eq_ok_iff.1 (he op)).2.2.symm

/-- The roles of the two operators of an allowed pair let them stand where they do. -/
theorem role_of_allows (h : ofDeclarations settings declarations = .ok t)
    {matcher replacer : Operator} (ha : t.allows matcher replacer = true) :
    t.role matcher ≠ .replaceOnly ∧ t.role replacer ≠ .matchOnly := by
  obtain ⟨_, _, hplaced, htable, _⟩ :=
    Draft.build_eq_ok_iff.1 (ofDeclarations_eq_ok_iff.1 h).2
  rw [role_of_built h, role_of_built h]
  rw [allows, htable, ReplacementTable.allows, decide_eq_true_eq] at ha
  have hmatched : ((Draft.ofClauses (declarations.flatMap Declaration.clauses)).replacements.get?
      matcher).isSome = true := by
    obtain ⟨c, hc, hallows⟩ := Draft.mem_replacers_ofClauses.1 ha
    exact Draft.isSome_replacements_ofClauses.2 ⟨c, hc, hallows.matches⟩
  obtain ⟨hm, hr⟩ := Draft.misplaced?_eq_none_iff.1 hplaced matcher hmatched
  exact ⟨hm, hr replacer ha⟩

/-- The class path of an operator is the one declared for it, down to its token. -/
theorem exists_classPath_of_built (h : ofDeclarations settings declarations = .ok t)
    (op : Operator) : ∃ operators parent, .family operators parent ∈ declarations ∧
      op ∈ operators ∧ "" ∉ parent ∧ (t.classPath op).segments = parent ++ [op.token] := by
  obtain ⟨_, he, _⟩ := Draft.build_eq_ok_iff.1 (ofDeclarations_eq_ok_iff.1 h).2
  have hpath := (Draft.entry_eq_ok_iff.1 (he op)).2.1
  rw [Draft.get?_classPaths_ofClauses] at hpath
  obtain ⟨c, hc, hpath⟩ := List.exists_of_findSome?_eq_some hpath
  cases c with
  | family o parent =>
    simp only [Clause.classPath?, Option.ite_none_right_eq_some] at hpath
    obtain ⟨rfl, hpath⟩ := hpath
    obtain ⟨operators, hdeclared, ho⟩ := Clause.mem_clauses_iff.1 hc
    obtain ⟨hempty, hsegments⟩ := ClassPath.ofSegments?_eq_some_iff.1 hpath
    exact ⟨operators, parent, hdeclared, ho, fun hp => hempty (List.mem_append_left _ hp),
      hsegments⟩
  | format | role | commutative | replace => simp [Clause.classPath?] at hpath

end Taxonomy

end MutationRules
