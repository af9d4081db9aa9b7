import Mathlib.Data.List.Induction
import Mathlib.Data.List.Nodup
import MutationRules.Proofs.Traversal
import MutationRules.Taxonomy.Draft

/-!
# What a draft remembers

A declaration about several operators makes a clause about each of them, and a draft
takes in the clauses one by one. It keeps the first format and the first class path
of an operator, its last role, and every replacement.
-/

namespace MutationRules

/-! ## Clauses -/

/-- A declaration about one operator. -/
inductive Clause
  /-- The operator has the given operand slots. -/
  | format (op : Operator) (slots : Format)
  /-- The operator's class path is the given segments followed by its token. -/
  | family (op : Operator) (parent : List String)
  /-- The operator may stand in the given places. -/
  | role (op : Operator) (role : Role)
  /-- The operands of the operator may be exchanged. -/
  | commutative (op : Operator)
  /-- The matcher may be replaced by the replacers, but not by itself or by an excluded one. -/
  | replace (matcher : Operator) (replacers excluded : List Operator)

/-- The clauses of a declaration, one for each of its operators. -/
def Declaration.clauses : Declaration → List Clause
  | .format operators slots => operators.map (.format · slots)
  | .family operators parent => operators.map (.family · parent)
  | .role operators place => operators.map (.role · place)
  | .commutative operators => operators.map .commutative
  | .replace matchers replacers excluded => matchers.map (.replace · replacers excluded)

namespace Clause

/-- The operator that a clause gives a format. -/
def formatted? : Clause → Option Operator
  | .format op _ => some op
  | _ => none

/-- The format that a clause gives an operator. -/
def format? (op : Operator) : Clause → Option Format
  | .format o slots => if o = op then some slots else none
  | _ => none

/-- The operator that a clause places in a class. -/
def classed? : Clause → Option Operator
  | .family op _ => some op
  | _ => none

/-- The class path that a clause gives an operator. -/
def classPath? (op : Operator) : Clause → Option ClassPath
  | .family o parent => if o = op then ClassPath.ofSegments? (parent ++ [o.token]) else none
  | _ => none

/-- The role that a clause gives an operator. -/
def role? (op : Operator) : Clause → Option Role
  | .role o place => if o = op then some place else none
  | _ => none

/-- Whether a clause lets an operator replace a matcher. -/
def Allows (matcher replacer : Operator) : Clause → Prop
  | .replace m replacers excluded =>
    m = matcher ∧ replacer ∈ replacers ∧ replacer ≠ matcher ∧ replacer ∉ excluded
  | _ => False

/-- Whether a clause is about the replacements of a matcher. -/
def Matches (matcher : Operator) : Clause → Prop
  | .replace m _ _ => m = matcher
  | _ => False

/-- Whether the class path of a clause has no empty segment. -/
def Segmented : Clause → Prop
  | .family _ parent => "" ∉ parent
  | _ => True

/-- What a draft holds against a clause. -/
def objection? (d : Draft) : Clause → Option TaxonomyError
  | .format op _ => if d.formats.contains op then some (.duplicateFormat op) else none
  | .family op parent =>
    match ClassPath.ofSegments? (parent ++ [op.token]) with
    | none => some (.missingClassPath op)
    | some path => (d.classPaths.get? op).map fun first => .duplicateClassPath op first path
  | _ => none

/-- The operator that a clause is about. -/
def operator : Clause → Operator
  | .format op _ | .family op _ | .role op _ | .commutative op | .replace op _ _ => op

/-- The declaration that says the same about several operators. -/
def declaration (operators : List Operator) : Clause → Declaration
  | .format _ slots => .format operators slots
  | .family _ parent => .family operators parent
  | .role _ place => .role operators place
  | .commutative _ => .commutative operators
  | .replace _ replacers excluded => .replace operators replacers excluded

/-- A clause that allows a replacement is about the replacements of its matcher. -/
theorem Allows.matches {matcher replacer : Operator} {c : Clause} (h : c.Allows matcher replacer) :
    c.Matches matcher := by
  cases c with
  | replace m replacers excluded => exact h.1
  | format | family | role | commutative => exact h.elim

variable {declarations : List Declaration}

/-- The clauses of some declarations come from declarations of the same about their operators. -/
theorem mem_clauses_iff {c : Clause} : c ∈ declarations.flatMap Declaration.clauses ↔
    ∃ operators, c.declaration operators ∈ declarations ∧ c.operator ∈ operators := by
  rw [List.mem_flatMap]
  constructor
  · rintro ⟨declaration, hd, hc⟩
    cases declaration with
    | format operators | family operators | role operators | commutative operators
      | replace operators =>
      obtain ⟨op, ho, rfl⟩ := List.mem_map.1 hc
      exact ⟨operators, hd, ho⟩
  · rintro ⟨operators, hd, ho⟩
    refine ⟨_, hd, ?_⟩
    cases c with
    | format op | family op | role op | commutative op | replace op =>
      exact List.mem_map_of_mem ho

/-- A clause allows a replacement if its declaration does. -/
theorem exists_allows_iff {matcher replacer : Operator} :
    (∃ c ∈ declarations.flatMap Declaration.clauses, c.Allows matcher replacer) ↔
      ∃ matchers replacers excluded, .replace matchers replacers excluded ∈ declarations ∧
        matcher ∈ matchers ∧ replacer ∈ replacers ∧ replacer ≠ matcher ∧
          replacer ∉ excluded := by
  constructor
  · rintro ⟨c, hc, ha⟩
    cases c with
    | replace m replacers excluded =>
      obtain ⟨rfl, hmem⟩ := ha
      obtain ⟨matchers, hdeclared, hm⟩ := mem_clauses_iff.1 hc
      exact ⟨matchers, replacers, excluded, hdeclared, hm, hmem⟩
    | format | family | role | commutative => exact ha.elim
  · rintro ⟨matchers, replacers, excluded, hdeclared, hm, hmem⟩
    exact ⟨.replace matcher replacers excluded, mem_clauses_iff.2 ⟨matchers, hdeclared, hm⟩, rfl,
      hmem⟩

/-- A clause is about the replacements of a matcher if its declaration is. -/
theorem exists_matches_iff {matcher : Operator} :
    (∃ c ∈ declarations.flatMap Declaration.clauses, c.Matches matcher) ↔
      ∃ matchers replacers excluded, .replace matchers replacers excluded ∈ declarations ∧
        matcher ∈ matchers := by
  constructor
  · rintro ⟨c, hc, hm⟩
    cases c with
    | replace m replacers excluded =>
      obtain rfl : m = matcher := hm
      obtain ⟨matchers, hdeclared, hm⟩ := mem_clauses_iff.1 hc
      exact ⟨matchers, replacers, excluded, hdeclared, hm⟩
    | format | family | role | commutative => exact hm.elim
  · rintro ⟨matchers, replacers, excluded, hdeclared, hm⟩
    exact ⟨.replace matcher replacers excluded, mem_clauses_iff.2 ⟨matchers, hdeclared, hm⟩, rfl⟩

end Clause

/-- A path has the given segments, none of which is empty. -/
theorem ClassPath.ofSegments?_eq_some_iff {segments : List String} {path : ClassPath} :
    ofSegments? segments = some path ↔ "" ∉ segments ∧ path.segments = segments := by
  rw [ofSegments?]
  obtain ⟨given, hne⟩ := path
  constructor
  · intro h
    split at h
    next hsegments =>
      obtain rfl := congrArg ClassPath.segments (Option.some.inj h)
      exact ⟨hsegments.2, rfl⟩
    next => simp at h
  · rintro ⟨hempty, rfl⟩
    rw [dif_pos ⟨hne, hempty⟩]

/-- No operator has an empty token. -/
theorem Operator.token_ne_empty (op : Operator) : "" ≠ op.token := by
  cases op <;> decide

/-- An operator's class path is accepted if its parent has no empty segment. -/
theorem ClassPath.isSome_ofSegments?_token {parent : List String} {op : Operator} :
    (ofSegments? (parent ++ [op.token])).isSome = true ↔ "" ∉ parent := by
  simp [ofSegments?, op.token_ne_empty]

namespace Draft

/-! ## One declaration about one operator -/

section

variable (slots : Format) (parent : List String) (d : Draft) (op : Operator)

@[simp] theorem classPaths_declareFormat :
    (declareFormat slots d op).classPaths = d.classPaths := by
  unfold declareFormat
  split <;> rfl

@[simp] theorem roles_declareFormat : (declareFormat slots d op).roles = d.roles := by
  unfold declareFormat
  split <;> rfl

@[simp] theorem replacements_declareFormat :
    (declareFormat slots d op).replacements = d.replacements := by
  unfold declareFormat
  split <;> rfl

@[simp] theorem commutative_declareFormat :
    (declareFormat slots d op).commutative = d.commutative := by
  unfold declareFormat
  split <;> rfl

@[simp] theorem formats_declareFamily : (declareFamily parent d op).formats = d.formats := by
  unfold declareFamily
  split
  · rfl
  · split <;> rfl

@[simp] theorem roles_declareFamily : (declareFamily parent d op).roles = d.roles := by
  unfold declareFamily
  split
  · rfl
  · split <;> rfl

@[simp] theorem replacements_declareFamily :
    (declareFamily parent d op).replacements = d.replacements := by
  unfold declareFamily
  split
  · rfl
  · split <;> rfl

@[simp] theorem commutative_declareFamily :
    (declareFamily parent d op).commutative = d.commutative := by
  unfold declareFamily
  split
  · rfl
  · split <;> rfl

end

/-! ## One clause -/

/-- Take one more clause into account. -/
def assert (d : Draft) : Clause → Draft
  | .format op slots => d.declareFormat slots op
  | .family op parent => d.declareFamily parent op
  | .role op place => d.declareRole place op
  | .commutative op => { d with commutative := d.commutative.insert op }
  | .replace matcher replacers excluded => d.declareReplacers replacers excluded matcher

/-- The draft of a sequence of clauses. -/
def ofClauses (clauses : List Clause) : Draft := clauses.foldl assert {}

/-- A declaration is taken in clause by clause. -/
theorem declare_eq_foldl (d : Draft) (declaration : Declaration) :
    d.declare declaration = declaration.clauses.foldl assert d := by
  cases declaration with
  | commutative operators =>
    rw [Declaration.clauses, List.foldl_map]
    induction operators generalizing d with
    | nil => rfl
    | cons op rest ih => exact ih (d.assert (.commutative op))
  | format | family | role | replace =>
    rw [Declaration.clauses, List.foldl_map]
    rfl

/-- The draft of some declarations is the draft of their clauses. -/
theorem ofDeclarations_eq (declarations : List Declaration) :
    ofDeclarations declarations = ofClauses (declarations.flatMap Declaration.clauses) := by
  rw [ofDeclarations, ofClauses, List.foldl_flatMap]
  exact congrArg (fun f => declarations.foldl f {}) (funext₂ declare_eq_foldl)

theorem ofClauses_concat (clauses : List Clause) (c : Clause) :
    ofClauses (clauses ++ [c]) = (ofClauses clauses).assert c := by
  rw [ofClauses, List.foldl_concat]
  rfl

variable (d : Draft) (c : Clause) (op : Operator)

/-- A clause adds a format only to an operator without one. -/
theorem get?_formats_assert :
    (d.assert c).formats.get? op = (d.formats.get? op).or (c.format? op) := by
  cases c with
  | format o slots =>
    rw [assert, declareFormat, Clause.format?]
    by_cases ho : o = op
    · subst ho
      cases h : d.formats.get? o with
      | none => simp [OrderedMap.contains, h]
      | some first => simp [OrderedMap.contains, h, report]
    · rw [if_neg ho, Option.or_none]
      split
      · rfl
      · exact OrderedMap.get?_insert_of_ne _ _ (Ne.symm ho)
  | family | role | commutative | replace =>
    simp [assert, Clause.format?, declareRole, declareReplacers]

/-- A clause adds a class path only to an operator without one. -/
theorem get?_classPaths_assert :
    (d.assert c).classPaths.get? op = (d.classPaths.get? op).or (c.classPath? op) := by
  cases c with
  | family o parent =>
    rw [assert, declareFamily, Clause.classPath?]
    by_cases ho : o = op
    · subst ho
      rw [if_pos rfl]
      cases hp : ClassPath.ofSegments? (parent ++ [o.token]) with
      | none => rw [Option.or_none]; rfl
      | some path =>
        cases h : d.classPaths.get? o with
        | none => simp
        | some first => simpa [report] using h
    · rw [if_neg ho, Option.or_none]
      split
      · rfl
      · split
        · rfl
        · exact OrderedMap.get?_insert_of_ne _ _ (Ne.symm ho)
  | format | role | commutative | replace =>
    simp [assert, Clause.classPath?, declareRole, declareReplacers]

/-- A clause gives an operator its role in place of an earlier one. -/
theorem get?_roles_assert :
    (d.assert c).roles.get? op = (c.role? op).or (d.roles.get? op) := by
  cases c with
  | role o place =>
    rw [assert, declareRole, Clause.role?]
    by_cases ho : o = op
    · subst ho
      rw [if_pos rfl]
      exact OrderedMap.get?_insert_self _ _ _
    · rw [if_neg ho]
      exact OrderedMap.get?_insert_of_ne _ _ (Ne.symm ho)
  | format | family | commutative | replace =>
    simp [assert, Clause.role?, declareReplacers]

/-- A clause leaves the allowed replacements and adds its own. -/
theorem mem_replacers_assert (matcher replacer : Operator) :
    replacer ∈ (d.assert c).replacements.replacers matcher ↔
      replacer ∈ d.replacements.replacers matcher ∨ c.Allows matcher replacer := by
  cases c with
  | replace m replacers excluded =>
    rw [assert, declareReplacers, Clause.Allows, ReplacementTable.replacers,
      ReplacementTable.replacers]
    by_cases hm : m = matcher
    · subst hm
      simp
    · simp [OrderedMap.get?_adjust_of_ne _ _ (Ne.symm hm), hm]
  | format | family | role | commutative => simp [assert, Clause.Allows, declareRole]

/-- A clause opens the table of its matcher. -/
theorem isSome_replacements_assert (matcher : Operator) :
    ((d.assert c).replacements.get? matcher).isSome = true ↔
      (d.replacements.get? matcher).isSome = true ∨ c.Matches matcher := by
  cases c with
  | replace m replacers excluded =>
    rw [assert, declareReplacers, Clause.Matches]
    by_cases hm : m = matcher
    · subst hm
      simp
    · simp [OrderedMap.get?_adjust_of_ne _ _ (Ne.symm hm), hm]
  | format | family | role | commutative => simp [assert, Clause.Matches, declareRole]

/-- A clause leaves the commutative operators and adds its own. -/
theorem mem_commutative_assert :
    op ∈ (d.assert c).commutative ↔ op ∈ d.commutative ∨ c = .commutative op := by
  cases c with
  | commutative o => simp [assert, or_comm, eq_comm]
  | format | family | role | replace => simp [assert, declareRole, declareReplacers]

/-- The first objection is remembered. -/
theorem defect?_assert : (d.assert c).defect? = d.defect?.or (c.objection? d) := by
  cases c with
  | format o slots =>
    rw [assert, declareFormat, Clause.objection?]
    split
    · rfl
    · exact Option.or_none.symm
  | family o parent =>
    cases hp : ClassPath.ofSegments? (parent ++ [o.token]) with
    | none => simp [assert, declareFamily, Clause.objection?, hp, report]
    | some path =>
      cases h : d.classPaths.get? o with
      | none => simp [assert, declareFamily, Clause.objection?, hp, h]
      | some first => simp [assert, declareFamily, Clause.objection?, hp, h, report]
  | role | commutative | replace =>
    simp [assert, Clause.objection?, declareRole, declareReplacers]

/-! ## Sequences of clauses -/

variable (clauses : List Clause)

/-- The first format of an operator is kept. -/
theorem get?_formats_ofClauses :
    (ofClauses clauses).formats.get? op = clauses.findSome? (Clause.format? op) := by
  induction clauses using List.reverseRecOn with
  | nil => rfl
  | append_singleton clauses c ih =>
    rw [ofClauses_concat, get?_formats_assert, ih, List.findSome?_append]
    simp

/-- The first class path of an operator is kept. -/
theorem get?_classPaths_ofClauses :
    (ofClauses clauses).classPaths.get? op = clauses.findSome? (Clause.classPath? op) := by
  induction clauses using List.reverseRecOn with
  | nil => rfl
  | append_singleton clauses c ih =>
    rw [ofClauses_concat, get?_classPaths_assert, ih, List.findSome?_append]
    simp

/-- The last role of an operator counts. -/
theorem get?_roles_ofClauses :
    (ofClauses clauses).roles.get? op = clauses.reverse.findSome? (Clause.role? op) := by
  induction clauses using List.reverseRecOn with
  | nil => rfl
  | append_singleton clauses c ih =>
    rw [ofClauses_concat, get?_roles_assert, ih, List.reverse_concat, List.findSome?_cons]
    cases c.role? op <;> rfl

variable {clauses}

/-- A replacement is allowed if a clause allows it. -/
theorem mem_replacers_ofClauses {matcher replacer : Operator} :
    replacer ∈ (ofClauses clauses).replacements.replacers matcher ↔
      ∃ c ∈ clauses, c.Allows matcher replacer := by
  induction clauses using List.reverseRecOn with
  | nil => simp [ofClauses, ReplacementTable.replacers]
  | append_singleton clauses c ih =>
    rw [ofClauses_concat, mem_replacers_assert, ih]
    simp [or_and_right, exists_or]

/-- A matcher has a table if a clause is about its replacements. -/
theorem isSome_replacements_ofClauses {matcher : Operator} :
    ((ofClauses clauses).replacements.get? matcher).isSome = true ↔
      ∃ c ∈ clauses, c.Matches matcher := by
  induction clauses using List.reverseRecOn with
  | nil => simp [ofClauses]
  | append_singleton clauses c ih =>
    rw [ofClauses_concat, isSome_replacements_assert, ih]
    simp [or_and_right, exists_or]

/-- An operator is commutative if a clause says so. -/
theorem mem_commutative_ofClauses {op : Operator} :
    op ∈ (ofClauses clauses).commutative ↔ .commutative op ∈ clauses := by
  induction clauses using List.reverseRecOn with
  | nil => simp [ofClauses]
  | append_singleton clauses c ih =>
    rw [ofClauses_concat, mem_commutative_assert, ih]
    simp [eq_comm]

/-- An operator has a role only if a clause gives it this role. -/
theorem mem_of_get?_roles {op : Operator} {place : Role}
    (h : (ofClauses clauses).roles.get? op = some place) : .role op place ∈ clauses := by
  rw [get?_roles_ofClauses] at h
  obtain ⟨c, hc, he⟩ := List.exists_of_findSome?_eq_some h
  cases c with
  | role o p =>
    simp only [Clause.role?, Option.ite_none_right_eq_some, Option.some.injEq] at he
    obtain ⟨rfl, rfl⟩ := he
    exact List.mem_reverse.1 hc
  | format | family | commutative | replace => simp [Clause.role?] at he

/-- What is found first is what any entry gives, if only entries of one key give something and no
key is repeated. -/
theorem findSome?_eq_some_iff_of_nodup {α β κ : Type} {f : α → Option β} {key : α → Option κ}
    {k : κ} (hkey : ∀ x b, f x = some b → key x = some k) {xs : List α}
    (h : (xs.filterMap key).Nodup) {b : β} :
    xs.findSome? f = some b ↔ ∃ x ∈ xs, f x = some b := by
  induction xs with
  | nil => simp
  | cons x rest ih =>
    rw [List.findSome?_cons, List.exists_mem_cons_iff]
    cases hx : f x with
    | none =>
      have hrest : (rest.filterMap key).Nodup :=
        h.sublist ((List.sublist_cons_self x rest).filterMap key)
      simpa using ih hrest
    | some first =>
      rw [List.filterMap_cons_some (hkey x first hx), List.nodup_cons] at h
      have hother : ¬ ∃ y ∈ rest, f y = some b := by
        rintro ⟨y, hy, hb⟩
        exact h.1 (List.mem_filterMap.2 ⟨y, hy, hkey y b hb⟩)
      exact (or_iff_left hother).symm

/-- An operator that is given one format has it. -/
theorem findSome?_format?_eq_some_iff (h : (clauses.filterMap Clause.formatted?).Nodup)
    {op : Operator} {slots : Format} :
    clauses.findSome? (Clause.format? op) = some slots ↔ .format op slots ∈ clauses := by
  have hgives : ∀ c slots, Clause.format? op c = some slots ↔ c = .format op slots := by
    intro c slots
    cases c with
    | format o given => simp [Clause.format?]
    | family | role | commutative | replace => simp [Clause.format?]
  rw [findSome?_eq_some_iff_of_nodup (k := op) _ h]
  · simp [hgives]
  · intro c slots hc
    rw [(hgives c slots).1 hc]
    rfl

/-- An operator that is given one class has it, if no segment of a class is empty. -/
theorem findSome?_classPath?_eq_some_iff (h : (clauses.filterMap Clause.classed?).Nodup)
    (hs : ∀ c ∈ clauses, c.Segmented) {op : Operator} {path : ClassPath} :
    clauses.findSome? (Clause.classPath? op) = some path ↔
      ∃ parent, .family op parent ∈ clauses ∧ path.segments = parent ++ [op.token] := by
  have hgives : ∀ c path, Clause.classPath? op c = some path ↔
      ∃ parent, c = .family op parent ∧ "" ∉ parent ∧ path.segments = parent ++ [op.token] := by
    intro c path
    cases c with
    | family o parent =>
      by_cases ho : o = op
      · subst ho
        simp [Clause.classPath?, ClassPath.ofSegments?_eq_some_iff, o.token_ne_empty]
      · simp [Clause.classPath?, ho]
    | format | role | commutative | replace => simp [Clause.classPath?]
  rw [findSome?_eq_some_iff_of_nodup (k := op) _ h]
  · constructor
    · rintro ⟨c, hc, hpath⟩
      obtain ⟨parent, rfl, _, hsegments⟩ := (hgives c path).1 hpath
      exact ⟨parent, hc, hsegments⟩
    · rintro ⟨parent, hc, hsegments⟩
      exact ⟨_, hc, (hgives _ path).2 ⟨parent, rfl, hs _ hc, hsegments⟩⟩
  · intro c path hc
    obtain ⟨parent, rfl, _⟩ := (hgives c path).1 hc
    rfl

/-! ## Drafts without a defect -/

/-- An operator has a format if a clause gives it one. -/
theorem isSome_formats_ofClauses {op : Operator} :
    ((ofClauses clauses).formats.get? op).isSome = true ↔
      op ∈ clauses.filterMap Clause.formatted? := by
  rw [get?_formats_ofClauses, List.findSome?_isSome_iff, List.mem_filterMap]
  refine exists_congr fun c => and_congr_right fun _ => ?_
  cases c with
  | format o slots => simp [Clause.format?, Clause.formatted?]
  | family | role | commutative | replace => simp [Clause.format?, Clause.formatted?]

/-- An operator has a class path if a clause gives it one, all segments of clauses being sound. -/
theorem isSome_classPaths_ofClauses (h : ∀ c ∈ clauses, c.Segmented) {op : Operator} :
    ((ofClauses clauses).classPaths.get? op).isSome = true ↔
      op ∈ clauses.filterMap Clause.classed? := by
  rw [get?_classPaths_ofClauses, List.findSome?_isSome_iff, List.mem_filterMap]
  refine exists_congr fun c => and_congr_right fun hc => ?_
  cases c with
  | family o parent =>
    by_cases ho : o = op
    · subst ho
      simpa [Clause.classPath?, Clause.classed?] using ClassPath.isSome_ofSegments?_token.2 (h _ hc)
    · simp [Clause.classPath?, Clause.classed?, ho]
  | format | role | commutative | replace => simp [Clause.classPath?, Clause.classed?]

/-- A draft accepts a clause about the format or the class of an operator that has none yet. -/
theorem objection?_ofClauses_eq_none_iff (h : ∀ c ∈ clauses, c.Segmented) {c : Clause} :
    c.objection? (ofClauses clauses) = none ↔
      (∀ op ∈ c.formatted?, op ∉ clauses.filterMap Clause.formatted?) ∧
      (∀ op ∈ c.classed?, op ∉ clauses.filterMap Clause.classed?) ∧ c.Segmented := by
  cases c with
  | format o slots =>
    simp only [Clause.objection?, Clause.formatted?, Clause.classed?, Clause.Segmented,
      ite_eq_right_iff, ← isSome_formats_ofClauses]
    simp [OrderedMap.contains]
  | family o parent =>
    have hsegments : (ClassPath.ofSegments? (parent ++ [o.token])).isSome = true ↔ "" ∉ parent :=
      ClassPath.isSome_ofSegments?_token
    simp only [Clause.objection?, Clause.formatted?, Clause.classed?, Clause.Segmented,
      ← isSome_classPaths_ofClauses h, ← hsegments]
    cases ClassPath.ofSegments? (parent ++ [o.token]) <;> simp
  | role | commutative | replace =>
    simp [Clause.objection?, Clause.formatted?, Clause.classed?, Clause.Segmented]

/-- The operators that clauses have something to say about are different if they are up to the
last clause and that one is about another. -/
theorem nodup_filterMap_concat {f : Clause → Option Operator} {c : Clause} :
    ((clauses ++ [c]).filterMap f).Nodup ↔
      (clauses.filterMap f).Nodup ∧ ∀ op ∈ f c, op ∉ clauses.filterMap f := by
  rw [List.filterMap_append]
  cases hc : f c with
  | none => simp [hc]
  | some op => simp [hc, List.nodup_append, imp_not_comm, eq_comm]

/-- A draft has no defect if no operator is given two formats or two classes and no segment of a
class is empty. -/
theorem defect?_ofClauses_eq_none_iff :
    (ofClauses clauses).defect? = none ↔
      (clauses.filterMap Clause.formatted?).Nodup ∧ (clauses.filterMap Clause.classed?).Nodup ∧
        ∀ c ∈ clauses, c.Segmented := by
  induction clauses using List.reverseRecOn with
  | nil => simp [ofClauses]
  | append_singleton clauses c ih =>
    rw [ofClauses_concat, defect?_assert, Option.or_eq_none_iff, ih, nodup_filterMap_concat,
      nodup_filterMap_concat, List.forall_mem_append, List.forall_mem_singleton]
    constructor
    · rintro ⟨⟨hf, hc, hs⟩, ho⟩
      obtain ⟨hf', hc', hs'⟩ := (objection?_ofClauses_eq_none_iff hs).1 ho
      exact ⟨⟨hf, hf'⟩, ⟨hc, hc'⟩, hs, hs'⟩
    · rintro ⟨⟨hf, hf'⟩, ⟨hc, hc'⟩, hs, hs'⟩
      exact ⟨⟨hf, hc, hs⟩, (objection?_ofClauses_eq_none_iff hs).2 ⟨hf', hc', hs'⟩⟩

end Draft

end MutationRules
