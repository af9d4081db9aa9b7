import MutationRules.Proofs.RuleSet.Uniqueness

/-!
# Faults of synthesis

Synthesis stops at the first matcher of the table that is at fault, with the first
fault of this matcher. If none is, the names of all rules are compared, and the first
rule whose name an earlier one has is reported with that rule. Nothing else stops it.
-/

namespace MutationRules

namespace RuleSet

/-- How the names of two rules collide: the second rule is the first whose name an earlier one
has. -/
inductive Collides (rules : List (Expression × Rule)) : TaxonomyError → Prop
  /-- The names of all rules before the second differ. -/
  | intro {before after : List (Expression × Rule)} {first second : Expression × Rule}
      (hrules : rules = before ++ second :: after)
      (hbefore : (before.map fun entry => entry.2.name).Nodup)
      (hfirst : first ∈ before) (hname : first.2.name = second.2.name) :
      Collides rules (.ruleNameCollision second.2.name ⟨first.1, first.2.replacement⟩
        ⟨second.1, second.2.replacement⟩)

/-- Whether the names seen are those of some rules, each with the binding of its rule. -/
def Remembers (seen : Std.HashMap String Binding) (past : List (Expression × Rule)) : Prop :=
  ∀ name binding, seen[name]? = some binding ↔
    ∃ entry ∈ past, entry.2.name = name ∧ ⟨entry.1, entry.2.replacement⟩ = binding

/-- A name that is not seen is not that of a rule. -/
theorem Remembers.not_mem {seen : Std.HashMap String Binding} {past : List (Expression × Rule)}
    (h : Remembers seen past) {name : String} (hnew : seen[name]? = none) :
    name ∉ past.map fun entry => entry.2.name := by
  intro hm
  obtain ⟨e, he, hn⟩ := List.mem_map.1 hm
  have hseen := (h name _).2 ⟨e, he, hn, rfl⟩
  simp [hnew] at hseen

/-- A rule whose name is new is remembered beside the others. -/
theorem Remembers.insert {seen : Std.HashMap String Binding} {past : List (Expression × Rule)}
    (h : Remembers seen past) {entry : Expression × Rule} (hnew : seen[entry.2.name]? = none) :
    Remembers (seen.insert entry.2.name ⟨entry.1, entry.2.replacement⟩) (past ++ [entry]) := by
  intro name binding
  rw [Std.HashMap.getElem?_insert]
  simp only [beq_iff_eq, List.mem_append, List.mem_singleton]
  by_cases hname : entry.2.name = name
  · subst hname
    rw [if_pos rfl, Option.some.injEq]
    constructor
    · rintro rfl
      exact ⟨entry, Or.inr rfl, rfl, rfl⟩
    · rintro ⟨e, he | rfl, hn, hb⟩
      · exact absurd (List.mem_map.2 ⟨e, he, hn⟩) (h.not_mem hnew)
      · exact hb
  · rw [if_neg hname, h name binding]
    refine exists_congr fun e => and_congr_left fun ⟨hn, _⟩ => (or_iff_left ?_).symm
    rintro rfl
    exact hname hn

/-- Rules with different names do not collide. -/
theorem not_collides_of_nodup {rules : List (Expression × Rule)}
    (h : (rules.map fun entry => entry.2.name).Nodup) (defect : TaxonomyError) :
    ¬ Collides rules defect := by
  rintro ⟨rfl, _, hfirst, hname⟩
  rw [List.map_append, List.map_cons] at h
  exact (List.nodup_append.1 h).2.2 _ (List.mem_map_of_mem hfirst) _ (List.mem_cons_self ..) hname

/-- The second of two colliding rules is the one whose name the rules before it have. -/
theorem Collides.exists_first {past rest : List (Expression × Rule)} {entry : Expression × Rule}
    (hpast : (past.map fun e => e.2.name).Nodup) (hentry : ∃ e ∈ past, e.2.name = entry.2.name)
    {defect : TaxonomyError} (h : Collides (past ++ entry :: rest) defect) :
    ∃ first ∈ past, first.2.name = entry.2.name ∧
      defect = .ruleNameCollision entry.2.name ⟨first.1, first.2.replacement⟩
        ⟨entry.1, entry.2.replacement⟩ := by
  obtain ⟨hrules, hbefore, hfirst, hname⟩ := h
  rcases List.append_eq_append_iff.1 hrules with ⟨more, rfl, hmore⟩ | ⟨more, rfl, hmore⟩
  · cases more with
    | nil =>
      obtain ⟨rfl, _⟩ := List.cons.inj hmore
      exact ⟨_, List.append_nil past ▸ hfirst, hname, rfl⟩
    | cons e more =>
      obtain ⟨rfl, _⟩ := List.cons.inj hmore
      obtain ⟨e', he', hn⟩ := hentry
      exact absurd (Collides.intro rfl hpast he' hn) (not_collides_of_nodup hbefore _)
  · cases more with
    | nil =>
      obtain ⟨rfl, _⟩ := List.cons.inj hmore
      exact ⟨_, (List.append_nil _).symm ▸ hfirst, hname, rfl⟩
    | cons e more =>
      obtain ⟨rfl, _⟩ := List.cons.inj hmore
      exact absurd (Collides.intro rfl hbefore hfirst hname) (not_collides_of_nodup hpast _)

/-- Of rules that follow some with different names, the comparison finds the collision. -/
theorem collisionAmong?_eq_some_iff {seen : Std.HashMap String Binding}
    {past entries : List (Expression × Rule)} (h : Remembers seen past)
    (hpast : (past.map fun entry => entry.2.name).Nodup) {defect : TaxonomyError} :
    collisionAmong? seen entries = some defect ↔ Collides (past ++ entries) defect := by
  induction entries generalizing seen past with
  | nil =>
    rw [List.append_nil]
    exact iff_of_false (by simp [collisionAmong?]) (not_collides_of_nodup hpast defect)
  | cons entry rest ih =>
    rw [collisionAmong?]
    cases hseen : seen[entry.2.name]? with
    | some binding =>
      obtain ⟨first, hfirst, hname, rfl⟩ := (h _ _).1 hseen
      rw [Option.some.injEq]
      constructor
      · rintro rfl
        exact .intro rfl hpast hfirst hname
      · intro hcollides
        obtain ⟨e, he, hn, rfl⟩ := hcollides.exists_first hpast ⟨first, hfirst, hname⟩
        obtain rfl := List.inj_on_of_nodup_map hpast hfirst he (hname.trans hn.symm)
        rfl
    | none =>
      have hlonger : ((past ++ [entry]).map fun e => e.2.name).Nodup := by
        rw [List.map_append]
        exact hpast.append (List.nodup_singleton _)
          (List.disjoint_singleton.2 (h.not_mem hseen))
      rw [List.append_cons]
      exact ih (h.insert hseen) hlonger

/-- The comparison of names finds the first rule whose name an earlier one has. -/
theorem collision?_eq_some_iff {set : RuleSet} {defect : TaxonomyError} :
    set.collision? = some defect ↔ Collides set.rules defect := by
  have hempty : Remembers ∅ [] := fun _ _ => by simp
  exact collisionAmong?_eq_some_iff hempty List.nodup_nil

end RuleSet

namespace Taxonomy

/-! ## What is wrong with a matcher -/

/-- Whether an operator is the first replacement of a matcher, in declaration order, of which
something holds. -/
def IsFirstReplacer (t : Taxonomy) (matcher : Operator) (P : Operator → Prop)
    (replacer : Operator) : Prop :=
  t.allows matcher replacer = true ∧ P replacer ∧
    ∀ earlier, earlier.index < replacer.index → t.allows matcher earlier = true → ¬ P earlier

/-- What is wrong with a matcher without operands, which is replaced in a way of its own. -/
inductive BareFault (t : Taxonomy) : Operator → TaxonomyError → Prop
  /-- The matcher has no replacements of its own. -/
  | unhandled {matcher : Operator} (h : matcher ∉ nullaryMatchers) :
      BareFault t matcher (.unhandledNullaryMatcher matcher)
  /-- A constant is shifted by some offset, which the table does not allow. -/
  | offset {offset : Kind} (hoffset : offset ∈ t.constants.scalarConstants)
      (h : t.allows .arithConst .add = false) :
      BareFault t .arithConst (.forbiddenPair .arithConst .add)
  /-- A constant is zeroed, which the table does not allow, though it may be shifted. -/
  | zero (hoffsets : ∀ offset ∈ t.constants.scalarConstants, t.allows .arithConst .add = true)
      (h : t.allows .arithConst .constantValue = false) :
      BareFault t .arithConst (.forbiddenPair .arithConst .constantValue)
  /-- A statement is replaced by an operator with operands. -/
  | statement {matcher replacer : Operator} (hmatcher : matcher ∈ Operator.statements)
      (h : t.IsFirstReplacer matcher (fun op => t.format op ≠ []) replacer) :
      BareFault t matcher (.invalidExpansion matcher replacer .statementOperands)
  /-- A new callee does not take two operands. -/
  | callee (hallows : t.allows .call .newCallee = true) (h : (t.format .newCallee).length ≠ 2) :
      BareFault t .call
        (.invalidExpansion .call .newCallee (.calleeSlots (t.format .newCallee).length))

/-- What is wrong with a matcher. -/
inductive MatcherFault (t : Taxonomy) (matcher : Operator) : TaxonomyError → Prop
  /-- It has no operands, and cannot be replaced without them. -/
  | bare {defect : TaxonomyError} (hformat : t.format matcher = [])
      (h : t.BareFault matcher defect) : MatcherFault t matcher defect
  /-- It has operands, and is replaced by an operator with more than two. -/
  | arity {replacer : Operator} (hformat : t.format matcher ≠ [])
      (h : t.IsFirstReplacer matcher (fun op => 3 ≤ (t.format op).length) replacer) :
      MatcherFault t matcher (.invalidReplacerArity replacer (t.format replacer).length)

variable {t : Taxonomy} {matcher replacer : Operator} {defect : TaxonomyError}

/-- Bindings are joined up to the first replacement that has none. -/
theorem flatten_mapM_replacers_eq_error_iff
    {f : Operator → Except TaxonomyError (List Binding)} {P : Operator → Prop}
    {g : Operator → TaxonomyError} (hf : ∀ op e, f op = .error e ↔ P op ∧ e = g op) :
    (do return (← (t.replacers matcher).mapM f).flatten :
      Except TaxonomyError (List Binding)) = .error defect ↔
      ∃ replacer, t.IsFirstReplacer matcher P replacer ∧ defect = g replacer := by
  have hok : ∀ op, (∃ bs, f op = .ok bs) ↔ ¬ P op := by
    intro op
    cases h : f op with
    | error e => simp [((hf op e).1 h).1]
    | ok bs =>
      refine iff_of_true ⟨bs, rfl⟩ fun hP => ?_
      have herror := (hf op _).2 ⟨hP, rfl⟩
      simp [h] at herror
  rw [flatten_mapM_eq_error_iff, Operator.mapM_eq_error_iff (t.increasing_replacers matcher)]
  simp only [hok, hf]
  constructor
  · rintro ⟨replacer, hr, ⟨hP, rfl⟩, hfirst⟩
    exact ⟨replacer, ⟨allows_iff.2 hr, hP, fun earlier hlt ha =>
      hfirst earlier (allows_iff.1 ha) hlt⟩, rfl⟩
  · rintro ⟨replacer, ⟨ha, hP, hfirst⟩, rfl⟩
    exact ⟨replacer, allows_iff.1 ha, ⟨hP, rfl⟩, fun earlier hr hlt =>
      hfirst earlier hlt (allows_iff.2 hr)⟩

/-- An operator with more than two operands cannot replace a matcher with operands. -/
theorem slotBindings_eq_error_iff : t.slotBindings matcher replacer = .error defect ↔
    3 ≤ (t.format replacer).length ∧
      defect = .invalidReplacerArity replacer (t.format replacer).length := by
  rcases hf : t.format replacer with _ | ⟨a, _ | ⟨b, _ | ⟨c, rest⟩⟩⟩
  · simp [slotBindings, hf]
  · simp [slotBindings, hf]
  · simp [slotBindings, hf]
  · simp [slotBindings, hf, eq_comm]

/-- An operator with operands cannot replace a statement. -/
theorem statementBindings_eq_error_iff : t.statementBindings matcher replacer = .error defect ↔
    t.format replacer ≠ [] ∧ defect = .invalidExpansion matcher replacer .statementOperands := by
  unfold statementBindings
  split
  next h => simp [h]
  next h =>
    rw [Except.error.injEq, eq_comm]
    exact (and_iff_right h).symm

/-- Callees cannot be exchanged if the replacement does not name two. -/
theorem calleeBindings_eq_error_iff : t.calleeBindings = .error defect ↔
    (t.format .newCallee).length ≠ 2 ∧
      defect = .invalidExpansion .call .newCallee (.calleeSlots (t.format .newCallee).length) := by
  unfold calleeBindings
  split
  next h => simp [h]
  next h =>
    have hlength : (t.format .newCallee).length ≠ 2 := fun hl => by
      obtain ⟨a, b, hab⟩ := List.length_eq_two.1 hl
      exact h a b hab
    simp [hlength, eq_comm]

/-! ### Matchers without operands -/

/-- A matcher without replacements of its own has no other fault. -/
theorem bareFault_unhandled_iff (h : matcher ∉ nullaryMatchers) :
    t.BareFault matcher defect ↔ defect = .unhandledNullaryMatcher matcher := by
  have hstatements : ∀ m ∈ Operator.statements, m ∈ nullaryMatchers := by decide
  constructor
  · intro hfault
    cases hfault with
    | unhandled => rfl
    | offset | zero | callee => exact absurd (by decide) h
    | statement hs => exact absurd (hstatements matcher hs) h
  · rintro rfl
    exact .unhandled h

/-- A statement is at fault if a replacement has operands. -/
theorem bareFault_statement_iff (hmatcher : matcher ∈ Operator.statements) :
    t.BareFault matcher defect ↔
      ∃ replacer, t.IsFirstReplacer matcher (fun op => t.format op ≠ []) replacer ∧
        defect = .invalidExpansion matcher replacer .statementOperands := by
  have hstatements : ∀ m ∈ Operator.statements, m ∈ nullaryMatchers := by decide
  constructor
  · intro hfault
    cases hfault with
    | unhandled hunknown => exact absurd (hstatements matcher hmatcher) hunknown
    | offset | zero | callee => exact absurd hmatcher (by decide)
    | statement _ hfirst => exact ⟨_, hfirst, rfl⟩
  · rintro ⟨replacer, h, rfl⟩
    exact .statement hmatcher h

/-- A call is at fault if it is given new callees and their format does not name two. -/
theorem bareFault_call_iff : t.BareFault .call defect ↔
    t.allows .call .newCallee = true ∧ (t.format .newCallee).length ≠ 2 ∧
      defect = .invalidExpansion .call .newCallee (.calleeSlots (t.format .newCallee).length) := by
  constructor
  · intro hfault
    cases hfault with
    | unhandled hunknown => exact absurd (by decide) hunknown
    | statement hs => exact absurd hs (by decide)
    | callee hallows hslots => exact ⟨hallows, hslots, rfl⟩
  · rintro ⟨ha, h, rfl⟩
    exact .callee ha h

/-- The other matchers without operands are never at fault, except a constant. -/
theorem not_bareFault (h : matcher ∈ uncheckedMatchers) (hconstant : matcher ≠ .arithConst) :
    ¬ t.BareFault matcher defect := by
  obtain ⟨hknown, hstatement, hcall⟩ := known_of_unchecked h
  intro hfault
  cases hfault with
  | unhandled hunknown => exact hunknown hknown
  | offset | zero => exact hconstant rfl
  | statement hs => exact hstatement hs
  | callee => exact hcall rfl

/-- Of the replacements of a call, only a new callee can fail. -/
theorem nullaryBindings_call_eq_error_iff :
    t.nullaryBindings .call = .error defect ↔ t.BareFault .call defect := by
  rw [bareFault_call_iff]
  refine (flatten_mapM_replacers_eq_error_iff
    (P := fun op => op = .newCallee ∧ (t.format .newCallee).length ≠ 2)
    (g := fun _ => .invalidExpansion .call .newCallee
      (.calleeSlots (t.format .newCallee).length)) fun op e => ?_).trans ⟨?_, ?_⟩
  · cases op with
    | newCallee => simp [calleeBindings_eq_error_iff]
    | _ => exact iff_of_false nofun fun h => absurd h.1.1 (by decide)
  · rintro ⟨_, ⟨ha, ⟨rfl, hslots⟩, _⟩, rfl⟩
    exact ⟨ha, hslots, rfl⟩
  · rintro ⟨ha, hslots, rfl⟩
    refine ⟨.newCallee, ⟨ha, ⟨rfl, hslots⟩, ?_⟩, rfl⟩
    rintro _ hlt _ ⟨rfl, _⟩
    exact absurd hlt (Nat.lt_irrefl _)

/-- A matcher without operands cannot be expanded if it is at fault; a constant always can. -/
theorem nullaryBindings_eq_error_iff (hconstant : matcher ≠ .arithConst) :
    t.nullaryBindings matcher = .error defect ↔ t.BareFault matcher defect := by
  cases matcher with
  | arithConst => exact absurd rfl hconstant
  | arithExpr | arithVar | addressExpr | pointerVar | switch =>
    rw [nullaryBindings_of_unchecked (by decide)]
    exact iff_of_false nofun (not_bareFault (by decide) hconstant)
  | statement | returnBreakContinue =>
    rw [nullaryBindings_of_statement (by decide),
      flatten_mapM_replacers_eq_error_iff fun _ _ => statementBindings_eq_error_iff,
      bareFault_statement_iff (by decide)]
  | call => exact nullaryBindings_call_eq_error_iff
  | _ =>
    rw [nullaryBindings_of_not_mem (by decide), bareFault_unhandled_iff (by decide),
      Except.error.injEq, eq_comm]

/-- Synthesis for a matcher that is bound fails at the first binding that the table does not
allow. -/
theorem synthesizeMatcher_eq_error_iff_of_bindings {bs : List Binding}
    (hbs : t.bindings matcher = .ok bs) : t.synthesizeMatcher matcher = .error defect ↔
      ∃ b, t.forbidden? bs = some b ∧
        defect = .forbiddenPair b.key.operator b.replacement.operator := by
  rw [synthesizeMatcher, bind_eq_error_iff, hbs]
  cases hf : t.forbidden? bs <;> simp [hf, pure, Except.pure, eq_comm (a := defect)]

/-- A constant is shifted by each offset and then zeroed, whatever the table allows. -/
theorem synthesizeMatcher_arithConst_eq_error_iff (hformat : t.format .arithConst = []) :
    t.synthesizeMatcher .arithConst = .error defect ↔ t.BareFault .arithConst defect := by
  rw [synthesizeMatcher_eq_error_iff_of_bindings (bindings_eq_nullaryBindings hformat)]
  constructor
  · rintro ⟨b, hb, rfl⟩
    rw [forbidden?, List.find?_append, Option.or_eq_some_iff] at hb
    rcases hb with hb | ⟨hnone, hb⟩
    · obtain ⟨offset, hoffset, rfl⟩ := List.mem_map.1 (List.mem_of_find?_eq_some hb)
      exact .offset hoffset (by simpa [bareBinding] using List.find?_some hb)
    · obtain rfl := List.mem_singleton.1 (List.mem_of_find?_eq_some hb)
      refine .zero (fun offset hoffset => ?_) ?_
      · simpa [bareBinding] using List.find?_eq_none.1 hnone _ (List.mem_map_of_mem hoffset)
      · simpa [bareBinding] using List.find?_some hb
  · intro hfault
    cases hfault with
    | unhandled hunknown => exact absurd (by decide) hunknown
    | offset hoffset hadd =>
      obtain ⟨first, others, hlist⟩ := List.exists_cons_of_ne_nil (List.ne_nil_of_mem hoffset)
      refine ⟨bareBinding .arithConst .add [.arithConst, first], ?_, rfl⟩
      simp [forbidden?, hlist, bareBinding, hadd]
    | zero hoffsets hzero =>
      refine ⟨bareBinding .arithConst .constantValue [Constants.zero], ?_, rfl⟩
      rw [forbidden?, List.find?_append, List.find?_eq_none.2, Option.none_or]
      · simp [bareBinding, hzero]
      · intro b hb
        obtain ⟨offset, hoffset, rfl⟩ := List.mem_map.1 hb
        simp [bareBinding, hoffsets offset hoffset]
    | statement hs => exact absurd hs (by decide)

/-! ### All matchers -/

/-- What is bound for a matcher is allowed, unless it is a constant without operands. -/
theorem allows_of_mem_bindings (h : ¬ (matcher = .arithConst ∧ t.format matcher = []))
    {bs : List Binding} (hbs : t.bindings matcher = .ok bs) {b : Binding} (hb : b ∈ bs) :
    t.allows b.key.operator b.replacement.operator = true := by
  by_cases hformat : t.format matcher = []
  · have hconstant : matcher ≠ .arithConst := fun hm => h ⟨hm, hformat⟩
    obtain ⟨replacer, hr, _, _, rfl⟩ := (mem_bindings_iff_of_format_eq_nil hformat hbs).1 hb
    rw [bareReplacers_of_ne hconstant] at hr
    exact allows_iff.2 hr
  · obtain ⟨_, henum⟩ := enumerates_of_bindings hformat hbs
    exact henum.allows_of_mem hb

theorem matcherFault_iff_of_format_eq_nil (hformat : t.format matcher = []) :
    t.MatcherFault matcher defect ↔ t.BareFault matcher defect := by
  constructor
  · rintro (⟨_, h⟩ | ⟨hslots, _⟩)
    · exact h
    · exact absurd hformat hslots
  · exact .bare hformat

/-- A matcher with operands is at fault if a replacement has more than two. -/
theorem bindings_eq_error_iff (hformat : t.format matcher ≠ []) :
    t.bindings matcher = .error defect ↔ t.MatcherFault matcher defect := by
  have hjoined : t.bindings matcher = .error defect ↔ ∃ replacer,
      t.IsFirstReplacer matcher (fun op => 3 ≤ (t.format op).length) replacer ∧
        defect = .invalidReplacerArity replacer (t.format replacer).length := by
    rw [← flatten_mapM_replacers_eq_error_iff fun _ _ => slotBindings_eq_error_iff]
    unfold bindings
    split
    next he => exact absurd he hformat
    next => rfl
  rw [hjoined]
  constructor
  · rintro ⟨replacer, hr, rfl⟩
    exact .arity hformat hr
  · rintro (⟨hnil, _⟩ | ⟨_, hr⟩)
    · exact absurd hnil hformat
    · exact ⟨_, hr, rfl⟩

/-- Synthesis for a matcher fails where its bindings do, unless it is a constant without
operands. -/
theorem synthesizeMatcher_eq_error_iff_bindings
    (h : ¬ (matcher = .arithConst ∧ t.format matcher = [])) :
    t.synthesizeMatcher matcher = .error defect ↔ t.bindings matcher = .error defect := by
  rw [synthesizeMatcher, bind_eq_error_iff]
  refine or_iff_left ?_
  rintro ⟨bs, hbs, hforbidden⟩
  have hnone := forbidden?_eq_none_iff.2 fun b => allows_of_mem_bindings h hbs
  simp [hnone, pure, Except.pure] at hforbidden

/-- Synthesis for a matcher fails if the matcher is at fault. -/
theorem synthesizeMatcher_eq_error_iff :
    t.synthesizeMatcher matcher = .error defect ↔ t.MatcherFault matcher defect := by
  by_cases hformat : t.format matcher = []
  · rw [matcherFault_iff_of_format_eq_nil hformat]
    by_cases hconstant : matcher = .arithConst
    · subst hconstant
      exact synthesizeMatcher_arithConst_eq_error_iff hformat
    · rw [synthesizeMatcher_eq_error_iff_bindings fun h => hconstant h.1,
        bindings_eq_nullaryBindings hformat, nullaryBindings_eq_error_iff hconstant]
  · rw [synthesizeMatcher_eq_error_iff_bindings fun h => hformat h.2,
      bindings_eq_error_iff hformat]

/-! ## What is wrong with a taxonomy -/

/-- The rules of all matchers in turn, before their names are compared. -/
def Emits (t : Taxonomy) (set : RuleSet) : Prop :=
  ∃ parts, List.Forall₂ (fun m groups => t.synthesizeMatcher m = .ok groups) t.matchers parts ∧
    set = ⟨parts.flatten⟩

/-- What is wrong with a taxonomy. -/
inductive Fault (t : Taxonomy) : TaxonomyError → Prop
  /-- A matcher is at fault, and none before it. -/
  | matcher {matcher : Operator} {defect : TaxonomyError} (hmatcher : matcher ∈ t.matchers)
      (hfirst : ∀ earlier ∈ t.matchers, earlier.index < matcher.index →
        ∀ e, ¬ t.MatcherFault earlier e)
      (h : t.MatcherFault matcher defect) : Fault t defect
  /-- No matcher is at fault, and the names of two rules collide. -/
  | collision {set : RuleSet} {defect : TaxonomyError} (hset : t.Emits set)
      (h : RuleSet.Collides set.rules defect) : Fault t defect

/-- A matcher is synthesized if it is not at fault. -/
theorem exists_synthesizeMatcher_iff_not_matcherFault :
    (∃ groups, t.synthesizeMatcher matcher = .ok groups) ↔ ∀ e, ¬ t.MatcherFault matcher e := by
  simp only [← synthesizeMatcher_eq_error_iff]
  cases t.synthesizeMatcher matcher <;> simp

/-- Synthesis of the matchers in turn stops at the first that is at fault. -/
theorem mapM_synthesizeMatcher_eq_error_iff :
    t.matchers.mapM t.synthesizeMatcher = .error defect ↔ ∃ matcher ∈ t.matchers,
      t.MatcherFault matcher defect ∧ ∀ earlier ∈ t.matchers, earlier.index < matcher.index →
        ∀ e, ¬ t.MatcherFault earlier e := by
  rw [Operator.mapM_eq_error_iff t.increasing_matchers]
  simp only [synthesizeMatcher_eq_error_iff, exists_synthesizeMatcher_iff_not_matcherFault]

/-- Synthesis fails if the taxonomy is at fault. -/
theorem synthesize_eq_error_iff : t.synthesize = .error defect ↔ t.Fault defect := by
  rw [synthesize, bind_eq_error_iff, mapM_synthesizeMatcher_eq_error_iff]
  constructor
  · rintro (⟨matcher, hmatcher, h, hfirst⟩ | ⟨parts, hparts, hset⟩)
    · exact .matcher hmatcher hfirst h
    · dsimp only at hset
      split at hset
      next found hc =>
        obtain rfl := Except.error.inj hset
        exact .collision ⟨parts, mapM_eq_ok_iff.1 hparts, rfl⟩ (RuleSet.collision?_eq_some_iff.1 hc)
      next => simp [pure, Except.pure] at hset
  · rintro (⟨hmatcher, hfirst, h⟩ | ⟨⟨parts, hparts, rfl⟩, h⟩)
    · exact Or.inl ⟨_, hmatcher, h, hfirst⟩
    · refine Or.inr ⟨parts, mapM_eq_ok_iff.2 hparts, ?_⟩
      dsimp only
      rw [RuleSet.collision?_eq_some_iff.2 h]

/-- Two rules that arise have one name exactly if they are refused for it. -/
theorem exists_ruleNameCollision_iff :
    (∃ name first second, t.synthesize = .error (.ruleNameCollision name first second)) ↔
      ∃ set, t.Emits set ∧ ¬ set.names.Nodup := by
  have hnodup : ∀ set : RuleSet, ¬ set.names.Nodup ↔ ∃ e, RuleSet.Collides set.rules e := by
    intro set
    rw [← RuleSet.collision?_eq_none_iff, ← Ne, Option.ne_none_iff_exists']
    simp only [RuleSet.collision?_eq_some_iff]
  simp only [hnodup, synthesize_eq_error_iff]
  constructor
  · rintro ⟨name, first, second, ⟨_, _, _, h⟩ | ⟨hset, h⟩⟩
    · nomatch h
    · exact ⟨_, hset, _, h⟩
  · rintro ⟨set, hset, e, h⟩
    obtain ⟨name, first, second, rfl⟩ : ∃ name first second,
        e = .ruleNameCollision name first second := by
      cases h
      exact ⟨_, _, _, rfl⟩
    exact ⟨name, first, second, .collision hset h⟩

/-- What becomes of synthesis. It fails for a matcher with what is wrong with this matcher, and for
a taxonomy with what is wrong with the first matcher of the table that is at fault. If none is, it
fails for the names of two rules that collide, which they do if any two rules have one name, and
gives the rules of all matchers otherwise. -/
theorem synthesize_outcome (t : Taxonomy) :
    (∀ matcher defect,
      t.synthesizeMatcher matcher = .error defect ↔ t.MatcherFault matcher defect) ∧
    (∀ defect, t.synthesize = .error defect ↔ t.Fault defect) ∧
    ((∃ name first second, t.synthesize = .error (.ruleNameCollision name first second)) ↔
      ∃ set, t.Emits set ∧ ¬ set.names.Nodup) ∧
    ∀ set, t.synthesize = .ok set ↔ t.Emits set ∧ set.names.Nodup := by
  refine ⟨fun _ _ => synthesizeMatcher_eq_error_iff, fun _ => synthesize_eq_error_iff,
    exists_ruleNameCollision_iff, fun set => ?_⟩
  rw [synthesize_eq_ok_iff]
  simp only [Emits, exists_and_right, ← and_assoc]

end Taxonomy

end MutationRules
