import Mathlib.Data.List.Nodup
import MutationRules.Proofs.Operand.Admissible
import MutationRules.Proofs.Traversal
import MutationRules.RuleSet.Synthesis

/-!
# Replacements of matchers without operands

A matcher without operands is replaced by operators with bare operands. Which operands
a replacement is given depends on the matcher, on the replacement and on the literals
of the settings; the bindings are those of the replacements in turn. The operands have one
of four forms, and what is said of all of them is proved form by form.
-/

namespace MutationRules

/-- If only one entry of a list without repeats has an image, the list has this image. -/
theorem flatMap_eq_of_only {α β : Type} [DecidableEq α] {f : α → List β} {xs : List α}
    (hxs : xs.Nodup) {a : α} (h : ∀ x, x ≠ a → f x = []) :
    xs.flatMap f = if a ∈ xs then f a else [] := by
  induction xs with
  | nil => rfl
  | cons x rest ih =>
    obtain ⟨hx, hrest⟩ := List.nodup_cons.1 hxs
    rw [List.flatMap_cons, ih hrest]
    by_cases hxa : x = a
    · subst hxa
      simp [hx]
    · simp [h x hxa, Ne.symm hxa]

namespace Taxonomy

/-- The operands that a replacement of a matcher without operands is given. -/
def bareOperands (t : Taxonomy) : (matcher replacer : Operator) → List (List Kind)
  | .arithExpr, .abs => [[.arithExpr]]
  | .arithConst, .add => t.constants.scalarConstants.toList.map fun k => [.arithConst, k]
  | .arithConst, .constantValue => [[Constants.zero]]
  | .arithVar, replacer => if replacer ∈ Operator.steps then [[.arithVar]] else []
  | .pointerVar, replacer => if replacer ∈ Operator.pointerSteps then [[.pointerVar]] else []
  | .addressExpr, .constantValue => [[Constants.zero]]
  | .statement, _ => [[]]
  | .returnBreakContinue, _ => [[]]
  | .call, .shuffleArguments => t.constants.shuffleCounters.toList.map fun k => [k]
  | .call, .newCallee => t.constants.calleeNames.toList.flatMap fun matched =>
      (t.constants.calleeNames.toList.filter (· != matched)).map fun replacing =>
        [matched, replacing]
  | .switch, .shuffleCaseTargets => t.constants.shuffleCounters.toList.map fun k => [k]
  | .switch, .removeCases => t.constants.caseRemovalCounters.toList.map fun k => [k]
  | _, _ => []

/-- The replacements of a matcher without operands in the order of their bindings: a constant is
shifted, then zeroed, whatever the table says. -/
def bareReplacers (t : Taxonomy) : (matcher : Operator) → List Operator
  | .arithConst => [.add, .constantValue]
  | matcher => t.replacers matcher

/-- The bindings of a matcher to a replacement with bare operands. -/
def bareBindings (t : Taxonomy) (matcher replacer : Operator) : List Binding :=
  (t.bareOperands matcher replacer).map (bareBinding matcher replacer)

/-- Whether a matcher without operands can be expanded: it has replacements of its own, those of a
statement take no operands, and a new callee takes two. -/
structure Expands (t : Taxonomy) (matcher : Operator) : Prop where
  /-- The matcher is known. -/
  known : matcher ∈ nullaryMatchers
  /-- A statement is replaced as a whole. -/
  statement : matcher ∈ Operator.statements →
    ∀ replacer ∈ t.replacers matcher, t.format replacer = []
  /-- A new callee names the matched and the replacing one. -/
  callee : matcher = .call → ∀ replacer ∈ t.replacers matcher,
    replacer = .newCallee → (t.format .newCallee).length = 2

/-- The matchers without operands that can be expanded whatever their replacements are. -/
def uncheckedMatchers : List Operator := [
  .arithExpr, .arithConst, .arithVar, .addressExpr, .pointerVar, .switch]

/-- The forms of what a replacement is given. -/
inductive BareForm (t : Taxonomy) (matcher : Operator) : List (List Kind) → Prop
  /-- The replacement is given nothing. -/
  | none : BareForm t matcher []
  /-- The operands are the same for all settings. -/
  | fixed {kinds : List Kind}
      (hkinds : ∀ kind ∈ kinds, kind ∈ Kind.categories ∨ kind = Constants.zero) :
      BareForm t matcher [kinds]
  /-- The last operand is any literal of the settings that the matcher is given. -/
  | literals (first : List Kind) (supplied : KindSet)
      (hfirst : ∀ kind ∈ first, kind ∈ Kind.categories)
      (hsupplied : ∀ kind ∈ supplied, t.constants.Supplies matcher kind) :
      BareForm t matcher (supplied.toList.map fun kind => first ++ [kind])
  /-- The operands are two callees. -/
  | callees (hcall : matcher = .call) :
      BareForm t matcher (t.constants.calleeNames.toList.flatMap fun matched =>
        (t.constants.calleeNames.toList.filter (· != matched)).map fun replacing =>
          [matched, replacing])

variable {t : Taxonomy} {matcher : Operator}

theorem increasing_replacers (t : Taxonomy) (matcher : Operator) :
    Increasing (t.replacers matcher) :=
  OrderedSet.increasing _

theorem nodup_replacers (t : Taxonomy) (matcher : Operator) : (t.replacers matcher).Nodup :=
  (t.increasing_replacers matcher).nodup

theorem bareBinding_injective (matcher replacer : Operator) :
    (bareBinding matcher replacer).Injective := by
  intro ks ks' he
  have hbare : Operand.bare.Injective := fun _ _ h => congrArg Operand.kind h
  exact List.map_injective_iff.2 hbare (congrArg (fun b => b.replacement.operands) he)

theorem bareReplacers_of_ne (h : matcher ≠ .arithConst) :
    t.bareReplacers matcher = t.replacers matcher := by
  unfold bareReplacers
  split
  · exact absurd rfl h
  · rfl

theorem nodup_bareReplacers (t : Taxonomy) (matcher : Operator) :
    (t.bareReplacers matcher).Nodup := by
  unfold bareReplacers
  split
  · decide
  · exact nodup_replacers t matcher

/-- A variable is stepped by the increments and decrements among its replacements. -/
theorem stepBindings_eq (kind : Kind) (steps : List Operator) :
    t.stepBindings matcher kind steps = (t.replacers matcher).flatMap fun replacer =>
      (if replacer ∈ steps then [[kind]] else []).map (bareBinding matcher replacer) := by
  simp only [stepBindings, List.contains_eq_mem]
  induction t.replacers matcher with
  | nil => rfl
  | cons replacer rest ih =>
    by_cases hr : replacer ∈ steps <;> simp [hr, ih]

/-- A statement is replaced by an operator without operands. -/
theorem statementBindings_eq_ok_iff {replacer : Operator} {bs : List Binding} :
    t.statementBindings matcher replacer = .ok bs ↔
      t.format replacer = [] ∧ bs = [bareBinding matcher replacer []] := by
  unfold statementBindings
  split
  next h => simp [h, eq_comm]
  next h => simpa using fun he => absurd he h

/-- Callees are exchanged if the replacement names two. -/
theorem calleeBindings_eq_ok_iff {bs : List Binding} :
    t.calleeBindings = .ok bs ↔
      (t.format .newCallee).length = 2 ∧ bs = t.bareBindings .call .newCallee := by
  unfold calleeBindings
  split
  next h => simp [h, bareBindings, bareOperands, List.map_flatMap, Function.comp_def, eq_comm]
  next h =>
    have hlength : (t.format .newCallee).length ≠ 2 := fun hl => by
      obtain ⟨a, b, hab⟩ := List.length_eq_two.1 hl
      exact h a b hab
    simp [hlength]

/-- An expression is made absolute. -/
theorem bareOperands_arithExpr (replacer : Operator) : t.bareOperands .arithExpr replacer =
    if replacer = .abs then [[.arithExpr]] else [] := by
  cases replacer <;> rfl

/-- An address is zeroed. -/
theorem bareOperands_addressExpr (replacer : Operator) : t.bareOperands .addressExpr replacer =
    if replacer = .constantValue then [[Constants.zero]] else [] := by
  cases replacer <;> rfl

/-- Only constants, calls and switches are given literals of the settings. -/
theorem bareOperands_eq_of_not_mem {t' : Taxonomy}
    (h : matcher ∉ [Operator.arithConst, .call, .switch]) (replacer : Operator) :
    t.bareOperands matcher replacer = t'.bareOperands matcher replacer := by
  cases matcher with
  | arithConst | call | switch => exact absurd (by decide) h
  | arithExpr => rw [bareOperands_arithExpr, bareOperands_arithExpr]
  | addressExpr => rw [bareOperands_addressExpr, bareOperands_addressExpr]
  | _ => rfl

/-- A matcher with one replacement of its own has a binding if it is allowed. -/
theorem flatMap_bareBindings_of_only {only : Operator} {kinds : List Kind}
    (h : ∀ replacer, t.bareOperands matcher replacer = if replacer = only then [kinds] else []) :
    (t.replacers matcher).flatMap (t.bareBindings matcher) =
      if t.allows matcher only then [bareBinding matcher only kinds] else [] := by
  have hnone : ∀ replacer, replacer ≠ only → t.bareBindings matcher replacer = [] := by
    intro replacer hr
    rw [bareBindings, h, if_neg hr, List.map_nil]
  rw [flatMap_eq_of_only (nodup_replacers t matcher) hnone, bareBindings, h, if_pos rfl]
  simp only [← allows_iff, List.map_singleton]

/-! ## Bindings -/

theorem known_of_unchecked (h : matcher ∈ uncheckedMatchers) :
    matcher ∈ nullaryMatchers ∧ matcher ∉ Operator.statements ∧ matcher ≠ .call := by
  have hall : ∀ m ∈ uncheckedMatchers,
      m ∈ nullaryMatchers ∧ m ∉ Operator.statements ∧ m ≠ .call := by
    decide
  exact hall matcher h

theorem expands_of_unchecked (h : matcher ∈ uncheckedMatchers) : t.Expands matcher := by
  obtain ⟨hknown, hstatement, hcall⟩ := known_of_unchecked h
  exact ⟨hknown, fun hs => absurd hs hstatement, fun hc => absurd hc hcall⟩

/-- A matcher whose replacements do not matter has the bindings of its replacements in turn. -/
theorem nullaryBindings_of_unchecked (h : matcher ∈ uncheckedMatchers) :
    t.nullaryBindings matcher =
      .ok ((t.bareReplacers matcher).flatMap (t.bareBindings matcher)) := by
  cases matcher with
  | arithExpr =>
    exact congrArg Except.ok (flatMap_bareBindings_of_only bareOperands_arithExpr).symm
  | arithConst =>
    simp [nullaryBindings, bareReplacers, bareBindings, bareOperands, Function.comp_def]
  | arithVar | pointerVar => exact congrArg Except.ok (stepBindings_eq _ _)
  | addressExpr =>
    exact congrArg Except.ok (flatMap_bareBindings_of_only bareOperands_addressExpr).symm
  | switch =>
    refine congrArg Except.ok (List.flatMap_congr fun replacer _ => ?_)
    cases replacer with
    | shuffleCaseTargets | removeCases =>
      simp [bareBindings, bareOperands, counterBindings, Function.comp_def]
    | _ => rfl
  | _ => exact absurd h (by decide)

/-- A statement has the bindings of its replacements in turn, unless one takes operands. -/
theorem nullaryBindings_of_statement (h : matcher ∈ Operator.statements) :
    t.nullaryBindings matcher =
      (do return (← (t.replacers matcher).mapM (t.statementBindings matcher)).flatten) := by
  cases matcher with
  | statement | returnBreakContinue => rfl
  | _ => exact absurd h (by decide)

/-- Other matchers have no bindings without operands. -/
theorem nullaryBindings_of_not_mem (h : matcher ∉ nullaryMatchers) :
    t.nullaryBindings matcher = .error (.unhandledNullaryMatcher matcher) := by
  cases matcher with
  | arithExpr | arithConst | arithVar | addressExpr | pointerVar | statement
  | returnBreakContinue | call | switch => exact absurd (by decide) h
  | _ => rfl

/-- A call has the bindings of its replacements in turn, unless a new callee does not name two. -/
theorem nullaryBindings_call_eq_ok_iff {bs : List Binding} :
    t.nullaryBindings .call = .ok bs ↔
      (∀ replacer ∈ t.replacers .call, replacer = .newCallee →
        (t.format .newCallee).length = 2) ∧
      bs = (t.replacers .call).flatMap (t.bareBindings .call) := by
  refine flatten_mapM_eq_ok_iff fun replacer part => ?_
  cases replacer with
  | shuffleArguments =>
    simp [bareBindings, bareOperands, counterBindings, Function.comp_def, eq_comm]
  | newCallee => simpa using calleeBindings_eq_ok_iff
  | _ => exact ⟨fun h => ⟨nofun, (Except.ok.inj h).symm⟩, fun h => congrArg Except.ok h.2.symm⟩

/-- The bindings of a matcher without operands are those of its replacements in turn. -/
theorem nullaryBindings_eq_ok_iff {bs : List Binding} : t.nullaryBindings matcher = .ok bs ↔
    t.Expands matcher ∧ bs = (t.bareReplacers matcher).flatMap (t.bareBindings matcher) := by
  cases matcher with
  | arithExpr | arithConst | arithVar | addressExpr | pointerVar | switch =>
    rw [nullaryBindings_of_unchecked (by decide), Except.ok.injEq, eq_comm]
    exact (and_iff_right (expands_of_unchecked (by decide))).symm
  | statement | returnBreakContinue =>
    rw [nullaryBindings_of_statement (by decide),
      flatten_mapM_eq_ok_iff fun _ _ => statementBindings_eq_ok_iff]
    exact and_congr_left fun _ =>
      ⟨fun h => ⟨by decide, fun _ => h, by simp⟩, fun h => h.statement (by decide)⟩
  | call =>
    rw [nullaryBindings_call_eq_ok_iff]
    exact and_congr_left fun _ =>
      ⟨fun h => ⟨by decide, fun hs => absurd hs (by decide), fun _ => h⟩, fun h => h.callee rfl⟩
  | _ =>
    rw [nullaryBindings_of_not_mem (by decide)]
    exact iff_of_false nofun fun h => absurd h.1.known (by decide)

theorem bindings_eq_nullaryBindings (hformat : t.format matcher = []) :
    t.bindings matcher = t.nullaryBindings matcher := by
  rw [bindings, hformat]

/-- The bindings of a matcher without operands have bare operands and a bare key. -/
theorem mem_bindings_iff_of_format_eq_nil (hformat : t.format matcher = []) {bs : List Binding}
    (hbs : t.bindings matcher = .ok bs) {b : Binding} : b ∈ bs ↔
      ∃ replacer ∈ t.bareReplacers matcher, ∃ kinds ∈ t.bareOperands matcher replacer,
        bareBinding matcher replacer kinds = b := by
  rw [bindings_eq_nullaryBindings hformat] at hbs
  obtain ⟨_, rfl⟩ := nullaryBindings_eq_ok_iff.1 hbs
  simp only [List.mem_flatMap, bareBindings, List.mem_map]

/-! ## Forms of bare operands -/

theorem BareForm.ite {p : Prop} [Decidable p] {kinds : List Kind}
    (hkinds : ∀ kind ∈ kinds, kind ∈ Kind.categories ∨ kind = Constants.zero) :
    t.BareForm matcher (if p then [kinds] else []) := by
  split
  · exact .fixed hkinds
  · exact .none

theorem bareForm_bareOperands (t : Taxonomy) (matcher replacer : Operator) :
    t.BareForm matcher (t.bareOperands matcher replacer) := by
  cases matcher with
  | arithExpr => exact bareOperands_arithExpr replacer ▸ .ite (by decide)
  | arithConst =>
    cases replacer with
    | add => exact .literals [.arithConst] _ (by decide) fun _ hk => hk
    | constantValue => exact .fixed (by decide)
    | _ => exact .none
  | arithVar | pointerVar => exact .ite (by decide)
  | addressExpr => exact bareOperands_addressExpr replacer ▸ .ite (by decide)
  | statement | returnBreakContinue => exact .fixed (by decide)
  | call =>
    cases replacer with
    | shuffleArguments => exact .literals [] _ (by decide) fun _ hk => Or.inl hk
    | newCallee => exact .callees rfl
    | _ => exact .none
  | switch =>
    cases replacer with
    | shuffleCaseTargets => exact .literals [] _ (by decide) fun _ hk => Or.inl hk
    | removeCases => exact .literals [] _ (by decide) fun _ hk => Or.inr hk
    | _ => exact .none
  | _ => exact .none

namespace BareForm

variable {operands : List (List Kind)}

theorem mem_cases (h : t.BareForm matcher operands) {kinds : List Kind} (hkinds : kinds ∈ operands)
    {kind : Kind} (hk : kind ∈ kinds) :
    kind ∈ Kind.categories ∨ kind = Constants.zero ∨ t.constants.Supplies matcher kind := by
  cases h with
  | none => exact absurd hkinds List.not_mem_nil
  | fixed hfixed =>
    obtain rfl := List.mem_singleton.1 hkinds
    exact (hfixed kind hk).imp_right Or.inl
  | literals first supplied hfirst hsupplied =>
    obtain ⟨literal, hliteral, rfl⟩ := List.mem_map.1 hkinds
    rcases List.mem_append.1 hk with hk | hk
    · exact Or.inl (hfirst kind hk)
    · exact Or.inr (Or.inr (List.mem_singleton.1 hk ▸ hsupplied literal hliteral))
  | callees hcall =>
    obtain ⟨matched, hmatched, hkinds⟩ := List.mem_flatMap.1 hkinds
    obtain ⟨replacing, hother, rfl⟩ := List.mem_map.1 hkinds
    obtain ⟨hreplacing, hne⟩ : replacing ∈ t.constants.calleeNames ∧ replacing ≠ matched := by
      simpa using hother
    subst hcall
    rcases List.mem_pair.1 hk with rfl | rfl
    · exact Or.inr (Or.inr (Or.inr ⟨hmatched, replacing, hreplacing, hne⟩))
    · exact Or.inr (Or.inr (Or.inr ⟨hreplacing, matched, hmatched, hne.symm⟩))

theorem nodup (h : t.BareForm matcher operands) : operands.Nodup := by
  cases h with
  | none => exact List.nodup_nil
  | fixed => exact List.nodup_singleton _
  | literals first supplied =>
    refine supplied.increasing.nodup.map fun k k' he => ?_
    exact List.singleton_inj.1 (List.append_cancel_left he)
  | callees =>
    refine List.nodup_flatMap.2 ⟨fun matched _ => ?_, ?_⟩
    · refine ((OrderedSet.increasing _).nodup.filter _).map fun k k' he => ?_
      exact (List.cons.inj (List.cons.inj he).2).1
    · refine (OrderedSet.increasing _).nodup.imp fun hne => ?_
      intro kinds hk hk'
      obtain ⟨_, _, rfl⟩ := List.mem_map.1 hk
      obtain ⟨_, _, he⟩ := List.mem_map.1 hk'
      exact hne (List.cons.inj he).1.symm

end BareForm

/-- A bare operand is a category, zero or a literal that the matcher is given. -/
theorem mem_of_mem_bareOperands {replacer : Operator} {kinds : List Kind}
    (h : kinds ∈ t.bareOperands matcher replacer) {kind : Kind} (hk : kind ∈ kinds) :
    kind ∈ Kind.categories ∨ kind = Constants.zero ∨ t.constants.Supplies matcher kind :=
  (t.bareForm_bareOperands matcher replacer).mem_cases h hk

/-- The operands of a replacement differ from binding to binding. -/
theorem nodup_bareOperands (t : Taxonomy) (matcher replacer : Operator) :
    (t.bareOperands matcher replacer).Nodup :=
  (t.bareForm_bareOperands matcher replacer).nodup

/-- The replacements that are given literals of the settings, each behind its matcher. -/
def supplyingPairs : List (Operator × Operator) := [
  (.arithConst, .add), (.call, .shuffleArguments), (.call, .newCallee),
  (.switch, .shuffleCaseTargets), (.switch, .removeCases)]

/-- A literal that a matcher is given is a bare operand of some replacement. -/
theorem exists_bareOperands_of_supplies {kind : Kind} (h : t.constants.Supplies matcher kind) :
    ∃ replacer, (matcher, replacer) ∈ supplyingPairs ∧
      ∃ kinds ∈ t.bareOperands matcher replacer, kind ∈ kinds := by
  -- a literal is the last operand of its own list
  have hlast : ∀ (first : List Kind) {supplied : KindSet}, kind ∈ supplied →
      ∃ kinds ∈ supplied.toList.map (fun k => first ++ [k]), kind ∈ kinds := fun _ _ hk =>
    ⟨_, List.mem_map_of_mem hk, List.mem_append_right _ (List.mem_singleton_self _)⟩
  cases matcher with
  | arithConst => exact ⟨.add, by decide, hlast [.arithConst] h⟩
  | call =>
    rcases h with hcounter | ⟨hcallee, other, hother, hne⟩
    · exact ⟨.shuffleArguments, by decide, hlast [] hcounter⟩
    · refine ⟨.newCallee, by decide, [kind, other], ?_, List.mem_cons_self ..⟩
      have hreplacing : other ∈ t.constants.calleeNames.toList.filter (· != kind) :=
        List.mem_filter.2 ⟨hother, by simpa using hne⟩
      exact List.mem_flatMap.2 ⟨kind, hcallee, List.mem_map_of_mem hreplacing⟩
  | switch =>
    rcases h with hcounter | hcounter
    · exact ⟨.shuffleCaseTargets, by decide, hlast [] hcounter⟩
    · exact ⟨.removeCases, by decide, hlast [] hcounter⟩
  | _ => exact h.elim

end Taxonomy

end MutationRules
