import MutationRules.Operand.Kind

/-!
# Preferred kinds

A slot that admits several kinds is bound to the most general one: any arithmetic expression if the
slot admits it, else any address expression, else the first kind in order. A replacement may narrow
the choice to the kinds that it requires.
-/

namespace MutationRules.KindSet

/-- The general category that is preferred to all other members. -/
def marker? (candidates : KindSet) : Option Kind :=
  [Kind.arithExpr, Kind.addressExpr].find? fun kind => kind ∈ candidates

theorem mem_of_marker? {candidates : KindSet} {kind : Kind} (h : candidates.marker? = some kind) :
    kind ∈ candidates := by
  simpa using List.find?_some h

/-- The members, the preferred one first and the others in order. -/
def preferenceOrder (candidates : KindSet) : List Kind :=
  match candidates.marker? with
  | some kind => kind :: candidates.toList.filter (· != kind)
  | none => candidates.toList

@[simp] theorem mem_preferenceOrder {candidates : KindSet} {kind : Kind} :
    kind ∈ candidates.preferenceOrder ↔ kind ∈ candidates := by
  unfold preferenceOrder
  split
  next marker h =>
    by_cases hk : kind = marker
    · simp [hk, mem_of_marker? h]
    · simp [hk]
  next => simp

/-- The most preferred member, among the required kinds if any are required. -/
def resolve (candidates : KindSet) (required? : Option KindSet) : Option Kind :=
  candidates.preferenceOrder.find? fun kind => required?.all fun required => kind ∈ required

/-- A resolved kind is a member. -/
theorem mem_of_resolve {candidates : KindSet} {required? : Option KindSet} {kind : Kind}
    (h : candidates.resolve required? = some kind) : kind ∈ candidates :=
  mem_preferenceOrder.1 (List.mem_of_find?_eq_some h)

/-- A resolved kind is one of those required. -/
theorem mem_required_of_resolve {candidates required : KindSet} {kind : Kind}
    (h : candidates.resolve (some required) = some kind) : kind ∈ required := by
  simpa using List.find?_some h

end MutationRules.KindSet
