/-!
# Ordered sets

A set holds each member once, in the increasing order of its type. The list of members is
therefore determined by membership alone, whatever the order or repetition in which the members
were given.
-/

namespace MutationRules

/-- Each member comes before every later one in the order of their type. -/
def Increasing {α : Type _} [Ord α] (members : List α) : Prop :=
  members.Pairwise (fun a b => compare a b = .lt)

namespace Increasing

variable {α : Type _} [Ord α]

theorem nil : Increasing ([] : List α) := List.Pairwise.nil

/-- Place a member among increasing ones, unless it is there already. -/
def place (a : α) : List α → List α
  | [] => [a]
  | b :: rest =>
    match compare a b with
    | .lt => a :: b :: rest
    | .eq => b :: rest
    | .gt => b :: place a rest

@[simp] theorem mem_place [Std.LawfulEqOrd α] {a x : α} {members : List α} :
    x ∈ place a members ↔ x = a ∨ x ∈ members := by
  induction members with
  | nil => simp [place]
  | cons b rest ih =>
    unfold place
    cases h : compare a b with
    | lt => simp
    | eq =>
      obtain rfl := Std.LawfulEqCmp.eq_of_compare h
      simp
    | gt => simp [ih, or_left_comm]

theorem of_place [Std.TransOrd α] [Std.LawfulEqOrd α] {a : α} {members : List α}
    (h : Increasing members) : Increasing (place a members) := by
  induction members with
  | nil => simp [place, Increasing]
  | cons b rest ih =>
    have hb := List.pairwise_cons.1 h
    unfold place
    cases hab : compare a b with
    | lt =>
      refine List.pairwise_cons.2 ⟨fun x hx => ?_, h⟩
      rcases List.mem_cons.1 hx with rfl | hx
      · exact hab
      · exact Std.TransCmp.lt_trans hab (hb.1 x hx)
    | eq => exact h
    | gt =>
      refine List.pairwise_cons.2 ⟨fun x hx => ?_, ih hb.2⟩
      rcases mem_place.1 hx with rfl | hx
      · exact Std.OrientedCmp.lt_of_gt hab
      · exact hb.1 x hx

theorem not_lt_self [Std.ReflOrd α] (a : α) : ¬ compare a a = .lt := by
  simp [Std.ReflCmp.compare_self]

/-- No member of an increasing list is repeated. -/
theorem nodup [Std.ReflOrd α] {members : List α} (h : Increasing members) : members.Nodup := by
  refine List.Pairwise.imp ?_ h
  rintro a _ hlt rfl
  exact not_lt_self a hlt

end Increasing

/-- A finite set kept in increasing order. -/
structure OrderedSet (α : Type _) [Ord α] where
  /-- The members, each once. -/
  toList : List α
  /-- The members strictly increase. -/
  increasing : Increasing toList

namespace OrderedSet

variable {α : Type _} [Ord α]

instance [DecidableEq α] : DecidableEq (OrderedSet α) := fun s t =>
  decidable_of_iff (s.toList = t.toList) ⟨fun h => by cases s; cases t; congr, congrArg toList⟩

instance : Membership α (OrderedSet α) := ⟨fun s a => a ∈ s.toList⟩

instance [DecidableEq α] (a : α) (s : OrderedSet α) : Decidable (a ∈ s) :=
  inferInstanceAs (Decidable (a ∈ s.toList))

@[simp] theorem mem_toList {a : α} {s : OrderedSet α} : a ∈ s.toList ↔ a ∈ s := Iff.rfl

/-- The set without members. -/
def empty : OrderedSet α := ⟨[], Increasing.nil⟩

instance : EmptyCollection (OrderedSet α) := ⟨empty⟩

instance : Inhabited (OrderedSet α) := ⟨empty⟩

@[simp] theorem not_mem_empty {a : α} : ¬ a ∈ (∅ : OrderedSet α) := List.not_mem_nil

/-- The number of members. -/
def size (s : OrderedSet α) : Nat := s.toList.length

/-- Whether the set has no members. -/
def isEmpty (s : OrderedSet α) : Bool := s.toList.isEmpty

/-- The members that pass a test. -/
def filter (p : α → Bool) (s : OrderedSet α) : OrderedSet α :=
  ⟨s.toList.filter p, s.increasing.filter p⟩

@[simp] theorem mem_filter {p : α → Bool} {a : α} {s : OrderedSet α} :
    a ∈ s.filter p ↔ a ∈ s ∧ p a = true := List.mem_filter

variable [Std.TransOrd α] [Std.LawfulEqOrd α]

/-- The set with one more member. -/
def insert (a : α) (s : OrderedSet α) : OrderedSet α :=
  ⟨Increasing.place a s.toList, s.increasing.of_place⟩

@[simp] theorem mem_insert {a x : α} {s : OrderedSet α} : x ∈ s.insert a ↔ x = a ∨ x ∈ s :=
  Increasing.mem_place

/-- The set with every member of a list added. -/
def insertMany (s : OrderedSet α) (members : List α) : OrderedSet α :=
  members.foldl (fun s a => s.insert a) s

@[simp] theorem mem_insertMany {x : α} {members : List α} {s : OrderedSet α} :
    x ∈ s.insertMany members ↔ x ∈ s ∨ x ∈ members := by
  induction members generalizing s with
  | nil => simp [insertMany]
  | cons a rest ih =>
    rw [insertMany, List.foldl_cons, ← insertMany, ih, mem_insert, List.mem_cons,
      or_comm (a := x = a), or_assoc]

/-- The set of the members of a list. -/
def ofList (members : List α) : OrderedSet α := (∅ : OrderedSet α).insertMany members

@[simp] theorem mem_ofList {x : α} {members : List α} : x ∈ ofList members ↔ x ∈ members := by
  simp [ofList]

/-- The members of either set. -/
def union (s t : OrderedSet α) : OrderedSet α := s.insertMany t.toList

@[simp] theorem mem_union {x : α} {s t : OrderedSet α} : x ∈ s.union t ↔ x ∈ s ∨ x ∈ t := by
  simp [union]

end OrderedSet

end MutationRules
