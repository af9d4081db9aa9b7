import MutationRules.Ordered.Set

/-!
# Ordered maps

A map holds one value for each of its keys, in the increasing order of the keys. The list of
entries is therefore determined by look-up alone.
-/

namespace MutationRules

namespace Increasing

variable {κ β : Type _} [Ord κ]

/-- Change the value of a key in a list of entries whose keys increase. -/
def adjust (k : κ) (f : Option β → β) : List (κ × β) → List (κ × β)
  | [] => [(k, f none)]
  | (k', v) :: rest =>
    match compare k k' with
    | .lt => (k, f none) :: (k', v) :: rest
    | .eq => (k', f (some v)) :: rest
    | .gt => (k', v) :: adjust k f rest

theorem map_fst_adjust (k : κ) (f : Option β → β) (entries : List (κ × β)) :
    (adjust k f entries).map Prod.fst = place k (entries.map Prod.fst) := by
  induction entries with
  | nil => rfl
  | cons e rest ih =>
    obtain ⟨k', v⟩ := e
    rw [List.map_cons, adjust, place]
    cases compare k k' <;> simp [ih]

/-- The value of a key in a list of entries. -/
def find? (k : κ) : List (κ × β) → Option β
  | [] => none
  | (k', v) :: rest => if compare k k' = .eq then some v else find? k rest

theorem find?_eq_none_of_lt [Std.TransOrd κ] {k : κ} {entries : List (κ × β)}
    (h : ∀ e ∈ entries, compare k e.1 = .lt) : find? k entries = none := by
  induction entries with
  | nil => rfl
  | cons e rest ih =>
    have he := h e (List.mem_cons_self ..)
    rw [find?, if_neg (by simp [he]), ih fun x hx => h x (List.mem_cons_of_mem _ hx)]

theorem find?_adjust_self [Std.TransOrd κ] {k : κ} {f : Option β → β}
    {entries : List (κ × β)} (h : Increasing (entries.map Prod.fst)) :
    find? k (adjust k f entries) = some (f (find? k entries)) := by
  induction entries with
  | nil => simp [adjust, find?, Std.ReflCmp.compare_self]
  | cons e rest ih =>
    obtain ⟨k', v⟩ := e
    have hc := List.pairwise_cons.1 h
    unfold adjust
    cases hk : compare k k' with
    | lt =>
      have hrest : find? k rest = none := find?_eq_none_of_lt fun x hx =>
        Std.TransCmp.lt_trans hk (hc.1 x.1 (List.mem_map_of_mem hx))
      simp [find?, hk, hrest, Std.ReflCmp.compare_self]
    | eq => simp [find?, hk]
    | gt => simp [find?, hk, ih hc.2]

theorem find?_adjust_of_ne [Std.TransOrd κ] {k x : κ} {f : Option β → β}
    {entries : List (κ × β)} (hx : compare x k ≠ .eq) :
    find? x (adjust k f entries) = find? x entries := by
  induction entries with
  | nil => simp [adjust, find?, hx]
  | cons e rest ih =>
    obtain ⟨k', v⟩ := e
    unfold adjust
    cases hk : compare k k' with
    | lt => simp [find?, hx]
    | eq =>
      have hx' : compare x k' ≠ .eq := fun he =>
        hx (Std.TransCmp.eq_trans he (Std.OrientedCmp.eq_symm hk))
      simp [find?, hx']
    | gt => simp [find?, ih]

theorem find?_eq_some_iff [Std.TransOrd κ] [Std.LawfulEqOrd κ] {k : κ} {v : β}
    {entries : List (κ × β)} (h : Increasing (entries.map Prod.fst)) :
    find? k entries = some v ↔ (k, v) ∈ entries := by
  induction entries with
  | nil => simp [find?]
  | cons e rest ih =>
    obtain ⟨k', w⟩ := e
    have hc := List.pairwise_cons.1 h
    rw [find?]
    split
    next he =>
      obtain rfl := Std.LawfulEqCmp.eq_of_compare he
      constructor
      · rintro ⟨⟩; simp
      · intro hm
        rcases List.mem_cons.1 hm with hm | hm
        · simp_all
        · have := hc.1 k (List.mem_map_of_mem hm)
          simp [Std.ReflCmp.compare_self] at this
    next he =>
      have hne : k ≠ k' := fun hk => he (hk ▸ Std.ReflCmp.compare_self)
      simp [ih hc.2, hne]

/-- The entries of other keys. -/
def remove (k : κ) (entries : List (κ × β)) : List (κ × β) :=
  entries.filter fun e => compare e.1 k ≠ .eq

theorem find?_remove_self [Std.OrientedOrd κ] (k : κ) (entries : List (κ × β)) :
    find? k (remove k entries) = none := by
  induction entries with
  | nil => rfl
  | cons e rest ih =>
    obtain ⟨k', v⟩ := e
    by_cases hk : compare k' k = .eq
    · rw [remove, List.filter_cons_of_neg (by simp [hk])]
      exact ih
    · have hk' : compare k k' ≠ .eq := fun h => hk (Std.OrientedCmp.eq_symm h)
      rw [remove, List.filter_cons_of_pos (by simp [hk]), find?, if_neg hk']
      exact ih

theorem find?_remove_of_ne [Std.TransOrd κ] {k x : κ} {entries : List (κ × β)}
    (hx : compare x k ≠ .eq) : find? x (remove k entries) = find? x entries := by
  induction entries with
  | nil => rfl
  | cons e rest ih =>
    obtain ⟨k', v⟩ := e
    by_cases hk : compare k' k = .eq
    · have hx' : compare x k' ≠ .eq := fun h => hx (Std.TransCmp.eq_trans h hk)
      rw [remove, List.filter_cons_of_neg (by simp [hk]), find?, if_neg hx']
      exact ih
    · rw [remove, List.filter_cons_of_pos (by simp [hk]), find?, find?]
      exact congrArg _ ih

end Increasing

/-- A finite map kept in increasing order of its keys. -/
structure OrderedMap (κ : Type _) (β : Type _) [Ord κ] where
  /-- The keys with their values. -/
  entries : List (κ × β)
  /-- The keys strictly increase. -/
  increasing : Increasing (entries.map Prod.fst)

namespace OrderedMap

variable {κ β : Type _} [Ord κ]

instance [DecidableEq κ] [DecidableEq β] : DecidableEq (OrderedMap κ β) := fun s t =>
  decidable_of_iff (s.entries = t.entries) ⟨fun h => by cases s; cases t; congr, congrArg entries⟩

/-- The map without keys. -/
def empty : OrderedMap κ β := ⟨[], Increasing.nil⟩

instance : EmptyCollection (OrderedMap κ β) := ⟨empty⟩

instance : Inhabited (OrderedMap κ β) := ⟨empty⟩

/-- The value of a key. -/
def get? (m : OrderedMap κ β) (k : κ) : Option β := Increasing.find? k m.entries

@[simp] theorem get?_empty (k : κ) : (∅ : OrderedMap κ β).get? k = none := rfl

/-- Whether the map has a value for the key. -/
def contains (m : OrderedMap κ β) (k : κ) : Bool := (m.get? k).isSome

/-- The keys in increasing order. -/
def keys (m : OrderedMap κ β) : List κ := m.entries.map Prod.fst

/-- The values in the order of their keys. -/
def values (m : OrderedMap κ β) : List β := m.entries.map Prod.snd

/-- The number of keys. -/
def size (m : OrderedMap κ β) : Nat := m.entries.length

/-- The same keys with each value replaced by its image. -/
def mapValues {γ : Type _} (f : β → γ) (m : OrderedMap κ β) : OrderedMap κ γ :=
  ⟨m.entries.map fun e => (e.1, f e.2), by simpa [Function.comp_def] using m.increasing⟩

theorem mem_entries_iff [Std.TransOrd κ] [Std.LawfulEqOrd κ] {m : OrderedMap κ β} {k : κ} {v : β} :
    (k, v) ∈ m.entries ↔ m.get? k = some v :=
  (Increasing.find?_eq_some_iff m.increasing).symm

theorem mem_keys_iff [Std.TransOrd κ] [Std.LawfulEqOrd κ] {m : OrderedMap κ β} {k : κ} :
    k ∈ m.keys ↔ (m.get? k).isSome = true := by
  simp [keys, mem_entries_iff, Option.isSome_iff_exists]

variable [Std.TransOrd κ] [Std.LawfulEqOrd κ]

/-- Give a key the value computed from the one it has, if any. -/
def adjust (m : OrderedMap κ β) (k : κ) (f : Option β → β) : OrderedMap κ β :=
  ⟨Increasing.adjust k f m.entries, by
    rw [Increasing.map_fst_adjust]; exact m.increasing.of_place⟩

@[simp] theorem get?_adjust_self (m : OrderedMap κ β) (k : κ) (f : Option β → β) :
    (m.adjust k f).get? k = some (f (m.get? k)) :=
  Increasing.find?_adjust_self m.increasing

theorem get?_adjust_of_ne (m : OrderedMap κ β) {k x : κ} (f : Option β → β) (h : x ≠ k) :
    (m.adjust k f).get? x = m.get? x :=
  Increasing.find?_adjust_of_ne fun he => h (Std.LawfulEqCmp.eq_of_compare he)

/-- Give a key a value, in place of the one it has. -/
def insert (m : OrderedMap κ β) (k : κ) (v : β) : OrderedMap κ β := m.adjust k fun _ => v

@[simp] theorem get?_insert_self (m : OrderedMap κ β) (k : κ) (v : β) :
    (m.insert k v).get? k = some v := get?_adjust_self ..

theorem get?_insert_of_ne (m : OrderedMap κ β) {k x : κ} (v : β) (h : x ≠ k) :
    (m.insert k v).get? x = m.get? x := get?_adjust_of_ne _ _ h

/-- Take a key away with its value. -/
def erase (m : OrderedMap κ β) (k : κ) : OrderedMap κ β :=
  ⟨Increasing.remove k m.entries, m.increasing.sublist (List.filter_sublist.map _)⟩

omit [Std.LawfulEqOrd κ] in
@[simp] theorem get?_erase_self (m : OrderedMap κ β) (k : κ) : (m.erase k).get? k = none :=
  Increasing.find?_remove_self k m.entries

theorem get?_erase_of_ne (m : OrderedMap κ β) {k x : κ} (h : x ≠ k) :
    (m.erase k).get? x = m.get? x :=
  Increasing.find?_remove_of_ne fun he => h (Std.LawfulEqCmp.eq_of_compare he)

/-- The map of a list of entries, in which the last value of a repeated key counts. -/
def ofList (entries : List (κ × β)) : OrderedMap κ β :=
  entries.foldl (fun m e => m.insert e.1 e.2) ∅

end OrderedMap

end MutationRules
