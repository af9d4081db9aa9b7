import Mathlib.Data.List.Forall2

/-!
# Computations that may stop

A sequence of two computations succeeds if both do, and mapping a computation over a
list succeeds if it does at every entry.
-/

namespace MutationRules

variable {ε α β γ : Type}

/-- A sequence of two computations succeeds if the second does on the result of the first. -/
theorem bind_eq_ok_iff {x : Except ε α} {f : α → Except ε β} {b : β} :
    x >>= f = .ok b ↔ ∃ a, x = .ok a ∧ f a = .ok b := by
  cases x with
  | error e => simp [bind, Except.bind]
  | ok a => simp [bind, Except.bind]

/-- A sequence of two computations stops if the first does, or the second on its result. -/
theorem bind_eq_error_iff {x : Except ε α} {f : α → Except ε β} {e : ε} :
    x >>= f = .error e ↔ x = .error e ∨ ∃ a, x = .ok a ∧ f a = .error e := by
  cases x with
  | error e' => simp [bind, Except.bind]
  | ok a => simp [bind, Except.bind]

theorem map_eq_ok_iff {x : Except ε α} {f : α → β} {b : β} :
    x.map f = .ok b ↔ ∃ a, x = .ok a ∧ f a = b := by
  cases x <;> simp [Except.map]

theorem exists_map_eq_ok_iff {x : Except ε α} {f : α → β} :
    (∃ b, x.map f = .ok b) ↔ ∃ a, x = .ok a := by
  cases x <;> simp [Except.map]

theorem map_eq_error_iff {x : Except ε α} {f : α → β} {e : ε} :
    x.map f = .error e ↔ x = .error e := by
  cases x <;> simp [Except.map]

/-- A computation whose errors are renamed succeeds as before. -/
theorem mapError_eq_ok_iff {ε' : Type} {x : Except ε α} {rename : ε → ε'} {a : α} :
    x.mapError rename = .ok a ↔ x = .ok a := by
  cases x with
  | error e => exact iff_of_false nofun nofun
  | ok b => exact ⟨by rintro ⟨⟩; rfl, by rintro ⟨⟩; rfl⟩

/-- An optional traversal succeeds entry by entry. -/
theorem mapM_eq_some_iff {f : α → Option β} {xs : List α} {ys : List β} :
    xs.mapM f = some ys ↔ List.Forall₂ (fun x y => f x = some y) xs ys := by
  induction xs generalizing ys with
  | nil => simp [eq_comm]
  | cons x xs ih =>
    rw [List.mapM_cons, List.forall₂_cons_left_iff]
    simp [Option.bind_eq_some_iff, ih, eq_comm (a := ys)]

/-- An optional traversal succeeds if each step does. -/
theorem isSome_mapM_iff {f : α → Option β} {xs : List α} :
    (xs.mapM f).isSome = true ↔ ∀ x ∈ xs, (f x).isSome = true := by
  induction xs with
  | nil => simp
  | cons x xs ih =>
    rw [List.mapM_cons, List.forall_mem_cons, ← ih]
    cases f x <;> cases xs.mapM f <;> simp

/-- The entries of two lists are related if their lengths agree and each entry of the first is
related to the one at its place. -/
theorem forall₂_iff_getElem? {R : α → β → Prop} {xs : List α} {ys : List β} :
    List.Forall₂ R xs ys ↔ ys.length = xs.length ∧
      ∀ (i : Nat) x, xs[i]? = some x → ∃ y, ys[i]? = some y ∧ R x y := by
  induction xs generalizing ys with
  | nil => simp
  | cons x xs ih =>
    cases ys with
    | nil => simp
    | cons y ys =>
      rw [List.forall₂_cons, ih]
      constructor
      · rintro ⟨hxy, hlength, h⟩
        refine ⟨congrArg Nat.succ hlength, fun i z hz => ?_⟩
        cases i with
        | zero => exact ⟨y, rfl, Option.some.inj hz ▸ hxy⟩
        | succ i => exact h i z hz
      · rintro ⟨hlength, h⟩
        obtain ⟨z, hz, hxz⟩ := h 0 x rfl
        obtain rfl := Option.some.inj hz
        exact ⟨hxz, Nat.succ.inj hlength, fun i z hz => h (i + 1) z hz⟩

/-- An entry of one of two related lists is related to one of the other. -/
theorem exists_mem_of_forall₂ {R : α → β → Prop} {xs : List α} {ys : List β}
    (h : List.Forall₂ R xs ys) {x : α} (hx : x ∈ xs) : ∃ y ∈ ys, R x y := by
  obtain ⟨i, hi⟩ := List.mem_iff_getElem?.1 hx
  obtain ⟨y, hy, hxy⟩ := (forall₂_iff_getElem?.1 h).2 i x hi
  exact ⟨y, List.mem_of_getElem? hy, hxy⟩

/-- Entries that are each related to something are related to a list. -/
theorem exists_forall₂ {R : α → β → Prop} {xs : List α} (h : ∀ x ∈ xs, ∃ y, R x y) :
    ∃ ys, List.Forall₂ R xs ys := by
  induction xs with
  | nil => exact ⟨[], .nil⟩
  | cons x xs ih =>
    obtain ⟨y, hxy⟩ := h x (List.mem_cons_self ..)
    obtain ⟨ys, hys⟩ := ih fun z hz => h z (List.mem_cons_of_mem _ hz)
    exact ⟨y :: ys, .cons hxy hys⟩

/-- The entries on which an optional function is defined, beside its values at them. -/
theorem forall₂_filterMap (f : α → Option β) (xs : List α) :
    List.Forall₂ (fun x y => f x = some y) (xs.filter fun x => (f x).isSome) (xs.filterMap f) := by
  induction xs with
  | nil => exact .nil
  | cons x xs ih =>
    cases hx : f x with
    | none => simpa [hx] using ih
    | some y => simpa [hx] using ih

/-- What is related to the values of an optional function is related to the entries on which it is
defined. -/
theorem forall₂_filterMap_left_iff {f : α → Option β} {R : β → γ → Prop} {xs : List α}
    {ys : List γ} : List.Forall₂ R (xs.filterMap f) ys ↔
      List.Forall₂ (fun x y => ∃ b, f x = some b ∧ R b y)
        (xs.filter fun x => (f x).isSome) ys := by
  induction xs generalizing ys with
  | nil => simp
  | cons x xs ih =>
    cases hx : f x with
    | none => rw [List.filterMap_cons_none hx, ih, List.filter_cons_of_neg (by simp [hx])]
    | some b =>
      rw [List.filterMap_cons_some hx, List.filter_cons_of_pos (by simp [hx])]
      rw [List.forall₂_cons_left_iff, List.forall₂_cons_left_iff]
      simp [hx, ih]

/-- A relation between the entries of one list carries over to the entries of a related list. -/
theorem pairwise_of_forall₂ {R : α → β → Prop} {S : α → α → Prop} {T : β → β → Prop}
    {xs : List α} {ys : List β} (h : List.Forall₂ R xs ys) (hxs : xs.Pairwise S)
    (hST : ∀ {x y x' y'}, R x y → R x' y' → S x x' → T y y') : ys.Pairwise T := by
  induction h with
  | nil => exact .nil
  | @cons x y xs ys hxy h ih =>
    obtain ⟨hx, hxs⟩ := List.pairwise_cons.1 hxs
    refine List.pairwise_cons.2 ⟨fun y' hy' => ?_, ih hxs⟩
    obtain ⟨x', hx', hxy'⟩ := exists_mem_of_forall₂ h.flip hy'
    exact hST hxy hxy' (hx x' hx')

/-- Entries of related lists are counted alike by tests that agree on related entries. -/
theorem countP_eq_of_forall₂ {R : α → β → Prop} {xs : List α} {ys : List β}
    (h : List.Forall₂ R xs ys) {p : α → Bool} {q : β → Bool} (hpq : ∀ x y, R x y → q y = p x) :
    ys.countP q = xs.countP p := by
  induction h with
  | nil => rfl
  | cons hxy _ ih => rw [List.countP_cons, List.countP_cons, ih, hpq _ _ hxy]

/-- A traversal with errors succeeds entry by entry. -/
theorem mapM_eq_ok_iff {f : α → Except ε β} {xs : List α} {ys : List β} :
    xs.mapM f = .ok ys ↔ List.Forall₂ (fun x y => f x = .ok y) xs ys := by
  induction xs generalizing ys with
  | nil => simp [pure, Except.pure, eq_comm]
  | cons x xs ih =>
    rw [List.mapM_cons, List.forall₂_cons_left_iff]
    simp [bind_eq_ok_iff, ih, pure, Except.pure, eq_comm (a := ys)]

/-- A traversal succeeds if each step does. -/
theorem exists_mapM_eq_ok_iff {f : α → Except ε β} {xs : List α} :
    (∃ ys, xs.mapM f = .ok ys) ↔ ∀ x ∈ xs, ∃ y, f x = .ok y := by
  simp only [mapM_eq_ok_iff]
  constructor
  · rintro ⟨ys, h⟩ x hx
    obtain ⟨y, _, hy⟩ := exists_mem_of_forall₂ h hx
    exact ⟨y, hy⟩
  · exact exists_forall₂

/-- A traversal stops at the first entry whose step does. -/
theorem mapM_eq_error_iff {f : α → Except ε β} {xs : List α} {e : ε} :
    xs.mapM f = .error e ↔ ∃ before x after, xs = before ++ x :: after ∧
      (∀ y ∈ before, ∃ b, f y = .ok b) ∧ f x = .error e := by
  induction xs with
  | nil => simp [pure, Except.pure]
  | cons x xs ih =>
    rw [List.mapM_cons, bind_eq_error_iff]
    constructor
    · rintro (hx | ⟨b, hx, hrest⟩)
      · exact ⟨[], x, xs, rfl, by simp, hx⟩
      · rcases bind_eq_error_iff.1 hrest with hxs | ⟨_, _, hpure⟩
        · obtain ⟨before, y, after, rfl, hbefore, hy⟩ := ih.1 hxs
          exact ⟨x :: before, y, after, rfl, List.forall_mem_cons.2 ⟨⟨b, hx⟩, hbefore⟩, hy⟩
        · cases hpure
    · rintro ⟨_ | ⟨z, before⟩, y, after, hsplit, hbefore, hy⟩
      · obtain ⟨rfl, rfl⟩ := List.cons.inj hsplit
        exact Or.inl hy
      · obtain ⟨rfl, rfl⟩ := List.cons.inj hsplit
        obtain ⟨⟨b, hx⟩, hbefore⟩ := List.forall_mem_cons.1 hbefore
        have hxs := ih.2 ⟨before, y, after, rfl, hbefore, hy⟩
        exact Or.inr ⟨b, hx, bind_eq_error_iff.2 (Or.inl hxs)⟩

/-- An entry of a longer list, with those before it, is one of the list or the last one. -/
theorem exists_split_concat_iff {P : List α → α → Prop} {xs : List α} {a : α} :
    (∃ before x after, xs ++ [a] = before ++ x :: after ∧ P before x) ↔
      (∃ before x after, xs = before ++ x :: after ∧ P before x) ∨ P xs a := by
  constructor
  · rintro ⟨before, x, after, h, hx⟩
    rcases List.eq_nil_or_concat after with rfl | ⟨after, last, rfl⟩
    · obtain ⟨rfl, rfl⟩ := List.append_singleton_inj.1 h
      exact Or.inr hx
    · rw [List.concat_eq_append, ← List.cons_append, ← List.append_assoc] at h
      obtain ⟨rfl, rfl⟩ := List.append_singleton_inj.1 h
      exact Or.inl ⟨before, x, after, rfl, hx⟩
  · rintro (⟨before, x, after, rfl, hx⟩ | hx)
    · exact ⟨before, x, after ++ [a], by simp, hx⟩
    · exact ⟨xs, a, [], rfl, hx⟩

/-- A value of an optional function, with those before it, is that of an entry, with the values at
the entries before it. -/
theorem exists_split_filterMap_iff {f : α → Option β} {P Q : β → Prop} {xs : List α} :
    (∃ before y after, xs.filterMap f = before ++ y :: after ∧ (∀ z ∈ before, P z) ∧ Q y) ↔
      ∃ before x after, xs = before ++ x :: after ∧
        (∀ z ∈ before, ∀ b, f z = some b → P b) ∧ ∃ b, f x = some b ∧ Q b := by
  constructor
  · rintro ⟨_, y, _, h, hP, hQ⟩
    obtain ⟨before, rest, rfl, rfl, hrest⟩ := List.filterMap_eq_append_iff.1 h
    obtain ⟨skipped, x, after, rfl, hskipped, hx, rfl⟩ := List.filterMap_eq_cons_iff.1 hrest
    refine ⟨before ++ skipped, x, after, by simp, fun z hz b hb => ?_, y, hx, hQ⟩
    rcases List.mem_append.1 hz with hz | hz
    · exact hP b (List.mem_filterMap.2 ⟨z, hz, hb⟩)
    · exact absurd (hb.symm.trans (hskipped z hz)) (by simp)
  · rintro ⟨before, x, after, rfl, hP, b, hx, hQ⟩
    refine ⟨before.filterMap f, b, after.filterMap f, by simp [hx], fun z hz => ?_, hQ⟩
    obtain ⟨a, ha, haz⟩ := List.mem_filterMap.1 hz
    exact hP a ha z haz

/-- Where entries are in a strict order, those before an entry are the ones that the order puts
before it. -/
theorem exists_split_iff_of_pairwise {R : α → α → Prop} (asymm : ∀ {a b}, R a b → ¬ R b a)
    {xs : List α} (hxs : xs.Pairwise R) {Q : α → Prop} {x : α} :
    (∃ before after, xs = before ++ x :: after ∧ ∀ y ∈ before, Q y) ↔
      x ∈ xs ∧ ∀ y ∈ xs, R y x → Q y := by
  constructor
  · rintro ⟨before, after, rfl, hbefore⟩
    obtain ⟨_, htail, _⟩ := List.pairwise_append.1 hxs
    refine ⟨by simp, fun y hy hyx => ?_⟩
    rcases List.mem_append.1 hy with hy | hy
    · exact hbefore y hy
    · rcases List.mem_cons.1 hy with rfl | hy
      · exact absurd hyx (asymm hyx)
      · exact absurd hyx (asymm ((List.pairwise_cons.1 htail).1 y hy))
  · rintro ⟨hx, h⟩
    obtain ⟨before, after, rfl⟩ := List.append_of_mem hx
    refine ⟨before, after, rfl, fun y hy => h y (List.mem_append_left _ hy) ?_⟩
    exact (List.pairwise_append.1 hxs).2.2 y hy x (List.mem_cons_self ..)

/-- A traversal whose steps all succeed is a map. -/
theorem mapM_eq_ok_map {f : α → Except ε β} {g : α → β} {xs : List α}
    (h : ∀ x ∈ xs, f x = .ok (g x)) : xs.mapM f = .ok (xs.map g) := by
  rw [mapM_eq_ok_iff, List.forall₂_map_right_iff, List.forall₂_same]
  exact h

/-- Lists are joined in a traversal if each step gives its own, which it may under a condition. -/
theorem flatten_mapM_eq_ok_iff {f : α → Except ε (List β)} {g : α → List β} {P : α → Prop}
    {xs : List α} {ys : List β} (h : ∀ x part, f x = .ok part ↔ P x ∧ part = g x) :
    (do return (← xs.mapM f).flatten : Except ε (List β)) = .ok ys ↔
      (∀ x ∈ xs, P x) ∧ ys = xs.flatMap g := by
  rw [bind_eq_ok_iff, List.flatMap_def]
  constructor
  · rintro ⟨parts, hok, he⟩
    have hall : ∀ x ∈ xs, P x := by
      intro x hx
      obtain ⟨part, hpart⟩ := exists_mapM_eq_ok_iff.1 ⟨parts, hok⟩ x hx
      exact ((h x part).1 hpart).1
    refine ⟨hall, ?_⟩
    rw [mapM_eq_ok_map fun x hx => (h x _).2 ⟨hall x hx, rfl⟩] at hok
    cases hok
    cases he
    rfl
  · rintro ⟨hall, rfl⟩
    exact ⟨_, mapM_eq_ok_map fun x hx => (h x _).2 ⟨hall x hx, rfl⟩, rfl⟩

/-- Joining the lists of a traversal does not stop it. -/
theorem flatten_mapM_eq_error_iff {f : α → Except ε (List β)} {xs : List α} {e : ε} :
    (do return (← xs.mapM f).flatten : Except ε (List β)) = .error e ↔ xs.mapM f = .error e := by
  rw [bind_eq_error_iff]
  exact or_iff_left fun ⟨_, _, hpure⟩ => nomatch hpure

end MutationRules
