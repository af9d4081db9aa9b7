import Mathlib.Data.List.Induction
import MutationRules.Json.Value
import MutationRules.Proofs.Ordered.Extensionality

/-!
# Normal form

A map that is made from a list holds the last value of each key, and made from its own entries it is
itself again. Values in normal form are therefore those that normal form does not change.
-/

namespace MutationRules

variable {κ β : Type} [Ord κ] [Std.TransOrd κ] [Std.LawfulEqOrd κ] [DecidableEq κ] {k : κ} {v : β}

/-- Entries whose keys increase give at most one value for a key. -/
theorem Increasing.map_snd_filter_fst {entries : List (κ × β)}
    (h : Increasing (entries.map Prod.fst)) :
    (entries.filter fun e => e.1 = k).map Prod.snd = (find? k entries).toList := by
  induction entries with
  | nil => rfl
  | cons e rest ih =>
    obtain ⟨hlt, hrest⟩ := List.pairwise_cons.1 h
    rw [find?]
    by_cases he : e.1 = k
    · subst he
      have hnone : find? e.1 rest = none :=
        find?_eq_none_of_lt fun x hx => hlt x.1 (List.mem_map_of_mem hx)
      simpa [hnone, Std.ReflCmp.compare_self] using ih hrest
    · have hne : compare k e.1 ≠ .eq := fun hk => he (Std.LawfulEqCmp.eq_of_compare hk).symm
      rw [List.filter_cons_of_neg (by simpa using he), if_neg hne, ih hrest]

namespace OrderedMap

omit [DecidableEq κ] in
theorem ofList_concat (entries : List (κ × β)) (e : κ × β) :
    ofList (entries ++ [e]) = (ofList entries).insert e.1 e.2 := by
  rw [ofList, List.foldl_append]
  rfl

/-- The last value of a key counts. -/
theorem get?_ofList (entries : List (κ × β)) (k : κ) :
    (ofList entries).get? k = ((entries.filter fun e => e.1 = k).map Prod.snd).getLast? := by
  induction entries using List.reverseRecOn with
  | nil => rfl
  | append_singleton entries e ih =>
    rw [ofList_concat, List.filter_append, List.map_append]
    by_cases he : e.1 = k
    · subst he
      simp
    · rw [get?_insert_of_ne _ _ (Ne.symm he), ih]
      simp [he]

/-- Each entry of a map that is made from a list is in the list. -/
theorem mem_of_mem_entries_ofList {entries : List (κ × β)}
    (h : (k, v) ∈ (ofList entries).entries) : (k, v) ∈ entries := by
  rw [mem_entries_iff, get?_ofList] at h
  simpa using List.mem_of_getLast? h

/-- A map is made from its own entries. -/
theorem ofList_entries (m : OrderedMap κ β) : ofList m.entries = m := by
  refine ext fun k => ?_
  rw [get?_ofList, m.increasing.map_snd_filter_fst, get?]
  cases Increasing.find? k m.entries <;> rfl

end OrderedMap

namespace Json.Value

/-- Members whose values are in normal form stay as they are. -/
theorem map_normalized_eq_self {members : List (String × Value)}
    (h : ∀ m ∈ members, m.2.normalized = m.2) :
    (members.map fun m => (m.1, m.2.normalized)) = members :=
  (List.map_congr_left fun m hm => congrArg (m.1, ·) (h m hm)).trans (List.map_id _)

mutual

/-- Normal form does not change what is in normal form. -/
theorem normalized_normalized : ∀ value : Value, value.normalized.normalized = value.normalized
  | .null | .bool _ | .number _ | .string _ => rfl
  | .array items => by
    have hitems : (normalizedItems items).map normalized = normalizedItems items :=
      (List.map_congr_left (normalized_of_mem_normalizedItems items)).trans (List.map_id _)
    rw [normalized, normalized, normalizedItems_eq (normalizedItems items), hitems]
  | .object members => by
    -- The map holds values of the members only, so the induction reaches all of them.
    rw [normalized, normalized, normalizedMembers_eq (OrderedMap.entries _),
      map_normalized_eq_self fun m hm =>
        normalized_of_mem_normalizedMembers members m (OrderedMap.mem_of_mem_entries_ofList hm),
      OrderedMap.ofList_entries]

theorem normalized_of_mem_normalizedItems :
    ∀ (items : List Value), ∀ value ∈ normalizedItems items, value.normalized = value
  | [], _, h => nomatch h
  | item :: rest, value, h => by
    rcases List.mem_cons.1 h with rfl | h
    · exact normalized_normalized item
    · exact normalized_of_mem_normalizedItems rest value h

theorem normalized_of_mem_normalizedMembers :
    ∀ (members : List (String × Value)), ∀ m ∈ normalizedMembers members, m.2.normalized = m.2
  | [], _, h => nomatch h
  | (_, value) :: rest, m, h => by
    rcases List.mem_cons.1 h with rfl | h
    · exact normalized_normalized value
    · exact normalized_of_mem_normalizedMembers rest m h

end

end Json.Value

end MutationRules
