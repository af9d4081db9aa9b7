import Mathlib.Data.List.Nodup
import MutationRules.Descriptor.Basic
import MutationRules.Proofs.Json.Normal
import MutationRules.Proofs.Traversal

/-!
# Records that are written and read again

A record is written with each of its fields once: those with a meaning of their own first, the
others in order. No field that is kept beside the named ones has one of their names, so what is
written is read as the same record, and a descriptor is read again from what it was saved as.
-/

namespace MutationRules

open Json (Value)

namespace MutantRecord

variable {record : MutantRecord} {members given : List (String × Value)} {key : String} {v : Value}
  {values : List Value} {text? : Option String}

theorem isNamedKey_iff : isNamedKey key = true ↔
    key = ruleKey ∨ key = functionKey ∨ key = locationKey := by
  simp [isNamedKey]

theorem valuesOf_append (key : String) (xs ys : List (String × Value)) :
    valuesOf key (xs ++ ys) = valuesOf key xs ++ valuesOf key ys := by
  simp [valuesOf]

theorem mem_valuesOf_iff : v ∈ valuesOf key members ↔ (key, v) ∈ members := by
  simp [valuesOf]

/-- Keys do not repeat if each has at most one value. -/
theorem nodup_keys_of_valuesOf (h : ∀ key, (valuesOf key members).length ≤ 1) :
    (members.map Prod.fst).Nodup := by
  refine List.nodup_iff_count_le_one.2 fun key => ?_
  have hcount : (members.map Prod.fst).count key = (valuesOf key members).length := by
    rw [valuesOf, List.length_map, List.count, List.countP_map, List.countP_eq_length_filter]
    rfl
  exact hcount ▸ h key

/-! ## What is read -/

/-- A record that is read from members. -/
structure IsReadFrom (record : MutantRecord) (members : List (String × Value)) : Prop where
  /-- The name of the rule is given once. -/
  rule : valuesOf ruleKey members = [.string record.ruleName]
  /-- The function is given at most once. -/
  function : optionalText? (valuesOf functionKey members) = some record.function?
  /-- The location is given at most once. -/
  location : optionalText? (valuesOf locationKey members) = some record.location?
  /-- All else is kept in normal form. -/
  extra : record.extra = .ofList
    ((members.filter fun m => !isNamedKey m.1).map fun m => (m.1, m.2.normalized))

theorem ofValue?_eq_some_iff {value : Value} : ofValue? value = some record ↔
    ∃ members, value.members? = some members ∧ record.IsReadFrom members := by
  rw [ofValue?, Option.bind_eq_bind, Option.bind_eq_some_iff]
  refine exists_congr fun members => and_congr_right fun _ => ?_
  constructor
  · intro h
    split at h
    next ruleName hrule =>
      simp only [Option.bind_eq_bind, Option.bind_eq_some_iff, Option.pure_def,
        Option.some.injEq] at h
      obtain ⟨function?, hfunction, location?, hlocation, rfl⟩ := h
      exact ⟨hrule, hfunction, hlocation, rfl⟩
    next => cases h
  · rintro ⟨hrule, hfunction, hlocation, hextra⟩
    rw [hrule]
    simp [hfunction, hlocation, ← hextra]

/-- A text that is read is the last value that is given, unless that is null. -/
theorem map_string_eq_some_iff (h : optionalText? values = some text?) :
    text?.map Value.string = some v ↔
      values.getLast?.map Value.normalized = some v ∧ v ≠ .null := by
  unfold optionalText? at h
  split at h
  · obtain rfl := Option.some.inj h
    simp
  · obtain rfl := Option.some.inj h
    simpa [Value.normalized] using fun h => h.symm
  · obtain rfl := Option.some.inj h
    simp only [Option.map_some, List.getLast?_singleton, Value.normalized, Option.some.injEq]
    exact ⟨fun hv => ⟨hv, hv ▸ nofun⟩, And.left⟩
  · cases h

/-! ## What is written -/

/-- What a record says for a key. -/
def field? (record : MutantRecord) (key : String) : Option Value :=
  if key = ruleKey then some (.string record.ruleName)
  else if key = functionKey then record.function?.map .string
  else if key = locationKey then record.location?.map .string
  else record.extra.get? key

/-- The members as which a record is written. -/
def written (record : MutantRecord) : List (String × Value) :=
  (ruleKey, .string record.ruleName) ::
    (record.function?.map fun text => (functionKey, Value.string text)).toList ++
    (record.location?.map fun text => (locationKey, Value.string text)).toList ++
    record.extra.entries

/-- A record as reading leaves it. -/
structure IsCanonical (record : MutantRecord) : Prop where
  /-- No other field has the name of a named one. -/
  unnamed : ∀ key, isNamedKey key = true → record.extra.get? key = none
  /-- Other fields are in normal form. -/
  normal : ∀ m ∈ record.extra.entries, m.2.normalized = m.2

theorem valuesOf_toList_map (key other : String) (text? : Option String) :
    valuesOf key (text?.map fun text => (other, Value.string text)).toList =
      if key = other then (text?.map Value.string).toList else [] := by
  cases text? with
  | none => simp [valuesOf]
  | some text =>
    by_cases h : key = other
    · simp [valuesOf, h]
    · simp [valuesOf, h, Ne.symm h]

/-- Each field is written as often as the record has it. -/
theorem IsCanonical.valuesOf_written (h : record.IsCanonical) (key : String) :
    valuesOf key record.written = (record.field? key).toList := by
  have hrule : valuesOf key [(ruleKey, .string record.ruleName)] =
      if key = ruleKey then [.string record.ruleName] else [] :=
    valuesOf_toList_map key ruleKey (some record.ruleName)
  have hextra : valuesOf key record.extra.entries = (record.extra.get? key).toList :=
    record.extra.increasing.map_snd_filter_fst
  rw [written, List.cons_append, List.cons_append, ← List.singleton_append]
  simp only [valuesOf_append, hrule, valuesOf_toList_map, hextra, field?]
  by_cases hkey : isNamedKey key = true
  · rw [h.unnamed key hkey]
    rcases isNamedKey_iff.1 hkey with rfl | rfl | rfl <;>
      simp [ruleKey, functionKey, locationKey]
  · obtain ⟨hnotRule, hnotFunction, hnotLocation⟩ :
        key ≠ ruleKey ∧ key ≠ functionKey ∧ key ≠ locationKey := by
      simpa [isNamedKey_iff] using hkey
    simp [hnotRule, hnotFunction, hnotLocation]

/-- What is written holds what the record says, and each key once. -/
theorem IsCanonical.mem_written_iff (h : record.IsCanonical) :
    (key, v) ∈ record.written ↔ record.field? key = some v := by
  rw [← mem_valuesOf_iff, h.valuesOf_written, Option.mem_toList]

theorem IsCanonical.nodup_keys_written (h : record.IsCanonical) :
    (record.written.map Prod.fst).Nodup := by
  refine nodup_keys_of_valuesOf fun key => ?_
  rw [h.valuesOf_written]
  cases record.field? key <;> simp

/-! ## Reading again -/

theorem optionalText?_toList (text? : Option String) :
    optionalText? (text?.map Value.string).toList = some text? := by
  cases text? <;> rfl

/-- The other fields of what is written are those of the record. -/
theorem IsCanonical.filter_written (h : record.IsCanonical) :
    (record.written.filter fun m => !isNamedKey m.1) = record.extra.entries := by
  have hextra : ∀ m ∈ record.extra.entries, (!isNamedKey m.1) = true := by
    intro m hm
    by_contra hnamed
    have hnone := h.unnamed m.1 (by simpa using hnamed)
    rw [OrderedMap.mem_entries_iff.1 hm] at hnone
    cases hnone
  have hfunction : (record.function?.map fun text => (functionKey, Value.string text)).toList.filter
      (fun m => !isNamedKey m.1) = [] := by
    cases record.function? <;> rfl
  have hlocation : (record.location?.map fun text => (locationKey, Value.string text)).toList.filter
      (fun m => !isNamedKey m.1) = [] := by
    cases record.location? <;> rfl
  rw [written, List.filter_append, List.filter_append, hlocation, List.filter_eq_self.2 hextra]
  rw [List.filter_cons_of_neg (by simp [isNamedKey]), hfunction]
  rfl

/-- A record is read from what it is written as. -/
theorem IsCanonical.isReadFrom_written (h : record.IsCanonical) :
    record.IsReadFrom record.written where
  rule := h.valuesOf_written ruleKey
  function := (congrArg optionalText? (h.valuesOf_written functionKey)).trans
    (optionalText?_toList record.function?)
  location := (congrArg optionalText? (h.valuesOf_written locationKey)).trans
    (optionalText?_toList record.location?)
  extra := by
    rw [h.filter_written, Value.map_normalized_eq_self h.normal, OrderedMap.ofList_entries]

theorem IsCanonical.ofValue?_toValue (h : record.IsCanonical) :
    ofValue? record.toValue = some record :=
  ofValue?_eq_some_iff.2 ⟨record.written, rfl, h.isReadFrom_written⟩

/-- The values that are kept for another key are those that are given for it, in normal form. -/
theorem valuesOf_others (key : String) (members : List (String × Value)) :
    ((((members.filter fun m => !isNamedKey m.1).map fun m => (m.1, m.2.normalized)).filter
        fun e => e.1 = key).map Prod.snd) =
      if isNamedKey key then [] else (valuesOf key members).map Value.normalized := by
  rw [List.filter_map, List.map_map, List.filter_filter]
  split
  next hnamed =>
    rw [List.filter_eq_nil_iff.2, List.map_nil]
    intro m _ hm
    obtain ⟨hkey, hunnamed⟩ : m.1 = key ∧ isNamedKey m.1 = false := by simpa using hm
    rw [hkey, hnamed] at hunnamed
    cases hunnamed
  next hnamed =>
    have hkeys : (members.filter fun m => decide (m.1 = key) && !isNamedKey m.1) =
        members.filter fun m => m.1 = key :=
      List.filter_congr fun m _ => by
        by_cases hkey : m.1 = key <;> simp [hkey, hnamed]
    rw [valuesOf, List.map_map, ← hkeys]
    rfl

theorem IsReadFrom.get?_extra (h : record.IsReadFrom given) (key : String) :
    record.extra.get? key =
      if isNamedKey key then none else (valuesOf key given).getLast?.map Value.normalized := by
  rw [h.extra, OrderedMap.get?_ofList, valuesOf_others]
  split
  · rfl
  · rw [List.getLast?_map]

/-- A record that is read is as reading leaves it. -/
theorem IsReadFrom.isCanonical (h : record.IsReadFrom given) : record.IsCanonical where
  unnamed key hkey := by rw [h.get?_extra, if_pos hkey]
  normal := by
    rintro ⟨key, v⟩ hm
    rw [h.extra] at hm
    obtain ⟨m, _, ⟨⟩⟩ := List.mem_map.1 (OrderedMap.mem_of_mem_entries_ofList hm)
    exact Value.normalized_normalized m.2

/-- A value that reading a record does not keep: a function or a location that is null. -/
def IsOmitted (key : String) (v : Value) : Prop :=
  (key = functionKey ∨ key = locationKey) ∧ v = .null

/-- A record says for each key what was given last, but for what is omitted. -/
theorem IsReadFrom.field?_eq_some_iff (h : record.IsReadFrom given) :
    record.field? key = some v ↔
      (valuesOf key given).getLast?.map Value.normalized = some v ∧ ¬ IsOmitted key v := by
  by_cases hkey : isNamedKey key = true
  · rcases isNamedKey_iff.1 hkey with rfl | rfl | rfl
    · rw [h.rule]
      simp [field?, Value.normalized, IsOmitted, ruleKey, functionKey, locationKey]
    · exact (map_string_eq_some_iff h.function).trans (and_congr_right fun _ => by simp [IsOmitted])
    · exact (map_string_eq_some_iff h.location).trans (and_congr_right fun _ => by simp [IsOmitted])
  · obtain ⟨hnotRule, hnotFunction, hnotLocation⟩ :
        key ≠ ruleKey ∧ key ≠ functionKey ∧ key ≠ locationKey := by
      simpa [isNamedKey_iff] using hkey
    rw [field?, if_neg hnotRule, if_neg hnotFunction, if_neg hnotLocation, h.get?_extra,
      if_neg hkey]
    simp [IsOmitted, hnotFunction, hnotLocation]

end MutantRecord

namespace Descriptor

variable {β : Type} {read? : Value → Option β} {m : OrderedMap String β}

/-- Each value of a map that is read is read from some value. -/
theorem exists_read_of_mapOf? {value : Value} (h : mapOf? read? value = some m) :
    ∀ e ∈ m.entries, ∃ v, read? v = some e.2 := by
  rw [mapOf?, Option.bind_eq_bind, Option.bind_eq_some_iff] at h
  obtain ⟨members, -, h⟩ := h
  simp only [Option.bind_eq_bind, Option.bind_eq_some_iff, Option.pure_def, Option.some.injEq] at h
  obtain ⟨entries, hentries, rfl⟩ := h
  rintro ⟨key, b⟩ he
  obtain ⟨member, _, hmember⟩ := exists_mem_of_forall₂ (mapM_eq_some_iff.1 hentries).flip
    (OrderedMap.mem_of_mem_entries_ofList he)
  obtain ⟨_, hread, ⟨⟩⟩ := Option.map_eq_some_iff.1 hmember
  exact ⟨member.2, hread⟩

/-- A map is read from its values as they are written if each value is. -/
theorem mapOf?_mapValues {write : β → Value} (h : ∀ e ∈ m.entries, read? (write e.2) = some e.2) :
    mapOf? read? (.object (m.mapValues write).entries) = some m := by
  have hentries : (m.mapValues write).entries.mapM (fun e => (read? e.2).map (e.1, ·)) =
      some m.entries := by
    rw [mapM_eq_some_iff, OrderedMap.mapValues, List.forall₂_map_left_iff, List.forall₂_same]
    exact fun e he => by rw [h e he, Option.map_some]
  rw [mapOf?, Value.members?]
  simp [hentries, OrderedMap.ofList_entries]

/-- A descriptor that is read is read again from what it is written as. -/
theorem mapOf?_toValue {descriptor : Descriptor} {value : Value}
    (h : mapOf? MutantRecord.ofValue? value = some descriptor) :
    mapOf? MutantRecord.ofValue? descriptor.toValue = some descriptor := by
  refine mapOf?_mapValues fun e he => ?_
  obtain ⟨v, hv⟩ := exists_read_of_mapOf? h e he
  obtain ⟨given, _, hread⟩ := MutantRecord.ofValue?_eq_some_iff.1 hv
  exact hread.isCanonical.ofValue?_toValue

/-- A record that is read is written with each of its keys once, and for each key with the value
that was given for it last, in normal form, but for a function or location that is null; it keeps no
other field under a key with a meaning of its own, and what is written is read as the same record.
A descriptor is read again from any text that says what it is written as, and classifies the same
mutants in the same way. -/
theorem survives_saving :
    (∀ (value : Value) record, MutantRecord.ofValue? value = some record →
      ∃ given written, value.members? = some given ∧ record.toValue.members? = some written ∧
        (written.map Prod.fst).Nodup ∧
        (∀ key v, (key, v) ∈ written ↔
          (MutantRecord.valuesOf key given).getLast?.map Value.normalized = some v ∧
          ¬ MutantRecord.IsOmitted key v) ∧
        (∀ key, MutantRecord.isNamedKey key = true → record.extra.get? key = none) ∧
        MutantRecord.ofValue? record.toValue = some record) ∧
    ∀ text descriptor, parse? text = some descriptor →
      ∀ saved, Value.parse? saved = some descriptor.toValue →
        ∃ loaded, parse? saved = some loaded ∧ loaded = descriptor ∧
          ∀ (t : Taxonomy) duplicates ids g,
            loaded.candidates duplicates = descriptor.candidates duplicates ∧
            t.classifyMutants loaded ids g = t.classifyMutants descriptor ids g := by
  constructor
  · intro value record h
    obtain ⟨given, hgiven, hread⟩ := MutantRecord.ofValue?_eq_some_iff.1 h
    have hcanonical := hread.isCanonical
    exact ⟨given, record.written, hgiven, rfl, hcanonical.nodup_keys_written,
      fun key v => hcanonical.mem_written_iff.trans hread.field?_eq_some_iff, hcanonical.unnamed,
      hcanonical.ofValue?_toValue⟩
  · intro text descriptor h saved hsaved
    obtain ⟨value, _, hvalue⟩ := Option.bind_eq_some_iff.1 h
    have hload : parse? saved = some descriptor :=
      Option.bind_eq_some_iff.2 ⟨descriptor.toValue, hsaved, mapOf?_toValue hvalue⟩
    exact ⟨descriptor, hload, rfl, fun t duplicates ids g => ⟨rfl, rfl⟩⟩

/-- A descriptor of one record, with a null function, a note that is given twice and members out of
order. -/
def untidyText : String :=
  "\x7b\"7\":\x7b\"Note\":null,\"Type\":\"STMT!DELSTMT\",
\"At\":\x7b\"b\":[],\"a\":true\x7d,\"FuncName\":null,\"Note\":\"kept\"\x7d\x7d"

/-- The value of the record. -/
def untidyValue : Value := .object [
  ("Note", .null),
  ("Type", .string "STMT!DELSTMT"),
  ("At", .object [("b", .array []), ("a", .bool true)]),
  ("FuncName", .null),
  ("Note", .string "kept")]

/-- The record. -/
def tidyRecord : MutantRecord where
  ruleName := "STMT!DELSTMT"
  function? := none
  location? := none
  extra := .ofList [
    ("At", .object [("a", .bool true), ("b", .array [])]),
    ("Note", .string "kept")]

/-- The descriptor as it is saved. -/
def tidyText : String :=
  "\x7b\"7\":\x7b\"Type\":\"STMT!DELSTMT\",
\"At\":\x7b\"a\":true,\"b\":[]\x7d,\"Note\":\"kept\"\x7d\x7d"

/-- The record without its null function and its first note, and with a nested object in order, is
read as the same record again. -/
theorem untidyText_survives :
    MutantRecord.ofValue? untidyValue = some tidyRecord ∧
    MutantRecord.ofValue? tidyRecord.toValue = some tidyRecord ∧
    parse? untidyText = some (.ofList [("7", tidyRecord)]) ∧
    ∃ loaded, parse? tidyText = some loaded ∧ loaded = .ofList [("7", tidyRecord)] := by
  have hrecord : MutantRecord.ofValue? untidyValue = some tidyRecord := rfl
  have hvalue : Value.parse? untidyText = some (.object [("7", untidyValue)]) := by
    with_unfolding_all rfl
  have huntidy : parse? untidyText = some (.ofList [("7", tidyRecord)]) :=
    (congrArg (Option.bind · (mapOf? MutantRecord.ofValue?)) hvalue).trans rfl
  have htidy : Value.parse? tidyText = some (toValue (.ofList [("7", tidyRecord)])) := by
    with_unfolding_all rfl
  obtain ⟨given, written, _, _, _, _, _, hagain⟩ := survives_saving.1 untidyValue tidyRecord hrecord
  obtain ⟨loaded, hloaded, hsame, _⟩ := survives_saving.2 untidyText _ huntidy tidyText htidy
  exact ⟨hrecord, hagain, huntidy, loaded, hloaded, hsame⟩

end Descriptor

end MutationRules
