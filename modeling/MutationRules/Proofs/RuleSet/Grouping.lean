import Mathlib.Data.List.Nodup
import Mathlib.Data.List.Perm.Basic
import MutationRules.Proofs.Ordered.Extensionality
import MutationRules.RuleSet.Basic

/-!
# Rules grouped by their keys

A grouping of bindings has one group for each text that a key has, in the order of
the texts. Its rules are those of the bindings with this text, in the order of the
bindings, and its key is the key of the first of them. Everything else about groups
follows from these four facts, whatever way the groups are collected.
-/

namespace MutationRules

/-- Picking the items of each key in turn picks every item with one of the keys once. -/
theorem flatMap_filter_perm {α κ : Type} [DecidableEq κ] (f : α → κ) (items : List α)
    {keys : List κ} (h : keys.Nodup) :
    (keys.flatMap fun k => items.filter fun x => f x = k).Perm
      (items.filter fun x => f x ∈ keys) := by
  induction keys with
  | nil => simp
  | cons k rest ih =>
    obtain ⟨hk, hrest⟩ := List.nodup_cons.1 h
    rw [List.flatMap_cons]
    refine ((ih hrest).append_left _).trans ?_
    have hthis : items.filter (fun x => f x = k) =
        (items.filter fun x => f x ∈ k :: rest).filter fun x => f x = k := by
      rw [List.filter_filter]
      refine List.filter_congr fun x _ => ?_
      by_cases he : f x = k <;> simp [he]
    have hothers : items.filter (fun x => f x ∈ rest) =
        (items.filter fun x => f x ∈ k :: rest).filter fun x => !decide (f x = k) := by
      rw [List.filter_filter]
      refine List.filter_congr fun x _ => ?_
      by_cases he : f x = k <;> simp [he, hk]
    rw [hthis, hothers]
    exact List.filter_append_perm _ _

/-- No two different keys of some bindings have one text. -/
def TextDeterminesKey (bindings : List Binding) : Prop :=
  ∀ a ∈ bindings, ∀ b ∈ bindings, a.key.text = b.key.text → a.key = b.key

/-- Groups that hold the rules of some bindings, one group for each key text. -/
structure IsGrouping (bindings : List Binding) (groups : List RuleGroup) : Prop where
  /-- The texts of the keys strictly increase. -/
  increasing : Increasing (groups.map fun g => g.key.text)
  /-- No key text is missing and none is added. -/
  mem_texts : ∀ text, text ∈ groups.map (fun g => g.key.text) ↔
    text ∈ bindings.map fun b => b.key.text
  /-- A group has the key of the first binding with its text. -/
  key_eq : ∀ g ∈ groups, (bindings.find? fun b => b.key.text = g.key.text).map Binding.key =
    some g.key
  /-- A group has the rules of the bindings with its text, in their order. -/
  rules_eq : ∀ g ∈ groups,
    g.rules = (bindings.filter fun b => b.key.text = g.key.text).map Rule.ofBinding

/-- The names of the rules of a set, group after group. -/
def RuleSet.names (set : RuleSet) : List String := set.rules.map fun entry => entry.2.name

/-- The name of a binding depends on the text of its key only. -/
theorem RuleName.encode_congr {a b : Binding} (hk : a.key.text = b.key.text)
    (hr : a.replacement = b.replacement) : encode a = encode b := by
  rw [encode, encode, hk, hr]

namespace RuleGroup

/-- The group of the bindings whose keys have a text, if there are any. -/
def ofText? (bindings : List Binding) (text : String) : Option RuleGroup :=
  match bindings.filter fun b => b.key.text = text with
  | [] => none
  | first :: others => some ⟨first.key, (first :: others).map .ofBinding⟩

/-- A group of bindings exists exactly for the texts of their keys. -/
theorem isSome_ofText?_iff {bindings : List Binding} {text : String} :
    (ofText? bindings text).isSome = true ↔ text ∈ bindings.map fun b => b.key.text := by
  have hmem : bindings.filter (fun b => b.key.text = text) ≠ [] ↔
      text ∈ bindings.map fun b => b.key.text := by
    simp [List.filter_eq_nil_iff]
  rw [← hmem, ofText?]
  cases bindings.filter fun b => b.key.text = text <;> simp

/-- What the group of a text holds. -/
theorem of_ofText? {bindings : List Binding} {text : String} {g : RuleGroup}
    (h : ofText? bindings text = some g) :
    g.key.text = text ∧
      (bindings.find? fun b => b.key.text = text).map Binding.key = some g.key ∧
      g.rules = (bindings.filter fun b => b.key.text = text).map Rule.ofBinding := by
  rw [ofText?] at h
  cases hf : bindings.filter fun b => b.key.text = text with
  | nil => simp [hf] at h
  | cons first others =>
    rw [hf] at h
    obtain rfl := Option.some.inj h
    have hfirst : first.key.text = text := by
      have hm : first ∈ bindings.filter fun b => b.key.text = text :=
        hf ▸ List.mem_cons_self ..
      simpa using (List.mem_filter.1 hm).2
    refine ⟨hfirst, ?_, rfl⟩
    rw [← List.head?_filter, hf]
    rfl

theorem collect_eq_filterMap (bindings : List Binding) :
    collect bindings =
      (OrderedSet.ofList (bindings.map fun b => b.key.text)).toList.filterMap
        (ofText? bindings) := by
  rw [collect, List.map_map]
  refine List.filterMap_congr fun text _ => ?_
  rw [ofText?, List.filter_map]
  cases hf : bindings.filter fun b => b.key.text = text with
  | nil => simp [Function.comp_def, hf]
  | cons first others => simp [Function.comp_def, hf]

/-- Collecting bindings groups them. -/
theorem isGrouping_collect (bindings : List Binding) :
    IsGrouping bindings (collect bindings) := by
  have htexts : (collect bindings).map (fun g => g.key.text) =
      (OrderedSet.ofList (bindings.map fun b => b.key.text)).toList := by
    rw [collect_eq_filterMap, List.map_filterMap]
    refine (List.filterMap_congr fun text ht => ?_).trans List.filterMap_some
    have hm : text ∈ bindings.map fun b => b.key.text :=
      OrderedSet.mem_ofList.1 (OrderedSet.mem_toList.1 ht)
    obtain ⟨g, hg⟩ := Option.isSome_iff_exists.1 (isSome_ofText?_iff.2 hm)
    rw [hg, Option.map_some, (of_ofText? hg).1]
  have hgroup : ∀ g ∈ collect bindings, ofText? bindings g.key.text = some g := by
    intro g hg
    rw [collect_eq_filterMap, List.mem_filterMap] at hg
    obtain ⟨text, _, h⟩ := hg
    rwa [(of_ofText? h).1]
  exact {
    increasing := htexts ▸ OrderedSet.increasing _
    mem_texts := fun text => by rw [htexts, OrderedSet.mem_toList, OrderedSet.mem_ofList]
    key_eq := fun g hg => (of_ofText? (hgroup g hg)).2.1
    rules_eq := fun g hg => (of_ofText? (hgroup g hg)).2.2 }

end RuleGroup

namespace IsGrouping

variable {bindings : List Binding} {groups : List RuleGroup}

/-- Every rule of a group comes from a binding, with the text of the group's key. -/
theorem mem_rules_iff (h : IsGrouping bindings groups) {g : RuleGroup} (hg : g ∈ groups)
    {rule : Rule} : rule ∈ g.rules ↔
      ∃ b ∈ bindings, b.key.text = g.key.text ∧ Rule.ofBinding b = rule := by
  simp [h.rules_eq g hg, and_assoc]

/-- The name of a rule is that of its replacement under the key of its group. -/
theorem name_eq (h : IsGrouping bindings groups) {g : RuleGroup} (hg : g ∈ groups) {rule : Rule}
    (hrule : rule ∈ g.rules) : rule.name = RuleName.encode ⟨g.key, rule.replacement⟩ := by
  obtain ⟨b, _, htext, rfl⟩ := (h.mem_rules_iff hg).1 hrule
  exact RuleName.encode_congr htext rfl

/-- The key of a group is the key of one of the bindings. -/
theorem exists_key (h : IsGrouping bindings groups) {g : RuleGroup} (hg : g ∈ groups) :
    ∃ b ∈ bindings, b.key = g.key := by
  obtain ⟨b, hb, he⟩ := Option.map_eq_some_iff.1 (h.key_eq g hg)
  exact ⟨b, List.mem_of_find?_eq_some hb, he⟩

/-- A binding has a group, which holds its rule. -/
theorem exists_group (h : IsGrouping bindings groups) {b : Binding} (hb : b ∈ bindings) :
    ∃ g ∈ groups, g.key.text = b.key.text ∧ Rule.ofBinding b ∈ g.rules := by
  obtain ⟨g, hg, he⟩ := List.mem_map.1 ((h.mem_texts _).2 (List.mem_map_of_mem hb))
  exact ⟨g, hg, he, (h.mem_rules_iff hg).2 ⟨b, hb, he.symm, rfl⟩⟩

/-- A group has a rule. -/
theorem rules_ne_nil (h : IsGrouping bindings groups) {g : RuleGroup} (hg : g ∈ groups) :
    g.rules ≠ [] := by
  obtain ⟨b, hb, hkey⟩ := h.exists_key hg
  exact List.ne_nil_of_mem ((h.mem_rules_iff hg).2 ⟨b, hb, hkey ▸ rfl, rfl⟩)

/-- Bindings with one key, if there are any, make one group. -/
theorem eq_of_forall_key_eq (h : IsGrouping bindings groups) {key : Expression}
    (hkey : ∀ b ∈ bindings, b.key = key) :
    groups = if bindings = [] then [] else [⟨key, bindings.map Rule.ofBinding⟩] := by
  by_cases hnil : bindings = []
  · subst hnil
    rw [if_pos rfl, List.eq_nil_iff_forall_not_mem]
    intro g hg
    obtain ⟨b, hb, _⟩ := h.exists_key hg
    exact List.not_mem_nil hb
  · rw [if_neg hnil]
    obtain ⟨b, hb⟩ := List.exists_mem_of_ne_nil _ hnil
    have htexts : groups.map (fun g => g.key.text) = [key.text] := by
      apply Increasing.eq_of_mem_iff h.increasing (List.pairwise_singleton _ _)
      intro text
      rw [h.mem_texts, List.mem_map, List.mem_singleton]
      constructor
      · rintro ⟨a, ha, rfl⟩
        rw [hkey a ha]
      · rintro rfl
        exact ⟨b, hb, congrArg Expression.text (hkey b hb)⟩
    obtain ⟨g, rfl, htext⟩ := List.map_eq_singleton_iff.1 htexts
    have hg : g ∈ [g] := List.mem_singleton_self g
    obtain ⟨a, ha, hown⟩ := h.exists_key hg
    have hall : bindings.filter (fun b => b.key.text = g.key.text) = bindings := by
      apply List.filter_eq_self.2
      intro b hb
      rw [hkey b hb, htext]
      exact decide_eq_true rfl
    have hrules := h.rules_eq g hg
    rw [hall] at hrules
    obtain ⟨gkey, rules⟩ := g
    exact congrArg (fun group => [group]) (congr (congrArg RuleGroup.mk (hown.symm.trans
      (hkey a ha))) hrules)

/-- The group of a text is unique. -/
theorem eq_of_text_eq (h : IsGrouping bindings groups) {g g' : RuleGroup} (hg : g ∈ groups)
    (hg' : g' ∈ groups) (he : g.key.text = g'.key.text) : g = g' :=
  List.inj_on_of_nodup_map h.increasing.nodup hg hg' he

/-- Groups hold the rule of every binding once, under whatever of its key its text determines. -/
theorem perm_of_agree (h : IsGrouping bindings groups) {κ : Type} (f : Expression → κ)
    (hf : ∀ a ∈ bindings, ∀ b ∈ bindings, a.key.text = b.key.text → f a.key = f b.key) :
    (groups.flatMap fun g => g.rules.map fun rule => (f g.key, rule)).Perm
      (bindings.map fun b => (f b.key, Rule.ofBinding b)) := by
  have hall : bindings.filter (fun b => b.key.text ∈ groups.map fun g => g.key.text) = bindings :=
    List.filter_eq_self.2 fun b hb => by
      simpa only [decide_eq_true_eq] using (h.mem_texts _).2 (List.mem_map_of_mem hb)
  have hgroups : (groups.flatMap fun g => g.rules.map fun rule => (f g.key, rule)) =
      ((groups.map fun g => g.key.text).flatMap fun text =>
        bindings.filter fun b => b.key.text = text).map
          fun b => (f b.key, Rule.ofBinding b) := by
    rw [List.map_flatMap, List.flatMap_map]
    refine List.flatMap_congr fun g hg => ?_
    rw [h.rules_eq g hg, List.map_map]
    refine List.map_congr_left fun b hb => ?_
    obtain ⟨hmem, he⟩ : b ∈ bindings ∧ b.key.text = g.key.text := by
      simpa using List.mem_filter.1 hb
    obtain ⟨a, ha, hkey⟩ := h.exists_key hg
    have hagree : f g.key = f b.key := by
      rw [← hkey] at he ⊢
      exact hf a ha b hmem he.symm
    simp [hagree]
  rw [hgroups]
  exact ((flatMap_filter_perm (fun b : Binding => b.key.text) bindings h.increasing.nodup).trans
    (List.Perm.of_eq hall)).map _

/-- Keys with one text are equal if every binding is shown under its own key. -/
theorem textDeterminesKey_of_mem_rules (h : IsGrouping bindings groups)
    (hall : ∀ b ∈ bindings, (b.key, Rule.ofBinding b) ∈ (RuleSet.mk groups).rules) :
    TextDeterminesKey bindings := by
  have hkey : ∀ b ∈ bindings, ∃ g ∈ groups, g.key = b.key := by
    intro b hb
    obtain ⟨g, hg, hrule⟩ := List.mem_flatMap.1 (hall b hb)
    obtain ⟨rule, _, hpair⟩ := List.mem_map.1 hrule
    exact ⟨g, hg, congrArg Prod.fst hpair⟩
  intro a ha b hb he
  obtain ⟨g, hg, hga⟩ := hkey a ha
  obtain ⟨g', hg', hgb⟩ := hkey b hb
  rw [← hga, ← hgb] at he
  rw [← hga, ← hgb, h.eq_of_text_eq hg hg' he]

/-- Groups hold the rule of every binding once, under its key, if keys with one text are equal. -/
theorem perm_iff (h : IsGrouping bindings groups) :
    (RuleSet.mk groups).rules.Perm (bindings.map fun b => (b.key, Rule.ofBinding b)) ↔
      TextDeterminesKey bindings := by
  constructor
  · intro hp
    exact h.textDeterminesKey_of_mem_rules fun b hb => hp.mem_iff.2 (List.mem_map_of_mem hb)
  · exact h.perm_of_agree id

/-- Groups hold the rule of every binding once, whatever their keys. -/
theorem perm_rules (h : IsGrouping bindings groups) :
    ((RuleSet.mk groups).rules.map Prod.snd).Perm (bindings.map Rule.ofBinding) := by
  have hp := (h.perm_of_agree Expression.text fun _ _ _ _ he => he).map Prod.snd
  simpa [RuleSet.rules, List.map_flatMap, Function.comp_def] using hp

/-- Groups hold the names of all bindings, each as often as bindings have it. -/
theorem perm_names (h : IsGrouping bindings groups) :
    (RuleSet.mk groups).names.Perm (bindings.map RuleName.encode) := by
  have hp := h.perm_rules.map Rule.name
  rw [List.map_map, List.map_map] at hp
  exact hp

end IsGrouping

end MutationRules
