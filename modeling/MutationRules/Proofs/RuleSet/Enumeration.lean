import MutationRules.Proofs.RuleSet.Grouping
import MutationRules.Proofs.RuleSet.Placement
import MutationRules.Proofs.Taxonomy.Description

/-!
# Enumeration of the rules of a matcher

The bindings of a matcher with operands are those of its replacements at all fitting
placements, each once and in the order of placements. Synthesis groups them by the
texts of their keys and adds nothing else.
-/

namespace MutationRules

namespace Taxonomy

variable {t : Taxonomy} {matcher replacer : Operator}

/-- The bindings of a matcher at all the places where a replacement fits. -/
structure Enumerates (t : Taxonomy) (matcher : Operator) (placed : List (Operator × Placement))
    (bindings : List Binding) : Prop where
  /-- Each place comes once, in the order of replacements and placements. -/
  ordered : placed.Pairwise Placement.Precedes
  /-- The places are those where an allowed replacement fits. -/
  mem_iff : ∀ replacer placement, (replacer, placement) ∈ placed ↔
    t.allows matcher replacer = true ∧ t.Fits matcher replacer placement
  /-- Each binding is the one at its place. -/
  bound : List.Forall₂ (fun p b => t.BoundAt matcher p.1 p.2 b) placed bindings

theorem BoundAt.key_operator {placement : Placement} {b : Binding}
    (h : t.BoundAt matcher replacer placement b) : b.key.operator = matcher := by
  cases h <;> rfl

theorem BoundAt.replacement_operator {placement : Placement} {b : Binding}
    (h : t.BoundAt matcher replacer placement b) : b.replacement.operator = replacer := by
  cases h <;> rfl

/-- The bindings at a placement do not differ. -/
theorem BoundAt.unique {placement : Placement} {a b : Binding}
    (ha : t.BoundAt matcher replacer placement a) (hb : t.BoundAt matcher replacer placement b) :
    a = b :=
  Option.some.inj ((bindAt?_eq_some_iff.2 ha).symm.trans (bindAt?_eq_some_iff.2 hb))

/-- A matcher with operands has bindings if no replacement has too many operands, and they arise
replacement by replacement and placement by placement. -/
theorem bindings_eq_ok_iff (hformat : t.format matcher ≠ []) {bs : List Binding} :
    t.bindings matcher = .ok bs ↔
      (∀ replacer ∈ t.replacers matcher, (t.format replacer).length ≤ 2) ∧
        bs = (t.replacers matcher).flatMap fun replacer =>
          (t.placements matcher replacer).filterMap (t.bindAt? matcher replacer) := by
  rw [← flatten_mapM_eq_ok_iff fun replacer part => slotBindings_eq_ok_iff]
  unfold bindings
  split
  next he => exact absurd he hformat
  next => rfl

/-- The bindings of a matcher with operands enumerate the fitting placements. -/
theorem enumerates_of_bindings (hformat : t.format matcher ≠ []) {bs : List Binding}
    (h : t.bindings matcher = .ok bs) : ∃ placed, t.Enumerates matcher placed bs := by
  obtain ⟨_, rfl⟩ := (bindings_eq_ok_iff hformat).1 h
  let sites := (t.replacers matcher).flatMap fun replacer =>
    (t.placements matcher replacer).map fun placement => (replacer, placement)
  let bindSite (p : Operator × Placement) := t.bindAt? matcher p.1 p.2
  refine ⟨sites.filter fun p => (bindSite p).isSome, ?_, ?_, ?_⟩
  · refine List.Pairwise.filter _ ?_
    rw [List.pairwise_flatMap]
    constructor
    · intro replacer _
      rw [List.pairwise_map]
      exact (pairwise_placements t matcher replacer).imp fun hb => Or.inr ⟨rfl, hb⟩
    · refine (OrderedSet.increasing _).imp fun hlt p hp q hq => Or.inl ?_
      obtain ⟨_, _, rfl⟩ := List.mem_map.1 hp
      obtain ⟨_, _, rfl⟩ := List.mem_map.1 hq
      exact hlt
  · intro replacer placement
    rw [List.mem_filter, allows_iff, fits_iff]
    simp [sites, bindSite, and_assoc]
  · have hsites : ((t.replacers matcher).flatMap fun replacer =>
        (t.placements matcher replacer).filterMap (t.bindAt? matcher replacer)) =
          sites.filterMap bindSite := by
      rw [List.filterMap_flatMap]
      refine List.flatMap_congr fun replacer _ => ?_
      rw [List.filterMap_map]
      rfl
    rw [hsites]
    exact (forall₂_filterMap bindSite sites).imp fun _ _ hb => bindAt?_eq_some_iff.1 hb

/-- A fitting placement is bound. -/
theorem Enumerates.exists_mem {placed : List (Operator × Placement)} {bs : List Binding}
    (h : t.Enumerates matcher placed bs) {placement : Placement}
    (ha : t.allows matcher replacer = true) (hf : t.Fits matcher replacer placement) :
    ∃ b ∈ bs, t.BoundAt matcher replacer placement b := by
  exact exists_mem_of_forall₂ h.bound ((h.mem_iff replacer placement).2 ⟨ha, hf⟩)

/-- Every binding is one at a fitting placement. -/
theorem Enumerates.exists_boundAt {placed : List (Operator × Placement)} {bs : List Binding}
    (h : t.Enumerates matcher placed bs) {b : Binding} (hb : b ∈ bs) :
    ∃ replacer placement, t.allows matcher replacer = true ∧
      t.Fits matcher replacer placement ∧ t.BoundAt matcher replacer placement b := by
  obtain ⟨p, hp, hbound⟩ := exists_mem_of_forall₂ h.bound.flip hb
  obtain ⟨ha, hf⟩ := (h.mem_iff p.1 p.2).1 hp
  exact ⟨p.1, p.2, ha, hf, hbound⟩

/-- The table allows what a fitting placement binds. -/
theorem Enumerates.allows_of_mem {placed : List (Operator × Placement)} {bs : List Binding}
    (h : t.Enumerates matcher placed bs) {b : Binding} (hb : b ∈ bs) :
    t.allows b.key.operator b.replacement.operator = true := by
  obtain ⟨replacer, placement, ha, _, hbound⟩ := h.exists_boundAt hb
  rwa [hbound.key_operator, hbound.replacement_operator]

/-! ## Groups of a matcher -/

/-- No binding is forbidden if the table allows all of them. -/
theorem forbidden?_eq_none_iff {bs : List Binding} : t.forbidden? bs = none ↔
    ∀ b ∈ bs, t.allows b.key.operator b.replacement.operator = true := by
  simp [forbidden?, List.find?_eq_none]

/-- Synthesis for a matcher succeeds if its bindings exist and the table allows them, and groups
them. -/
theorem synthesizeMatcher_eq_ok_iff {groups : List RuleGroup} :
    t.synthesizeMatcher matcher = .ok groups ↔
      ∃ bs, t.bindings matcher = .ok bs ∧
        (∀ b ∈ bs, t.allows b.key.operator b.replacement.operator = true) ∧
        groups = RuleGroup.collect bs := by
  rw [synthesizeMatcher, bind_eq_ok_iff]
  refine exists_congr fun bs => and_congr_right fun _ => ?_
  rw [← forbidden?_eq_none_iff]
  cases t.forbidden? bs with
  | none => simp [pure, Except.pure, eq_comm]
  | some b => simp

/-- The groups of a matcher with operands hold the bindings at the fitting placements. -/
theorem exists_enumeration (hformat : t.format matcher ≠ [])
    (harity : ∀ replacer, t.allows matcher replacer = true → (t.format replacer).length ≤ 2) :
    ∃ groups placed bs, t.synthesizeMatcher matcher = .ok groups ∧
      t.Enumerates matcher placed bs ∧ IsGrouping bs groups := by
  have hbindings := (bindings_eq_ok_iff hformat).2
    ⟨fun replacer hr => harity replacer (allows_iff.2 hr), rfl⟩
  obtain ⟨placed, henum⟩ := enumerates_of_bindings hformat hbindings
  have hok := synthesizeMatcher_eq_ok_iff.2 ⟨_, hbindings, fun _ => henum.allows_of_mem, rfl⟩
  exact ⟨_, placed, _, hok, henum, RuleGroup.isGrouping_collect _⟩

/-- Synthesis for a matcher with operands whose replacements have at most two slots succeeds. There
is one binding for each placement at which an allowed replacement fits, in the order of
replacements and placements; bindings are grouped by the texts of their keys; and the groups show
each binding under its own key exactly if no two different keys have one text. -/
theorem synthesizeMatcher_enumerates (t : Taxonomy) (matcher : Operator)
    (hformat : t.format matcher ≠ [])
    (harity : ∀ replacer, t.allows matcher replacer = true → (t.format replacer).length ≤ 2) :
    ∃ groups placed bs, t.synthesizeMatcher matcher = .ok groups ∧
      t.Enumerates matcher placed bs ∧ IsGrouping bs groups ∧
      ((RuleSet.mk groups).rules.Perm (bs.map fun b => (b.key, Rule.ofBinding b)) ↔
        TextDeterminesKey bs) := by
  obtain ⟨groups, placed, bs, hok, henum, hgroups⟩ := exists_enumeration hformat harity
  exact ⟨groups, placed, bs, hok, henum, hgroups, hgroups.perm_iff⟩

/-- Declarations with a literal that is spelled like the category of arithmetic expressions, so
that the two replacements of `ADD` narrow its slot to kinds of one text. -/
def lookalikes : List Declaration := [
  .format [.add] [.ofList [.arithExpr, .literal "@"]],
  .format [.sub] [.single .arithExpr],
  .format [.mul] [.single (.literal "@")],
  .format (Operator.all.filter fun op => !(op ∈ [Operator.add, .sub, .mul])) [],
  .family Operator.all ["CLASS"],
  .replace [.add] [.sub, .mul] []]

/-- What the taxonomy of lookalikes says about `ADD` and its replacements. -/
theorem exists_lookalikes : ∃ t, ofDeclarations {} lookalikes = .ok t ∧
    t.format .add = [.ofList [.arithExpr, .literal "@"]] ∧
    t.format .sub = [.single .arithExpr] ∧ t.format .mul = [.single (.literal "@")] ∧
    (∀ replacer, t.allows .add replacer = true ↔ replacer = .sub ∨ replacer = .mul) ∧
    ∀ replacer, t.allows .add replacer = true → (t.format replacer).length ≤ 2 := by
  obtain ⟨t, ht, hformat, hpair⟩ :=
    exists_described (show IsDescription lookalikes by decide +kernel)
  have hpairs : statedPairs lookalikes = [(.add, .sub), (.add, .mul)] := by decide
  have hlengths : ∀ said ∈ statedFormats lookalikes, said.2.length ≤ 2 := by decide +kernel
  exact ⟨t, ht, (hformat _ _).2 (by decide), (hformat _ _).2 (by decide),
    (hformat _ _).2 (by decide), by simp [hpair, hpairs],
    fun replacer _ => hlengths _ ((hformat replacer _).1 rfl)⟩

/-- The groups of `ADD` among lookalikes. -/
theorem lookalikes_enumerate : ∃ t, ofDeclarations {} lookalikes = .ok t ∧
    t.format .add ≠ [] ∧
    (∀ replacer, t.allows .add replacer = true → (t.format replacer).length ≤ 2) ∧
    ∃ groups placed bs, t.synthesizeMatcher .add = .ok groups ∧
      t.Enumerates .add placed bs ∧ IsGrouping bs groups ∧
      ((RuleSet.mk groups).rules.Perm (bs.map fun b => (b.key, Rule.ofBinding b)) ↔
        TextDeterminesKey bs) := by
  obtain ⟨t, ht, hadd, _, _, _, harity⟩ := exists_lookalikes
  have hformat : t.format .add ≠ [] := by simp [hadd]
  exact ⟨t, ht, hformat, harity, synthesizeMatcher_enumerates t .add hformat harity⟩

/-- Not every binding is shown under its own key: `SUB` and `MUL` take the slot of `ADD` as
different kinds of one text, and the group of this text has one key. -/
theorem lookalikes_lose_key : ∃ t groups placed bs, ofDeclarations {} lookalikes = .ok t ∧
    t.format .add ≠ [] ∧
    (∀ replacer, t.allows .add replacer = true → (t.format replacer).length ≤ 2) ∧
    t.synthesizeMatcher .add = .ok groups ∧ t.Enumerates .add placed bs ∧
    ∃ b ∈ bs, (b.key, Rule.ofBinding b) ∉ (RuleSet.mk groups).rules := by
  obtain ⟨t, ht, hadd, hsub, hmul, hallows, harity⟩ := exists_lookalikes
  have hformat : t.format .add ≠ [] := by simp [hadd]
  -- a replacement that asks for one kind gets the slot as this kind
  have hsite : ∀ {op : Operator} {kind : Kind}, t.format op = [.single kind] →
      resolveAt [.ofList [.arithExpr, .literal "@"]] (.single kind) 0 = some kind →
        t.Fits .add op (.slot 0) ∧
          t.BoundAt .add op (.slot 0) ⟨⟨.add, [.atSlot kind 0]⟩, ⟨op, [.atSlot kind 0]⟩⟩ := by
    intro op kind hop hkind
    have hkey : (t.format .add).Binds [(0, kind)] [.atSlot kind 0] :=
      hadd ▸ Format.bind_eq_some_iff.1 rfl
    rw [← hadd] at hkind
    exact ⟨⟨⟨_, _, hop, hkind⟩, hkey.openBeside⟩, .slot hop hkind hkey⟩
  obtain ⟨groups, placed, bs, hok, henum, hgroups⟩ := exists_enumeration hformat harity
  refine ⟨t, groups, placed, bs, ht, hformat, harity, hok, henum, ?_⟩
  by_contra! hall
  obtain ⟨hfits, hbound⟩ := hsite hsub (by decide)
  obtain ⟨hfits', hbound'⟩ := hsite hmul (by decide)
  obtain ⟨a, ha, hab⟩ := henum.exists_mem ((hallows .sub).2 (Or.inl rfl)) hfits
  obtain ⟨b, hb, hbb⟩ := henum.exists_mem ((hallows .mul).2 (Or.inr rfl)) hfits'
  have hkeys := hgroups.textDeterminesKey_of_mem_rules hall a ha b hb
  rw [hab.unique hbound, hbb.unique hbound'] at hkeys
  exact absurd (hkeys rfl) (by decide)

end Taxonomy

end MutationRules
