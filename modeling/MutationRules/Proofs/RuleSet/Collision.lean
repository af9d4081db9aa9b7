import MutationRules.Proofs.RuleSet.Fault
import MutationRules.Proofs.RuleSet.Filing

/-!
# When names collide

An operand is spelled as the text of its kind and the number of its slot, so a text that ends
in a digit can run into the number. With at most nine slots the number is the last character,
and two rules never have one name. With eleven slots they can: `x1` in the first slot and `x`
in the eleventh are both spelled `x11`.
-/

namespace MutationRules

namespace Taxonomy

variable {t : Taxonomy} {matcher : Operator}

/-- The names that arise in a taxonomy with admissible kinds and few slots differ. -/
theorem HasAdmissibleKinds.nodup_names_of_emits (h : t.HasAdmissibleKinds)
    (hslots : ∀ op, (t.format op).length ≤ 9) {set : RuleSet} (hset : t.Emits set) :
    set.names.Nodup := by
  obtain ⟨parts, hparts, rfl⟩ := hset
  exact h.nodup_names_flatten hslots hparts

/-- No two rules of a built taxonomy have one name if the literals of its formats are admissible
and no format has more than nine slots. So synthesis is never refused for a collision, and succeeds
whenever no matcher is at fault. -/
theorem synthesize_never_collides {settings : Settings} {declarations : List Declaration}
    (h : ofDeclarations settings declarations = .ok t) (hformats : t.HasAdmissibleFormats)
    (hslots : ∀ op, (t.format op).length ≤ 9) :
    (∀ set, t.Emits set → set.names.Nodup) ∧
    (∀ name first second, t.synthesize ≠ .error (.ruleNameCollision name first second)) ∧
    ∀ set, t.synthesize = .ok set ↔ t.Emits set := by
  have hnames : ∀ set, t.Emits set → set.names.Nodup := fun _ hset =>
    (hformats.hasAdmissibleKinds h).nodup_names_of_emits hslots hset
  refine ⟨hnames, fun name first second herror => ?_, fun set => ?_⟩
  · obtain ⟨set, hset, hcollide⟩ := exists_ruleNameCollision_iff.1 ⟨name, first, second, herror⟩
    exact hcollide (hnames set hset)
  · rw [synthesize_eq_ok_iff]
    constructor
    · rintro ⟨parts, hparts, hset, _⟩
      exact ⟨parts, hparts, hset⟩
    · rintro ⟨parts, hparts, hset⟩
      exact ⟨parts, hparts, hset, hnames set ⟨parts, hparts, hset⟩⟩

/-! ## Slot numbers of two digits -/

/-- Two bindings of one name are refused if no matcher is at fault. -/
theorem exists_ruleNameCollision_of_bindings
    (hmatchers : ∀ m ∈ t.matchers, ∃ groups, t.synthesizeMatcher m = .ok groups)
    (hm : matcher ∈ t.matchers) {bs : List Binding} (hbs : t.bindings matcher = .ok bs)
    {a b : Binding} (ha : a ∈ bs) (hb : b ∈ bs) (hne : a ≠ b)
    (hname : RuleName.encode a = RuleName.encode b) :
    ∃ name first second, t.synthesize = .error (.ruleNameCollision name first second) := by
  obtain ⟨parts, hparts⟩ := exists_forall₂ hmatchers
  refine exists_ruleNameCollision_iff.2 ⟨_, ⟨parts, hparts, rfl⟩, fun hnodup => hne ?_⟩
  obtain ⟨groups, hmem, hgroups⟩ := exists_mem_of_forall₂ hparts hm
  obtain ⟨bs', hbs', hperm⟩ := exists_perm_names hgroups
  obtain rfl : bs = bs' := Except.ok.inj (hbs.symm.trans hbs')
  rw [RuleSet.names_mk_flatten, List.nodup_flatten] at hnodup
  exact List.inj_on_of_nodup_map (hperm.nodup_iff.1 (hnodup.1 _ (List.mem_map_of_mem hmem)))
    ha hb hname

/-- A format whose first slot admits `x1`, and the others `x`. -/
def numbered (others : Nat) : Format :=
  .single (.literal "x1") :: List.replicate others (.single (.literal "x"))

/-- Declarations in which `SUB` takes any slot of `ADD`. -/
def numberings (others : Nat) : List Declaration := [
  .format [.add] (numbered others),
  .format [.sub] [.literals ["x", "x1"]],
  .format (Operator.all.filter fun op => !(op ∈ [Operator.add, .sub])) [],
  .family Operator.all ["CLASS"],
  .replace [.add] [.sub] []]

/-- The names of numberings with nine slots differ. -/
theorem numberings_never_collide : ∃ t, ofDeclarations {} (numberings 8) = .ok t ∧
    t.HasAdmissibleFormats ∧ (∀ op, (t.format op).length ≤ 9) ∧
    ∀ name first second, t.synthesize ≠ .error (.ruleNameCollision name first second) := by
  obtain ⟨t, ht, hformat, _⟩ :=
    exists_described (show IsDescription (numberings 8) by decide +kernel)
  have hkinds : ∀ said ∈ statedFormats (numberings 8), ∀ candidates ∈ said.2,
      ∀ kind ∈ candidates.toList, kind.IsAdmissible := by
    decide +kernel
  have hlengths : ∀ said ∈ statedFormats (numberings 8), said.2.length ≤ 9 := by decide +kernel
  have hadmissible : t.HasAdmissibleFormats := fun op => hkinds _ ((hformat op _).1 rfl)
  have hslots : ∀ op, (t.format op).length ≤ 9 := fun op => hlengths _ ((hformat op _).1 rfl)
  exact ⟨t, ht, hadmissible, hslots, (synthesize_never_collides ht hadmissible hslots).2.1⟩

/-- Two names of numberings with eleven slots are the same. -/
theorem numberings_collide : ∃ t, ofDeclarations {} (numberings 10) = .ok t ∧
    t.HasAdmissibleFormats ∧
    ∃ name first second, t.synthesize = .error (.ruleNameCollision name first second) := by
  obtain ⟨t, ht, hformat, hpair⟩ :=
    exists_described (show IsDescription (numberings 10) by decide +kernel)
  have hpairs : statedPairs (numberings 10) = [(.add, .sub)] := by decide
  have hkinds : ∀ said ∈ statedFormats (numberings 10), ∀ candidates ∈ said.2,
      ∀ kind ∈ candidates.toList, kind.IsAdmissible := by
    decide +kernel
  have hadd : t.format .add = numbered 10 := (hformat _ _).2 (by decide)
  have hsub : t.format .sub = [.literals ["x", "x1"]] := (hformat _ _).2 (by decide)
  have hallows : ∀ replacer, t.allows .add replacer = true ↔ replacer = .sub := by
    simp [hpair, hpairs]
  have hmatchers : ∀ matcher, matcher ∈ t.matchers ↔ matcher = .add := by
    simp [mem_matchers_iff_of_built ht, numberings]
  have hne : t.format .add ≠ [] := by simp [hadd, numbered]
  have hbindings := (bindings_eq_ok_iff hne).2 ⟨fun replacer hr => by
    rw [(hallows replacer).1 (allows_iff.2 hr), hsub]
    decide, rfl⟩
  obtain ⟨placed, henum⟩ := enumerates_of_bindings hne hbindings
  -- the first slot and the eleventh leave `ADD` as it is, and are spelled the same
  have hfirst : t.bindAt? .add .sub (.slot 0) = some ⟨⟨.add, (numbered 10).bind [] |>.getD []⟩,
      ⟨.sub, [.atSlot (.literal "x1") 0]⟩⟩ := by
    simp only [bindAt?, hadd, hsub]
    decide +kernel
  have hlast : t.bindAt? .add .sub (.slot 10) = some ⟨⟨.add, (numbered 10).bind [] |>.getD []⟩,
      ⟨.sub, [.atSlot (.literal "x") 10]⟩⟩ := by
    simp only [bindAt?, hadd, hsub]
    decide +kernel
  have hmem : ∀ {position b}, position < 11 → t.bindAt? .add .sub (.slot position) = some b →
      b ∈ _ := fun hlt hb => henum.mem_of_boundAt ((hallows _).2 rfl)
        (by simpa [placements, hadd, hsub, numbered] using hlt) (bindAt?_eq_some_iff.1 hb)
  refine ⟨t, ht, fun op => hkinds _ ((hformat op _).1 rfl),
    exists_ruleNameCollision_of_bindings (fun m hm => ?_) ((hmatchers _).2 rfl) hbindings
      (hmem (by decide) hfirst) (hmem (by decide) hlast) (by decide) (by decide +kernel)⟩
  obtain rfl := (hmatchers m).1 hm
  exact ⟨_, synthesizeMatcher_eq_ok_iff.2 ⟨_, hbindings, fun _ => henum.allows_of_mem, rfl⟩⟩

end Taxonomy

end MutationRules
