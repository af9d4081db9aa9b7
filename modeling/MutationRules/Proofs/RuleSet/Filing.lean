import MutationRules.Proofs.RuleSet.Standard
import MutationRules.Proofs.Text.Pieces

/-!
# Rules and the keys they are filed under

A replacement refers to slots of the key it is bound with, and names their kinds. Rules
are filed under the text of this key. If the text of a key tells its kinds, a rule is
filed under its own key; this fails only for formats with a literal that is spelled like
a category beside it, or that holds what divides operands.
-/

namespace MutationRules

/-- Whether an expression has the operand at the slot that the operand is tagged with. -/
def Expression.HasAtSlot (e : Expression) (o : Operand) : Prop :=
  ∃ position, o.slot? = some (position + 1) ∧ e.operands[position]? = some o

/-- The operand at a slot is the one that an expression has there. -/
theorem Expression.hasAtSlot_atSlot {e : Expression} {kind : Kind} {position : Nat} :
    e.HasAtSlot (.atSlot kind position) ↔
      e.operands[position]? = some (.atSlot kind position) := by
  constructor
  · rintro ⟨p, hslot, hoperand⟩
    obtain rfl : position = p := by simpa [Operand.atSlot] using hslot
    exact hoperand
  · intro h
    exact ⟨position, rfl, h⟩

/-! ## Keys and the texts of their operands -/

/-- Whether operands are a key of a format: one for each slot, tagged with the slot and of a kind
that it admits. -/
def Format.IsKey (format : Format) (key : List Operand) : Prop :=
  key.length = format.length ∧
    ∀ (position : Nat) (operand : Operand), key[position]? = some operand →
      ∃ candidates kind, format[position]? = some candidates ∧ kind ∈ candidates ∧
        operand = .atSlot kind position

/-- Whether the text of a key tells its kinds. -/
structure Format.IsUnambiguous (format : Format) : Prop where
  /-- No slot admits a category and the literal that is spelled like it. -/
  distinct : ∀ candidates ∈ format, ∀ a ∈ candidates, ∀ b ∈ candidates,
    a.token = b.token → a = b
  /-- No literal holds what divides operands. -/
  separated : ∀ candidates ∈ format, ∀ kind ∈ candidates, ¬ [',', ' '] <:+: kind.token.toList

/-- An operand does not hold what divides operands if its kind does not. -/
theorem Operand.not_infix_text {kind : Kind} {position : Nat}
    (h : ¬ [',', ' '] <:+: kind.token.toList) :
    ¬ [',', ' '] <:+: (atSlot kind position).text.toList := by
  have hblank : ' ' ∉ (position + 1).repr.toList := by
    intro hm
    rw [Nat.toList_repr] at hm
    exact absurd (Nat.isDigit_of_mem_toDigits (by decide) (by decide) hm) (by decide)
  intro hinfix
  rw [text_atSlot, String.toList_append] at hinfix
  exact h (Text.infix_of_infix_append hblank hinfix)

/-- Operands that do not hold what divides them are told apart by the text of an expression. -/
theorem Expression.map_text_eq {op : Operator} {as bs : List Operand}
    (hlength : as.length = bs.length) (ha : ∀ o ∈ as, ¬ [',', ' '] <:+: o.text.toList)
    (hb : ∀ o ∈ bs, ¬ [',', ' '] <:+: o.text.toList) (h : text ⟨op, as⟩ = text ⟨op, bs⟩) :
    as.map Operand.text = bs.map Operand.text := by
  rcases as with _ | ⟨a, as⟩ <;> rcases bs with _ | ⟨b, bs⟩
  · rfl
  · simp at hlength
  · simp at hlength
  have hjoined := congrArg String.toList h
  rw [toList_text_cons, toList_text_cons, List.append_cancel_left_eq, List.append_cancel_left_eq,
    List.append_cancel_right_eq] at hjoined
  rw [← List.map_map, ← List.map_map] at hjoined
  have htexts := Text.eq_of_intercalate_pair_eq (by decide) (by simpa using hlength)
    (by simpa using ha) (by simpa using hb) hjoined
  have hinjective : String.toList.Injective := fun _ _ he => String.toList_injective he
  exact List.map_injective_iff.2 hinjective htexts

namespace Format

variable {format : Format} {key : List Operand}

/-- The operands of a key do not hold what divides them. -/
theorem IsKey.not_infix_text (hkey : format.IsKey key) (h : format.IsUnambiguous) :
    ∀ o ∈ key, ¬ [',', ' '] <:+: o.text.toList := by
  intro o ho
  obtain ⟨position, hp⟩ := List.mem_iff_getElem?.1 ho
  obtain ⟨candidates, kind, hc, hk, rfl⟩ := hkey.2 position o hp
  exact Operand.not_infix_text (h.separated candidates (List.mem_of_getElem? hc) kind hk)

/-- Keys of an unambiguous format are equal if their texts are. -/
theorem IsUnambiguous.key_eq (h : format.IsUnambiguous) {e e' : Expression}
    (hoperator : e.operator = e'.operator) (hkey : format.IsKey e.operands)
    (hkey' : format.IsKey e'.operands) (htext : e.text = e'.text) : e = e' := by
  obtain ⟨op, key⟩ := e
  obtain ⟨op', key'⟩ := e'
  obtain rfl : op = op' := hoperator
  have hlength : key.length = key'.length := hkey.1.trans hkey'.1.symm
  have htexts := Expression.map_text_eq hlength (hkey.not_infix_text h) (hkey'.not_infix_text h)
    htext
  apply congrArg (Expression.mk op)
  apply List.ext_getElem?
  intro position
  by_cases hp : position < key.length
  · have hp' : position < key'.length := hlength ▸ hp
    obtain ⟨candidates, kind, hc, hk, ho⟩ :=
      hkey.2 position _ (List.getElem?_eq_getElem hp)
    obtain ⟨candidates', kind', hc', hk', ho'⟩ :=
      hkey'.2 position _ (List.getElem?_eq_getElem hp')
    obtain rfl : candidates = candidates' := Option.some.inj (hc.symm.trans hc')
    have heach : (key.map Operand.text)[position]? = (key'.map Operand.text)[position]? := by
      rw [htexts]
    rw [List.getElem?_map, List.getElem?_map, List.getElem?_eq_getElem hp,
      List.getElem?_eq_getElem hp', ho, ho'] at heach
    have htoken : kind.token = kind'.token := by simpa using heach
    have hkind := h.distinct candidates (List.mem_of_getElem? hc) kind hk kind' hk' htoken
    rw [List.getElem?_eq_getElem hp, List.getElem?_eq_getElem hp', ho, ho', hkind]
  · have hp' : ¬ position < key'.length := hlength ▸ hp
    rw [List.getElem?_eq_none (Nat.le_of_not_lt hp), List.getElem?_eq_none (Nat.le_of_not_lt hp')]

/-- A fixed slot is bound to its kind. -/
theorem Binds.getElem?_eq {fixed : List (Nat × Kind)} (h : format.Binds fixed key)
    {position : Nat} (hp : position < format.length) {kind : Kind}
    (hfixed : fixed.lookup position = some kind) :
    key[position]? = some (.atSlot kind position) := by
  obtain ⟨k, hk, he⟩ := h.2 position _ (List.getElem?_eq_getElem hp)
  rw [hfixed, Option.some_or, Option.some.injEq] at he
  rw [hk, he]

end Format

namespace Taxonomy

variable {t : Taxonomy} {matcher replacer : Operator} {placement : Placement} {b : Binding}

/-- A binding at a placement has a key of the matcher's format. -/
theorem BoundAt.isKey (h : t.BoundAt matcher replacer placement b) :
    (t.format matcher).IsKey b.key.operands := by
  obtain ⟨fixed, hbinds⟩ : ∃ fixed, (t.format matcher).Binds fixed b.key.operands := by
    cases h with
    | whole hf hkey => exact ⟨_, hkey⟩
    | slot hf hkind hkey => exact ⟨_, hkey⟩
    | pair hf hleft hright hkey => exact ⟨_, hkey⟩
  refine ⟨hbinds.1, fun position operand ho => ?_⟩
  have hp : position < (t.format matcher).length :=
    hbinds.1 ▸ (List.getElem?_eq_some_iff.1 ho).1
  obtain ⟨kind, hkind, _⟩ := hbinds.2 position _ (List.getElem?_eq_getElem hp)
  obtain rfl := Option.some.inj (ho.symm.trans hkind)
  obtain ⟨position', candidates, kind', hc, hk, he⟩ := h.admits_key _ (List.mem_of_getElem? ho)
  obtain ⟨rfl, rfl⟩ : kind = kind' ∧ position = position' := by simpa [Operand.atSlot] using he
  exact ⟨candidates, kind, hc, hk, rfl⟩

/-- A replacement that fits refers to operands of the key that it is bound with. -/
theorem BoundAt.hasAtSlot (h : t.BoundAt matcher replacer placement b)
    (hfits : t.Fits matcher replacer placement) :
    ∀ o ∈ b.replacement.operands, b.key.HasAtSlot o := by
  cases h with
  | whole hf hkey => simp
  | slot hf hkind hkey =>
    have hslot := hkey.getElem?_eq (lt_length_of_resolveAt hkind) List.lookup_cons_self
    simpa [Expression.hasAtSlot_atSlot] using hslot
  | @pair left right l r leftKind rightKind key hf hleft hright hkey =>
    have hne : (r == l) = false := by
      rcases hfits.1 with hlt | ⟨hlt, _⟩ <;> simp <;> omega
    have hlookup : [(l, leftKind), (r, rightKind)].lookup r = some rightKind := by
      simp [List.lookup_cons, hne]
    have hl := hkey.getElem?_eq (lt_length_of_resolveAt hleft) List.lookup_cons_self
    have hr := hkey.getElem?_eq (lt_length_of_resolveAt hright) hlookup
    simpa [Expression.hasAtSlot_atSlot] using And.intro hl hr

/-- A binding at one of the placements that are tried is among the bindings. -/
theorem Enumerates.mem_of_boundAt {placed : List (Operator × Placement)} {bs : List Binding}
    (henum : t.Enumerates matcher placed bs) (ha : t.allows matcher replacer = true)
    (hp : placement ∈ t.placements matcher replacer)
    (hb : t.BoundAt matcher replacer placement b) : b ∈ bs := by
  have hsome : (t.bindAt? matcher replacer placement).isSome = true := by
    rw [bindAt?_eq_some_iff.2 hb]
    rfl
  obtain ⟨a, hmem, hbound⟩ := henum.exists_mem ha (fits_iff.2 ⟨hp, hsome⟩)
  rwa [hb.unique hbound]

/-- Formats of admissible kinds are unambiguous. -/
theorem HasAdmissibleFormats.isUnambiguous (h : t.HasAdmissibleFormats) (op : Operator) :
    (t.format op).IsUnambiguous where
  distinct := fun candidates hc _ hk _ hk' htoken =>
    (h op candidates hc _ hk).eq_of_token_eq (h op candidates hc _ hk') htoken
  separated := by
    intro candidates hc kind hk hinfix
    have hcomma : ',' ∈ kind.token.toList := hinfix.subset (by simp)
    exact ((h op candidates hc kind hk).isPlain.2 ',' hcomma).2 (by decide)

/-- No two different keys of a matcher have one text if its format is unambiguous. -/
theorem Enumerates.textDeterminesKey {placed : List (Operator × Placement)} {bs : List Binding}
    (henum : t.Enumerates matcher placed bs) (h : (t.format matcher).IsUnambiguous) :
    TextDeterminesKey bs := by
  intro a ha b hb htext
  obtain ⟨_, _, _, _, hbound⟩ := henum.exists_boundAt ha
  obtain ⟨_, _, _, _, hbound'⟩ := henum.exists_boundAt hb
  have hoperator : a.key.operator = b.key.operator :=
    hbound.key_operator.trans hbound'.key_operator.symm
  exact h.key_eq hoperator hbound.isKey hbound'.isKey htext

/-- A rule of a matcher with operands is that of a binding whose key has the text of the group's
key, and each of its operands is the one that this key has at the operand's slot. The group's key
has it there too if no two different keys have one text, as with an unambiguous format of the
matcher, which formats of admissible kinds are. -/
theorem operands_of_filed_rules (t : Taxonomy) (matcher : Operator)
    (hformat : t.format matcher ≠ []) {groups : List RuleGroup}
    (hok : t.synthesizeMatcher matcher = .ok groups) :
    ∃ bs, t.bindings matcher = .ok bs ∧
      (∀ g ∈ groups, ∀ rule ∈ g.rules, ∃ b ∈ bs, Rule.ofBinding b = rule ∧
        b.key.text = g.key.text ∧ ∀ o ∈ rule.replacement.operands, b.key.HasAtSlot o) ∧
      (TextDeterminesKey bs →
        ∀ g ∈ groups, ∀ rule ∈ g.rules, ∀ o ∈ rule.replacement.operands, g.key.HasAtSlot o) ∧
      ((t.format matcher).IsUnambiguous → TextDeterminesKey bs) ∧
      (t.HasAdmissibleFormats → (t.format matcher).IsUnambiguous) := by
  obtain ⟨bs, hbs, _, rfl⟩ := synthesizeMatcher_eq_ok_iff.1 hok
  obtain ⟨placed, henum⟩ := enumerates_of_bindings hformat hbs
  have hgrouping := RuleGroup.isGrouping_collect bs
  have hfiled : ∀ g ∈ RuleGroup.collect bs, ∀ rule ∈ g.rules, ∃ b ∈ bs, Rule.ofBinding b = rule ∧
      b.key.text = g.key.text ∧ ∀ o ∈ rule.replacement.operands, b.key.HasAtSlot o := by
    intro g hg rule hrule
    obtain ⟨b, hb, htext, rfl⟩ := (hgrouping.mem_rules_iff hg).1 hrule
    obtain ⟨replacer, placement, _, hfits, hbound⟩ := henum.exists_boundAt hb
    exact ⟨b, hb, rfl, htext, hbound.hasAtSlot hfits⟩
  refine ⟨bs, hbs, hfiled, fun hdetermines g hg rule hrule => ?_, henum.textDeterminesKey,
    fun h => h.isUnambiguous matcher⟩
  obtain ⟨b, hb, _, htext, hown⟩ := hfiled g hg rule hrule
  obtain ⟨a, ha, hkey⟩ := hgrouping.exists_key hg
  have hsame : g.key = b.key := hkey ▸ hdetermines a ha b hb (hkey ▸ htext.symm)
  rwa [hsame]

/-- By default the rules of `ADD` are filed under their own keys. -/
theorem additions_filed : ∃ t groups, standard {} = .ok t ∧ t.format .add ≠ [] ∧
    t.synthesizeMatcher .add = .ok groups ∧
    ∃ bs, t.bindings .add = .ok bs ∧
      (∀ g ∈ groups, ∀ rule ∈ g.rules, ∃ b ∈ bs, Rule.ofBinding b = rule ∧
        b.key.text = g.key.text ∧ ∀ o ∈ rule.replacement.operands, b.key.HasAtSlot o) ∧
      (TextDeterminesKey bs →
        ∀ g ∈ groups, ∀ rule ∈ g.rules, ∀ o ∈ rule.replacement.operands, g.key.HasAtSlot o) ∧
      ((t.format .add).IsUnambiguous → TextDeterminesKey bs) ∧
      (t.HasAdmissibleFormats → (t.format .add).IsUnambiguous) := by
  have hv : ({} : Settings).validate = .ok () := by decide
  obtain ⟨t, ht⟩ := Standard.exists_standard hv
  have hformat : t.format .add = [.arithmetic, .arithmetic] :=
    Standard.format_arithmetic ht (by decide)
  have hne : t.format .add ≠ [] := by simp [hformat]
  have hmatcher : Operator.add ∈ t.matchers := (Standard.mem_matchers_iff ht).2 (by decide)
  obtain ⟨groups, hok⟩ := Standard.exists_groups ht hmatcher
  exact ⟨t, groups, ht, hne, hok, operands_of_filed_rules t .add hne hok⟩

/-! ## Ambiguous formats -/

/-- Declarations of two ambiguous formats. The slot of `ADD` admits a literal that is spelled like
a category beside it. The slots of `DIV` admit literals with what divides operands, so that
`DIV(a1, x1, b2)` has the operands `a` and `x1, b` or the operands `a1, x` and `b`. -/
def ambiguities : List Declaration := [
  .format [.add] [.ofList [.arithExpr, .literal "@"]],
  .format [.sub] [.single .arithExpr],
  .format [.mul] [.single (.literal "@")],
  .format [.div] [.literals ["a", "a1, x"], .literals ["b", "x1, b"]],
  .format [.and] [.literals ["a"], .literals ["x1, b"]],
  .format [.or] [.literals ["a1, x"], .literals ["b"]],
  .format (Operator.all.filter fun op => !(op ∈ [Operator.add, .sub, .mul, .div, .and, .or])) [],
  .family Operator.all ["CLASS"],
  .replace [.add] [.sub, .mul] [],
  .replace [.div] [.and, .or] []]

/-- Whether some rule has an operand that the key of its group does not have. -/
def Misfiles (groups : List RuleGroup) : Prop :=
  ∃ g ∈ groups, ∃ rule ∈ g.rules, ∃ kind position,
    .atSlot kind position ∈ rule.replacement.operands ∧ ¬ g.key.HasAtSlot (.atSlot kind position)

/-- Two rules of one key text that take a slot as different kinds are not both filed under a key
with their operands. -/
theorem misfiles_of_mem {bs : List Binding} {groups : List RuleGroup} (h : IsGrouping bs groups)
    {a b : Binding} (ha : a ∈ bs) (hb : b ∈ bs) (htext : a.key.text = b.key.text)
    {kind kind' : Kind} {position : Nat}
    (hkind : .atSlot kind position ∈ a.replacement.operands)
    (hkind' : .atSlot kind' position ∈ b.replacement.operands) (hne : kind ≠ kind') :
    Misfiles groups := by
  obtain ⟨g, hg, hgtext, hrule⟩ := h.exists_group ha
  obtain ⟨g', hg', hgtext', hrule'⟩ := h.exists_group hb
  obtain rfl : g = g' := h.eq_of_text_eq hg hg' (by rw [hgtext, hgtext', htext])
  by_cases hslot : g.key.HasAtSlot (.atSlot kind position)
  · refine ⟨g, hg, _, hrule', kind', position, hkind', fun hslot' => hne ?_⟩
    rw [Expression.hasAtSlot_atSlot] at hslot hslot'
    simpa [Operand.atSlot] using hslot.symm.trans hslot'
  · exact ⟨g, hg, _, hrule, kind, position, hkind, hslot⟩

/-- A matcher misfiles if two of its replacements take a slot as different kinds and have keys of
one text. -/
theorem exists_misfiles_of_bindAt? (hformat : t.format matcher ≠ [])
    (harity : ∀ replacer, t.allows matcher replacer = true → (t.format replacer).length ≤ 2)
    {other : Operator} (ha : t.allows matcher replacer = true)
    (ha' : t.allows matcher other = true) (hp : placement ∈ t.placements matcher replacer)
    (hp' : placement ∈ t.placements matcher other) {b' : Binding}
    (hb : t.bindAt? matcher replacer placement = some b)
    (hb' : t.bindAt? matcher other placement = some b') (htext : b.key.text = b'.key.text)
    {kind kind' : Kind} {position : Nat}
    (hkind : .atSlot kind position ∈ b.replacement.operands)
    (hkind' : .atSlot kind' position ∈ b'.replacement.operands) (hne : kind ≠ kind') :
    ∃ groups, t.synthesizeMatcher matcher = .ok groups ∧ Misfiles groups := by
  obtain ⟨groups, placed, bs, hok, henum, hgroups⟩ := exists_enumeration hformat harity
  have hmem := henum.mem_of_boundAt ha hp (bindAt?_eq_some_iff.1 hb)
  have hmem' := henum.mem_of_boundAt ha' hp' (bindAt?_eq_some_iff.1 hb')
  exact ⟨groups, hok, misfiles_of_mem hgroups hmem hmem' htext hkind hkind' hne⟩

theorem length_format_le_of_ambiguities (h : ofDeclarations {} ambiguities = .ok t)
    (replacer : Operator) : (t.format replacer).length ≤ 2 := by
  have hlengths : ∀ said ∈ statedFormats ambiguities, said.2.length ≤ 2 := by decide +kernel
  exact hlengths _ ((format_eq_iff_mem_statedFormats h).1 rfl)

/-- A literal is taken for the category. -/
theorem misfiles_add_of_ambiguities (h : ofDeclarations {} ambiguities = .ok t) :
    t.format .add ≠ [] ∧ ∃ groups, t.synthesizeMatcher .add = .ok groups ∧ Misfiles groups := by
  have hformat : ∀ op slots, (op, slots) ∈ statedFormats ambiguities → t.format op = slots :=
    fun _ _ => (format_eq_iff_mem_statedFormats h).2
  have hadd := hformat .add [.ofList [.arithExpr, .literal "@"]] (by decide)
  have hsub := hformat .sub [.single .arithExpr] (by decide)
  have hmul := hformat .mul [.single (.literal "@")] (by decide)
  have hcategory : t.bindAt? .add .sub (.slot 0) =
      some ⟨⟨.add, [.atSlot .arithExpr 0]⟩, ⟨.sub, [.atSlot .arithExpr 0]⟩⟩ := by
    simp only [bindAt?, hadd, hsub]
    decide
  have hliteral : t.bindAt? .add .mul (.slot 0) =
      some ⟨⟨.add, [.atSlot (.literal "@") 0]⟩, ⟨.mul, [.atSlot (.literal "@") 0]⟩⟩ := by
    simp only [bindAt?, hadd, hmul]
    decide
  have hne : t.format .add ≠ [] := by simp [hadd]
  refine ⟨hne, exists_misfiles_of_bindAt? hne
    (fun replacer _ => length_format_le_of_ambiguities h replacer)
    ((allows_iff_mem_statedPairs h).2 (by decide)) ((allows_iff_mem_statedPairs h).2 (by decide))
    ?_ ?_ hcategory hliteral rfl (List.mem_singleton_self _) (List.mem_singleton_self _)
    (by decide)⟩
  · simp [placements, hadd, hsub]
  · simp [placements, hadd, hmul]

/-- Two literals are divided in another place. -/
theorem misfiles_div_of_ambiguities (h : ofDeclarations {} ambiguities = .ok t) :
    t.format .div ≠ [] ∧ ∃ groups, t.synthesizeMatcher .div = .ok groups ∧ Misfiles groups := by
  have hformat : ∀ op slots, (op, slots) ∈ statedFormats ambiguities → t.format op = slots :=
    fun _ _ => (format_eq_iff_mem_statedFormats h).2
  have hdiv := hformat .div [.literals ["a", "a1, x"], .literals ["b", "x1, b"]] (by decide)
  have hand := hformat .and [.literals ["a"], .literals ["x1, b"]] (by decide)
  have hor := hformat .or [.literals ["a1, x"], .literals ["b"]] (by decide)
  have hlate : t.bindAt? .div .and (.pair 0 1) =
      some ⟨⟨.div, [.atSlot (.literal "a") 0, .atSlot (.literal "x1, b") 1]⟩,
        ⟨.and, [.atSlot (.literal "a") 0, .atSlot (.literal "x1, b") 1]⟩⟩ := by
    simp only [bindAt?, hdiv, hand]
    decide
  have hearly : t.bindAt? .div .or (.pair 0 1) =
      some ⟨⟨.div, [.atSlot (.literal "a1, x") 0, .atSlot (.literal "b") 1]⟩,
        ⟨.or, [.atSlot (.literal "a1, x") 0, .atSlot (.literal "b") 1]⟩⟩ := by
    simp only [bindAt?, hdiv, hor]
    decide
  have hne : t.format .div ≠ [] := by simp [hdiv]
  refine ⟨hne, exists_misfiles_of_bindAt? hne
    (fun replacer _ => length_format_le_of_ambiguities h replacer)
    ((allows_iff_mem_statedPairs h).2 (by decide)) ((allows_iff_mem_statedPairs h).2 (by decide))
    ?_ ?_ hlate hearly rfl (List.mem_cons_self ..) (List.mem_cons_self ..) (by decide)⟩
  · simp [placements, hdiv, hand, mem_slotPairs]
  · simp [placements, hdiv, hor, mem_slotPairs]

/-- Ambiguous formats file a rule under a key that its operands do not have: one whose literal is
taken for the category, and one whose literals are divided in another place. -/
theorem ambiguities_misfile : ∃ t, ofDeclarations {} ambiguities = .ok t ∧
    ∀ matcher ∈ [Operator.add, .div], t.format matcher ≠ [] ∧
      ∃ groups, t.synthesizeMatcher matcher = .ok groups ∧ Misfiles groups := by
  obtain ⟨t, ht, _⟩ := exists_described (show IsDescription ambiguities by decide +kernel)
  refine ⟨t, ht, fun matcher hm => ?_⟩
  rcases List.mem_pair.1 hm with rfl | rfl
  · exact misfiles_add_of_ambiguities ht
  · exact misfiles_div_of_ambiguities ht

end Taxonomy

end MutationRules
