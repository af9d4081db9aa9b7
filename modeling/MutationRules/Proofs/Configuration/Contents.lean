import MutationRules.Proofs.Configuration.Line
import MutationRules.Proofs.RuleSet.Uniqueness

/-!
# What the text of a configuration tells

Although a literal may end an entry or hold an arrow, no two configurations with plain
operands are confused: lines end where no operand does, a line begins with the operator
of its key, and the name of a rule, which ends at the first comma, tells the replacement
behind it and so where the next entry begins.
-/

namespace MutationRules

/-- Whether the expressions of a group have plain operands and its rules have their names. -/
structure RuleGroup.IsPlain (group : RuleGroup) : Prop where
  /-- The operands of the key are plain. -/
  key : group.key.HasPlainOperands
  /-- The operands of the replacements are plain. -/
  replacement : ∀ rule ∈ group.rules, rule.replacement.HasPlainOperands
  /-- A rule has the name of its replacement under the key. -/
  name_eq : ∀ rule ∈ group.rules, rule.name = RuleName.encode ⟨group.key, rule.replacement⟩

/-- The groups of a taxonomy with admissible kinds have plain operands. -/
theorem Taxonomy.HasAdmissibleKinds.isPlain_of_mem_groups {t : Taxonomy} (h : t.HasAdmissibleKinds)
    {set : RuleSet} (hset : t.synthesize = .ok set) {g : RuleGroup} (hg : g ∈ set.groups) :
    g.IsPlain := by
  obtain ⟨m, hm, bs, groups, hbs, hgrouping, hg⟩ := exists_grouping_of_mem hset hg
  obtain ⟨a, ha, hkey⟩ := hgrouping.exists_key hg
  refine ⟨hkey ▸ (h.hasPlainOperands hbs ha).key, fun rule hr => ?_,
    fun rule hr => hgrouping.name_eq hg hr⟩
  obtain ⟨b, hb, _, rfl⟩ := (hgrouping.mem_rules_iff hg).1 hr
  exact (h.hasPlainOperands hbs hb).replacement

/-- Rules of groups with one key have the same sides if they have the same name. -/
theorem RuleGroup.IsPlain.side_eq_of_name_eq {g g' : RuleGroup} (hg : g.IsPlain)
    (hg' : g'.IsPlain) {rule rule' : Rule} (hr : rule ∈ g.rules) (hr' : rule' ∈ g'.rules)
    (h : rule.name = rule'.name) : rule.replacement.side = rule'.replacement.side := by
  rw [hg.name_eq rule hr, hg'.name_eq rule' hr'] at h
  exact (RuleName.sides_eq_of_encode_eq ⟨hg.key, hg.replacement rule hr⟩
    ⟨hg'.key, hg'.replacement rule' hr'⟩ h).2

namespace Configuration

/-! ## Lines of a configuration -/

/-- An expression with plain operands is written in one line. -/
theorem newline_not_mem_text {e : Expression} (h : e.HasPlainOperands) :
    '\n' ∉ e.text.toList := by
  have htoken : '\n' ∉ e.operator.token.toList := by cases e.operator <;> decide
  rw [Expression.mem_text_iff (by decide) htoken]
  rintro ⟨o, ho, hc⟩
  have hplain := (h o.text (List.mem_map_of_mem ho)).2 '\n' hc
  exact absurd hplain (by decide)

/-- The line of a plain group has no end inside. -/
theorem newline_not_mem_line {group : RuleGroup} (h : group.IsPlain) :
    '\n' ∉ (line group).toList := by
  have hentry : ∀ rule ∈ group.rules, '\n' ∉ entryText rule ++ [entryEnd] := by
    intro rule hr
    have hname : '\n' ∉ rule.name.toList := by
      rw [h.name_eq rule hr]
      exact fun hc => absurd (RuleName.of_mem_encode hc).1 (by decide)
    have htext := newline_not_mem_text (h.replacement rule hr)
    simp [entryText, entryEnd, hname, htext]
  have hkey := newline_not_mem_text h.key
  rw [toList_line, List.mem_append, not_or, List.mem_flatMap]
  constructor
  · simpa using hkey
  · rintro ⟨rule, hr, hc⟩
    exact hentry rule hr hc

/-- A configuration is the header, if it is wanted, and the lines with their ends. -/
theorem toList_render (withHeader : Bool) (set : RuleSet) : (render withHeader set).toList =
    (if withHeader then header ++ "\n\n" else "").toList ++
      (set.groups.map fun g => (line g).toList).flatMap fun l => l ++ ['\n'] := by
  simp [render, String.toList_join, List.flatMap_map]

/-- The text of plain groups, without the header, is divided into their lines. -/
theorem splitOn_render {set : RuleSet} (h : ∀ g ∈ set.groups, g.IsPlain) :
    (render false set).toList.splitOn '\n' =
      (set.groups.map fun g => (line g).toList) ++ [[]] := by
  have htext : (render false set).toList =
      (set.groups.map fun g => (line g).toList).flatMap fun l => l ++ ['\n'] :=
    toList_render false set
  rw [htext, Text.splitOn_flatMap_concat_iff, List.forall_mem_map]
  exact fun g hg => newline_not_mem_line (h g hg)

/-- Configurations of plain groups have the same lines if they have the same text. -/
theorem lines_eq_of_render_eq {set set' : RuleSet} (h : ∀ g ∈ set.groups, g.IsPlain)
    (h' : ∀ g ∈ set'.groups, g.IsPlain) {withHeader : Bool}
    (htext : render withHeader set = render withHeader set') :
    (set.groups.map fun g => (line g).toList) = set'.groups.map fun g => (line g).toList := by
  have hlines := congrArg String.toList htext
  rw [toList_render, toList_render, List.append_cancel_left_eq] at hlines
  refine Text.eq_of_flatMap_concat_eq ?_ ?_ hlines
  · exact List.forall_mem_map.2 fun g hg => newline_not_mem_line (h g hg)
  · exact List.forall_mem_map.2 fun g hg => newline_not_mem_line (h' g hg)

/-! ## Contents of a line -/

/-- A line begins with the operator of its key and a character that is not plain and tells whether
the key has operands. -/
theorem exists_toList_line (group : RuleGroup) : ∃ mark rest,
    (line group).toList = group.key.operator.token.toList ++ mark :: rest ∧
      ¬ IsPlainChar mark ∧ (mark = ' ' ↔ group.key.operands = []) := by
  obtain ⟨⟨op, operands⟩, rules⟩ := group
  rw [toList_line, String.toList_append]
  cases operands with
  | nil => exact ⟨' ', _, List.append_assoc .., by decide, by simp⟩
  | cons o rest =>
    rw [Expression.toList_text_cons, List.append_assoc, List.append_assoc]
    exact ⟨'(', _, rfl, by decide, by simp⟩

/-- The line of a bare key tells this key. -/
theorem key_eq_of_line_eq {g g' : RuleGroup} {op : Operator} (hkey : g.key = ⟨op, []⟩)
    (h : (line g).toList = (line g').toList) : g'.key = ⟨op, []⟩ := by
  obtain ⟨mark, rest, hline, hmark, hbare⟩ := exists_toList_line g
  obtain ⟨mark', rest', hline', hmark', hbare'⟩ := exists_toList_line g'
  rw [hline, hline'] at h
  obtain ⟨hoperator, hbehind⟩ :=
    Operator.eq_of_token_append_eq (by simpa using hmark) (by simpa using hmark') h
  obtain ⟨rfl, _⟩ := List.cons.inj hbehind
  have hoperands : g'.key.operands = [] := hbare'.1 (hbare.2 (by rw [hkey]))
  calc g'.key = ⟨g'.key.operator, g'.key.operands⟩ := rfl
    _ = ⟨op, []⟩ := by rw [← hoperator, hoperands, hkey]

/-- Entries begin with the first name, a comma and the first replacement. -/
theorem flatMap_entryText_cons (rule : Rule) (rest : List Rule) :
    ((rule :: rest).flatMap fun rule => entryText rule ++ [entryEnd]) =
      ' ' :: (rule.name.toList ++ ',' :: ' ' :: (rule.replacement.text.toList ++
        entryEnd :: rest.flatMap fun rule => entryText rule ++ [entryEnd])) := by
  simp [entryText]

/-- Entries tell the replacements of rules one after another, if names tell them. -/
theorem sides_eq_of_entries_eq {rules rules' : List Rule}
    (hname : ∀ rule ∈ rules, ',' ∉ rule.name.toList)
    (hname' : ∀ rule ∈ rules', ',' ∉ rule.name.toList)
    (htold : ∀ rule ∈ rules, ∀ rule' ∈ rules', rule.name = rule'.name →
      rule.replacement.side = rule'.replacement.side)
    (h : (rules.flatMap fun rule => entryText rule ++ [entryEnd]) =
      rules'.flatMap fun rule => entryText rule ++ [entryEnd]) :
    (rules.map fun rule => rule.replacement.side) =
      rules'.map fun rule => rule.replacement.side := by
  induction rules generalizing rules' with
  | nil =>
    cases rules' with
    | nil => rfl
    | cons rule' rest' => simp [entryText] at h
  | cons rule rest ih =>
    cases rules' with
    | nil => simp [entryText] at h
    | cons rule' rest' =>
      rw [List.forall_mem_cons] at hname hname'
      rw [flatMap_entryText_cons, flatMap_entryText_cons] at h
      -- the comma behind the name is the first of the entry
      obtain ⟨hnames, hbehind⟩ :=
        Text.eq_of_append_cons_eq hname.1 hname'.1 (List.cons.inj h).2
      have hside := htold rule (List.mem_cons_self ..) rule' (List.mem_cons_self ..)
        (String.toList_injective hnames)
      rw [Expression.text_congr hside] at hbehind
      have hrest := (List.cons.inj (List.append_cancel_left (List.cons.inj hbehind).2)).2
      have hsides := ih hname.2 hname'.2
        (fun r hr r' hr' => htold r (List.mem_cons_of_mem _ hr) r' (List.mem_cons_of_mem _ hr'))
        hrest
      rw [List.map_cons, List.map_cons, hside, hsides]

/-- The line of a plain group with a known key tells the replacements. -/
theorem sides_eq_of_line_eq {g g' : RuleGroup} (hg : g.IsPlain) (hg' : g'.IsPlain)
    (hkey : g.key = g'.key) (h : (line g).toList = (line g').toList) :
    (g.rules.map fun rule => rule.replacement.side) =
      g'.rules.map fun rule => rule.replacement.side := by
  rw [toList_line, toList_line, hkey, List.append_cancel_left_eq] at h
  refine sides_eq_of_entries_eq ?_ ?_ ?_ h
  · exact fun rule hr => hg.name_eq rule hr ▸ comma_not_mem_encode _
  · exact fun rule hr => hg'.name_eq rule hr ▸ comma_not_mem_encode _
  · exact fun rule hr rule' hr' hname => hg.side_eq_of_name_eq hg' hr hr' hname

/-- Whether a rule set has a rule with a bare key and a replacement with the given sides. -/
def HasBareRule (set : RuleSet) (matcher : Operator) (side : RuleName.Side) : Prop :=
  ∃ g ∈ set.groups, g.key = ⟨matcher, []⟩ ∧ ∃ rule ∈ g.rules, rule.replacement.side = side

/-- Configurations of plain groups have the same rules with bare keys if they have the same
text. -/
theorem HasBareRule.of_render_eq {set set' : RuleSet} (h : ∀ g ∈ set.groups, g.IsPlain)
    (h' : ∀ g ∈ set'.groups, g.IsPlain) {withHeader : Bool}
    (htext : render withHeader set = render withHeader set') {matcher : Operator}
    {side : RuleName.Side} (hrule : HasBareRule set matcher side) :
    HasBareRule set' matcher side := by
  obtain ⟨g, hg, hkey, rule, hr, rfl⟩ := hrule
  have hlines := lines_eq_of_render_eq h h' htext
  have hline : (line g).toList ∈ set'.groups.map fun g => (line g).toList :=
    hlines ▸ List.mem_map_of_mem hg
  obtain ⟨g', hg', he⟩ := List.mem_map.1 hline
  have hkey' := key_eq_of_line_eq hkey he.symm
  have hsides := sides_eq_of_line_eq (h g hg) (h' g' hg') (hkey.trans hkey'.symm) he.symm
  have hside : rule.replacement.side ∈ g'.rules.map fun rule => rule.replacement.side :=
    hsides ▸ List.mem_map_of_mem hr
  obtain ⟨rule', hr', hsame⟩ := List.mem_map.1 hside
  exact ⟨g', hg', hkey', rule', hr', hsame⟩

end Configuration

end MutationRules
