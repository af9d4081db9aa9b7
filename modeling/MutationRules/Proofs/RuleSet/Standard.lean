import MutationRules.Proofs.RuleSet.Uniqueness
import MutationRules.Proofs.Settings.Load
import MutationRules.Proofs.Taxonomy.Standard

/-!
# The standard rule set

Whatever literals accepted settings hold, their standard taxonomy is synthesized: every
matcher has its bindings, the table allows all of them, and no two rules have one name.
-/

namespace MutationRules

namespace Standard

open Declaration (Topic)

variable {settings : Settings} {t : Taxonomy}

/-- The literals of a standard taxonomy are admissible. -/
theorem hasAdmissibleKinds (h : Taxonomy.standard settings = .ok t) : t.HasAdmissibleKinds := by
  have hv : settings.validate = .ok () := (Taxonomy.ofDeclarations_eq_ok_iff.1 h).1
  have hbooleans : ∀ kind ∈ Constants.booleans.toList, kind.IsAdmissible := by decide
  have hformats : t.HasAdmissibleFormats := by
    intro op candidates hc kind hk
    rcases admits_of_mem_format h hc hk with hcategory | hboolean | hheld
    · exact Kind.isAdmissible_of_mem_categories hcategory
    · exact hbooleans kind hboolean
    · exact Constants.isAdmissible_of_holds hv hheld
  exact hformats.hasAdmissibleKinds h

/-- A standard matcher without operands can be expanded. -/
theorem expands_of_mem_matchers (h : Taxonomy.standard settings = .ok t) {matcher : Operator}
    (hm : matcher ∈ t.matchers) (hformat : t.format matcher = []) : t.Expands matcher where
  known := by
    have hplaced : ∀ table ∈ Topic.table.statements replacements, ∀ m ∈ table.1,
        m ∉ [Operator.deleteStatement, .trapStatement] := by decide
    obtain ⟨table, htable, hmem⟩ := (mem_matchers_iff h).1 hm
    exact (mem_of_format_eq_nil h hformat).resolve_right (hplaced table htable matcher hmem)
  statement := by
    have hremovals : ∀ table ∈ Topic.table.statements replacements, ∀ m ∈ table.1,
        m ∈ Operator.statements →
          ∀ r ∈ table.2.1, r ∈ [Operator.deleteStatement, .trapStatement] := by decide
    intro hs replacer hr
    obtain ⟨table, htable, hmem, hr, _⟩ := (mem_replacers_iff h).1 hr
    exact format_removal h (hremovals table htable matcher hmem hs replacer hr)
  callee := by
    intro _ _ _ _
    rw [format_newCallee h]
    rfl

/-- Every standard matcher is synthesized. -/
theorem exists_groups (h : Taxonomy.standard settings = .ok t) {matcher : Operator}
    (hm : matcher ∈ t.matchers) : ∃ groups, t.synthesizeMatcher matcher = .ok groups := by
  by_cases hformat : t.format matcher = []
  · refine (Taxonomy.exists_synthesizeMatcher_iff hformat).2
      ⟨expands_of_mem_matchers h hm hformat, fun replacer hr _ => ?_⟩
    by_cases hconst : matcher = .arithConst
    · subst hconst
      have hshifts : ∀ r ∈ [Operator.add, .constantValue],
          ∃ table ∈ Topic.table.statements replacements, Operator.arithConst ∈ table.1 ∧
            r ∈ table.2.1 ∧ r ≠ .arithConst ∧ r ∉ table.2.2 := by decide
      exact Taxonomy.allows_iff.2 ((mem_replacers_iff h).2 (hshifts replacer hr))
    · rw [Taxonomy.bareReplacers_of_ne hconst] at hr
      exact Taxonomy.allows_iff.2 hr
  · obtain ⟨groups, _, _, hok, _⟩ :=
      Taxonomy.exists_enumeration hformat fun replacer _ => length_format_le h replacer
    exact ⟨groups, hok⟩

end Standard

/-- Whether settings have a standard rule set, in which no two rules have one name. -/
def Settings.Synthesizes (settings : Settings) : Prop :=
  ∃ t set, Taxonomy.standard settings = .ok t ∧ t.synthesize = .ok set ∧ set.names.Nodup

/-- Accepted settings have a standard rule set. -/
theorem Settings.synthesizes_of_validate {settings : Settings} (hv : settings.validate = .ok ()) :
    settings.Synthesizes := by
  obtain ⟨t, ht⟩ := Standard.exists_standard hv
  have hslots : ∀ op, (t.format op).length ≤ 9 := fun op =>
    Nat.le_trans (Standard.length_format_le ht op) (by decide)
  obtain ⟨set, hset, hnames⟩ := (Standard.hasAdmissibleKinds ht).exists_synthesize hslots
    fun _ hm => Standard.exists_groups ht hm
  exact ⟨t, set, ht, hset, hnames⟩

/-- Synthesis never fails on accepted settings, whether they are given or loaded. -/
theorem standard_synthesizes :
    (∀ settings : Settings, settings.validate = .ok () → settings.Synthesizes) ∧
      ∀ (path : String) (before after : Workspace) (file : SettingsFile),
        (SettingsFile.load path : Action (StateM Workspace) SettingsFile).run.run before =
          (.ok file, after) → file.settings.Synthesizes :=
  ⟨fun _ hv => Settings.synthesizes_of_validate hv, fun _ _ _ _ h =>
    Settings.synthesizes_of_validate (SettingsFile.validate_of_load h)⟩

/-- Settings with repeated literals that look like a slot, zero and an operator, and with an empty
list. -/
def unusualSettings : Settings where
  scalarConstants := ["V1", "0", "V1", "ADD"]
  calleeNames := []

/-- The text of a file with the unusual settings. -/
def unusualText : String := "settings:
  scalar_constants: [V1, \"0\", V1, ADD]
  callee_names: []
"

/-- A workspace with one file. -/
def singleFile (bytes : ByteArray) : Workspace where
  files := .ofList [(["s"], bytes)]

theorem read_singleFile (bytes : ByteArray) : (singleFile bytes).read "s" = some bytes := by
  have hplace : (singleFile bytes).locate "s" = some ["s"] := rfl
  rw [Workspace.read, hplace]
  exact OrderedMap.get?_insert_self _ _ _

/-- The unusual settings are loaded from their file. -/
theorem load_unusualText :
    (SettingsFile.load "s" : Action (StateM Workspace) SettingsFile).run.run
      (singleFile unusualText.toUTF8) =
        (.ok { settings := unusualSettings }, singleFile unusualText.toUTF8) := by
  have htext : String.fromUTF8? unusualText.toUTF8 = some unusualText :=
    dif_pos unusualText.isValidUTF8
  have hparse : SettingsFile.parse? unusualText = some { settings := unusualSettings } := by
    decide +kernel
  exact SettingsFile.load_eq_ok (read_singleFile _) htext hparse (by decide)

/-- Unusual settings have a standard rule set, whether they are given or loaded. -/
theorem unusualSettings_synthesizes : unusualSettings.validate = .ok () ∧
    unusualSettings.Synthesizes ∧
    ∃ file, (SettingsFile.load "s" : Action (StateM Workspace) SettingsFile).run.run
      (singleFile unusualText.toUTF8) = (.ok file, singleFile unusualText.toUTF8) ∧
        file.settings.Synthesizes := by
  have hv : unusualSettings.validate = .ok () := by decide
  exact ⟨hv, standard_synthesizes.1 _ hv, _, load_unusualText,
    standard_synthesizes.2 _ _ _ _ load_unusualText⟩

end MutationRules
