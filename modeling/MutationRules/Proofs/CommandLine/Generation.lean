import MutationRules.Proofs.CommandLine.Session
import MutationRules.Proofs.RuleSet.Standard
import MutationRules.Proofs.Workspace.Files

/-!
# Generating a configuration

A generation reads settings, synthesizes their rule set and writes it. Only the last of these
changes a file, and it replaces one or none; nothing after it can stop the run.
-/

namespace MutationRules

namespace CommandLine

variable {σ Place : Type} [DecidableEq Place] [Host (StateM σ)] {view : σ → FileTree Place}
  {tree : FileTree Place} {before : σ} {output content : String}

/-- The settings that a generation starts from: those that a file is loaded as, or the default. -/
def settingsOf (settings? : Option String) (s : σ) : Except Failure Settings :=
  match settings? with
  | none => .ok {}
  | some path =>
    ((SettingsFile.load path : Action (StateM σ) SettingsFile).run.run s).1.map
      SettingsFile.settings

/-- Loading gives what it gives without a printed text, and changes no file. -/
theorem meets_load (lawful : Host.IsLawful view) (path : String) :
    Meets (· = before) (SettingsFile.load path : Session (StateM σ) SettingsFile)
      fun outcome s =>
        outcome = ((SettingsFile.load path : Action (StateM σ) SettingsFile).run.run before).1 ∧
        view s = view before := by
  rintro printed s rfl
  rw [SettingsFile.run_load, SettingsFile.run_load]
  exact ⟨rfl, lawful.read s path⟩

theorem meets_chooseSettings (lawful : Host.IsLawful view) (color : Bool)
    (settings? : Option String) :
    Meets (· = before) (chooseSettings color settings? : Session (StateM σ) Settings)
      fun outcome s => outcome = settingsOf settings? before ∧ view s = view before := by
  cases settings? with
  | none =>
    rintro printed s rfl
    exact ⟨rfl, rfl⟩
  | some path =>
    refine (meets_print _).bind (fun failure s h => absurd h.1 nofun) fun _ => .of_fact fun _ => ?_
    refine (meets_load lawful path).bind ?_ fun file => ?_
    · rintro failure s ⟨hload, hview⟩
      refine ⟨?_, hview⟩
      rw [settingsOf, ← hload]
      rfl
    · rintro printed s ⟨hload, hview⟩
      refine ⟨?_, hview⟩
      rw [settingsOf, ← hload]
      rfl

/-- A file is given its new content, or nothing changes. -/
theorem meets_write (lawful : Host.IsLawful view) (withHeader : Bool) (set : RuleSet) :
    Meets (fun s => view s = tree)
      (Configuration.write withHeader set output : Session (StateM σ) Unit)
      fun outcome s => match outcome with
        | .error _ => view s = tree
        | .ok _ => tree.Replaced output (Configuration.render withHeader set) (view s) := by
  let content := Configuration.render withHeader set
  have hreplace : Meets (fun s => view s = tree)
      (liftM (liftM (Host.replace output content : StateM σ Bool) : StateT String (StateM σ) Bool))
      fun outcome s => match outcome with
        | .error _ => False
        | .ok false => view s = tree
        | .ok true => tree.Replaced output content (view s) := by
    refine meets_host fun s settled s' hs hrun => ?_
    subst hs
    have hview := lawful.view_replace hrun
    cases settled with
    | false => exact hview
    | true => exact hview
  rw [Configuration.write, Host.replace_lift]
  refine hreplace.bind (fun _ _ => False.elim) fun settled => ?_
  cases settled with
  | false => exact fun _ _ hs => hs
  | true => exact fun _ _ hs => hs

/-- Looking at the clock changes no file. -/
theorem meets_now (lawful : Host.IsLawful view) {p : FileTree Place → Prop} :
    Meets (fun s => p (view s))
      (liftM (Host.now : StateT String (StateM σ) Nat) : Session (StateM σ) Nat)
      fun outcome s => (∃ n, outcome = .ok n) ∧ p (view s) := by
  intro printed s hs
  refine ⟨⟨_, rfl⟩, ?_⟩
  show p (view ((Host.now : StateM σ Nat).run s).2)
  rwa [lawful.now]

/-- A configuration is written from the rule set of the settings, or no file changes. -/
theorem meets_generate (lawful : Host.IsLawful view) (color verbose : Bool) (output : String)
    (settings? : Option String) (withHeader : Bool) :
    Meets (· = before)
      (generate color verbose output settings? withHeader : Session (StateM σ) Unit)
      fun outcome s => match outcome with
        | .error _ => view s = view before
        | .ok _ => ∃ settings t set, settingsOf settings? before = .ok settings ∧
            Taxonomy.standard settings = .ok t ∧ t.synthesize = .ok set ∧
            (view before).Replaced output (Configuration.render withHeader set) (view s) := by
  refine (meets_chooseSettings lawful color settings?).bind (fun _ _ h => h.2) fun settings => ?_
  refine .of_fact fun hsettings => ?_
  refine (meets_now lawful (p := (· = view before))).bind (fun _ _ h => h.2) fun started => ?_
  refine .of_fact fun _ => ?_
  refine (meets_orStop _ _).bind (fun _ _ h => h.2) fun set => .of_fact fun hset => ?_
  obtain ⟨t, ht, hsynthesize⟩ := bind_eq_ok_iff.1 (mapError_eq_ok_iff.1 hset.symm)
  refine (meets_write lawful withHeader set).bind (fun _ _ h => h) fun _ => ?_
  let content := Configuration.render withHeader set
  refine (meets_now lawful (p := (view before).Replaced output content)).bind
    (fun _ _ h => absurd h.1 nofun) fun ended => .of_fact fun _ => ?_
  refine (meets_print _).bind (fun _ _ h => absurd h.1 nofun) fun _ => .of_fact fun _ => ?_
  rintro printed s hview
  exact ⟨settings, t, set, hsettings.symm, ht, hsynthesize, hview⟩

/-- On a host that does to its files what it says, a generation that fails at any step leaves all of
them as they were. One that succeeds gives the output path, and no other, a new content: the
configuration of the rule set that is synthesized from the settings. -/
theorem generate_replaces_or_keeps (lawful : Host.IsLawful view) (color verbose : Bool)
    (output : String) (settings? : Option String) (withHeader : Bool) (printed : String)
    (before after : σ) (outcome : Except Failure Unit) (printed' : String)
    (h : ((generate color verbose output settings? withHeader : Session (StateM σ) Unit).run.run
      printed).run before = ((outcome, printed'), after)) :
    (∀ failure, outcome = .error failure → view after = view before) ∧
    (outcome = .ok () → ∃ settings t set place,
      settingsOf settings? before = .ok settings ∧ Taxonomy.standard settings = .ok t ∧
      t.synthesize = .ok set ∧ (view before).place? output = some place ∧
      (view after).content? place = some (Configuration.render withHeader set).toUTF8 ∧
      ∀ other, other ≠ place → (view after).content? other = (view before).content? other) := by
  have hends := meets_generate lawful color verbose output settings? withHeader printed before rfl
  rw [h] at hends
  cases outcome with
  | error failure => exact ⟨fun _ _ => hends, nofun⟩
  | ok u =>
    refine ⟨fun _ hfailure => absurd hfailure (by simp), fun _ => ?_⟩
    obtain ⟨settings, t, set, hsettings, ht, hset, place, hplace, hview⟩ := hends
    rw [hview]
    exact ⟨settings, t, set, place, hsettings, ht, hset, hplace, FileTree.content?_set_self ..,
      fun other hother => FileTree.content?_set_of_ne hother⟩

/-- A workspace with a file of unusual settings. -/
def unusualFile : Workspace := singleFile unusualText.toUTF8

theorem run_chooseSettings_unusualFile : ∃ printed,
    ((chooseSettings false (some "s") : Session (StateM Workspace) Settings).run.run "").run
      unusualFile = ((.ok unusualSettings, printed), unusualFile) := by
  have hload : ∀ printed,
      ((SettingsFile.load "s" : Session (StateM Workspace) SettingsFile).run.run printed).run
        unusualFile = ((.ok { settings := unusualSettings }, printed), unusualFile) := by
    intro printed
    have h := load_unusualText
    rw [SettingsFile.run_load] at h ⊢
    exact congrArg (fun ended : _ × Workspace => ((ended.1, printed), ended.2)) h
  refine ⟨Text.unlines [Text.paint false [.dim] "Loading settings..."], ?_⟩
  rw [chooseSettings, run_bind_of_ok rfl, run_bind_of_ok (hload _)]
  rfl

/-- A generation from the file of unusual settings succeeds. -/
theorem exists_run_generate_unusualFile : ∃ printed after,
    ((generate false false "o" (some "s") true : Session (StateM Workspace) Unit).run.run "").run
      unusualFile = ((.ok (), printed), after) := by
  have hv : unusualSettings.validate = .ok () := by decide
  obtain ⟨t, set, ht, hset, _⟩ := Settings.synthesizes_of_validate hv
  obtain ⟨printed, hchoose⟩ := run_chooseSettings_unusualFile
  have hresult : (Taxonomy.standard unusualSettings).bind Taxonomy.synthesize = .ok set := by
    rw [ht]
    exact hset
  have hstop : ((orStop Failure.taxonomy
      ((Taxonomy.standard unusualSettings).bind Taxonomy.synthesize) :
        Session (StateM Workspace) RuleSet).run.run printed).run unusualFile =
          ((.ok set, printed), unusualFile) := by
    rw [hresult]
    rfl
  have hwrite : ∃ after,
      ((Configuration.write true set "o" : Session (StateM Workspace) Unit).run.run printed).run
        unusualFile = ((.ok (), printed), after) := ⟨_, rfl⟩
  obtain ⟨after, hwrite⟩ := hwrite
  rw [generate, run_bind_of_ok hchoose, run_bind_of_ok rfl, run_bind_of_ok hstop,
    run_bind_of_ok hwrite]
  exact ⟨_, after, rfl⟩

/-- The configuration of unusual settings is put beside their file, which stays as it is. -/
theorem unusualFile_generates : ∃ printed after t set,
    ((generate false false "o" (some "s") true : Session (StateM Workspace) Unit).run.run "").run
      unusualFile = ((.ok (), printed), after) ∧
    Taxonomy.standard unusualSettings = .ok t ∧ t.synthesize = .ok set ∧
    after.files.get? ["o"] = some (Configuration.render true set).toUTF8 ∧
    after.files.get? ["s"] = some unusualText.toUTF8 := by
  obtain ⟨printed, after, hrun⟩ := exists_run_generate_unusualFile
  obtain ⟨_, hreplaced⟩ := generate_replaces_or_keeps Workspace.isLawful false false "o" (some "s")
    true "" unusualFile after (.ok ()) printed hrun
  obtain ⟨settings, t, set, place, hsettings, ht, hset, hplace, hcontent, hother⟩ := hreplaced rfl
  obtain rfl : unusualSettings = settings := by
    rw [settingsOf, unusualFile, load_unusualText] at hsettings
    exact Except.ok.inj hsettings
  obtain rfl : ["o"] = place := Option.some.inj hplace
  exact ⟨printed, after, t, set, hrun, ht, hset, hcontent, (hother ["s"] (by decide)).trans rfl⟩

end CommandLine

end MutationRules
