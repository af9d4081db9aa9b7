import MutationRules.CommandLine.Run

/-!
# Sessions

A session prints, may stop, and uses a host. What its steps establish about the host is
composed step by step: a later step begins where the one before has ended, unless that has
stopped the session.
-/

namespace MutationRules

/-! ## Hosts beside a printed text -/

namespace Host

variable {τ : Type} {m : Type → Type} [Monad m] [LawfulMonad m] [Host m]

theorem completeDraft_lift (draft path content : String) :
    (completeDraft draft path content : StateT τ m Bool) =
      liftM (completeDraft draft path content : m Bool) := by
  rw [completeDraft, completeDraft, liftM_bind]
  refine bind_congr fun filled => ?_
  cases filled with
  | false => exact (liftM_pure _).symm
  | true => rfl

/-- A file is replaced in the same way where a text is collected beside the files. -/
theorem replace_lift (path content : String) :
    (replace path content : StateT τ m Bool) = liftM (replace path content : m Bool) := by
  rw [replace, replace, liftM_bind]
  refine bind_congr fun draft? => ?_
  cases draft? with
  | none => exact (liftM_pure _).symm
  | some draft =>
    simp only [completeDraft_lift, liftM_bind]
    refine bind_congr fun completed => ?_
    cases completed with
    | false =>
      rw [if_neg Bool.false_ne_true, if_neg Bool.false_ne_true, liftM_bind, liftM_pure]
      rfl
    | true => exact (liftM_pure _).symm

end Host

namespace CommandLine

/-! ## What an action ends with -/

section Meets

variable {σ α β : Type} {pre : σ → Prop} {post : Except Failure α → σ → Prop}

/-- Whether an action that begins where a condition holds ends with an outcome and in a state as
described, whatever was printed before. -/
def Meets (pre : σ → Prop) (action : Session (StateM σ) α)
    (post : Except Failure α → σ → Prop) : Prop :=
  ∀ printed s, pre s →
    post ((action.run.run printed).run s).1.1 ((action.run.run printed).run s).2

/-- What holds whatever the state may be assumed. -/
theorem Meets.of_fact {action : Session (StateM σ) α} {fact : Prop}
    (h : fact → Meets pre action post) : Meets (fun s => fact ∧ pre s) action post :=
  fun printed s hs => h hs.1 printed s hs.2

/-- An action in two steps stops with the first or goes on from its result. -/
theorem Meets.bind {first : Session (StateM σ) α} {next : α → Session (StateM σ) β}
    {last : Except Failure β → σ → Prop} (hfirst : Meets pre first post)
    (herror : ∀ failure s, post (.error failure) s → last (.error failure) s)
    (hok : ∀ a, Meets (post (.ok a)) (next a) last) : Meets pre (first >>= next) last := by
  intro printed s hs
  have hmiddle := hfirst printed s hs
  rw [ExceptT.run_bind, StateT.run_bind, StateT.run_bind]
  cases hrun : (first.run.run printed).run s with
  | mk ended s' =>
    obtain ⟨outcome, printed'⟩ := ended
    rw [hrun] at hmiddle
    cases outcome with
    | error failure => exact herror failure s' hmiddle
    | ok a => exact hok a printed' s' hmiddle

/-- An action goes on from the result of its first step. -/
theorem run_bind_of_ok {first : Session (StateM σ) α} {next : α → Session (StateM σ) β} {a : α}
    {printed printed' : String} {s s' : σ}
    (h : (first.run.run printed).run s = ((.ok a, printed'), s')) :
    ((first >>= next).run.run printed).run s = ((next a).run.run printed').run s' := by
  rw [ExceptT.run_bind, StateT.run_bind, StateT.run_bind, h]
  rfl

theorem meets_print (text : String) :
    Meets pre (print text) fun outcome s => outcome = .ok () ∧ pre s :=
  fun _ _ hs => ⟨rfl, hs⟩

theorem meets_orStop {ε : Type} (failure : ε → Failure) (result : Except ε α) :
    Meets pre (orStop failure result) fun outcome s =>
      outcome = result.mapError failure ∧ pre s :=
  fun _ _ hs => ⟨rfl, hs⟩

/-- What a host does never stops a session. -/
theorem meets_host {action : StateM σ α}
    (h : ∀ s a s', pre s → action.run s = (a, s') → post (.ok a) s') :
    Meets pre (liftM (liftM action : StateT String (StateM σ) α)) post :=
  fun _ s hs => h s _ _ hs rfl

end Meets

end CommandLine

end MutationRules
