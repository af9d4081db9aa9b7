import MutationRules.Proofs.Taxonomy.Verdict

/-!
# Declarations in another order

What a history says of the operators does not depend on its order, except for their last
roles. So declarations may change places, as long as those that give roles keep theirs:
the same clauses are accepted or not, and if all are, the verdict is the same to the last
detail. Only which of several refused clauses is reported may change.
-/

namespace MutationRules

namespace Declaration

/-- Whether a declaration gives a role. -/
def isRole : Declaration → Bool
  | .role _ _ => true
  | _ => false

/-- Whether declarations are others in an order that keeps that of the roles. -/
structure IsReordering (declarations declarations' : List Declaration) : Prop where
  /-- The declarations are the same. -/
  perm : declarations.Perm declarations'
  /-- The roles are given in the same order. -/
  roles : declarations.filter isRole = declarations'.filter isRole

/-- Only a declaration of roles has clauses that give one. -/
theorem filterMap_role?_clauses {declaration : Declaration} (h : declaration.isRole = false)
    (op : Operator) : declaration.clauses.filterMap (Clause.role? op) = [] := by
  cases declaration with
  | role operators place => exact absurd h (by simp [isRole])
  | format | family | commutative | replace =>
    simp [clauses, Clause.role?, List.filterMap_eq_nil_iff]

end Declaration

namespace History

/-- Whether histories say the same of operators in perhaps another order, and end with the same
roles. -/
structure Agrees (history history' : History) : Prop where
  /-- The clauses are the same. -/
  perm : history.Perm history'
  /-- The last roles are the same. -/
  lastRole : ∀ op, history.lastRole op = history'.lastRole op

variable {history history' : History} {op : Operator} {defect : TaxonomyError}

/-- The last role of an operator is the last one of all that it is given. -/
theorem lastRole_eq_getLast? (history : History) (op : Operator) :
    history.lastRole op = (history.filterMap (Clause.role? op)).getLast?.getD .both := by
  rw [lastRole, ← List.head?_filterMap, List.filterMap_reverse, List.head?_reverse]

/-- The roles that declarations give an operator are those of the declarations of roles. -/
theorem filterMap_role?_ofDeclarations (declarations : List Declaration) (op : Operator) :
    (ofDeclarations declarations).filterMap (Clause.role? op) =
      (ofDeclarations (declarations.filter Declaration.isRole)).filterMap (Clause.role? op) := by
  induction declarations with
  | nil => rfl
  | cons declaration rest ih =>
    rw [ofDeclarations, List.flatMap_cons, List.filterMap_append, ih]
    cases hrole : declaration.isRole with
    | true => simp [hrole]
    | false =>
      rw [Declaration.filterMap_role?_clauses hrole, List.nil_append,
        List.filter_cons_of_neg (by simp [hrole])]

/-- Reordered declarations say the same. -/
theorem agrees_of_isReordering {declarations declarations' : List Declaration}
    (h : Declaration.IsReordering declarations declarations') :
    Agrees (ofDeclarations declarations) (ofDeclarations declarations') where
  perm := h.perm.flatMap_right _
  lastRole := fun op => by
    rw [lastRole_eq_getLast?, lastRole_eq_getLast?, filterMap_role?_ofDeclarations declarations,
      filterMap_role?_ofDeclarations declarations', h.roles]

namespace Agrees

variable (h : history.Agrees history')

include h

theorem symm : history'.Agrees history where
  perm := h.perm.symm
  lastRole := fun op => (h.lastRole op).symm

theorem formats_iff : history.Formats op ↔ history'.Formats op :=
  exists_congr fun _ => h.perm.mem_iff

theorem classes_iff : history.Classes op ↔ history'.Classes op :=
  exists_congr fun _ => h.perm.mem_iff

theorem givesClass_iff {path : ClassPath} :
    history.GivesClass op path ↔ history'.GivesClass op path :=
  exists_congr fun _ => and_congr_left' h.perm.mem_iff

theorem matches_iff {matcher : Operator} : history.Matches matcher ↔ history'.Matches matcher :=
  exists_congr fun _ => and_congr_left' h.perm.mem_iff

theorem allows_iff {matcher replacer : Operator} :
    history.Allows matcher replacer ↔ history'.Allows matcher replacer :=
  exists_congr fun _ => and_congr_left' h.perm.mem_iff

/-- Whether a clause is refused does not depend on the order, though which one does. -/
theorem isConsistent_iff : history.IsConsistent ↔ history'.IsConsistent := by
  rw [← (defect?_ofClauses history).1, ← (defect?_ofClauses history').1,
    Draft.defect?_ofClauses_eq_none_iff, Draft.defect?_ofClauses_eq_none_iff,
    (h.perm.filterMap _).nodup_iff, (h.perm.filterMap _).nodup_iff]
  simp only [h.perm.mem_iff]

theorem lacks_iff : history.Lacks op defect ↔ history'.Lacks op defect := by
  have hof : ∀ {a b : History}, a.Agrees b → a.Lacks op defect → b.Lacks op defect := by
    rintro a b hab (hf | ⟨hf, hc⟩)
    · exact .format fun hb => hf (hab.formats_iff.2 hb)
    · exact .family (hab.formats_iff.1 hf) fun hb => hc (hab.classes_iff.2 hb)
  exact ⟨hof h, hof h.symm⟩

theorem misplaces_iff {matcher : Operator} :
    history.Misplaces matcher defect ↔ history'.Misplaces matcher defect := by
  have hof : ∀ {a b : History}, a.Agrees b → a.Misplaces matcher defect →
      b.Misplaces matcher defect := by
    rintro a b hab (hm | ⟨hm, ha, hr, hfirst⟩)
    · exact .matcher (hab.lastRole _ ▸ hm)
    · refine .replacer (hab.lastRole _ ▸ hm) (hab.allows_iff.1 ha) (hab.lastRole _ ▸ hr) ?_
      intro earlier hlt ha'
      rw [← hab.lastRole]
      exact hfirst earlier hlt (hab.allows_iff.2 ha')
  exact ⟨hof h, hof h.symm⟩

theorem isHeldBy {t : Taxonomy} (held : history.IsHeldBy t) : history'.IsHeldBy t where
  format := fun op => h.perm.mem_iff.1 (held.format op)
  classPath := fun op => h.givesClass_iff.1 (held.classPath op)
  role := fun op => (held.role op).trans (h.lastRole op)
  matchers := fun matcher => (held.matchers matcher).trans h.matches_iff
  allows := fun matcher replacer => (held.allows matcher replacer).trans h.allows_iff
  commutative := fun op => (held.commutative op).trans h.perm.mem_iff

/-- If no clause is refused, the verdict on histories that agree is the same. -/
theorem verdict {constants : Constants} {result : Except TaxonomyError Taxonomy}
    (hc : history.IsConsistent) (hv : history.Verdict constants result) :
    history'.Verdict constants result := by
  have hc' := h.isConsistent_iff.1 hc
  cases hv with
  | refused hfirst =>
    obtain ⟨before, c, after, hsplit, _, hrefused⟩ := hfirst
    exact absurd ⟨before, c, after, hsplit, hrefused⟩ (hc _)
  | incomplete _ hfirst hlacks =>
    exact .incomplete hc' (fun o ho e hl => hfirst o ho e (h.lacks_iff.2 hl)) (h.lacks_iff.1 hlacks)
  | misplaced _ hdescribed hmatches hfirst hmisplaces =>
    refine .misplaced hc' (fun o e hl => hdescribed o e (h.lacks_iff.2 hl))
      (h.matches_iff.1 hmatches) ?_ (h.misplaces_iff.1 hmisplaces)
    intro o ho hm e hmis
    exact hfirst o ho (h.matches_iff.2 hm) e (h.misplaces_iff.2 hmis)
  | complete _ hdescribed hplaced held hconstants =>
    refine .complete hc' (fun o e hl => hdescribed o e (h.lacks_iff.2 hl)) ?_ (h.isHeldBy held)
      hconstants
    intro o hm e hmis
    exact hplaced o (h.matches_iff.2 hm) e (h.misplaces_iff.2 hmis)

end Agrees

end History

namespace Taxonomy

variable {settings : Settings} {declarations declarations' : List Declaration} {t : Taxonomy}

/-- No clause of the declarations of a built taxonomy is refused. -/
theorem isConsistent_of_built (h : ofDeclarations settings declarations = .ok t) :
    (History.ofDeclarations declarations).IsConsistent :=
  (History.defect?_ofClauses _).1.1 (Draft.build_eq_ok_iff.1 (ofDeclarations_eq_ok_iff.1 h).2).1

/-- Reordered declarations without a refused clause have the same result. -/
theorem ofDeclarations_eq_of_isReordering (settings : Settings)
    (h : Declaration.IsReordering declarations declarations')
    (hc : (History.ofDeclarations declarations).IsConsistent) :
    ofDeclarations settings declarations = ofDeclarations settings declarations' := by
  have hbuild : (Draft.ofDeclarations declarations').build (.ofSettings settings) =
      (Draft.ofDeclarations declarations).build (.ofSettings settings) := by
    rw [Draft.ofDeclarations_eq declarations', History.build_ofClauses_eq_iff]
    refine (History.agrees_of_isReordering h).verdict hc (History.build_ofClauses_eq_iff.1 ?_)
    rw [Draft.ofDeclarations_eq declarations]
  rw [ofDeclarations, ofDeclarations, hbuild]

/-- Reordered declarations make the same taxonomy or make none alike. Whether one of their clauses
is refused does not depend on the order either, and if none is, even the defects are the same. -/
theorem ofDeclarations_reordered (settings : Settings)
    (h : Declaration.IsReordering declarations declarations') :
    (∀ t, ofDeclarations settings declarations = .ok t ↔
      ofDeclarations settings declarations' = .ok t) ∧
    ((History.ofDeclarations declarations).IsConsistent ↔
      (History.ofDeclarations declarations').IsConsistent) ∧
    ((History.ofDeclarations declarations).IsConsistent →
      ofDeclarations settings declarations = ofDeclarations settings declarations') := by
  have hc := (History.agrees_of_isReordering h).isConsistent_iff
  have heq := ofDeclarations_eq_of_isReordering settings h
  refine ⟨fun t => ⟨fun ht => ?_, fun ht => ?_⟩, hc, heq⟩
  · exact heq (isConsistent_of_built ht) ▸ ht
  · exact (heq (hc.2 (isConsistent_of_built ht))).trans ht

/-- Declarations that give addition two roles in turn and two replacements. -/
def scattered : List Declaration := [
  .role [.add] .both, .replace [.add] [.sub] [], .format Operator.all [],
  .commutative [.add], .role [.add] .matchOnly, .replace [.add] [.mul] [],
  .family Operator.all ["CLASS"]]

/-- The same declarations, put together by what they are about. -/
def gathered : List Declaration := [
  .format Operator.all [], .family Operator.all ["CLASS"], .role [.add] .both,
  .role [.add] .matchOnly, .commutative [.add], .replace [.add] [.mul] [],
  .replace [.add] [.sub] []]

/-- Both orders make the same taxonomy. -/
theorem ofDeclarations_scattered : Declaration.IsReordering scattered gathered ∧
    ∃ t, ofDeclarations {} scattered = .ok t ∧ ofDeclarations {} gathered = .ok t := by
  have hr : Declaration.IsReordering scattered gathered := ⟨by decide, by decide⟩
  have hd : IsDescription gathered := by decide +kernel
  obtain ⟨t, ht⟩ := exists_ofDeclarations Settings.validate_default hd
  exact ⟨hr, t, ((ofDeclarations_reordered {} hr).1 t).2 ht, ht⟩

/-- The order of the roles counts: addition keeps the one that it is given last. -/
example : (Draft.ofDeclarations [.role [.add] .matchOnly, .role [.add] .both]).role .add = .both ∧
    (Draft.ofDeclarations [.role [.add] .both, .role [.add] .matchOnly]).role .add =
      .matchOnly := by
  decide

end Taxonomy

end MutationRules
