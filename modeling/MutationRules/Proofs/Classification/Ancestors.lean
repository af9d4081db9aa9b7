import Mathlib.Data.List.ProdSigma
import MutationRules.Proofs.Classification.Refinement
import MutationRules.Proofs.ClassPath.Ancestors
import MutationRules.Proofs.RuleName.Grammar

/-!
# Classes of all ancestors

A rule is of one class for each pair of ancestors of its two class paths. The classes are
listed by the matched ancestor and then by the replacing one, from the whole paths to their
roots, and no two of them are spelled alike. Every rule name that can be read has a class,
so no granularity is ever refused.
-/

namespace MutationRules

/-- A list of all pairs has a row for each first entry, and in it a place for each second one. -/
theorem getElem?_flatMap_map {α β γ : Type} {xs : List α} {ys : List β} {f : α → β → γ}
    {i j : Nat} {x : α} {y : β} (hx : xs[i]? = some x) (hy : ys[j]? = some y) :
    (xs.flatMap fun x => ys.map (f x))[i * ys.length + j]? = some (f x y) := by
  induction xs generalizing i with
  | nil => simp at hx
  | cons first xs ih =>
    have hj : j < (ys.map (f first)).length := by
      obtain ⟨hj, _⟩ := List.getElem?_eq_some_iff.1 hy
      simpa using hj
    rw [List.flatMap_cons]
    cases i with
    | zero =>
      obtain rfl : first = x := by simpa using hx
      rw [Nat.zero_mul, Nat.zero_add, List.getElem?_append_left hj, List.getElem?_map, hy,
        Option.map_some]
    | succ i =>
      have hplace : (i + 1) * ys.length + j = (ys.map (f first)).length + (i * ys.length + j) := by
        rw [List.length_map, Nat.succ_mul]
        omega
      rw [hplace, List.getElem?_append_right (by omega), Nat.add_sub_cancel_left]
      exact ih (by simpa using hx)

namespace ClassPath

/-- A list of the classes of all pairs of ancestors of two paths. -/
structure ListsPairs (matched replacement : ClassPath) (classes : List String) : Prop where
  /-- There is a class for each pair. -/
  length_eq : classes.length = matched.depth * replacement.depth
  /-- No two classes are spelled alike. -/
  nodup : classes.Nodup
  /-- The matched ancestors are listed by how many segments they drop, each with the replacing ones
  by how many they drop. -/
  getElem?_eq : ∀ i < matched.depth, ∀ j < replacement.depth,
    classes[i * replacement.depth + j]? = some ((matched.truncated i).pairText
      (replacement.truncated j))

variable {matched replacement : ClassPath} {classes : List String}

/-- Every pair of ancestors is listed, each once and in order. -/
theorem listsPairs (matched replacement : ClassPath) : ListsPairs matched replacement
    (matched.ancestors.flatMap fun m => replacement.ancestors.map m.pairText) := by
  have hpairs : (matched.ancestors.flatMap fun m => replacement.ancestors.map m.pairText) =
      (matched.ancestors ×ˢ replacement.ancestors).map fun pair => pair.1.pairText pair.2 := by
    simp [SProd.sprod, List.product, List.map_flatMap, Function.comp_def]
  constructor
  · rw [hpairs, List.length_map, List.length_product, length_ancestors, length_ancestors]
  · rw [hpairs]
    refine List.Nodup.map_on ?_ (matched.nodup_ancestors.product replacement.nodup_ancestors)
    intro pair hpair pair' hpair' h
    rw [List.mem_product] at hpair hpair'
    obtain ⟨hm, hr⟩ := eq_of_pairText_eq_of_startsWith (startsWith_of_mem_ancestors hpair.1)
      (startsWith_of_mem_ancestors hpair'.1) (startsWith_of_mem_ancestors hpair.2)
      (startsWith_of_mem_ancestors hpair'.2) h
    exact Prod.ext hm hr
  · intro i hi j hj
    simpa using getElem?_flatMap_map (f := pairText) (getElem?_ancestors hi)
      (getElem?_ancestors hj)

/-- The whole paths come first. -/
theorem ListsPairs.head?_eq (h : ListsPairs matched replacement classes) :
    classes.head? = some (matched.pairText replacement) := by
  have hfirst := h.getElem?_eq 0 matched.depth_pos 0 replacement.depth_pos
  rwa [Nat.zero_mul, truncated_zero, truncated_zero, ← List.head?_eq_getElem?] at hfirst

/-- The roots come last. -/
theorem ListsPairs.getLast?_eq (h : ListsPairs matched replacement classes) :
    classes.getLast? =
      some (matched.root ++ RuleName.sideSeparator.toString ++ replacement.root) := by
  have hm := matched.depth_pos
  have hr := replacement.depth_pos
  have hlast := h.getElem?_eq (matched.depth - 1) (by omega) (replacement.depth - 1) (by omega)
  have hplace : classes.length - 1 =
      (matched.depth - 1) * replacement.depth + (replacement.depth - 1) := by
    rw [h.length_eq, Nat.sub_one_mul]
    have hrow := Nat.le_mul_of_pos_left replacement.depth hm
    omega
  rw [List.getLast?_eq_getElem?, hplace, hlast, pairText, text_truncated_pred, text_truncated_pred]

/-- What is left of both paths is listed, however many segments are to be dropped. -/
theorem ListsPairs.mem (h : ListsPairs matched replacement classes) (i j : Nat) :
    (matched.truncated i).pairText (replacement.truncated j) ∈ classes := by
  obtain ⟨i', hi, hm⟩ := matched.exists_truncated_eq i
  obtain ⟨j', hj, hr⟩ := replacement.exists_truncated_eq j
  rw [hm, hr]
  exact List.mem_of_getElem? (h.getElem?_eq i' hi j' hj)

end ClassPath

namespace RuleName

/-- No fault of a name is about a granularity. -/
theorem Fault.ne_invalidLevel {name : String} {e : DecodeError} (h : Fault name e) (level : Int) :
    e ≠ .invalidLevel level := by
  have hside : ∀ {text : List Char}, SideFault name text e → e ≠ .invalidLevel level := by
    intro text hfault
    cases hfault <;> simp
  cases h with
  | division => simp
  | matched _ hfault => exact hside hfault
  | replacement _ _ hfault => exact hside hfault

theorem decode_ne_invalidLevel (name : String) (level : Int) :
    decode name ≠ .error (.invalidLevel level) := by
  intro h
  rcases spelledBy_or_fault name with ⟨n, hn⟩ | ⟨e, he⟩
  · exact nomatch hn.decode.symm.trans h
  · exact he.ne_invalidLevel level (Except.error.inj (he.decode.symm.trans h))

end RuleName

namespace Taxonomy

variable {t : Taxonomy} {name : String} {decoded : RuleName}

theorem classify_of_decode (hname : RuleName.decode name = .ok decoded) (g : Granularity) :
    t.classify name g = .ok (t.classesOf name decoded g) := by
  rw [classify, hname]
  rfl

/-- A rule name that can be read is of a class for each pair of ancestors, which are listed once
each from the whole paths to the roots, and those of two other granularities are among them. Names
that can be read have a class at every granularity and others at none, but no granularity is the
reason to refuse one. -/
theorem ancestors_classified (t : Taxonomy) (name : String) :
    (∀ decoded matched replacement, RuleName.decode name = .ok decoded →
      t.classPath decoded.matched.operator = matched →
      t.classPath decoded.replacement.operator = replacement →
      ∃ classes whole, t.classify name .allAncestors = .ok classes ∧
        ClassPath.ListsPairs matched replacement classes ∧
        t.classOf name .operator = .ok whole ∧ classes.head? = some whole ∧
        classes.getLast? =
          some (matched.root ++ RuleName.sideSeparator.toString ++ replacement.root) ∧
        ∀ g ∈ [Granularity.family, .category], ∃ label ∈ classes, t.classOf name g = .ok label) ∧
    (∀ g, (∃ label, t.classOf name g = .ok label) ↔ RuleName.Decodes name) ∧
    ∀ g level, t.classOf name g ≠ .error (.invalidLevel level) := by
  refine ⟨?_, fun g => exists_classOf_iff, fun g level h => ?_⟩
  · intro decoded matched replacement hname hm hr
    have hlists := ClassPath.listsPairs matched replacement
    have hclasses : t.classify name .allAncestors =
        .ok (matched.ancestors.flatMap fun m => replacement.ancestors.map m.pairText) := by
      rw [classify_of_decode hname, ← hm, ← hr]
      rfl
    have hwhole : t.pathsOf? decoded .operator = some (matched, replacement) := by
      rw [← hm, ← hr]
      rfl
    have hcoarse : ∀ g ∈ [Granularity.family, .category], ∃ count,
        t.pathsOf? decoded g = some (matched.truncated count, replacement.truncated count) := by
      intro g hg
      rw [← hm, ← hr]
      rcases List.mem_pair.1 hg with rfl | rfl
      · exact ⟨1, rfl⟩
      · exact ⟨2, rfl⟩
    refine ⟨_, _, hclasses, hlists, classOf_of_pathsOf? hname hwhole, hlists.head?_eq,
      hlists.getLast?_eq, fun g hg => ?_⟩
    obtain ⟨count, hpaths⟩ := hcoarse g hg
    have hlabel := classOf_of_pathsOf? hname hpaths
    exact ⟨_, hlists.mem count count, hlabel⟩
  · exact RuleName.decode_ne_invalidLevel name level (classOf_eq_error_iff.1 h)

/-- The nine classes of a deletion are told apart where segments have the characters that divide
segments and sides. -/
theorem dividedDeletion_classified : ∃ t classes matched replacement,
    ofDeclarations {} (siblings ["A!B", "C/D"]) = .ok t ∧
    RuleName.decode "STMT!DELSTMT" = .ok ⟨⟨.statement, []⟩, ⟨.deleteStatement, []⟩⟩ ∧
    t.classPath .statement = matched ∧ t.classPath .deleteStatement = replacement ∧
    t.classify "STMT!DELSTMT" .allAncestors = .ok classes ∧
    ClassPath.ListsPairs matched replacement classes ∧ classes.length = 9 ∧
    classes.head? = some "A!B/C/D/STMT!A!B/C/D/DELSTMT" ∧ classes.getLast? = some "A!B!A!B" ∧
    (∀ g ∈ [Granularity.family, .category], ∃ label ∈ classes,
      t.classOf "STMT!DELSTMT" g = .ok label) ∧
    ∃ label, t.classOf "STMT!DELSTMT" .exact = .ok label := by
  obtain ⟨t, ht, hsegments⟩ := exists_siblings (show "" ∉ ["A!B", "C/D"] by decide)
  have hname : RuleName.decode "STMT!DELSTMT" =
      .ok ⟨⟨.statement, []⟩, ⟨.deleteStatement, []⟩⟩ := by decide
  obtain ⟨hclasses, hnames, _⟩ := ancestors_classified t "STMT!DELSTMT"
  obtain ⟨classes, whole, hclassify, hlists, hwhole, hhead, hlast, hcoarse⟩ :=
    hclasses _ _ _ hname rfl rfl
  refine ⟨t, classes, _, _, ht, hname, rfl, rfl, hclassify, hlists, ?_, ?_, ?_, hcoarse,
    (hnames .exact).2 ⟨_, hname⟩⟩
  · rw [hlists.length_eq, ClassPath.depth, ClassPath.depth, hsegments, hsegments]
    rfl
  · rw [hlists.head?_eq, ClassPath.pairText, ClassPath.text, ClassPath.text, hsegments, hsegments]
    rfl
  · simp only [hlast, ClassPath.root, hsegments]
    rfl

end Taxonomy

end MutationRules
