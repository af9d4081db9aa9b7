import Mathlib.Data.List.Basic

/-!
# Texts in pieces

A text that is divided at a character is its first piece and every other piece behind
this character, and no piece has the character. Pieces can be told apart too if each has
an end behind it, or if they are written with two different characters between them that
no piece has in a row.
-/

namespace MutationRules.Text

variable {c : Char} {text first : List Char} {others : List (List Char)}

/-- No piece of a divided text has the character that divides it. -/
theorem not_mem_of_mem_splitOn {piece : List Char} (h : piece ∈ text.splitOn c) : c ∉ piece := by
  induction text generalizing piece with
  | nil =>
    obtain rfl : piece = [] := by simpa using h
    exact List.not_mem_nil
  | cons x rest ih =>
    rw [List.splitOn_cons_eq_if_modifyHead] at h
    split at h
    next =>
      rcases List.mem_cons.1 h with rfl | h
      · exact List.not_mem_nil
      · exact ih h
    next hx =>
      cases hs : rest.splitOn c with
      | nil => simp [hs] at h
      | cons first others =>
        rw [hs, List.modifyHead_cons, List.mem_cons] at h
        rcases h with rfl | h
        · have hfirst : c ∉ first := ih (hs ▸ List.mem_cons_self ..)
          rw [List.mem_cons, not_or]
          exact ⟨fun he => hx (by simp [he]), hfirst⟩
        · exact ih (hs ▸ List.mem_cons_of_mem _ h)

/-- Joined pieces are the first one and every other one behind the character that joins them. -/
theorem intercalate_cons (c : Char) (first : List Char) (others : List (List Char)) :
    [c].intercalate (first :: others) = first ++ others.flatMap (c :: ·) := by
  induction others generalizing first with
  | nil => simp
  | cons second rest ih =>
    rw [List.intercalate_cons_cons, ih second, List.flatMap_cons]
    simp only [List.append_assoc, List.cons_append, List.nil_append]

/-- The pieces of a text are those without the dividing character that make up the text. -/
theorem splitOn_eq_cons_iff : text.splitOn c = first :: others ↔
    text = first ++ others.flatMap (c :: ·) ∧ c ∉ first ∧ ∀ piece ∈ others, c ∉ piece := by
  rw [← intercalate_cons]
  constructor
  · intro h
    have hfree : ∀ piece ∈ first :: others, c ∉ piece := fun piece hp =>
      not_mem_of_mem_splitOn (h ▸ hp)
    have hjoined : [c].intercalate (text.splitOn c) = text := List.intercalate_splitOn c
    rw [h] at hjoined
    exact ⟨hjoined.symm, List.forall_mem_cons.1 hfree⟩
  · rintro ⟨rfl, hfirst, hothers⟩
    exact List.splitOn_intercalate c (List.forall_mem_cons.2 ⟨hfirst, hothers⟩) (by simp)

/-- A text has a first piece. -/
theorem exists_splitOn_eq_cons (c : Char) (text : List Char) :
    ∃ first others, text.splitOn c = first :: others :=
  List.exists_cons_of_ne_nil (List.splitOn_ne_nil c text)

/-- The dividing character stands before every piece but the first. -/
theorem count_of_splitOn (h : text.splitOn c = first :: others) :
    text.count c = others.length := by
  obtain ⟨rfl, hfirst, hothers⟩ := splitOn_eq_cons_iff.1 h
  rw [List.count_append, List.count_eq_zero_of_not_mem hfirst, Nat.zero_add]
  clear h
  induction others with
  | nil => rfl
  | cons piece rest ih =>
    obtain ⟨hpiece, hrest⟩ := List.forall_mem_cons.1 hothers
    rw [List.flatMap_cons, List.count_append, ih hrest, List.count_cons_self,
      List.count_eq_zero_of_not_mem hpiece, List.length_cons]
    omega

/-- The first piece is all that stands before the first dividing character. -/
theorem takeWhile_of_splitOn (h : text.splitOn c = first :: others) :
    text.takeWhile (· != c) = first := by
  obtain ⟨rfl, hfirst, _⟩ := splitOn_eq_cons_iff.1 h
  have hall : ∀ x ∈ first, (x != c) = true := by
    intro x hx
    rw [bne_iff_ne]
    rintro rfl
    exact hfirst hx
  rw [List.takeWhile_append_of_pos hall]
  cases others with
  | nil => simp
  | cons piece rest => simp

/-- Texts with a dividing character are equal if they are up to the first one and behind it. -/
theorem eq_of_append_cons_eq {a b x y : List Char} (ha : c ∉ a) (hb : c ∉ b)
    (h : a ++ c :: x = b ++ c :: y) : a = b ∧ x = y := by
  have hpieces := congrArg (List.splitOn c) h
  rw [List.splitOn_append_cons_self_of_not_mem ha,
    List.splitOn_append_cons_self_of_not_mem hb] at hpieces
  obtain rfl := (List.cons.inj hpieces).1
  exact ⟨rfl, (List.cons.inj (List.append_cancel_left h)).2⟩

/-- Texts are equal behind the last of the characters that divide them. -/
theorem eq_of_append_last_cons_eq {divides : Char → Bool} {d : Char} {a b x y : List Char}
    (hc : divides c = true) (hd : divides d = true) (hx : ∀ z ∈ x, divides z = false)
    (hy : ∀ z ∈ y, divides z = false) (h : a ++ c :: x = b ++ d :: y) : x = y := by
  have hlast : ∀ {e : Char} {front back : List Char}, divides e = true →
      (∀ z ∈ back, divides z = false) →
        (front ++ e :: back).reverse.takeWhile (!divides ·) = back.reverse := by
    intro e front back he hback
    have hall : ∀ z ∈ back.reverse, (!divides z) = true := fun z hz => by
      simp [hback z (List.mem_reverse.1 hz)]
    rw [List.reverse_append, List.reverse_cons, List.append_assoc,
      List.takeWhile_append_of_pos hall]
    simp [he]
  apply List.reverse_injective
  rw [← hlast hc hx, ← hlast hd hy, h]

/-! ## An end behind each piece -/

variable {pieces : List (List Char)}

/-- A text of pieces with their ends is divided into the pieces if none has an end inside. -/
theorem splitOn_flatMap_concat_iff :
    (pieces.flatMap fun piece => piece ++ [c]).splitOn c = pieces ++ [[]] ↔
      ∀ piece ∈ pieces, c ∉ piece := by
  constructor
  · intro h piece hp
    exact not_mem_of_mem_splitOn (h ▸ List.mem_append_left _ hp)
  · intro h
    induction pieces with
    | nil => simp
    | cons piece rest ih =>
      obtain ⟨hpiece, hrest⟩ := List.forall_mem_cons.1 h
      rw [List.flatMap_cons, List.append_assoc, List.singleton_append,
        List.splitOn_append_cons_self_of_not_mem hpiece, ih hrest]
      rfl

/-- Pieces without their end inside are told apart by the text of the pieces with their ends. -/
theorem eq_of_flatMap_concat_eq {as bs : List (List Char)} (ha : ∀ a ∈ as, c ∉ a)
    (hb : ∀ b ∈ bs, c ∉ b)
    (h : (as.flatMap fun a => a ++ [c]) = bs.flatMap fun b => b ++ [c]) : as = bs := by
  have hpieces := congrArg (List.splitOn c) h
  rw [splitOn_flatMap_concat_iff.2 ha, splitOn_flatMap_concat_iff.2 hb] at hpieces
  exact List.append_cancel_right hpieces

/-! ## Two characters between the pieces -/

variable {d : Char}

/-- A text in which two characters do not follow each other ends where they first do. -/
theorem eq_of_append_pair_eq (hcd : c ≠ d) {a b x y : List Char} (ha : ¬ [c, d] <:+: a)
    (hb : ¬ [c, d] <:+: b) (h : a ++ c :: d :: x = b ++ c :: d :: y) : a = b ∧ x = y := by
  -- a longer text would have the two characters behind the shorter one
  have hlonger : ∀ {s t u v : List Char}, ¬ [c, d] <:+: s ++ t →
      c :: d :: u = t ++ c :: d :: v → t = [] := by
    intro s t u v hs he
    rcases t with _ | ⟨t₁, _ | ⟨t₂, t⟩⟩
    · rfl
    · simp only [List.cons_append, List.nil_append, List.cons.injEq] at he
      exact absurd he.2.1.symm hcd
    · simp only [List.cons_append, List.cons.injEq] at he
      obtain ⟨rfl, rfl, _⟩ := he
      exact absurd ⟨s, t, by simp⟩ hs
  rcases List.append_eq_append_iff.1 h with ⟨between, rfl, he⟩ | ⟨between, rfl, he⟩
  · obtain rfl := hlonger hb he
    simpa using he
  · obtain rfl := hlonger ha he
    simpa [eq_comm] using he

/-- Equally many pieces are told apart by the text that they are joined to. -/
theorem eq_of_intercalate_pair_eq (hcd : c ≠ d) {as bs : List (List Char)}
    (hlength : as.length = bs.length) (ha : ∀ a ∈ as, ¬ [c, d] <:+: a)
    (hb : ∀ b ∈ bs, ¬ [c, d] <:+: b) (h : [c, d].intercalate as = [c, d].intercalate bs) :
    as = bs := by
  induction as generalizing bs with
  | nil => exact (List.length_eq_zero_iff.1 hlength.symm).symm
  | cons a as ih =>
    rcases bs with _ | ⟨b, bs⟩
    · simp at hlength
    rw [List.forall_mem_cons] at ha hb
    have htail : as.length = bs.length := Nat.succ.inj hlength
    rcases as with _ | ⟨a', as⟩ <;> rcases bs with _ | ⟨b', bs⟩
    · simpa using h
    · simp at htail
    · simp at htail
    · simp only [List.intercalate_cons_cons, List.append_assoc, List.cons_append,
        List.nil_append] at h
      obtain ⟨rfl, hrest⟩ := eq_of_append_pair_eq hcd ha.1 hb.1 h
      rw [ih htail ha.2 hb.2 hrest]

/-- Two characters in a row are not split by what has none of them. -/
theorem infix_of_infix_append {a b : List Char} (hb : d ∉ b) (h : [c, d] <:+: a ++ b) :
    [c, d] <:+: a := by
  obtain ⟨before, after, h⟩ := h
  rcases List.append_eq_append_iff.1 h with ⟨between, rfl, _⟩ | ⟨between, hbetween, rfl⟩
  · exact ⟨before, between, rfl⟩
  · rcases List.eq_nil_or_concat' between with rfl | ⟨front, last, rfl⟩
    · exact ⟨before, [], by simpa using hbetween⟩
    · have hlast := congrArg List.getLast? hbetween
      rw [← List.append_assoc, List.getLast?_concat, List.getLast?_append] at hlast
      obtain rfl : d = last := by simpa using hlast
      exact absurd (by simp) hb

end MutationRules.Text
