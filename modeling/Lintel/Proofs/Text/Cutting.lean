import Mathlib.Data.List.TakeDrop
import Lintel.Text.Pieces

/-!
# Laws of cutting

`pieces` is the library's cut at every element that satisfies a test, so what is known of that cut
holds here. No piece holds a separator, and a list of pieces without separators is found again in
what joins them.
-/
namespace Lintel.Text

variable {α : Type}

theorem pieces_cons_sep {p : α → Bool} {a : α} (ha : p a = true) (as : List α) :
    pieces p (a :: as) = [] :: pieces p as := by
  rw [pieces, if_pos ha]

theorem pieces_cons_of_not_sep {p : α → Bool} {a : α} (ha : p a = false) (as : List α) :
    pieces p (a :: as) = (pieces p as).modifyHead (a :: ·) := by
  rw [pieces, if_neg (by simp [ha])]
  obtain ⟨q, qs, hcut⟩ := List.exists_cons_of_ne_nil (pieces_ne_nil p as)
  rw [hcut]
  rfl

theorem pieces_eq_splitOnP (p : α → Bool) (as : List α) : pieces p as = as.splitOnP p := by
  induction as with
  | nil => rfl
  | cons a as ih =>
    rw [List.splitOnP_cons_eq_if_modifyHead, ← ih]
    cases ha : p a with
    | true => rw [pieces_cons_sep ha, if_pos rfl]
    | false => rw [pieces_cons_of_not_sep ha, if_neg (by simp)]

theorem pieces_append_sep {p : α → Bool} {a : α} (ha : p a = true) (as bs : List α) :
    pieces p (as ++ a :: bs) = pieces p as ++ pieces p bs := by
  simp only [pieces_eq_splitOnP, List.splitOnP_append_cons as bs ha]

theorem pieces_of_no_sep {p : α → Bool} {as : List α} (h : ∀ a ∈ as, p a = false) :
    pieces p as = [as] := by
  rw [pieces_eq_splitOnP, List.splitOnP_eq_singleton h]

theorem pieces_append_of_no_sep {p : α → Bool} {as : List α} (h : ∀ a ∈ as, p a = false)
    (bs : List α) : pieces p (as ++ bs) = (pieces p bs).modifyHead (as ++ ·) := by
  induction as with
  | nil =>
    obtain ⟨q, qs, hcut⟩ := List.exists_cons_of_ne_nil (pieces_ne_nil p bs)
    simp [hcut]
  | cons a as ih =>
    rw [List.forall_mem_cons] at h
    rw [List.cons_append, pieces_cons_of_not_sep h.1, ih h.2, List.modifyHead_modifyHead]
    rfl

theorem pieces_intercalate [BEq α] [LawfulBEq α] {a : α} {parts : List (List α)}
    (hparts : ∀ q ∈ parts, a ∉ q) (hne : parts ≠ []) :
    pieces (· == a) ([a].intercalate parts) = parts := by
  rw [pieces_eq_splitOnP, ← List.splitOn_eq_splitOnP, List.splitOn_intercalate a hparts hne]

theorem intercalate_pieces [BEq α] [LawfulBEq α] (a : α) (as : List α) :
    [a].intercalate (pieces (· == a) as) = as := by
  rw [pieces_eq_splitOnP, ← List.splitOn_eq_splitOnP, List.intercalate_splitOn]

theorem length_pieces [BEq α] [LawfulBEq α] (a : α) (as : List α) :
    (pieces (· == a) as).length = as.count a + 1 := by
  induction as with
  | nil => rfl
  | cons b as ih =>
    by_cases hb : b = a
    · rw [pieces_cons_sep (by simp [hb]), List.length_cons, ih, hb, List.count_cons_self]
    · rw [pieces_cons_of_not_sep (by simp [hb]), List.length_modifyHead, ih,
        List.count_cons_of_ne hb]

theorem intercalate_append (a : α) {qs rs : List (List α)} (hqs : qs ≠ []) (hrs : rs ≠ []) :
    [a].intercalate (qs ++ rs) = [a].intercalate qs ++ a :: [a].intercalate rs := by
  induction qs with
  | nil => exact absurd rfl hqs
  | cons q qs ih =>
    by_cases hnil : qs = []
    · simp [hnil, List.intercalate_cons_of_ne_nil hrs]
    · rw [List.cons_append, List.intercalate_cons_of_ne_nil (by simp [hnil]), ih hnil,
        List.intercalate_cons_of_ne_nil hnil]
      simp

theorem intercalate_cons_eq_append (a : α) (q : List α) (qs : List (List α)) :
    ∃ tail, [a].intercalate (q :: qs) = q ++ tail := by
  cases qs with
  | nil => exact ⟨[], by simp⟩
  | cons r rs => exact ⟨[a] ++ [a].intercalate (r :: rs), by simp⟩

theorem mem_intercalate {a b : α} {parts : List (List α)} (h : b ∈ [a].intercalate parts) :
    b = a ∨ ∃ q ∈ parts, b ∈ q := by
  induction parts with
  | nil => cases h
  | cons q parts ih =>
    cases parts with
    | nil => exact .inr ⟨q, List.mem_cons_self .., by simpa using h⟩
    | cons r parts =>
      rw [List.intercalate_cons_cons, List.append_assoc, List.mem_append] at h
      rcases h with hq | hrest
      · exact .inr ⟨q, List.mem_cons_self .., hq⟩
      · rcases List.mem_cons.1 hrest with rfl | hrest
        · exact .inl rfl
        · rcases ih hrest with heq | ⟨s, hs, hmem⟩
          · exact .inl heq
          · exact .inr ⟨s, List.mem_cons_of_mem _ hs, hmem⟩

theorem mem_pieces_cons {p : α → Bool} {b : α} {as q : List α} (hq : q ∈ pieces p (b :: as)) :
    q ∈ pieces p as ∨ q = [] ∨ p b = false ∧ ∃ r ∈ pieces p as, q = b :: r := by
  cases hb : p b with
  | true =>
    rw [pieces_cons_sep hb] at hq
    rcases List.mem_cons.1 hq with hq | hq
    · exact .inr (.inl hq)
    · exact .inl hq
  | false =>
    obtain ⟨r, rs, hcut⟩ := List.exists_cons_of_ne_nil (pieces_ne_nil p as)
    rw [pieces_cons_of_not_sep hb, hcut] at hq
    rcases List.mem_cons.1 hq with hq | hq
    · exact .inr (.inr ⟨rfl, r, hcut ▸ List.mem_cons_self .., hq⟩)
    · exact .inl (hcut ▸ List.mem_cons_of_mem _ hq)

theorem no_sep_of_mem_pieces {p : α → Bool} {as q : List α} (hq : q ∈ pieces p as) :
    ∀ a ∈ q, p a = false := by
  induction as generalizing q with
  | nil =>
    rw [List.mem_singleton.1 hq]
    simp
  | cons b as ih =>
    rcases mem_pieces_cons hq with hq | hq | ⟨hb, r, hr, hq⟩
    · exact ih hq
    · simp [hq]
    · rw [hq]
      exact List.forall_mem_cons.2 ⟨hb, ih hr⟩

theorem mem_of_mem_pieces {p : α → Bool} {as q : List α} {a : α} (hq : q ∈ pieces p as)
    (ha : a ∈ q) : a ∈ as := by
  induction as generalizing q with
  | nil =>
    rw [List.mem_singleton.1 hq] at ha
    cases ha
  | cons b as ih =>
    rcases mem_pieces_cons hq with hq | hq | ⟨-, r, hr, hq⟩
    · exact List.mem_cons_of_mem _ (ih hq ha)
    · rw [hq] at ha
      cases ha
    · rw [hq] at ha
      rcases List.mem_cons.1 ha with ha | ha
      · rw [ha]
        exact List.mem_cons_self ..
      · exact List.mem_cons_of_mem _ (ih hr ha)

theorem infix_of_mem_pieces [BEq α] [LawfulBEq α] {a : α} {as q : List α}
    (hq : q ∈ pieces (· == a) as) : q <:+: as := by
  obtain ⟨before, after, hcut⟩ := List.append_of_mem hq
  obtain ⟨tail, htail⟩ := intercalate_cons_eq_append a q after
  rw [← intercalate_pieces a as, hcut]
  by_cases hnil : before = []
  · rw [hnil, List.nil_append, htail]
    exact (List.prefix_append q tail).isInfix
  · rw [intercalate_append a hnil (by simp), htail]
    exact ⟨[a].intercalate before ++ [a], tail, by simp⟩

theorem exists_piece_of_mem {p : α → Bool} {as : List α} {a : α} (hmem : a ∈ as)
    (ha : p a = false) : ∃ q ∈ pieces p as, a ∈ q := by
  induction as with
  | nil => cases hmem
  | cons b as ih =>
    cases hb : p b with
    | true =>
      have hne : a ≠ b := by
        intro h
        rw [h, hb] at ha
        cases ha
      obtain ⟨q, hq, hin⟩ := ih (List.mem_of_ne_of_mem hne hmem)
      rw [pieces_cons_sep hb]
      exact ⟨q, List.mem_cons_of_mem _ hq, hin⟩
    | false =>
      obtain ⟨r, rs, hcut⟩ := List.exists_cons_of_ne_nil (pieces_ne_nil p as)
      rw [pieces_cons_of_not_sep hb, hcut]
      rw [hcut] at ih
      rcases List.mem_cons.1 hmem with heq | hmem
      · rw [heq]
        exact ⟨b :: r, List.mem_cons_self .., List.mem_cons_self ..⟩
      · obtain ⟨q, hq, hin⟩ := ih hmem
        rcases List.mem_cons.1 hq with heq | hq
        · exact ⟨b :: r, List.mem_cons_self .., List.mem_cons_of_mem _ (heq ▸ hin)⟩
        · exact ⟨q, List.mem_cons_of_mem _ hq, hin⟩

theorem exists_piece_of_infix {p : α → Bool} {w as : List α} (hw : ∀ a ∈ w, p a = false)
    (h : w <:+: as) : ∃ q ∈ pieces p as, w <:+: q := by
  obtain ⟨before, after, rfl⟩ := h
  induction before with
  | nil =>
    obtain ⟨q, qs, hcut⟩ := List.exists_cons_of_ne_nil (pieces_ne_nil p after)
    refine ⟨w ++ q, ?_, ⟨[], q, rfl⟩⟩
    rw [List.nil_append, pieces_append_of_no_sep hw, hcut]
    exact List.mem_cons_self ..
  | cons b before ih =>
    obtain ⟨q, hq, hin⟩ := ih
    rw [List.cons_append, List.cons_append]
    cases hb : p b with
    | true =>
      rw [pieces_cons_sep hb]
      exact ⟨q, List.mem_cons_of_mem _ hq, hin⟩
    | false =>
      obtain ⟨r, rs, hcut⟩ := List.exists_cons_of_ne_nil (pieces_ne_nil p (before ++ w ++ after))
      rw [pieces_cons_of_not_sep hb, hcut]
      rw [hcut] at hq
      rcases List.mem_cons.1 hq with rfl | hq
      · exact ⟨b :: q, List.mem_cons_self .., hin.trans (List.suffix_cons b q).isInfix⟩
      · exact ⟨q, List.mem_cons_of_mem _ hq, hin⟩

theorem dropPrefix?_eq_some_iff [DecidableEq α] {w as rest : List α} :
    dropPrefix? w as = some rest ↔ as = w ++ rest := by
  induction w generalizing as with
  | nil => simp [dropPrefix?, eq_comm]
  | cons b w ih =>
    cases as with
    | nil => simp [dropPrefix?]
    | cons c as =>
      by_cases hbc : b = c
      · simp [dropPrefix?, hbc, ih]
      · simp [dropPrefix?, hbc, Ne.symm hbc]

theorem dropPrefix?_eq_none_iff [DecidableEq α] {w as : List α} :
    dropPrefix? w as = none ↔ ¬ w <+: as := by
  rw [Option.eq_none_iff_forall_ne_some, List.IsPrefix, not_exists]
  exact forall_congr' fun rest => not_congr (dropPrefix?_eq_some_iff.trans eq_comm)

section Stops

/-- The list is empty or starts with an element that fails `p`. -/
def Stops (p : α → Bool) (as : List α) : Prop := ∀ a, as.head? = some a → p a = false

variable {p : α → Bool} {v w : List α}

instance (p : α → Bool) (as : List α) : Decidable (Stops p as) :=
  decidable_of_iff (∀ a ∈ as.head?, p a = false) Iff.rfl

theorem stops_nil : Stops p ([] : List α) := by
  intro a ha
  cases ha

theorem stops_cons {a : α} : Stops p (a :: w) ↔ p a = false := by
  simp [Stops]

theorem takeWhile_append_stop (hv : ∀ a ∈ v, p a = true) (hw : Stops p w) :
    (v ++ w).takeWhile p = v := by
  rw [List.takeWhile_append_of_pos hv]
  cases w with
  | nil => simp
  | cons a w => rw [List.takeWhile_cons_of_neg (by simp [stops_cons.1 hw]), List.append_nil]

theorem dropWhile_append_stop (hv : ∀ a ∈ v, p a = true) (hw : Stops p w) :
    (v ++ w).dropWhile p = w := by
  rw [List.dropWhile_append_of_pos hv]
  cases w with
  | nil => rfl
  | cons a w => rw [List.dropWhile_cons_of_neg (by simp [stops_cons.1 hw])]

theorem span_append_stop (hv : ∀ a ∈ v, p a = true) (hw : Stops p w) :
    (v ++ w).span p = (v, w) := by
  rw [List.span_eq_takeWhile_dropWhile, takeWhile_append_stop hv hw, dropWhile_append_stop hv hw]

theorem takeWhile_append_cons {a : α} (ha : p a = false) (as bs : List α) :
    (as ++ a :: bs).takeWhile p = as.takeWhile p := by
  induction as with
  | nil => simp [ha]
  | cons b as ih => rw [List.cons_append, List.takeWhile_cons, List.takeWhile_cons, ih]

theorem dropWhile_append_cons {a : α} (ha : p a = false) (as bs : List α) :
    (as ++ a :: bs).dropWhile p = as.dropWhile p ++ a :: bs := by
  induction as with
  | nil => simp [ha]
  | cons b as ih =>
    rw [List.cons_append, List.dropWhile_cons, List.dropWhile_cons, ih]
    split <;> rfl

theorem stops_dropWhile (as : List α) : Stops p (as.dropWhile p) := by
  intro a ha
  have h := List.head?_dropWhile_not p as
  rw [ha] at h
  exact h

theorem prefix_dropEnd (as : List α) : dropEnd p as <+: as := by
  rw [dropEnd, ← List.reverse_suffix, List.reverse_reverse]
  exact List.dropWhile_suffix p

theorem Stops.of_isPrefix (hw : Stops p w) (h : v <+: w) : Stops p v := by
  intro a ha
  obtain ⟨rest, rfl⟩ := h
  exact hw a (by rw [List.head?_append, ha, Option.some_or])

theorem stops_trimBoth (as : List α) : Stops p (trimBoth p as) :=
  (stops_dropWhile as).of_isPrefix (prefix_dropEnd _)

end Stops

end Lintel.Text
