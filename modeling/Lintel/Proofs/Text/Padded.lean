import Mathlib.Data.List.Chain
import Mathlib.Data.List.Forall2
import Mathlib.Data.List.TakeWhile
import Lintel.Proofs.Text.Pairs

/-!
# Laws of padding

Padding is what trimming takes away. Padding the pieces between doubled separators neither makes a
pair nor takes one apart, if no separator is put in: the padded pieces, joined again, are cut where
the list was cut. Padding a list as a whole pads its first piece in front and its last one behind.
-/
namespace Lintel.Text

variable {α : Type}

/-- The list with elements that satisfy `p` at either end. -/
def Padded (p : α → Bool) (as padded : List α) : Prop :=
  ∃ u w, (∀ a ∈ u, p a = true) ∧ (∀ a ∈ w, p a = true) ∧ padded = u ++ as ++ w

section Trimming

variable {p : α → Bool} {as padded u w : List α}

theorem dropEnd_append (hw : ∀ a ∈ w, p a = true) (as : List α) :
    dropEnd p (as ++ w) = dropEnd p as := by
  rw [dropEnd, List.reverse_append, List.dropWhile_append_of_pos (by simpa using hw), dropEnd]

theorem Padded.trimBoth_eq (h : Padded p as padded) : trimBoth p padded = trimBoth p as := by
  obtain ⟨u, w, hu, hw, rfl⟩ := h
  rw [trimBoth, List.append_assoc, List.dropWhile_append_of_pos hu, List.dropWhile_append, trimBoth]
  split
  · rename_i hempty
    rw [List.isEmpty_iff.1 hempty, List.dropWhile_eq_nil_iff.2 hw]
  · rw [dropEnd_append hw]

theorem padded_trimBoth (p : α → Bool) (as : List α) : Padded p (trimBoth p as) as := by
  refine ⟨as.takeWhile p, ((as.dropWhile p).reverse.takeWhile p).reverse, fun a ha => ?_,
    fun a ha => ?_, ?_⟩
  · exact List.mem_takeWhile_imp ha
  · exact List.mem_takeWhile_imp (List.mem_reverse.1 ha)
  · rw [trimBoth, dropEnd, List.append_assoc, ← List.reverse_append,
      List.takeWhile_append_dropWhile, List.reverse_reverse, List.takeWhile_append_dropWhile]

theorem trimBoth_trimBoth (p : α → Bool) (as : List α) :
    trimBoth p (trimBoth p as) = trimBoth p as :=
  (padded_trimBoth p as).trimBoth_eq.symm

theorem exists_padded_intercalate (hu : ∀ a ∈ u, p a = true) (hw : ∀ a ∈ w, p a = true)
    (sep : List α) {qs : List (List α)} (hqs : qs ≠ []) :
    ∃ rs, List.Forall₂ (Padded p) qs rs ∧
      sep.intercalate rs = u ++ sep.intercalate qs ++ w := by
  induction qs generalizing u with
  | nil => exact absurd rfl hqs
  | cons q qs ih =>
    cases qs with
    | nil => exact ⟨[u ++ q ++ w], .cons ⟨u, w, hu, hw, rfl⟩ .nil, by simp⟩
    | cons q' qs =>
      obtain ⟨rs, hrs, hjoined⟩ := ih (List.forall_mem_nil _) (List.cons_ne_nil q' qs)
      obtain ⟨r, rs, rfl⟩ := List.exists_cons_of_ne_nil fun h : rs = [] => by
        rw [h] at hrs
        cases hrs
      refine ⟨(u ++ q) :: r :: rs, .cons ⟨u, [], hu, List.forall_mem_nil _, by simp⟩ hrs, ?_⟩
      rw [List.intercalate_cons_cons, hjoined, List.intercalate_cons_cons]
      simp

end Trimming

section Pairs

variable {p : α → Bool} {x : α} {as q r : List α} {qs rs : List (List α)}

def Unpaired (x : α) (as : List α) : Prop := as.IsChain fun a b => ¬ (a = x ∧ b = x)

theorem unpaired_of_notMem (h : x ∉ as) : Unpaired x as := by
  induction as with
  | nil => exact .nil
  | cons a as ih =>
    rw [List.mem_cons, not_or] at h
    exact (ih h.2).cons fun b _ hpair => h.1 hpair.1.symm

/-- Pieces that stay apart when they are joined: there is no pair in them, and only the last may end
in a separator. -/
inductive Separable (x : α) : List (List α) → Prop
  | last {q : List α} (hq : Unpaired x q) : Separable x [q]
  | cons {q : List α} {qs : List (List α)} (hq : Unpaired x q) (hend : q.getLast? ≠ some x)
      (hqs : Separable x qs) : Separable x (q :: qs)

theorem Separable.ne_nil (h : Separable x qs) : qs ≠ [] := by
  cases h <;> simp

/-! ## Padding keeps pieces apart -/

theorem notMem_of_forall (hp : p x = false) (h : ∀ a ∈ as, p a = true) : x ∉ as := by
  intro hx
  rw [h x hx] at hp
  cases hp

theorem Unpaired.padded (hp : p x = false) (hq : Unpaired x q) (h : Padded p q r) :
    Unpaired x r := by
  obtain ⟨u, w, hu, hw, rfl⟩ := h
  have hxu := notMem_of_forall hp hu
  have hxw := notMem_of_forall hp hw
  have hfront : Unpaired x (u ++ q) := by
    refine (unpaired_of_notMem hxu).append hq fun b hb _ _ hpair => hxu ?_
    exact hpair.1 ▸ List.mem_of_getLast? hb
  refine hfront.append (unpaired_of_notMem hxw) fun _ _ b hb hpair => hxw ?_
  exact hpair.2 ▸ List.mem_of_head? hb

theorem getLast?_ne_of_padded (hp : p x = false) (hq : q.getLast? ≠ some x) (h : Padded p q r) :
    r.getLast? ≠ some x := by
  obtain ⟨u, w, hu, hw, rfl⟩ := h
  intro hlast
  rw [List.getLast?_append, List.getLast?_append, Option.or_eq_some_iff,
    Option.or_eq_some_iff] at hlast
  rcases hlast with hlast | ⟨-, hlast | ⟨-, hlast⟩⟩
  · exact notMem_of_forall hp hw (List.mem_of_getLast? hlast)
  · exact hq hlast
  · exact notMem_of_forall hp hu (List.mem_of_getLast? hlast)

theorem Separable.padded (hp : p x = false) (hqs : Separable x qs)
    (h : List.Forall₂ (Padded p) qs rs) : Separable x rs := by
  induction hqs generalizing rs with
  | last hq =>
    cases h with
    | cons hqr hnil =>
      cases hnil
      exact .last (hq.padded hp hqr)
  | cons hq hend _ ih =>
    cases h with
    | cons hqr hrest =>
      exact .cons (hq.padded hp hqr) (getLast?_ne_of_padded hp hend hqr) (ih hrest)

/-! ## Cutting and joining -/

variable [DecidableEq α]

theorem Unpaired.piecesAtPair_eq (h : Unpaired x as) : piecesAtPair x x as = [as] := by
  induction as with
  | nil => rfl
  | cons a as ih =>
    have hsingle : ¬ (a = x ∧ as.head? = some x) := fun hpair =>
      h.rel_head? (Option.mem_def.2 hpair.2) ⟨hpair.1, rfl⟩
    rw [piecesAtPair_cons hsingle, ih h.tail]
    rfl

theorem Separable.piecesAtPair_intercalate (h : Separable x qs) :
    piecesAtPair x x ([x, x].intercalate qs) = qs := by
  induction h with
  | last hq => rw [List.intercalate_singleton, hq.piecesAtPair_eq]
  | @cons q qs hq hend hqs ih =>
    obtain ⟨r, rs, rfl⟩ := List.exists_cons_of_ne_nil hqs.ne_nil
    rw [List.intercalate_cons_cons, List.append_assoc, List.cons_append, List.cons_append,
      List.nil_append, piecesAtPair_append (not_endsLone_of_getLast? hend), hq.piecesAtPair_eq, ih,
      List.singleton_append]

theorem intercalate_piecesAtPair (x : α) (as : List α) :
    [x, x].intercalate (piecesAtPair x x as) = as := by
  induction as using pairInduction x with
  | nil => rfl
  | pair as ih =>
    obtain ⟨q, qs, hcut⟩ := List.exists_cons_of_ne_nil (piecesAtPair_ne_nil x x as)
    rw [piecesAtPair_pair]
    rw [hcut] at ih ⊢
    rw [List.intercalate_cons_cons, ih]
    rfl
  | cons a as hsingle ih =>
    obtain ⟨q, qs, hcut⟩ := List.exists_cons_of_ne_nil (piecesAtPair_ne_nil x x as)
    rw [piecesAtPair_cons hsingle]
    rw [hcut] at ih ⊢
    cases qs with
    | nil =>
      rw [List.intercalate_singleton] at ih
      rw [List.modifyHead_cons, List.intercalate_singleton, ih]
    | cons r qs =>
      rw [List.intercalate_cons_cons] at ih
      rw [List.modifyHead_cons, List.intercalate_cons_cons, List.cons_append, List.cons_append, ih]

theorem head?_of_piecesAtPair (hcut : piecesAtPair x x as = q :: qs)
    (h : q.head? = some x ∨ (q = [] ∧ qs ≠ [])) : as.head? = some x := by
  have hjoined := intercalate_piecesAtPair x as
  rw [hcut] at hjoined
  cases qs with
  | nil =>
    rw [List.intercalate_singleton] at hjoined
    exact hjoined ▸ h.resolve_right fun hempty => hempty.2 rfl
  | cons r qs =>
    rw [List.intercalate_cons_cons] at hjoined
    rw [← hjoined, List.append_assoc, List.head?_append]
    rcases h with hhead | ⟨rfl, -⟩
    · rw [hhead, Option.some_or]
    · rfl

theorem separable_piecesAtPair (x : α) (as : List α) : Separable x (piecesAtPair x x as) := by
  induction as using pairInduction x with
  | nil => exact .last .nil
  | pair as ih =>
    rw [piecesAtPair_pair]
    exact .cons .nil (by simp) ih
  | cons a as hsingle ih =>
    obtain ⟨q, qs, hcut⟩ := List.exists_cons_of_ne_nil (piecesAtPair_ne_nil x x as)
    rw [piecesAtPair_cons hsingle, hcut, List.modifyHead_cons]
    rw [hcut] at ih
    have hunpaired (hq : Unpaired x q) : Unpaired x (a :: q) := by
      refine hq.cons fun b hb hpair => hsingle ⟨hpair.1, ?_⟩
      exact head?_of_piecesAtPair hcut (.inl (hpair.2 ▸ hb))
    cases ih with
    | last hq => exact .last (hunpaired hq)
    | cons hq hend hqs =>
      refine .cons (hunpaired hq) ?_ hqs
      cases q with
      | nil =>
        intro hlast
        have ha : a = x := by simpa using hlast
        exact hsingle ⟨ha, head?_of_piecesAtPair hcut (.inr ⟨rfl, hqs.ne_nil⟩)⟩
      | cons b q => rwa [List.getLast?_cons_cons]

theorem piecesAtPair_padded (hp : p x = false)
    (h : List.Forall₂ (Padded p) (piecesAtPair x x as) rs) :
    piecesAtPair x x ([x, x].intercalate rs) = rs :=
  ((separable_piecesAtPair x as).padded hp h).piecesAtPair_intercalate

end Pairs

end Lintel.Text
