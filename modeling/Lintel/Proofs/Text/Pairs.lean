import Lintel.Proofs.Text.Cutting

/-!
# Laws of cutting at doubled separators

Separators pair up from the left, so a list is taken apart the way it is read: a pair ends a piece,
and an element that starts no pair goes to the front of the piece behind it. An odd separator can be
left over at the end of a list. If it is, then it takes the first half of a pair that is put behind
it, and the second half is what the next piece starts with.
-/
namespace Lintel.Text

variable {α : Type} [DecidableEq α] {x y a : α} {as : List α}

theorem piecesAtPair_pair (x y : α) (as : List α) :
    piecesAtPair x y (x :: y :: as) = [] :: piecesAtPair x y as := by
  rw [piecesAtPair, if_pos ⟨rfl, rfl⟩]

theorem piecesAtPair_ne_nil (x y : α) (as : List α) : piecesAtPair x y as ≠ [] := by
  fun_cases piecesAtPair x y as <;> simp_all

theorem piecesAtPair_cons (h : ¬ (a = x ∧ as.head? = some y)) :
    piecesAtPair x y (a :: as) = (piecesAtPair x y as).modifyHead (a :: ·) := by
  cases as with
  | nil => rfl
  | cons b as =>
    rw [List.head?_cons, Option.some.injEq] at h
    rw [piecesAtPair, if_neg h]
    obtain ⟨q, qs, hcut⟩ := List.exists_cons_of_ne_nil (piecesAtPair_ne_nil x y (b :: as))
    rw [hcut]
    rfl

theorem piecesAtPair_of_notMem (h : x ∉ as) : piecesAtPair x y as = [as] := by
  induction as with
  | nil => rfl
  | cons a as ih =>
    rw [List.mem_cons, not_or] at h
    rw [piecesAtPair_cons fun hpair => h.1 hpair.1.symm, ih h.2]
    rfl

/-- A list is built the way it is cut: from pairs and from elements that start no pair. -/
@[elab_as_elim]
theorem pairInduction {P : List α → Prop} (x : α) (nil : P [])
    (pair : ∀ as, P as → P (x :: x :: as))
    (cons : ∀ a as, ¬ (a = x ∧ as.head? = some x) → P as → P (a :: as)) : ∀ as, P as
  | [] => nil
  | [a] => cons a [] (by simp) nil
  | a :: b :: as => by
    by_cases h : a = x ∧ b = x
    · obtain ⟨rfl, rfl⟩ := h
      exact pair as (pairInduction b nil pair cons as)
    · exact cons a (b :: as) (by simpa using h) (pairInduction x nil pair cons (b :: as))

/-- The last piece ends in a separator that found no partner. -/
def EndsLone (x : α) (as : List α) : Prop :=
  (piecesAtPair x x as).getLast?.bind List.getLast? = some x

instance (x : α) (as : List α) : Decidable (EndsLone x as) :=
  inferInstanceAs (Decidable (_ = some x))

theorem not_endsLone_nil : ¬ EndsLone x [] := by
  intro h
  cases h

theorem endsLone_pair : EndsLone x (x :: x :: as) ↔ EndsLone x as := by
  obtain ⟨q, qs, hcut⟩ := List.exists_cons_of_ne_nil (piecesAtPair_ne_nil x x as)
  rw [EndsLone, EndsLone, piecesAtPair_pair, hcut, List.getLast?_cons_cons]

theorem eq_nil_of_piecesAtPair (h : piecesAtPair x x as = [[]]) : as = [] := by
  induction as using pairInduction x with
  | nil => rfl
  | pair as _ =>
    rw [piecesAtPair_pair] at h
    exact absurd (List.cons.inj h).2 (piecesAtPair_ne_nil x x as)
  | cons a as hsingle _ =>
    obtain ⟨q, qs, hcut⟩ := List.exists_cons_of_ne_nil (piecesAtPair_ne_nil x x as)
    rw [piecesAtPair_cons hsingle, hcut] at h
    cases h

theorem endsLone_cons (h : ¬ (a = x ∧ as.head? = some x)) :
    EndsLone x (a :: as) ↔ (as = [] ∧ a = x) ∨ EndsLone x as := by
  obtain ⟨q, qs, hcut⟩ := List.exists_cons_of_ne_nil (piecesAtPair_ne_nil x x as)
  rw [EndsLone, EndsLone, piecesAtPair_cons h, hcut]
  cases qs with
  | cons r qs =>
    have hne : as ≠ [] := by
      rintro rfl
      cases hcut
    simp [hne]
  | nil =>
    cases q with
    | nil =>
      rw [eq_nil_of_piecesAtPair hcut]
      simp
    | cons b q =>
      have hne : as ≠ [] := by
        rintro rfl
        cases hcut
      simp [hne]

theorem piecesAtPair_append (h : ¬ EndsLone x as) (bs : List α) :
    piecesAtPair x x (as ++ x :: x :: bs) = piecesAtPair x x as ++ piecesAtPair x x bs := by
  induction as using pairInduction x with
  | nil => exact piecesAtPair_pair x x bs
  | pair as ih =>
    rw [List.cons_append, List.cons_append, piecesAtPair_pair, piecesAtPair_pair,
      ih (mt endsLone_pair.2 h), List.cons_append]
  | cons a as hsingle ih =>
    rw [endsLone_cons hsingle, not_or] at h
    -- The seam makes no new pair, since `a` is not left over at the end.
    have hstill : ¬ (a = x ∧ (as ++ x :: x :: bs).head? = some x) := by
      cases as with
      | nil => exact fun hpair => h.1 ⟨rfl, hpair.1⟩
      | cons b as => exact hsingle
    obtain ⟨q, qs, hcut⟩ := List.exists_cons_of_ne_nil (piecesAtPair_ne_nil x x as)
    rw [List.cons_append, piecesAtPair_cons hstill, piecesAtPair_cons hsingle, ih h.2, hcut]
    rfl

theorem exists_eq_concat_of_endsLone (h : EndsLone x as) :
    ∃ front, as = front ++ [x] ∧ ¬ EndsLone x front := by
  induction as using pairInduction x with
  | nil => exact absurd h not_endsLone_nil
  | pair as ih =>
    obtain ⟨front, rfl, hfront⟩ := ih (endsLone_pair.1 h)
    exact ⟨x :: x :: front, rfl, mt endsLone_pair.1 hfront⟩
  | cons a as hsingle ih =>
    rcases (endsLone_cons hsingle).1 h with ⟨rfl, rfl⟩ | hrest
    · exact ⟨[], rfl, not_endsLone_nil⟩
    · obtain ⟨front, rfl, hfront⟩ := ih hrest
      -- A pair at the head of the shorter list would be one at the head of the longer list.
      have hstill : ¬ (a = x ∧ front.head? = some x) := by
        rintro ⟨ha, hhead⟩
        exact hsingle ⟨ha, by simp [List.head?_append, hhead]⟩
      refine ⟨a :: front, rfl, ?_⟩
      rw [endsLone_cons hstill, not_or]
      refine ⟨?_, hfront⟩
      rintro ⟨rfl, ha⟩
      exact hsingle ⟨ha, rfl⟩

theorem not_endsLone_of_getLast? (h : as.getLast? ≠ some x) : ¬ EndsLone x as := by
  intro hlone
  obtain ⟨front, rfl, -⟩ := exists_eq_concat_of_endsLone hlone
  exact h (by simp)

theorem exists_piece_of_cons (h : ∀ q ∈ piecesAtPair x x as, q.head? ≠ some x) :
    ∃ q ∈ piecesAtPair x x (x :: as), q.head? = some x := by
  induction as using pairInduction x with
  | nil => exact ⟨[x], List.mem_singleton_self _, rfl⟩
  | pair as ih =>
    rw [piecesAtPair_pair] at h ⊢
    obtain ⟨q, hq, hhead⟩ := ih (List.forall_mem_cons.1 h).2
    exact ⟨q, List.mem_cons_of_mem _ hq, hhead⟩
  | cons a as hsingle _ =>
    obtain ⟨q, qs, hcut⟩ := List.exists_cons_of_ne_nil (piecesAtPair_ne_nil x x as)
    rw [piecesAtPair_cons hsingle, hcut] at h
    have ha : a ≠ x := fun heq => h (a :: q) (List.mem_cons_self ..) (by rw [heq]; rfl)
    have hstill : ¬ (x = x ∧ (a :: as).head? = some x) := fun hpair =>
      ha (Option.some.inj hpair.2)
    rw [piecesAtPair_cons hstill, piecesAtPair_cons hsingle, hcut]
    exact ⟨x :: a :: q, List.mem_cons_self .., rfl⟩

end Lintel.Text
