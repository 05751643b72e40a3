import Mathlib.Data.List.TakeWhile
import Lintel.Proofs.Text.Cutting

/-!
# Where the pieces stand

A piece is a stretch without separators that cannot be made longer: at either side of it there is a
separator or the end of the list. The pieces are all the stretches of this kind, from the left, each
at a place of its own.
-/
namespace Lintel.Text

variable {α : Type} {p : α → Bool}

/-- A longest stretch without separators, which starts behind `i` elements. -/
def PieceAt (p : α → Bool) (as : List α) (i : Nat) (q : List α) : Prop :=
  ∃ before after, as = before ++ q ++ after ∧ before.length = i ∧ (∀ a ∈ q, p a = false) ∧
    (∀ a, before.getLast? = some a → p a = true) ∧ ∀ a, after.head? = some a → p a = true

def placedFrom (i : Nat) : List (List α) → List (Nat × List α)
  | [] => []
  | q :: qs => (i, q) :: placedFrom (i + q.length + 1) qs

@[simp] theorem map_snd_placedFrom (i : Nat) (qs : List (List α)) :
    (placedFrom i qs).map (·.2) = qs := by
  induction qs generalizing i with
  | nil => rfl
  | cons q qs ih => rw [placedFrom, List.map_cons, ih]

theorem le_of_mem_placedFrom {i : Nat} {qs : List (List α)} {s : Nat × List α}
    (h : s ∈ placedFrom i qs) : i ≤ s.1 := by
  induction qs generalizing i with
  | nil => cases h
  | cons q qs ih =>
    rcases List.mem_cons.1 h with rfl | h
    · exact Nat.le_refl i
    · have hle := ih h
      omega

theorem pairwise_placedFrom (i : Nat) (qs : List (List α)) :
    (placedFrom i qs).Pairwise fun s t => s.1 < t.1 := by
  induction qs generalizing i with
  | nil => exact .nil
  | cons q qs ih =>
    apply List.Pairwise.cons _ (ih _)
    intro s hs
    have hle := le_of_mem_placedFrom hs
    dsimp only
    omega

theorem cutInduction {motive : List α → Prop}
    (unbroken : ∀ w, (∀ a ∈ w, p a = false) → motive w)
    (cut : ∀ w a rest, (∀ b ∈ w, p b = false) → p a = true → motive rest → motive (w ++ a :: rest))
    (as : List α) : motive as := by
  have hw : ∀ a ∈ as.takeWhile (! p ·), p a = false := by
    intro a ha
    simpa using List.mem_takeWhile_imp ha
  have hstop : Stops (! p ·) (as.dropWhile (! p ·)) := stops_dropWhile as
  have happ := List.takeWhile_append_dropWhile (p := (! p ·)) (l := as)
  generalize as.takeWhile (! p ·) = w at hw happ
  generalize as.dropWhile (! p ·) = tail at hstop happ
  cases tail with
  | nil =>
    rw [List.append_nil] at happ
    exact happ ▸ unbroken w hw
  | cons a rest =>
    have hlen : rest.length < as.length := by
      rw [← happ, List.length_append, List.length_cons]
      omega
    rw [← happ]
    exact cut w a rest hw (by simpa [stops_cons] using hstop) (cutInduction unbroken cut rest)
termination_by as.length

theorem pieceAt_of_no_sep {w q : List α} {i : Nat} (hw : ∀ a ∈ w, p a = false) :
    PieceAt p w i q ↔ i = 0 ∧ q = w := by
  constructor
  · intro h'
    obtain ⟨before, after, rfl, rfl, -, hbefore, hafter⟩ := h'
    have hfront : before = [] := by
      rw [← List.getLast?_eq_none_iff, Option.eq_none_iff_forall_ne_some]
      intro a ha
      have hno := hw a (by simp [List.mem_of_getLast? ha])
      rw [hbefore a ha] at hno
      cases hno
    have hback : after = [] := by
      rw [← List.head?_eq_none_iff, Option.eq_none_iff_forall_ne_some]
      intro a ha
      have hno := hw a (by simp [List.mem_of_head? ha])
      rw [hafter a ha] at hno
      cases hno
    simp [hfront, hback]
  · intro h'
    obtain ⟨rfl, rfl⟩ := h'
    exact ⟨[], [], by simp, rfl, hw, by simp, by simp⟩

theorem endsSep_append_cons {w mid : List α} {a : α} (ha : p a = true) :
    (∀ b, (w ++ a :: mid).getLast? = some b → p b = true) ↔
      ∀ b, mid.getLast? = some b → p b = true := by
  rw [List.getLast?_append, List.getLast?_cons]
  cases mid.getLast? with
  | none => simpa using ha
  | some d => simp

theorem exists_of_append_sep {w rest front tail : List α} {a c : α} (hw : ∀ b ∈ w, p b = false)
    (hc : p c = true) (h : w ++ a :: rest = front ++ c :: tail) :
    ∃ mid, front ++ [c] = w ++ a :: mid ∧ rest = mid ++ tail := by
  rcases List.append_eq_append_iff.1 h with ⟨_ | ⟨b, mid⟩, rfl, hmid⟩ | ⟨_ | ⟨b, mid⟩, rfl, hmid⟩
  · obtain ⟨rfl, rfl⟩ := List.cons.inj hmid
    exact ⟨[], by simp, rfl⟩
  · obtain ⟨rfl, rfl⟩ := List.cons.inj hmid
    exact ⟨mid ++ [c], by simp, by simp⟩
  · obtain ⟨rfl, rfl⟩ := List.cons.inj hmid
    exact ⟨[], by simp, rfl⟩
  · obtain ⟨rfl, -⟩ := List.cons.inj hmid
    have hno := hw c (by simp)
    rw [hc] at hno
    cases hno

theorem pieceAt_append_cons {w rest q : List α} {a : α} {i : Nat} (hw : ∀ b ∈ w, p b = false)
    (ha : p a = true) : PieceAt p (w ++ a :: rest) i q ↔
      (i = 0 ∧ q = w) ∨ ∃ j, i = w.length + 1 + j ∧ PieceAt p rest j q := by
  constructor
  · intro h'
    obtain ⟨before, after, happ, rfl, hq, hbefore, hafter⟩ := h'
    rcases List.eq_nil_or_concat before with rfl | ⟨front, c, rfl⟩
    · -- the piece and the stretch both reach up to the first separator
      have hstop : Stops (! p ·) after := fun b hb => by simp [hafter b hb]
      have hfirst := takeWhile_append_stop (p := (! p ·)) (v := q) (by simpa using hq) hstop
      rw [List.nil_append] at happ
      rw [← happ, takeWhile_append_stop (by simpa using hw) (by simpa [stops_cons] using ha)]
        at hfirst
      exact .inl ⟨rfl, hfirst.symm⟩
    · rw [List.concat_eq_append] at happ hbefore ⊢
      have hc : p c = true := hbefore c (by simp)
      have hcut : w ++ a :: rest = front ++ c :: (q ++ after) := by simpa using happ
      obtain ⟨mid, hmid, rfl⟩ := exists_of_append_sep hw hc hcut
      rw [hmid] at hbefore ⊢
      refine .inr ⟨mid.length, by simp; omega, mid, after, by simp, rfl, hq, ?_, hafter⟩
      exact (endsSep_append_cons ha).1 hbefore
  · intro h'
    rcases h' with ⟨rfl, rfl⟩ | ⟨j, rfl, mid, after, rfl, rfl, hq, hmid, hafter⟩
    · exact ⟨[], a :: rest, by simp, rfl, hw, by simp, by simpa using ha⟩
    · refine ⟨w ++ a :: mid, after, by simp, by simp; omega, hq, ?_, hafter⟩
      exact (endsSep_append_cons ha).2 hmid

theorem mem_placedFrom_pieces {as q : List α} {k n : Nat} :
    (n, q) ∈ placedFrom k (pieces p as) ↔ ∃ i, n = k + i ∧ PieceAt p as i q := by
  induction as using cutInduction (p := p) generalizing k with
  | unbroken w hw =>
    rw [pieces_of_no_sep hw]
    simp [placedFrom, pieceAt_of_no_sep hw]
  | cut w a rest hw ha ih =>
    rw [pieces_append_sep ha, pieces_of_no_sep hw, List.singleton_append, placedFrom, List.mem_cons,
      ih, Prod.mk.injEq]
    simp only [pieceAt_append_cons hw ha]
    constructor
    · intro h'
      rcases h' with ⟨rfl, rfl⟩ | ⟨j, rfl, hj⟩
      · exact ⟨0, rfl, .inl ⟨rfl, rfl⟩⟩
      · exact ⟨w.length + 1 + j, by omega, .inr ⟨j, rfl, hj⟩⟩
    · intro h'
      obtain ⟨i, rfl, ⟨rfl, rfl⟩ | ⟨j, rfl, hj⟩⟩ := h'
      · exact .inl ⟨rfl, rfl⟩
      · exact .inr ⟨j, by omega, hj⟩

end Lintel.Text
