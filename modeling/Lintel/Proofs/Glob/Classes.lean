import Lintel.Glob.Token

/-!
# Classes

A class reaches up to its bracket and is read to a single token, and nothing behind the bracket has
a say in it.
-/
namespace Lintel.Glob

theorem taken_of_classFrom {first inRange : Bool} {ranges found : List (Char × Char)}
    {cs after : List Char} (h : classFrom first inRange ranges cs = .ok (some (found, after))) :
    ∃ inner, cs = inner ++ ']' :: after ∧
      ∀ other, classFrom first inRange ranges (inner ++ ']' :: other) =
        .ok (some (found, other)) := by
  induction cs generalizing first inRange ranges with
  | nil => simp [classFrom] at h
  | cons c rest ih =>
    simp only [classFrom] at h
    split at h
    · rename_i hclose
      simp only [Except.ok.injEq, Option.some.injEq, Prod.mk.injEq] at h
      obtain ⟨rfl, rfl⟩ := h
      exact ⟨[], by rw [hclose.1, List.nil_append], fun other => by
        rw [List.nil_append, classFrom, if_pos ⟨rfl, hclose.2⟩]⟩
    · rename_i hclose
      split at h
      · rename_i hdash
        obtain ⟨inner, rfl, hinner⟩ := ih h
        exact ⟨c :: inner, rfl, fun other => by
          rw [List.cons_append, classFrom, if_neg hclose, if_pos hdash, hinner]⟩
      · rename_i hdash
        split at h
        · rename_i hrange
          cases hextend : extendRange c ranges with
          | error e => simp [hextend, bind, Except.bind] at h
          | ok extended =>
            obtain ⟨inner, rfl, hinner⟩ := ih (by simpa [hextend, bind, Except.bind] using h)
            exact ⟨c :: inner, rfl, fun other => by
              rw [List.cons_append, classFrom, if_neg hclose, if_neg hdash, if_pos hrange, hextend]
              exact hinner other⟩
        · rename_i hrange
          obtain ⟨inner, rfl, hinner⟩ := ih h
          exact ⟨c :: inner, rfl, fun other => by
            rw [List.cons_append, classFrom, if_neg hclose, if_neg hdash, if_neg hrange, hinner]⟩

theorem class_of_tokenOf {negated : Bool} {cs after : List Char} {t : Token}
    (h : readClass.tokenOf negated (classFrom true false [] cs) = .ok (some (t, after))) :
    (∃ ranges, t = .oneOf negated ranges) ∧ ∃ inner, cs = inner ++ ']' :: after ∧
      ∀ other, readClass.tokenOf negated (classFrom true false [] (inner ++ ']' :: other)) =
        .ok (some (t, other)) := by
  unfold readClass.tokenOf at h
  split at h
  · cases h
  · cases h
  · rename_i ranges rest hclass
    simp only [Except.ok.injEq, Option.some.injEq, Prod.mk.injEq] at h
    obtain ⟨rfl, rfl⟩ := h
    obtain ⟨inner, hcs, hinner⟩ := taken_of_classFrom hclass
    exact ⟨⟨ranges, rfl⟩, inner, hcs, fun other => by rw [hinner, readClass.tokenOf]⟩

theorem class_of_readClass {cs after : List Char} {t : Token}
    (h : readClass cs = .ok (some (t, after))) :
    (∃ negated ranges, t = .oneOf negated ranges) ∧ ∃ inner, cs = inner ++ ']' :: after ∧
      ∀ other, readClass (inner ++ ']' :: other) = .ok (some (t, other)) := by
  unfold readClass at h
  split at h
  · obtain ⟨⟨ranges, ht⟩, inner, rfl, hinner⟩ := class_of_tokenOf h
    exact ⟨⟨true, ranges, ht⟩, '!' :: inner, rfl, hinner⟩
  · obtain ⟨⟨ranges, ht⟩, inner, rfl, hinner⟩ := class_of_tokenOf h
    exact ⟨⟨true, ranges, ht⟩, '^' :: inner, rfl, hinner⟩
  · rename_i hbang hcaret
    obtain ⟨⟨ranges, ht⟩, inner, rfl, hinner⟩ := class_of_tokenOf h
    refine ⟨⟨false, ranges, ht⟩, inner, rfl, fun other => ?_⟩
    cases inner with
    | nil => exact hinner other
    | cons c inner =>
      unfold readClass
      split
      · rename_i heq
        obtain ⟨rfl, -⟩ := List.cons.inj heq
        exact (hbang _ rfl).elim
      · rename_i heq
        obtain ⟨rfl, -⟩ := List.cons.inj heq
        exact (hcaret _ rfl).elim
      · exact hinner other

end Lintel.Glob
