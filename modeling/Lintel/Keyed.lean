/-!
# Listings in key order

A listing pairs keys with values and is sorted by key. Putting a value under a key that is present
replaces the value there.
-/
namespace Lintel.Keyed

variable {κ α : Type} [DecidableEq κ] [LT κ] [DecidableLT κ]

def insert (k : κ) (a : α) : List (κ × α) → List (κ × α)
  | [] => [(k, a)]
  | (j, b) :: rest =>
      if k < j then (k, a) :: (j, b) :: rest
      else if k = j then (k, a) :: rest
      else (j, b) :: insert k a rest

def get? (k : κ) (l : List (κ × α)) : Option α := (l.find? (·.1 = k)).map (·.2)

def insertAll (entries l : List (κ × α)) : List (κ × α) :=
  entries.foldl (fun l e => insert e.1 e.2 l) l

omit [LT κ] [DecidableLT κ] in
@[simp] theorem get?_nil (k : κ) : get? k ([] : List (κ × α)) = none := rfl

omit [LT κ] [DecidableLT κ] in
theorem get?_cons (k j : κ) (b : α) (rest : List (κ × α)) :
    get? k ((j, b) :: rest) = if j = k then some b else get? k rest := by
  by_cases h : j = k <;> simp [get?, h]

@[simp] theorem get?_insert_self (k : κ) (a : α) (l : List (κ × α)) :
    get? k (insert k a l) = some a := by
  induction l with
  | nil => simp [insert, get?_cons]
  | cons e rest ih =>
    obtain ⟨j, b⟩ := e
    simp only [insert]
    split
    · simp [get?_cons]
    · split
      · simp [get?_cons]
      · rename_i h
        simp [get?_cons, Ne.symm h, ih]

theorem get?_insert_of_ne {k j : κ} (h : j ≠ k) (a : α) (l : List (κ × α)) :
    get? j (insert k a l) = get? j l := by
  induction l with
  | nil => simp [insert, get?_cons, h.symm]
  | cons e rest ih =>
    obtain ⟨i, b⟩ := e
    simp only [insert]
    split
    · rw [get?_cons, if_neg h.symm]
    · split
      · rename_i hk
        rw [get?_cons, get?_cons, if_neg h.symm, if_neg (hk ▸ h.symm)]
      · rw [get?_cons, get?_cons, ih]

end Lintel.Keyed
