/-!
# Cutting lists at separators

`pieces` keeps empty pieces, so joining with the separator gives the input back. `words` drops
them. `lines` follows the convention that a line feed ends a line and that a carriage return in
front of it belongs to the end of the line.
-/
namespace Lintel.Text

variable {α : Type}

def pieces (p : α → Bool) : List α → List (List α)
  | [] => [[]]
  | a :: as =>
      if p a then [] :: pieces p as
      else match pieces p as with
        | [] => [[a]]
        | q :: qs => (a :: q) :: qs

theorem pieces_ne_nil (p : α → Bool) (as : List α) : pieces p as ≠ [] := by
  cases as with
  | nil => simp [pieces]
  | cons a as =>
    simp only [pieces]
    split
    · simp
    · split <;> simp

def words (p : α → Bool) (as : List α) : List (List α) := (pieces p as).filter (! ·.isEmpty)

def dropEnd (p : α → Bool) (as : List α) : List α := (as.reverse.dropWhile p).reverse

def trimBoth (p : α → Bool) (as : List α) : List α := dropEnd p (as.dropWhile p)

def dropPrefix? [DecidableEq α] : List α → List α → Option (List α)
  | [], as => some as
  | _ :: _, [] => none
  | x :: xs, a :: as => if x = a then dropPrefix? xs as else none

def dropSuffix? [DecidableEq α] (q as : List α) : Option (List α) :=
  (dropPrefix? q.reverse as.reverse).map List.reverse

/-- Cuts at each occurrence of a two-element separator, from the left. -/
def piecesAtPair [DecidableEq α] (x y : α) : List α → List (List α)
  | [] => [[]]
  | [a] => [[a]]
  | a :: b :: as =>
      if a = x ∧ b = y then [] :: piecesAtPair x y as
      else match piecesAtPair x y (b :: as) with
        | [] => [[a]]
        | q :: qs => (a :: q) :: qs

/-- The lines of a text without their ends. A text that ends in a line feed has no line after it. -/
def lines (cs : List Char) : List (List Char) :=
  let ps := pieces (· == '\n') cs
  let body := if ps.getLast? = some [] then ps.dropLast else ps
  match cs.getLast? with
  | some '\n' => body.map unreturn
  | _ => body.dropLast.map unreturn ++ body.getLast?.toList
where
  unreturn (line : List Char) : List Char := (dropSuffix? ['\r'] line).getD line

end Lintel.Text
