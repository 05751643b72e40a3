import Lintel.Glob.Match
import Lintel.Proofs.Glob.Marks

/-!
# What a token with groups means

The marks of a token are put together to a tree of parts without rewriting anything. A group
matches what one of its alternatives matches, the empty text included; braces never try a void
alternative, as everywhere. Stars are read as they are in a plain glob, where two of them span
directories if they fill a component.
-/
namespace Lintel.Glob

inductive Part
  | token (t : Token)
  | braces (choices : List (List Part))
  | group (choices : List (List Part))

mutual

def Part.spelled : Part → Token
  | .token t => t
  | .braces choices => .either (Part.allSpelled choices)
  | .group choices => .either (Part.allSpelled choices)

def Part.areSpelled : List Part → List Token
  | [] => []
  | p :: ps => Part.spelled p :: Part.areSpelled ps

def Part.allSpelled : List (List Part) → List (List Token)
  | [] => []
  | c :: cs => Part.areSpelled c :: Part.allSpelled cs

end

mutual

def Part.ends : Part → Bytes → List Bytes
  | .token t, s => t.ends s
  | .braces choices, s =>
      if Token.allVoid (Part.allSpelled choices) then [s] else Part.filledEnds choices s
  | .group choices, s => Part.choiceEnds choices s

def Part.listEnds : List Part → Bytes → List Bytes
  | [], s => [s]
  | p :: ps, s => (Part.ends p s).flatMap (Part.listEnds ps)

def Part.choiceEnds : List (List Part) → Bytes → List Bytes
  | [], _ => []
  | c :: cs, s => Part.listEnds c s ++ Part.choiceEnds cs s

def Part.filledEnds : List (List Part) → Bytes → List Bytes
  | [], _ => []
  | c :: cs, s =>
      (if Token.areVoid (Part.areSpelled c) then [] else Part.listEnds c s) ++
        Part.filledEnds cs s

end

def Part.areEverything : List Part → Bool
  | [.token .leading] => true
  | _ => false

def Part.Matches (ps : List Part) (s : Bytes) : Prop :=
  Part.areEverything ps = true ∨ [] ∈ Part.listEnds ps s

instance Part.decidableMatches (ps : List Part) (s : Bytes) : Decidable (Part.Matches ps s) :=
  inferInstanceAs (Decidable (_ ∨ _))

mutual

def Part.isFilled : Part → Bool
  | .token _ => true
  | .braces choices => Part.allFilled choices
  | .group choices =>
      ! choices.isEmpty && (Part.allSpelled choices).all (! Token.areVoid ·) &&
        Part.allFilled choices

def Part.areFilled : List Part → Bool
  | [] => true
  | p :: ps => Part.isFilled p && Part.areFilled ps

def Part.allFilled : List (List Part) → Bool
  | [] => true
  | c :: cs => Part.areFilled c && Part.allFilled cs

end

theorem Part.areSpelled_eq_map (ps : List Part) : Part.areSpelled ps = ps.map Part.spelled := by
  induction ps with
  | nil => rfl
  | cons p ps ih => rw [Part.areSpelled, ih, List.map_cons]

theorem Part.allSpelled_eq_map (choices : List (List Part)) :
    Part.allSpelled choices = choices.map Part.areSpelled := by
  induction choices with
  | nil => rfl
  | cons c choices ih => rw [Part.allSpelled, ih, List.map_cons]

theorem Part.filledEnds_eq_choiceEnds {choices : List (List Part)}
    (h : (Part.allSpelled choices).all (! Token.areVoid ·) = true) (s : Bytes) :
    Part.filledEnds choices s = Part.choiceEnds choices s := by
  induction choices with
  | nil => rfl
  | cons c choices ih =>
    simp only [Part.allSpelled, List.all_cons, Bool.and_eq_true, Bool.not_eq_true'] at h
    simp [Part.filledEnds, Part.choiceEnds, h.1, ih h.2]

mutual

theorem Part.ends_spelled (p : Part) (h : p.isFilled = true) (s : Bytes) :
    p.spelled.ends s = p.ends s := by
  cases p with
  | token t => rfl
  | braces choices =>
    rw [Part.spelled, Token.ends, Part.ends, Part.choiceEnds_spelled choices h]
  | group choices =>
    simp only [Part.isFilled, Bool.and_eq_true, Bool.not_eq_true'] at h
    obtain ⟨⟨hne, hnone⟩, hfilled⟩ := h
    have hvoid : Token.allVoid (Part.allSpelled choices) = false := by
      cases choices with
      | nil => simp at hne
      | cons c choices =>
        simp only [Part.allSpelled, List.all_cons, Bool.and_eq_true, Bool.not_eq_true'] at hnone
        simp [Part.allSpelled, Token.allVoid, hnone.1]
    rw [Part.spelled, Token.ends, Part.ends, hvoid, Part.choiceEnds_spelled choices hfilled,
      Part.filledEnds_eq_choiceEnds hnone]
    rfl

theorem Part.listEnds_spelled (ps : List Part) (h : Part.areFilled ps = true) (s : Bytes) :
    Token.listEnds (Part.areSpelled ps) s = Part.listEnds ps s := by
  cases ps with
  | nil => rfl
  | cons p ps =>
    rw [Part.areFilled, Bool.and_eq_true] at h
    rw [Part.areSpelled, Token.listEnds, Part.listEnds, Part.ends_spelled p h.1]
    exact congrArg (List.flatMap · _) (funext fun u => Part.listEnds_spelled ps h.2 u)

theorem Part.choiceEnds_spelled (choices : List (List Part)) (h : Part.allFilled choices = true)
    (s : Bytes) :
    Token.choiceEnds (Part.allSpelled choices) s = Part.filledEnds choices s := by
  cases choices with
  | nil => rfl
  | cons c choices =>
    rw [Part.allFilled, Bool.and_eq_true] at h
    rw [Part.allSpelled, Token.choiceEnds, Part.filledEnds, Part.listEnds_spelled c h.1,
      Part.choiceEnds_spelled choices h.2]

end

theorem Part.areEverything_iff {ps : List Part} :
    Part.areEverything ps = true ↔ Part.areSpelled ps = [.leading] := by
  constructor
  · intro h
    unfold Part.areEverything at h
    split at h
    · rfl
    · cases h
  · intro h
    rw [Part.areSpelled_eq_map, List.map_eq_singleton_iff] at h
    obtain ⟨p, rfl, hp⟩ := h
    cases p with
    | token t =>
      obtain rfl : t = .leading := hp
      rfl
    | braces choices => cases hp
    | group choices => cases hp

theorem Part.matches_spelled {ps : List Part} (h : Part.areFilled ps = true) (s : Bytes) :
    Pattern.Matches (Part.areSpelled ps) s ↔ Part.Matches ps s := by
  rw [Part.Matches, Part.areEverything_iff, ← Part.listEnds_spelled ps h s]
  unfold Pattern.Matches
  split
  · rename_i hspelled
    simp [hspelled]
  · rename_i hne
    exact (or_iff_right hne).symm

/-! ## Reading the marks -/

structure OpenPart where
  isGroup : Bool
  before : List Part
  choices : List (List Part)

/-- A tree of parts under construction: the parts of the current alternative, last first, and the
open brackets, innermost first. `atBoundary` says whether two stars may start a component here. -/
structure Draft where
  current : List Part
  brackets : List OpenPart
  atBoundary : Bool

def isBoundary (inside : Bool) (c : Char) : Bool := c == '/' || (inside && (c == ',' || c == '{'))

namespace Draft

def start : Draft := ⟨[], [], false⟩

def push (d : Draft) (boundary : Bool) (ts : List Token) : Draft :=
  { d with current := (ts.map Part.token).reverse ++ d.current, atBoundary := boundary }

def span (d : Draft) (atEnd boundary : Bool) : Draft :=
  { d with current := (spanning atEnd (Part.areSpelled (d.current.take 1))).map Part.token ++
                        d.current.drop 1,
           atBoundary := boundary }

def stars (d : Draft) (rest : List Mark) : Draft × List Mark :=
  if d.current.isEmpty then
    match rest with
    | [] => (d.push false [.leading], [])
    | .plain '/' :: after => (d.push true [.leading], after)
    | _ => (d.push false [.many, .many], rest)
  else if d.atBoundary then
    match rest with
    | [] => (d.span true false, [])
    | .plain '/' :: after => (d.span false true, after)
    | m :: _ =>
        if m.endsAlternative then (d.span true false, rest)
        else (d.push false [.many, .many], rest)
  else (d.push false [.many, .many], rest)

theorem length_stars_le (d : Draft) (rest : List Mark) :
    (d.stars rest).2.length ≤ rest.length := by
  unfold stars
  repeat' split
  all_goals simp

/-- The draft behind a mark. As in a plain glob, an escaped comma or brace inside brackets is a
boundary for two stars. -/
def mark (d : Draft) : Mark → Option Draft
  | .plain c => some (d.push (c == '/') [.literal c])
  | .escaped c => some (d.push (isBoundary (! d.brackets.isEmpty) c) [.literal c])
  | .one => some (d.push false [.one])
  | .star => some (d.push false [.many])
  | .bracket t => some (d.push false [t])
  | .opening isGroup => some ⟨[], ⟨isGroup, d.current, []⟩ :: d.brackets, true⟩
  | .dividing =>
      match d.brackets with
      | [] => none
      | b :: outer =>
          some ⟨[], { b with choices := d.current.reverse :: b.choices } :: outer, true⟩
  | .closing =>
      match d.brackets with
      | [] => none
      | b :: outer =>
          let choices := (d.current.reverse :: b.choices).reverse
          some ⟨(if b.isGroup then .group choices else .braces choices) :: b.before, outer, false⟩

def read (d : Draft) (ms : List Mark) : Option (List Part) :=
  match ms with
  | [] => if d.brackets.isEmpty then some d.current.reverse else none
  | .star :: .star :: rest => (d.stars rest).1.read (d.stars rest).2
  | m :: rest =>
      match d.mark m with
      | some d' => d'.read rest
      | none => none
termination_by ms.length
decreasing_by
  all_goals simp_wf
  all_goals try (have hlt := length_stars_le d rest)
  all_goals omega

end Draft

def readExtended (cs : List Char) : Option (List Part) := (marks true [] cs).bind Draft.start.read

/-- Whether a path matches a token in which groups are meant as such. -/
def MatchesExtended (cs : List Char) (s : Bytes) : Prop := ∃ ps ∈ readExtended cs, Part.Matches ps s

instance (cs : List Char) (s : Bytes) : Decidable (MatchesExtended cs s) :=
  inferInstanceAs (Decidable (∃ ps ∈ readExtended cs, Part.Matches ps s))

end Lintel.Glob
