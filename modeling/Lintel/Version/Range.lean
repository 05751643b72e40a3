import Lintel.Version.Comparator
import Lintel.Text.Blank

/-!
# Version ranges

A range is a choice between alternatives set apart by `||`. An alternative is either a hyphen
range or a list of comparators set apart by blanks; each is spelled as a requirement and read as
one. A version satisfies the range if it meets one of the requirements.
-/
namespace Lintel

open Version (Requirement Comparator)

structure Range where
  text : String
  alternatives : List Requirement
  deriving DecidableEq, Repr

namespace Range

def isOperatorChar (c : Char) : Bool :=
  c == '<' || c == '>' || c == '=' || c == '~' || c == '^'

def dropV : List Char → List Char
  | 'v' :: rest => rest
  | 'V' :: rest => rest
  | cs => cs

def closeGaps (afterOperator : Bool) : List Char → List Char
  | [] => []
  | c :: rest =>
      if afterOperator && Text.isBlank c then closeGaps true rest
      else c :: closeGaps (isOperatorChar c) rest

def leadingNumbers? : List (List Char) → Option (List (List Char))
  | [] => some []
  | part :: rest =>
      if part = ['x'] ∨ part = ['X'] ∨ part = ['*'] then some []
      else if part ≠ [] ∧ part.all Text.isAsciiDigit then
        (leadingNumbers? rest).map (part :: ·)
      else none

def splitVersion? (version : List Char) : Option (List (List Char) × List Char) := do
  let (core, suffix) := version.span fun c => c != '-' && c != '+'
  let numbers ← leadingNumbers? (Text.pieces (· == '.') core)
  if 3 < numbers.length ∨ (numbers.length < 3 ∧ suffix ≠ []) then none
  else some (numbers, suffix)

def wildcardOperators : List String := ["", "=", ">=", "<=", "~", "^"]

/-- One comparator as a requirement spells it; the inner `none` accepts every version. Without an
operator, agreement is meant. -/
def comparator? (cs : List Char) : Option (Option (List Char)) := do
  let (operator, version) := cs.span isOperatorChar
  let (numbers, suffix) ← splitVersion? (dropV version)
  if numbers = [] then
    if String.ofList operator ∈ wildcardOperators then some none else none
  else
    let spelled := if operator = [] then ['='] else operator
    some (some (spelled ++ ['.'].intercalate numbers ++ if numbers.length = 3 then suffix else []))

def alternative? (cs : List Char) : Option Requirement :=
  let text := Text.trim cs
  match Text.fields text with
  | [low, ['-'], high] =>
      Requirement.parse? ('>' :: '=' :: dropV low ++ ',' :: ' ' :: '<' :: '=' :: dropV high)
  | _ => do
      let comparators ← (Text.fields (closeGaps false text)).mapM comparator?
      match comparators.filterMap id with
      | [] => some []
      | given => Requirement.parse? ([',', ' '].intercalate given)

def parse? (text : String) : Option Range := do
  let alternatives ← (Text.piecesAtPair '|' '|' text.toList).mapM alternative?
  some ⟨String.ofList (Text.trim text.toList), alternatives⟩

def admits (r : Range) (v : Version) : Bool := r.alternatives.any (·.admits v)

end Range

end Lintel
