import Lintel.Text.Pieces
import Lintel.Text.Digit

/-!
# Versions

A version has three numbers and may carry a pre-release tag, which makes it older than the release
of the same numbers. Tags are compared identifier by identifier, numbers before words and shorter
tags before their extensions. Build metadata is read and has no say in any comparison.
-/
namespace Lintel

namespace Version

inductive Identifier
  | number (n : Nat)
  | word (text : List Char)
  deriving DecidableEq, Repr

def Identifier.compare : Identifier → Identifier → Ordering
  | .number m, .number n => Ord.compare m n
  | .number _, .word _ => .lt
  | .word _, .number _ => .gt
  | .word v, .word w => if v < w then .lt else if v = w then .eq else .gt

abbrev Tag := List Identifier

def Tag.compareParts : Tag → Tag → Ordering
  | [], [] => .eq
  | [], _ :: _ => .lt
  | _ :: _, [] => .gt
  | i :: v, j :: w => (i.compare j).then (compareParts v w)

/-- A release comes after all its pre-releases. -/
def Tag.compare : Tag → Tag → Ordering
  | [], [] => .eq
  | [], _ :: _ => .gt
  | _ :: _, [] => .lt
  | v, w => compareParts v w

end Version

structure Version where
  major : Nat
  minor : Nat
  patch : Nat
  tag : Version.Tag := []
  deriving DecidableEq, Repr

namespace Version

def triple (v : Version) : String :=
  toString v.major ++ "." ++ toString v.minor ++ "." ++ toString v.patch

def number? (cs : List Char) : Option (Nat × List Char) :=
  let run := cs.takeWhile isDigit
  if run.head? = some '0' ∧ run.length ≠ 1 then none
  else (Text.word64? run).map fun n => (n, cs.dropWhile isDigit)
where
  isDigit := Text.isAsciiDigit

def isIdentifierChar (c : Char) : Bool :=
  Text.isAsciiDigit c || ('a' ≤ c && c ≤ 'z') || ('A' ≤ c && c ≤ 'Z') || c == '-'

def Identifier.ofText? (cs : List Char) : Option Identifier :=
  if cs = [] then none
  else if cs.all Text.isAsciiDigit then
    if cs.head? = some '0' ∧ cs.length ≠ 1 then none else some (.number (Text.decimal cs))
  else some (.word cs)

def spanSuffix (cs : List Char) : List Char × List Char :=
  cs.span fun c => isIdentifierChar c || c == '.'

def tag? (cs : List Char) : Option (Tag × List Char) := do
  let (run, rest) := spanSuffix cs
  let tag ← (Text.pieces (· == '.') run).mapM Identifier.ofText?
  some (tag, rest)

def skipBuild? (cs : List Char) : Option (List Char) :=
  let (run, rest) := spanSuffix cs
  if [] ∈ Text.pieces (· == '.') run then none else some rest

def afterDot? : List Char → Option (List Char)
  | '.' :: rest => some rest
  | _ => none

def optionalTag? : List Char → Option (Tag × List Char)
  | '-' :: rest => tag? rest
  | rest => some ([], rest)

def skipOptionalBuild? : List Char → Option (List Char)
  | '+' :: rest => skipBuild? rest
  | rest => some rest

def parse? (text : String) : Option Version := do
  let (major, rest) ← number? text.toList
  let (minor, rest) ← number? (← afterDot? rest)
  let (patch, rest) ← number? (← afterDot? rest)
  let (tag, rest) ← optionalTag? rest
  match ← skipOptionalBuild? rest with
  | [] => some ⟨major, minor, patch, tag⟩
  | _ => none

end Version

end Lintel
