import Lintel.Version.Basic

/-!
# Comparators

A comparator names a version, perhaps without its last parts, and how a version has to relate to
it. A requirement is a conjunction of comparators, at most thirty-two of them. A pre-release meets
a requirement only if one of the comparators names a pre-release of the same three numbers.
-/
namespace Lintel.Version

inductive Relation
  | exact
  | greater
  | greaterEq
  | less
  | lessEq
  | tilde
  | caret
  deriving DecidableEq, Repr

structure Comparator where
  relation : Relation
  major : Nat
  minor : Option Nat
  patch : Option Nat
  tag : Tag
  deriving DecidableEq, Repr

namespace Comparator

def agrees (c : Comparator) (v : Version) : Bool :=
  v.major == c.major && c.minor.all (v.minor == ·) && c.patch.all (v.patch == ·) && v.tag == c.tag

/-- The version comes after everything that agrees with the given parts. -/
def isBelow (c : Comparator) (v : Version) : Bool :=
  if v.major ≠ c.major then c.major < v.major
  else match c.minor with
    | none => false
    | some minor =>
        if v.minor ≠ minor then minor < v.minor
        else match c.patch with
          | none => false
          | some patch =>
              if v.patch ≠ patch then patch < v.patch else c.tag.compare v.tag == .lt

def isAbove (c : Comparator) (v : Version) : Bool :=
  if v.major ≠ c.major then v.major < c.major
  else match c.minor with
    | none => false
    | some minor =>
        if v.minor ≠ minor then v.minor < minor
        else match c.patch with
          | none => false
          | some patch =>
              if v.patch ≠ patch then v.patch < patch else v.tag.compare c.tag == .lt

def matchesTilde (c : Comparator) (v : Version) : Bool :=
  if v.major ≠ c.major then false
  else if c.minor.any (v.minor ≠ ·) then false
  else match c.patch with
    | some patch =>
        if v.patch ≠ patch then patch < v.patch else c.tag.compare v.tag != .gt
    | none => c.tag.compare v.tag != .gt

def matchesCaret (c : Comparator) (v : Version) : Bool :=
  if v.major ≠ c.major then false
  else match c.minor with
    | none => true
    | some minor =>
        match c.patch with
        | none => if 0 < c.major then minor ≤ v.minor else v.minor == minor
        | some patch =>
            if 0 < c.major then
              if v.minor ≠ minor then minor < v.minor
              else if v.patch ≠ patch then patch < v.patch
              else c.tag.compare v.tag != .gt
            else if 0 < minor then
              if v.minor ≠ minor then false
              else if v.patch ≠ patch then patch < v.patch
              else c.tag.compare v.tag != .gt
            else v.minor == minor && v.patch == patch && c.tag.compare v.tag != .gt

def admits (c : Comparator) (v : Version) : Bool :=
  match c.relation with
  | .exact => c.agrees v
  | .greater => c.isBelow v
  | .greaterEq => c.agrees v || c.isBelow v
  | .less => c.isAbove v
  | .lessEq => c.agrees v || c.isAbove v
  | .tilde => c.matchesTilde v
  | .caret => c.matchesCaret v

def namesTagOf (c : Comparator) (v : Version) : Bool :=
  c.major == v.major && c.minor == some v.minor && c.patch == some v.patch && !c.tag.isEmpty

def readRelation : List Char → Option Relation × List Char
  | '=' :: rest => (some .exact, rest)
  | '>' :: '=' :: rest => (some .greaterEq, rest)
  | '>' :: rest => (some .greater, rest)
  | '<' :: '=' :: rest => (some .lessEq, rest)
  | '<' :: rest => (some .less, rest)
  | '~' :: rest => (some .tilde, rest)
  | '^' :: rest => (some .caret, rest)
  | rest => (none, rest)

def skipSpaces (cs : List Char) : List Char := cs.dropWhile (· == ' ')

def isWildcard (c : Char) : Bool := c == '*' || c == 'x' || c == 'X'

inductive Part
  | absent
  | wildcard
  | given (n : Nat)

def part? : List Char → Option (Part × List Char)
  | '.' :: c :: rest =>
      if isWildcard c then some (.wildcard, rest)
      else (number? (c :: rest)).map fun (n, rest) => (.given n, rest)
  | ['.'] => none
  | rest => some (.absent, rest)

/-- Reads a comparator and the blanks behind it. Only wildcards may follow a wildcard, and only a
full version may have a tag. Without a relation, a wildcard asks for agreement. -/
def read? (cs : List Char) : Option (Comparator × List Char) := do
  let (op, rest) := readRelation cs
  let (major, rest) ← number? (skipSpaces rest)
  let (minor, rest) ← part? rest
  let (patch, rest) ← part? rest
  let anyGiven := op.getD .exact
  match minor, patch with
  | .absent, .absent => some (⟨op.getD .caret, major, none, none, []⟩, skipSpaces rest)
  | .given m, .absent => some (⟨op.getD .caret, major, some m, none, []⟩, skipSpaces rest)
  | .given m, .wildcard => some (⟨anyGiven, major, some m, none, []⟩, skipSpaces rest)
  | .wildcard, .absent | .wildcard, .wildcard =>
      some (⟨anyGiven, major, none, none, []⟩, skipSpaces rest)
  | .given m, .given p => do
      let (tag, rest) ← optionalTag? rest
      let rest ← skipOptionalBuild? rest
      some (⟨op.getD .caret, major, some m, some p, tag⟩, skipSpaces rest)
  | _, _ => none

end Comparator

abbrev Requirement := List Comparator

namespace Requirement

def limit : Nat := 32

def readFrom : Nat → List Char → Option Requirement
  | 0, _ => none
  | n + 1, cs => do
      match ← Comparator.read? cs with
      | (c, []) => some [c]
      | (c, ',' :: rest) => (readFrom n (Comparator.skipSpaces rest)).map (c :: ·)
      | _ => none

def parse? (text : List Char) : Option Requirement :=
  let cs := Comparator.skipSpaces text
  match cs with
  | c :: rest =>
      if Comparator.isWildcard c then
        if Comparator.skipSpaces rest = [] then some [] else none
      else readFrom limit cs
  | [] => none

def admits (r : Requirement) (v : Version) : Bool :=
  r.all (·.admits v) && (v.tag.isEmpty || r.any (·.namesTagOf v))

end Requirement

end Lintel.Version
