import Lintel.Text.Utf8
import Lintel.Text.Pieces

/-!
# Paths

A path is a byte string, and its spelling is kept because reports print it. Two spellings name the
same path when they have the same components: repeated separators, a trailing separator and `.`
say nothing, except that a leading `.` in a relative path is a component of its own.
-/
namespace Lintel

structure Path where
  bytes : Bytes
  deriving DecidableEq, Repr

namespace Path

def separator : UInt8 := 47

def dot : UInt8 := 46

inductive Component
  | root
  | here
  | up
  | name (bytes : Bytes)
  deriving DecidableEq, Repr

def ofString (s : String) : Path := ⟨bytesOf s⟩

def isAbsolute (p : Path) : Bool := p.bytes.head? == some separator

def parts (p : Path) : List Bytes := Text.pieces (· == separator) p.bytes

def isSilent (part : Bytes) : Bool := part == [] || part == [dot]

def Component.ofPart (part : Bytes) : Component :=
  if part = [dot, dot] then .up else .name part

def components (p : Path) : List Component :=
  let body := (p.parts.filter (! isSilent ·)).map Component.ofPart
  if p.isAbsolute then .root :: body
  else if p.parts.head? = some [dot] then .here :: body
  else body

/-- Two spellings of one path. -/
def Same (p q : Path) : Prop := p.components = q.components

instance (p q : Path) : Decidable (p.Same q) :=
  inferInstanceAs (Decidable (p.components = q.components))

theorem Same.refl (p : Path) : p.Same p := rfl

theorem Same.symm {p q : Path} (h : p.Same q) : q.Same p := Eq.symm h

theorem Same.trans {p q r : Path} (h : p.Same q) (k : q.Same r) : p.Same r := Eq.trans h k

def join (p q : Path) : Path :=
  if q.isAbsolute then q
  else match p.bytes.getLast? with
    | none => q
    | some b => if b = separator then ⟨p.bytes ++ q.bytes⟩ else ⟨p.bytes ++ separator :: q.bytes⟩

def joinParts (ps : List Bytes) : Bytes := [separator].intercalate ps

def ofNames (absolute : Bool) (names : List Bytes) : Path :=
  ⟨(if absolute then [separator] else []) ++ joinParts names⟩

def dropComponents : List Component → List Bytes → Option (List Bytes)
  | [], ps => some ps
  | c :: cs, ps =>
      match ps.dropWhile isSilent with
      | [] => none
      | q :: qs => if Component.ofPart q = c then dropComponents cs qs else none

/-- What is left of `p` below `base`, compared by components and spelled as in `p`. Silent parts at
either end of the rest are dropped. -/
def stripPrefix (base p : Path) : Option Path :=
  match base.components with
  | [] => some (if p.isAbsolute then ⟨joinRooted (Text.dropEnd isSilent p.parts)⟩
      else match p.parts with
        | [] => p
        | q :: qs => ⟨joinParts (if q = [] then Text.dropEnd isSilent (q :: qs)
            else q :: Text.dropEnd isSilent qs)⟩)
  | .root :: cs => if p.isAbsolute then (dropComponents cs p.parts).map rest else none
  | .here :: cs =>
      if p.parts.head? = some [dot] then (dropComponents cs p.parts.tail).map rest else none
  | cs => if p.isAbsolute || p.parts.head? = some [dot] then none
      else (dropComponents cs p.parts).map rest
where
  rest (ps : List Bytes) : Path := ⟨joinParts (Text.trimBoth isSilent ps)⟩
  joinRooted (ps : List Bytes) : Bytes := if ps.length ≤ 1 then [separator] else joinParts ps

def display (p : Path) : String := displayText p.bytes

end Path

end Lintel
