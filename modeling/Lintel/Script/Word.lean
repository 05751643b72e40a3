import Lintel.Text.Digit
import Lintel.Text.Utf8

/-!
# Words of a script

Scripts are byte strings and are read as characters U+0000 to U+00FF, one for each byte. A word is
a sequence of characters and parameters, each with or without quotes around it. It stands for any
number of fields: quoted parts are kept as they are, while the value of an unquoted parameter is cut
at blanks.
-/
namespace Lintel.Script

def ofBytes (bs : Bytes) : List Char := bs.map fun b => Char.ofNat b.toNat

def toBytes (t : List Char) : Bytes := t.map fun c => UInt8.ofNat c.toNat

inductive Parameter
  | variable (name : List Char)
  | argument (n : Nat)
  | allFields
  | allJoined
  | count
  | status
  | process
  deriving DecidableEq, Repr

inductive Part
  | char (c : Char) (quoted : Bool)
  | emptyQuotes
  | parameter (p : Parameter) (quoted : Bool)
  deriving DecidableEq, Repr

abbrev Word := List Part

structure Values where
  script : List Char
  arguments : List (List Char)
  bindings : List (List Char × List Char)
  status : Nat
  deriving Repr

namespace Values

def process : List Char := (toString 2).toList

def joined (v : Values) : List Char := [' '].intercalate v.arguments

def scalar (v : Values) : Parameter → List Char
  | .variable name => (v.bindings.lookup name).getD []
  | .argument 0 => v.script
  | .argument (n + 1) => v.arguments[n]?.getD []
  | .allFields | .allJoined => v.joined
  | .count => (toString v.arguments.length).toList
  | .status => (toString v.status).toList
  | .process => process

def set (v : Values) (name value : List Char) : Values :=
  { v with bindings := (name, value) :: v.bindings }

end Values

/-- The fields that are complete, last one first, and the one that is open. -/
structure Fields where
  complete : List (List Char)
  current : Option (List Char)

namespace Fields

def empty : Fields := ⟨[], none⟩

def write (f : Fields) (t : List Char) : Fields := ⟨f.complete, some (f.current.getD [] ++ t)⟩

def close (f : Fields) : Fields := ⟨f.current.toList ++ f.complete, none⟩

def writeSplit (f : Fields) (t : List Char) : Fields :=
  t.foldl (fun f c => if c = ' ' ∨ c = '\t' ∨ c = '\n' then f.close else f.write [c]) f

def writeEach (add : Fields → List Char → Fields) (f : Fields) : List (List Char) → Fields
  | [] => f
  | [t] => add f t
  | t :: ts => writeEach add (add f t).close ts

def writePart (v : Values) (f : Fields) : Part → Fields
  | .char c _ => f.write [c]
  | .emptyQuotes => f.write []
  | .parameter .allFields true => f.writeEach write v.arguments
  | .parameter .allFields false | .parameter .allJoined false => f.writeEach writeSplit v.arguments
  | .parameter p true => f.write (v.scalar p)
  | .parameter p false => f.writeSplit (v.scalar p)

def toList (f : Fields) : List (List Char) := f.close.complete.reverse

end Fields

def Word.fields (w : Word) (v : Values) : List (List Char) :=
  (w.foldl (Fields.writePart v) Fields.empty).toList

def Word.text (w : Word) (v : Values) : List Char :=
  w.flatMap fun
    | .char c _ => [c]
    | .emptyQuotes => []
    | .parameter p _ => v.scalar p

def Word.bare? (w : Word) : Option (List Char) :=
  w.mapM fun
    | .char c false => some c
    | _ => none

/-! ## Patterns -/

inductive Mark
  | exact (c : Char)
  | one
  | many
  | set (negated : Bool) (ranges : List (Char × Char))
  deriving DecidableEq, Repr

def Word.flagged (w : Word) (v : Values) : List (Char × Bool) :=
  w.flatMap fun
    | .char c quoted => [(c, quoted)]
    | .emptyQuotes => []
    | .parameter p quoted => (v.scalar p).map (·, quoted)

def rangesOf : List Char → List (Char × Char)
  | a :: '-' :: b :: rest => (a, b) :: rangesOf rest
  | a :: rest => (a, a) :: rangesOf rest
  | [] => []

def marksFrom : Nat → List (Char × Bool) → List Mark
  | 0, _ => []
  | _, [] => []
  | n + 1, ('*', false) :: rest => .many :: marksFrom n rest
  | n + 1, ('?', false) :: rest => .one :: marksFrom n rest
  | n + 1, ('[', false) :: rest =>
      let (negated, body) := match rest with
        | ('!', false) :: body => (true, body)
        | body => (false, body)
      let (first, others) := body.splitAt 1
      let (tail, after) := others.span (· != (']', false))
      match after with
      | [] => .exact '[' :: marksFrom n rest
      | _ :: after => .set negated (rangesOf ((first ++ tail).map (·.1))) :: marksFrom n after
  | n + 1, (c, _) :: rest => .exact c :: marksFrom n rest

def Word.marks (w : Word) (v : Values) : List Mark :=
  let cs := w.flagged v
  marksFrom cs.length cs

def Mark.accepts (m : Mark) (c : Char) : Bool :=
  match m with
  | .exact d => c == d
  | .one | .many => true
  | .set negated ranges => (ranges.any fun r => r.1 ≤ c && c ≤ r.2) != negated

def accepts : List Mark → List Char → Bool
  | [], t => t.isEmpty
  | .many :: ms, t => anyEnd ms t
  | _ :: _, [] => false
  | m :: ms, c :: t => m.accepts c && accepts ms t
where
  anyEnd (ms : List Mark) : List Char → Bool
  | [] => accepts ms []
  | c :: t => accepts ms (c :: t) || anyEnd ms t

end Lintel.Script
