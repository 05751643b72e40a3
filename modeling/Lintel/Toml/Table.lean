import Lintel.Keyed

/-!
# Tables in settings

A table remembers how it came to be, since that decides what may still be added to it. Dotted keys
lead only through tables that were never written out, a header may open a table that longer
headers implied, and a table in braces is complete.
-/
namespace Lintel.Toml

/-- How a table came to be: by a header of its own, on the way of a longer header, by a dotted key,
or in braces. -/
inductive Origin
  | header
  | implied
  | dotted
  | braced
  deriving DecidableEq, Repr

inductive Node
  | string (text : String)
  | scalar
  | array (items : List Node)
  | table (origin : Origin) (entries : List (String × Node))

abbrev Entries := List (String × Node)

structure Key where
  path : List String
  name : String
  deriving DecidableEq, Repr

def Key.parts (k : Key) : List String := k.path ++ [k.name]

namespace Entries

/-- Changes the table at the end of a path. Tables that are missing on the way are made, and
`passes` says which others the path may lead through. -/
def change (made : Origin) (passes : Origin → Bool) (f : Origin → Entries → Option Entries) :
    List String → Origin → Entries → Option Entries
  | [], origin, es => f origin es
  | k :: path, _, es =>
      match Keyed.get? k es with
      | none => (change made passes f path made []).map fun sub =>
          Keyed.insert k (.table made sub) es
      | some (.table origin sub) =>
          if passes origin then
            (change made passes f path origin sub).map fun sub =>
              Keyed.insert k (.table origin sub) es
          else none
      | some _ => none

def isUnwritten (o : Origin) : Bool := o == .implied || o == .dotted

def add (k : Key) (v : Node) (es : Entries) : Option Entries :=
  change .dotted isUnwritten (fun origin es =>
    if k.path ≠ [] ∧ origin ≠ .dotted then none
    else match Keyed.get? k.name es with
      | none => some (Keyed.insert k.name v es)
      | some _ => none) k.path .header es

def isOpen (o : Origin) : Bool := o != .braced

def openTable (k : Key) (es : Entries) : Option Entries :=
  change .implied isOpen (fun _ es =>
    match Keyed.get? k.name es with
    | none => some (Keyed.insert k.name (.table .header []) es)
    | some (.table .implied sub) => some (Keyed.insert k.name (.table .header sub) es)
    | some _ => none) k.path .header es

def addUnder (header : List String) (k : Key) (v : Node) (es : Entries) : Option Entries :=
  change .implied isOpen (fun _ es => es.add k v) header .header es

end Entries

end Lintel.Toml
