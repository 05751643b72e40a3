import Lintel.Keyed
import Lintel.Path.Basic

/-!
# Directory trees

A tree lists what stands at each location. Locations are lists of names from the top directory,
and the listing is sorted by them, name by name and byte by byte. A directory thus comes directly
before all that it holds, and the entries below it are in the order of a depth-first walk that
visits names in order.
-/
namespace Lintel

abbrev Location := List Bytes

inductive Object
  | directory
  | file (data : Bytes) (executable : Bool)
  | link (target : Path)
  deriving DecidableEq, Repr

structure Tree where
  entries : List (Location × Object)
  deriving Repr

namespace Tree

def empty : Tree := ⟨[]⟩

/-- The top directory always exists and has no entry of its own. -/
def at? (t : Tree) (l : Location) : Option Object :=
  if l = [] then some .directory else Keyed.get? l t.entries

@[simp] theorem at?_nil (t : Tree) : t.at? [] = some .directory := by simp [at?]

def insert (t : Tree) (l : Location) (o : Object) : Tree := ⟨Keyed.insert l o t.entries⟩

def ensureDirectory (t : Tree) (l : Location) : Tree :=
  match t.at? l with
  | some _ => t
  | none => t.insert l .directory

def place (t : Tree) (l : Location) (o : Object) : Tree :=
  (((List.range l.length).map l.take).foldl ensureDirectory t).insert l o

def below (t : Tree) (base : Location) : List (Location × Object) :=
  t.entries.filterMap fun e =>
    match Text.dropPrefix? base e.1 with
    | none | some [] => none
    | some l => some (l, e.2)

end Tree

end Lintel
