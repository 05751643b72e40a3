import Lintel.Path.Basic

/-!
# Normal paths

`Path.anchor` makes a path absolute against a base and resolves `.` and `..` on the names alone,
without looking at any file. `..` takes back the name before it and is dropped where there is
none.
-/
namespace Lintel.Path

def settleStep (names : List Bytes) : Component → List Bytes
  | .root | .here => names
  | .up => names.tail
  | .name b => b :: names

def settle (cs : List Component) : List Bytes := (cs.foldl settleStep []).reverse

def normalize (p : Path) : Path := ofNames p.isAbsolute (settle p.components)

/-- The path `p` seen from `base`, in normal form. -/
def anchor (base p : Path) : Path := (base.join p).normalize

end Lintel.Path
