import Lintel.Keyed

/-!
# Known linters

A specification says how a linter tells its version, how it is asked for structured output and
from which version on it has that, and what goes in front of its bare numeric rule codes. The
catalogue holds one specification per name, in the order of names.
-/
namespace Lintel

structure StructuredOutput where
  flag : String
  since : Option String
  deriving DecidableEq, Repr

structure LinterSpec where
  versionFlag : String
  structured : Option StructuredOutput
  codePrefix : Option String
  deriving DecidableEq, Repr

namespace LinterSpec

def plainOnly (versionFlag : String) : LinterSpec := ⟨versionFlag, none, none⟩

def withStructured (versionFlag flag since : String) : LinterSpec :=
  ⟨versionFlag, some ⟨flag, some since⟩, none⟩

def withCodePrefix (s : LinterSpec) (text : String) : LinterSpec :=
  { s with codePrefix := some text }

end LinterSpec

structure Catalogue where
  entries : List (String × LinterSpec)
  deriving DecidableEq, Repr

namespace Catalogue

def ofList (entries : List (String × LinterSpec)) : Catalogue := ⟨Keyed.insertAll entries []⟩

def builtin : Catalogue := ofList
  [ ("hadolint", .withStructured "--version" "--format json" ">=1.5.0"),
    ("shellcheck", (LinterSpec.withStructured "--version" "--format json" ">=0.4.0").withCodePrefix
      "SC") ]

def extend (c : Catalogue) (entries : List (String × LinterSpec)) : Catalogue :=
  ⟨Keyed.insertAll entries c.entries⟩

def get? (c : Catalogue) (name : String) : Option LinterSpec := Keyed.get? name c.entries

def contains (c : Catalogue) (name : String) : Bool := (c.get? name).isSome

def names (c : Catalogue) : List String := c.entries.map (·.1)

end Catalogue

end Lintel
