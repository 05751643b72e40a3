import Lintel.Fault
import Lintel.Linter.Spec
import Lintel.Path.Normal
import Lintel.Toml.Reader

/-!
# Settings

A settings file names a default ignore file and adds linters to the catalogue. Every key in it must
be known and every value a string. A linter may also be written as an array that starts with its
four values in order. Without a settings file there are no settings; one that was asked for must
exist.
-/
namespace Lintel

structure LinterEntry where
  versionFlag : String
  structuredFlag : Option String
  structuredSince : Option String
  codePrefix : Option String
  deriving DecidableEq, Repr

structure Settings where
  ignorePath : Option Path
  linters : List (String × LinterEntry)
  deriving DecidableEq, Repr

namespace LinterEntry

def toSpec (e : LinterEntry) : LinterSpec where
  versionFlag := e.versionFlag
  structured := e.structuredFlag.map (⟨·, e.structuredSince⟩)
  codePrefix := e.codePrefix

def defaultVersionFlag : String := "--version"

def text? (es : Toml.Entries) (key : String) : Option (Option String) :=
  match Keyed.get? key es with
  | none => some none
  | some (.string s) => some (some s)
  | some _ => none

def keys : List String := ["version_flag", "structured_flag", "structured_since", "code_prefix"]

def ofNode? : Toml.Node → Option LinterEntry
  | .table _ es => do
      let versionFlag ← text? es "version_flag"
      let structuredFlag ← text? es "structured_flag"
      let structuredSince ← text? es "structured_since"
      let codePrefix ← text? es "code_prefix"
      if es.all (·.1 ∈ keys) then
        some ⟨versionFlag.getD defaultVersionFlag, structuredFlag, structuredSince, codePrefix⟩
      else none
  | .array (.string versionFlag :: .string structuredFlag :: .string structuredSince
      :: .string codePrefix :: _) =>
      some ⟨versionFlag, some structuredFlag, some structuredSince, some codePrefix⟩
  | _ => none

end LinterEntry

namespace Settings

def none : Settings := ⟨.none, []⟩

def keys : List String := ["ignore_path", "linters"]

def ofEntries? (es : Toml.Entries) : Option Settings := do
  let ignorePath ← LinterEntry.text? es "ignore_path"
  let linters ← match Keyed.get? "linters" es with
    | .none => some []
    | some (.table _ ls) => ls.mapM fun e => (LinterEntry.ofNode? e.2).map (e.1, ·)
    | some _ => .none
  if es.all (·.1 ∈ keys) then some ⟨ignorePath.map Path.ofString, linters⟩ else .none

def read (text : List Char) : Except Fault Settings :=
  match Toml.read? text >>= ofEntries? with
  | some s => .ok s
  | .none => .error .settingsInvalid

def fileName : Path := Path.ofString "global-linters.toml"

def locate (t : Tree) (workingDir : Path) : Option Path → Except Fault (Option Path)
  | some path =>
      let file := workingDir.anchor path
      if t.isFile file then .ok (some file) else .error (.settingsMissing path)
  | .none =>
      let file := workingDir.join fileName
      .ok (if t.isFile file then some file else .none)

/-- The settings in the file that was asked for or, if none was, in the default one. -/
def load (t : Tree) (workingDir : Path) (path : Option Path) : Except Fault Settings := do
  match ← locate t workingDir path with
  | .none => .ok none
  | some file =>
      match t.readText file with
      | .error cause => .error (.settingsUnreadable file cause)
      | .ok text => read text

def catalogue (s : Settings) : Catalogue :=
  Catalogue.builtin.extend (s.linters.map fun e => (e.1, e.2.toSpec))

end Settings

end Lintel
