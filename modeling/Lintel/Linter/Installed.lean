import Lintel.Linter.Spec
import Lintel.Process.Basic
import Lintel.Version.Coerce
import Lintel.Version.Range

/-!
# Installed linters

A linter can be used when it is known, installed, tells a version, and that version lies in the
range that was asked for. The checks come in this order and the first that fails is reported; the
program runs once, to tell its version. Whether it can write structured output depends on that
version.
-/
namespace Lintel

structure Installed where
  name : String
  spec : LinterSpec
  executable : Path
  version : Version
  deriving DecidableEq, Repr

namespace Installed

def printed (o : Output) : List Char := Text.lossy o.out ++ '\n' :: Text.lossy o.err

def detectVersion (name : String) (spec : LinterSpec) (executable : Path) (sh : Shell) :
    Traced Version := do
  match Words.split spec.versionFlag with
  | .error cause => Traced.fail (.badVersionFlag name spec.versionFlag cause)
  | .ok arguments =>
      let o ← sh.run ⟨executable, arguments.map bytesOf⟩
      match Version.coerce? (printed o) with
      | some v => pure v
      | none => Traced.fail (.noVersion name spec.versionFlag)

def checkRange (name : String) (version : Version) : Option String → Except Fault Unit
  | none => .ok ()
  | some text =>
      match Range.parse? text with
      | none => .error (.badRange text)
      | some r =>
          if r.admits version then .ok () else .error (.versionMismatch name version text)

def check (c : Catalogue) (name : String) (range : Option String) (sh : Shell) :
    Traced Installed := do
  match c.get? name with
  | none => Traced.fail (.unsupported name)
  | some spec =>
      match sh.find name with
      | none => Traced.fail (.notInstalled name)
      | some executable =>
          let version ← detectVersion name spec executable sh
          Traced.ofExcept (checkRange name version range)
          pure ⟨name, spec, executable, version⟩

def supportsStructured (l : Installed) : Except Fault Bool :=
  match l.spec.structured with
  | none => .ok false
  | some o =>
      match o.since with
      | none => .error (.sinceMissing l.name)
      | some since =>
          match Range.parse? since with
          | none => .error (.sinceInvalid l.name since)
          | some r => .ok (r.admits l.version)

def structuredArguments (l : Installed) : Except Fault (List String) := do
  if ← l.supportsStructured then
    match l.spec.structured with
    | none => .ok []
    | some o =>
        match Words.split o.flag with
        | .ok arguments => .ok arguments
        | .error cause => .error (.badStructuredFlag l.name o.flag cause)
  else .ok []

end Installed

end Lintel
