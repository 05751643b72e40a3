import Lintel.Linter.Installed
import Lintel.Linter.Output
import Lintel.Path.FileSet

/-!
# Linting files

A linter runs once per file, with the same arguments in front of each. Its exit code does not
matter. What it prints is read as records or as lines, and the findings are reported in the order
of the files. The first run that fails ends the whole.
-/
namespace Lintel.Installed

def mode (l : Installed) : Except Fault OutputMode :=
  l.supportsStructured.map fun b => if b then .structured else .plainText

def extraArguments : Option String → Except Fault (List String)
  | none => .ok []
  | some options =>
      match Words.split options with
      | .ok arguments => .ok arguments
      | .error cause => .error (.badOptions options cause)

def leadingArguments (l : Installed) (options : Option String) : Except Fault (List Bytes) := do
  let asked ← l.structuredArguments
  let extra ← extraArguments options
  .ok ((asked ++ extra).map bytesOf)

def readOutput (l : Installed) (mode : OutputMode) (file : Path) (o : Output) :
    Except Fault (List Finding) :=
  if o.out.all Text.isBlankByte then .ok []
  else match mode with
    | .plainText => .ok (Linter.plainFindings (displayText o.out) file)
    | .structured =>
        match Text.strict o.out with
        | .error f => .error (.badOutput l.name file (.notText f))
        | .ok cs =>
            match Linter.structuredFindings (String.ofList cs) file l.spec.codePrefix with
            | .error f => .error (.badOutput l.name file (.notRecords f))
            | .ok findings => .ok findings

def lintFile (l : Installed) (sh : Shell) (mode : OutputMode) (leading : List Bytes)
    (file : Path) : Traced (List Finding) := do
  let o ← sh.run ⟨l.executable, leading ++ [file.bytes]⟩
  Traced.ofExcept (l.readOutput mode file o)

def lintFiles (l : Installed) (sh : Shell) (mode : OutputMode) (leading : List Bytes) :
    List Path → Traced (List Finding)
  | [] => pure []
  | file :: files => do
      let findings ← l.lintFile sh mode leading file
      let rest ← lintFiles l sh mode leading files
      pure (findings ++ rest)

def lint (l : Installed) (sh : Shell) (files : FileSet) (options : Option String) :
    Traced Report := do
  let mode ← Traced.ofExcept l.mode
  let leading ← Traced.ofExcept (l.leadingArguments options)
  let findings ← l.lintFiles sh mode leading files.files
  pure ⟨mode, findings⟩

end Lintel.Installed
