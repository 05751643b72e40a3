import Lintel.Json.Value
import Lintel.Linter.Spec
import Lintel.Report.Basic

/-!
# Reports as JSON

Members that have no value are left out of a finding and are `null` in a linter's specification. A
file name that is not text has no JSON form, and neither has a report about such a file. Reading
is the inverse: an absent member and `null` are both no value.
-/
namespace Lintel

open Json (Value Shape Field Reader)

def wordMax : Nat := Nat.pow 2 32 - 1

def countMax : Nat := Nat.pow 2 64 - 1

def Json.Reader.word : Reader UInt32 := fun depth c =>
  (Reader.natural "u32" wordMax depth c).map fun (n, d) => (n.toUInt32, d)

def Json.Reader.count : Reader Nat := Reader.natural "usize" countMax

def Json.Reader.path : Reader Path := fun depth c =>
  (Reader.textAs "path string" depth c).map fun (s, d) => (Path.ofString s, d)

def require {α : Type} (name : String) : Option α → Except String α
  | some a => .ok a
  | none => .error name

namespace Severity

def toJson (s : Severity) : Value := .text s.name

def choices : List (String × Severity) :=
  [Severity.error, .warning, .info, .other].map fun s => (s.name, s)

def reader : Reader Severity := Json.choice choices

end Severity

namespace OutputMode

def toJson (m : OutputMode) : Value := .text m.name

def choices : List (String × OutputMode) :=
  [OutputMode.structured, .plainText].map fun m => (m.name, m)

def reader : Reader OutputMode := Json.choice choices

end OutputMode

/-! ## Findings -/

namespace Finding

def toJson? (f : Finding) : Option Value := do
  let file ← Text.decode? f.file.bytes
  some (.record [
    ("file", some (.text (String.ofList file))),
    ("message", some (.text f.message)),
    ("line", f.line.map fun n => .natural n.toNat),
    ("column", f.column.map fun n => .natural n.toNat),
    ("severity", f.severity.map Severity.toJson),
    ("level", f.level.map .text),
    ("code", f.code.map .text)])

/-- The members read so far; the outer option says whether the member was there. -/
structure Draft where
  file : Option Path := none
  message : Option String := none
  line : Option (Option UInt32) := none
  column : Option (Option UInt32) := none
  severity : Option (Option Severity) := none
  level : Option (Option String) := none
  code : Option (Option String) := none

def shape : Shape Draft Finding where
  name := "LintFinding"
  fields := [
    .of "file" (·.file.isSome) .path fun d x => { d with file := some x },
    .of "message" (·.message.isSome) .text fun d x => { d with message := some x },
    .of "line" (·.line.isSome) (.optional .word) fun d x => { d with line := some x },
    .of "column" (·.column.isSome) (.optional .word) fun d x => { d with column := some x },
    .of "severity" (·.severity.isSome) (.optional Severity.reader)
      fun d x => { d with severity := some x },
    .of "level" (·.level.isSome) (.optional .text) fun d x => { d with level := some x },
    .of "code" (·.code.isSome) (.optional .text) fun d x => { d with code := some x }]
  empty := {}
  complete d := do
    let file ← require "file" d.file
    let message ← require "message" d.message
    .ok ⟨file, message, d.line.join, d.column.join, d.severity.join, d.level.join, d.code.join⟩

def reader : Reader Finding := shape.reader

end Finding

/-! ## Tallies -/

namespace Tally

def counts (t : Tally) : Value :=
  .object [("error", .natural t.error), ("warning", .natural t.warning), ("info", .natural t.info),
    ("other", .natural t.other)]

def toJson (t : Tally) : Value := .object [("count", t.counts)]

structure Draft where
  error : Option Nat := none
  warning : Option Nat := none
  info : Option Nat := none
  other : Option Nat := none

def countsShape : Shape Draft Tally where
  name := "SeverityCount"
  fields := [
    .of "error" (·.error.isSome) .count fun d x => { d with error := some x },
    .of "warning" (·.warning.isSome) .count fun d x => { d with warning := some x },
    .of "info" (·.info.isSome) .count fun d x => { d with info := some x },
    .of "other" (·.other.isSome) .count fun d x => { d with other := some x }]
  empty := {}
  complete d := do
    let error ← require "error" d.error
    let warning ← require "warning" d.warning
    let info ← require "info" d.info
    let other ← require "other" d.other
    .ok ⟨error, warning, info, other⟩

def shape : Shape (Option Tally) Tally where
  name := "LintSummary"
  fields := [.of "count" (·.isSome) countsShape.reader fun _ x => some x]
  empty := none
  complete d := require "count" d

def reader : Reader Tally := shape.reader

end Tally

/-! ## Reports -/

namespace Report

def toJson? (r : Report) : Option Value := do
  let results ← r.findings.mapM Finding.toJson?
  some (.object [("type", r.mode.toJson), ("results", .list results),
    ("summary", r.tally.toJson)])

def json (r : Report) : String := (r.toJson?.map Value.toCompact).getD ""

def jsonPretty (r : Report) : String := (r.toJson?.map Value.toPretty).getD ""

end Report

/-! ## Specifications of linters -/

def orNull (s : Option String) : Value := (s.map Value.text).getD .null

namespace StructuredOutput

def toJson (o : StructuredOutput) : Value :=
  .object [("flag", .text o.flag), ("since", orNull o.since)]

structure Draft where
  flag : Option String := none
  since : Option (Option String) := none

def shape : Shape Draft StructuredOutput where
  name := "StructuredOutput"
  fields := [
    .of "flag" (·.flag.isSome) .text fun d x => { d with flag := some x },
    .of "since" (·.since.isSome) (.optional .text) fun d x => { d with since := some x }]
  empty := {}
  complete d := do
    let flag ← require "flag" d.flag
    .ok ⟨flag, d.since.join⟩

end StructuredOutput

namespace LinterSpec

def toJson (s : LinterSpec) : Value :=
  .object [("version_flag", .text s.versionFlag),
    ("structured_output", (s.structured.map StructuredOutput.toJson).getD .null),
    ("code_prefix", orNull s.codePrefix)]

structure Draft where
  versionFlag : Option String := none
  structured : Option (Option StructuredOutput) := none
  codePrefix : Option (Option String) := none

def shape : Shape Draft LinterSpec where
  name := "LinterSpec"
  fields := [
    .of "version_flag" (·.versionFlag.isSome) .text fun d x => { d with versionFlag := some x },
    .of "structured_output" (·.structured.isSome) (.optional StructuredOutput.shape.reader)
      fun d x => { d with structured := some x },
    .of "code_prefix" (·.codePrefix.isSome) (.optional .text)
      fun d x => { d with codePrefix := some x }]
  empty := {}
  complete d := do
    let versionFlag ← require "version_flag" d.versionFlag
    .ok ⟨versionFlag, d.structured.join, d.codePrefix.join⟩

def reader : Reader LinterSpec := shape.reader

end LinterSpec

end Lintel
