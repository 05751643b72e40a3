import Lintel.Report.Json
import Lintel.Text.Digit

/-!
# What linters print

Structured output is a JSON list of records. A record has a message; position, level and rule code
may be missing, and other members are ignored. Plain output has one finding per line that is not
blank.
-/
namespace Lintel.Linter

open Json (Value Shape Field Reader Cursor Outcome)

structure Record where
  message : String
  line : Option UInt32
  column : Option UInt32
  level : Option String
  code : Option String
  deriving DecidableEq, Repr

namespace Record

structure Draft where
  message : Option String := none
  line : Option (Option UInt32) := none
  column : Option (Option UInt32) := none
  level : Option (Option String) := none
  code : Option (Option String) := none

def codeMax : Nat := Nat.pow 2 63 - 1

def codeText? : Value → Option String
  | .text s => some s
  | .number (.natural n) => if n ≤ codeMax then some (toString n) else none
  | .number (.negative n) => some ("-" ++ toString n)
  | _ => none

def readCode (d : Draft) (depth : Nat) (c : Cursor) :
    Except Json.Fault (Outcome Draft × Cursor) := do
  match ← Reader.optional Value.reader depth c with
  | (none, c) => .ok (.ok { d with code := some none }, c)
  | (some v, c) =>
      match codeText? v with
      | some s => .ok (.ok { d with code := some (some s) }, c)
      | none => .ok (.error "data did not match any variant of untagged enum RawCode", c)

def shape : Shape Draft Record where
  name := "RawFinding"
  fields := [
    .of "message" (·.message.isSome) .text fun d x => { d with message := some x },
    { Field.of "line" (·.line.isSome) (.optional .word) fun d x => { d with line := some x } with
      lenient := true },
    { Field.of "column" (·.column.isSome) (.optional .word)
        fun d x => { d with column := some x } with
      lenient := true },
    { Field.of "level" (·.level.isSome) (.optional .text)
        fun d x => { d with level := some x } with
      lenient := true },
    ⟨"code", (·.code.isSome), true, readCode⟩]
  empty := {}
  complete d := do
    let message ← require "message" d.message
    .ok ⟨message, d.line.join, d.column.join, d.level.join, d.code.join⟩

end Record

def normalizeCode (codePrefix : Option String) (code : String) : String :=
  match codePrefix with
  | some p =>
      if code ≠ "" ∧ code.toList.all Text.isAsciiDigit then p ++ code else code
  | none => code

def Record.toFinding (file : Path) (codePrefix : Option String) (r : Record) : Finding :=
  ⟨file, r.message, r.line, r.column, some ((r.level.map Severity.ofLevel).getD .other), r.level,
    r.code.map (normalizeCode codePrefix)⟩

def structuredFindings (text : String) (file : Path) (codePrefix : Option String) :
    Except Json.Fault (List Finding) := do
  let records ← Json.decode (Reader.list Record.shape.reader) text
  .ok (records.map (Record.toFinding file codePrefix))

def isLineEnd (c : Char) : Bool := c == '\r' || c == '\n'

def plainFindings (text : String) (file : Path) : List Finding :=
  (((Text.pieces isLineEnd text.toList).filter fun line => ! (Text.trim line).isEmpty)).map
    fun line => .plain file (String.ofList line)

end Lintel.Linter
