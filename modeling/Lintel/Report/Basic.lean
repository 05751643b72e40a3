import Lintel.Path.Basic
import Lintel.Text.Blank

/-!
# Findings and reports

A finding belongs to a file and has a message. Findings read from structured output also have a
severity, which is derived from the level that the linter gave. A report counts its findings by
severity, and it passes when there is no error among them.
-/
namespace Lintel

inductive Severity
  | error
  | warning
  | info
  | other
  deriving DecidableEq, Repr

namespace Severity

def asciiLower (c : Char) : Char := if 'A' ≤ c ∧ c ≤ 'Z' then Char.ofNat (c.toNat + 32) else c

def name : Severity → String
  | .error => "error"
  | .warning => "warning"
  | .info => "info"
  | .other => "other"

def ofLevel (level : String) : Severity :=
  let key := String.ofList ((Text.trim level.toList).map asciiLower)
  if key = "error" then .error
  else if key = "warning" then .warning
  else if key = "info" then .info
  else .other

end Severity

structure Finding where
  file : Path
  message : String
  line : Option UInt32
  column : Option UInt32
  severity : Option Severity
  level : Option String
  code : Option String
  deriving DecidableEq, Repr

def Finding.plain (file : Path) (message : String) : Finding :=
  ⟨file, message, none, none, none, none, none⟩

structure Tally where
  error : Nat
  warning : Nat
  info : Nat
  other : Nat
  deriving DecidableEq, Repr

namespace Tally

def zero : Tally := ⟨0, 0, 0, 0⟩

def record (t : Tally) : Severity → Tally
  | .error => { t with error := t.error + 1 }
  | .warning => { t with warning := t.warning + 1 }
  | .info => { t with info := t.info + 1 }
  | .other => { t with other := t.other + 1 }

def problems (t : Tally) : Nat := t.error + t.warning

def ofFindings (fs : List Finding) : Tally := (fs.filterMap (·.severity)).foldl record zero

end Tally

inductive OutputMode
  | structured
  | plainText
  deriving DecidableEq, Repr

def OutputMode.name : OutputMode → String
  | .structured => "JSON"
  | .plainText => "plain-text"

structure Report where
  mode : OutputMode
  findings : List Finding
  deriving DecidableEq, Repr

namespace Report

def tally (r : Report) : Tally := .ofFindings r.findings

def passed (r : Report) : Bool := r.tally.error == 0

end Report

end Lintel
