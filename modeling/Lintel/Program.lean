import Lintel.Invocation
import Lintel.Process.Machine
import Lintel.Report.Json
import Lintel.Report.Layout
import Lintel.Session
import Lintel.Settings

/-!
# The program

A run of the program reads its command line and the settings, carries out the session and prints
the report. It succeeds if the report passes, a report that does not pass has an exit code of its
own, and so has every fault, which is printed as an error and leaves the standard output empty.
-/
namespace Lintel

structure Exit where
  code : UInt8
  out : String
  err : String
  deriving DecidableEq, Repr

structure Display where
  terminal : Bool
  wanted : Option String
  unwanted : Option String
  forced : Option String
  deriving DecidableEq, Repr

/-- Forcing colours wins over refusing them. A variable of value `0` is off. -/
def Display.coloured (d : Display) : Bool :=
  if d.forced.any (· != "0") then true
  else if d.unwanted.isSome then false
  else d.wanted.all (· != "0") && d.terminal

def Report.write (r : Report) (coloured : Bool) : ReportFormat → String
  | .text => r.text coloured
  | .json => r.json
  | .jsonPretty => r.jsonPretty

namespace Invocation

def request (i : Invocation) (s : Settings) : Request where
  linter := i.linter
  tokens := i.tokens
  ignorePath := i.ignorePath.or s.ignorePath
  noIgnore := i.noIgnore
  range := i.range
  options := i.options

def lint (i : Invocation) (m : Machine) (sh : Shell) : Traced Report := do
  let s ← Traced.ofExcept (Settings.load m.tree m.workingDir i.settings)
  Session.run (i.request s) s.catalogue m.tree m.workingDir sh

end Invocation

namespace Exit

def name : String := "global-linters"

def version : String := name ++ " 0.1.0\n"

def usage : String := "Usage: " ++ name ++ " [OPTIONS] <LINTER> <FILE_AND_OR_GLOB>...\n"

def ofRefusal : Invocation.Refusal → Exit
  | .version => ⟨0, version, ""⟩
  | .help => ⟨0, usage, ""⟩
  | .misuse => ⟨2, "", "error: " ++ usage⟩

def ofReport (r : Report) (coloured : Bool) (format : ReportFormat) : Exit :=
  ⟨if r.passed then 0 else 1, r.write coloured format ++ "\n", ""⟩

def errorLabel (coloured : Bool) : String :=
  String.ofList (Span.render coloured [⟨.boldRed, "Error:".toList⟩])

def ofFault (f : Fault) (coloured : Bool) : Exit :=
  ⟨2, "", errorLabel coloured ++ " " ++ f.chain ++ "\n"⟩

end Exit

def Invocation.run (i : Invocation) (m : Machine) (sh : Shell) (coloured : Bool) : Exit :=
  match (i.lint m sh).start.1 with
  | .error f => .ofFault f coloured
  | .ok r => .ofReport r coloured i.format

def program (m : Machine) (display : Display) (arguments : List Bytes) : Exit :=
  match Invocation.read arguments with
  | .error r => .ofRefusal r
  | .ok i => i.run m m.shell display.coloured

end Lintel
