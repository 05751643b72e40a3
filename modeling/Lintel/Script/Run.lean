import Lintel.Process.Basic
import Lintel.Script.Command
import Lintel.Script.Printed

/-!
# Running scripts

A script runs in surroundings where it can look at files and start other programs. It ends with a
status, or it ends itself by a signal and leaves no code. What it has printed until then counts.
-/
namespace Lintel.Script

structure Surroundings where
  object? : List Char → Option Object
  start : List Char → List (List Char) → Except IoFault Output

inductive Ending
  | exit (status : Nat)
  | signal
  deriving DecidableEq, Repr

structure State where
  values : Values
  out : List Char
  err : List Char
  ended : Option Ending

structure Streams where
  out : Target
  err : Target

namespace Streams

def plain : Streams := ⟨.stream 1, .stream 2⟩

def redirect (s : Streams) (r : Redirect) : Streams :=
  let target := match r.target with
    | .stream 1 => s.out
    | .stream _ => s.err
    | .nowhere => .nowhere
  match r.stream with
  | 1 => { s with out := target }
  | 2 => { s with err := target }
  | _ => s

def redirectAll (s : Streams) (rs : List Redirect) : Streams := rs.foldl redirect s

end Streams

namespace State

def write (s : State) (cs : List Char) : Target → State
  | .stream 1 => { s with out := s.out ++ cs }
  | .stream _ => { s with err := s.err ++ cs }
  | .nowhere => s

def withStatus (s : State) (n : Nat) : State := { s with values := { s.values with status := n } }

def set (s : State) (name value : List Char) : State :=
  { s with values := s.values.set name value }

def complain (s : State) (streams : Streams) (cs : List Char) : State :=
  s.write (s.values.script ++ ": 1: ".toList ++ cs ++ ['\n']) streams.err

end State

/-! ## Built-in commands -/

def integer? (cs : List Char) : Option Int :=
  match cs with
  | '-' :: ds => (Text.word64? ds).map fun n => -(n : Int)
  | ds => (Text.word64? ds).map fun n => (n : Int)

def comparison? (operator : List Char) : Option (Int → Int → Bool) :=
  match String.ofList operator with
  | "-eq" => some (· == ·)
  | "-ne" => some (· != ·)
  | "-lt" => some (· < ·)
  | "-le" => some (· ≤ ·)
  | "-gt" => some (· > ·)
  | "-ge" => some (· ≥ ·)
  | _ => none

def objectTest? (operator : List Char) : Option (Object → Bool) :=
  match String.ofList operator with
  | "-e" => some fun _ => true
  | "-f" => some fun
      | .file .. => true
      | _ => false
  | "-d" => some fun
      | .directory => true
      | _ => false
  | "-x" => some fun
      | .file _ executable => executable
      | _ => true
  | "-s" => some fun
      | .file data _ => data != []
      | _ => true
  | _ => none

def holds? (w : Surroundings) : List (List Char) → Option Bool
  | [] => some false
  | [a] => some (a != [])
  | ['!'] :: rest => (holds? w rest).map (! ·)
  | [['-', 'n'], a] => some (a != [])
  | [['-', 'z'], a] => some (a == [])
  | [operator, a] => (objectTest? operator).map fun test => (w.object? a).any test
  | [a, ['='], b] => some (a == b)
  | [a, ['!', '='], b] => some (a != b)
  | [a, operator, b] => do some ((← comparison? operator) (← integer? a) (← integer? b))
  | _ => none

def testStatus (w : Surroundings) (arguments : List (List Char)) : Nat :=
  match holds? w arguments with
  | some true => 0
  | some false => 1
  | none => 2

def kill (s : State) (arguments : List (List Char)) : State :=
  if arguments.getLast? = some Values.process then
    if arguments.head? = some ['-', '0'] then s.withStatus 0
    else { s with ended := some .signal }
  else s.withStatus 1

def exit (s : State) (streams : Streams) : List (List Char) → State
  | [] => { s with ended := some (.exit s.values.status) }
  | n :: _ =>
      match Text.word64? n with
      | some n => { s with ended := some (.exit (n % 256)) }
      | none => { s.complain streams ("exit: Illegal number: ".toList ++ n) with
          ended := some (.exit 2) }

def shift (s : State) (arguments : List (List Char)) : State :=
  let n := match arguments with
    | [] => 1
    | a :: _ => (Text.word64? a).getD 0
  if n ≤ s.values.arguments.length then
    { s with values := { s.values with arguments := s.values.arguments.drop n, status := 0 } }
  else { s with ended := some (.exit 2) }

/-- Runs a built-in command, if the name is that of one. Settings of the script itself are accepted
and change nothing. -/
def builtin? (w : Surroundings) (name : List Char) (arguments : List (List Char))
    (streams : Streams) (s : State) : Option State :=
  match String.ofList name with
  | ":" | "true" | "set" | "export" | "trap" => some (s.withStatus 0)
  | "false" => some (s.withStatus 1)
  | "echo" => some ((s.write (echoed arguments) streams.out).withStatus 0)
  | "printf" =>
      match arguments with
      | [] => some ((s.complain streams "printf: usage: printf format [arg ...]".toList).withStatus 2)
      | format :: rest => some ((s.write (formatted format rest) streams.out).withStatus 0)
  | "test" => some (s.withStatus (testStatus w arguments))
  | "[" =>
      if arguments.getLast? = some [']'] then some (s.withStatus (testStatus w arguments.dropLast))
      else some ((s.complain streams "[: missing ]".toList).withStatus 2)
  | "exit" | "return" => some (exit s streams arguments)
  | "shift" => some (shift s arguments)
  | "kill" => some (kill s arguments)
  | _ => none

def runProgram (w : Surroundings) (name : List Char) (arguments : List (List Char))
    (streams : Streams) (s : State) : State :=
  match w.start name arguments with
  | .error .notFound =>
      (s.complain streams (name ++ ": not found".toList)).withStatus 127
  | .error _ => (s.complain streams (name ++ ": Permission denied".toList)).withStatus 126
  | .ok o =>
      let s := (s.write (ofBytes o.out) streams.out).write (ofBytes o.err) streams.err
      s.withStatus (match o.code with
        | some n => n.toNat
        | none => 137)

def runSimple (w : Surroundings) (assignments : List (List Char × Word)) (words : List Word)
    (streams : Streams) (s : State) : State :=
  match words.flatMap (·.fields s.values) with
  | [] => (assignments.foldl (fun s a => s.set a.1 (a.2.text s.values)) s).withStatus 0
  | name :: arguments =>
      match builtin? w name arguments streams s with
      | some s => s
      | none => runProgram w name arguments streams s

/-! ## Commands -/

def Command.run (w : Surroundings) : Command → Streams → State → State
  | .nothing, _, s => s.withStatus 0
  | .simple assignments words redirects, streams, s =>
      if s.ended.isSome then s
      else runSimple w assignments words (streams.redirectAll redirects) s
  | .sequence first second, streams, s => second.run w streams (first.run w streams s)
  | .andThen first second, streams, s =>
      let s := first.run w streams s
      if s.values.status = 0 then second.run w streams s else s
  | .orElse first second, streams, s =>
      let s := first.run w streams s
      if s.values.status = 0 then s else second.run w streams s
  | .negated body, streams, s =>
      let s := body.run w streams s
      s.withStatus (if s.values.status = 0 then 1 else 0)
  | .choose test yes no, streams, s =>
      let s := test.run w streams s
      if s.values.status = 0 then yes.run w streams s else no.run w streams s
  | .each name words body, streams, s =>
      let values := match words with
        | none => s.values.arguments
        | some ws => ws.flatMap fun word => Word.fields word s.values
      values.foldl (fun s v => body.run w streams (s.set name v)) (s.withStatus 0)
  | .arm subject patterns body otherwise, streams, s =>
      if patterns.any fun p => accepts (p.marks s.values) (subject.text s.values) then
        body.run w streams s
      else otherwise.run w streams s
  | .redirected body redirects, streams, s => body.run w (streams.redirectAll redirects) s

def run (w : Surroundings) (text name : List Char) (arguments : List (List Char)) : Output :=
  let start : State := ⟨⟨name, arguments, [], 0⟩, [], [], none⟩
  match Command.read? text with
  | none =>
      let s := start.complain .plain "Syntax error".toList
      ⟨some 2, [], toBytes s.err⟩
  | some c =>
      let s := c.run w .plain start
      let code : Option Int := match s.ended with
        | none => some s.values.status
        | some (.exit n) => some n
        | some .signal => none
      ⟨code, toBytes s.out, toBytes s.err⟩

end Lintel.Script
