import Lintel.Path.Normal
import Lintel.Script.Run

/-!
# Programs in a tree

A machine has a tree of files, a working directory and a search path. A name with one component is
looked for in the directories of the search path, any other is taken from the working directory. A
program is a file that may be run and begins by naming its interpreter; the one interpreter that
is there without a file is the script shell.
-/
namespace Lintel

structure Machine where
  tree : Tree
  workingDir : Path
  searchPath : List Path

namespace Machine

def scriptShell : Path := Path.ofString "/bin/sh"

def object (m : Machine) (p : Path) : Except IoFault Object :=
  if p.bytes = [] then .error .notFound else m.tree.object (m.workingDir.join p)

def isProgram (m : Machine) (p : Path) : Bool :=
  decide (p.Same scriptShell) ||
    match m.object p with
    | .ok (.file _ executable) => executable
    | _ => false

def find (m : Machine) (name : String) : Option Path :=
  let p := Path.ofString name
  let candidates :=
    if 1 < p.components.length then [m.workingDir.join p] else m.searchPath.map (·.join p)
  candidates.find? m.isProgram

def interpreter? (data : Bytes) : Option (Path × List Bytes) :=
  match Text.dropPrefix? (bytesOf "#!") data with
  | none => none
  | some rest =>
      let line := Text.trimBoth isGap (rest.takeWhile (· != 10))
      match line.span (! isGap ·) with
      | ([], _) => none
      | (name, extra) =>
          match extra.dropWhile isGap with
          | [] => some (⟨name⟩, [])
          | argument => some (⟨name⟩, [argument])
where
  isGap (b : UInt8) : Bool := b == 32 || b == 9

def search (start : Path → Except IoFault Output) (program : Path) :
    List Path → Bool → Except IoFault Output
  | [], denied => .error (if denied then .permissionDenied else .notFound)
  | dir :: dirs, denied =>
      match start (dir.join program) with
      | .error .permissionDenied => search start program dirs true
      | .error .notFound | .error .notDirectory => search start program dirs denied
      | r => r

/-- How many programs and interpreters can be waiting for each other. -/
def programLimit : Nat := 16

mutual

def launch (m : Machine) : Nat → Path → List Bytes → Except IoFault Output
  | 0, _, _ => .error .tooManyLinks
  | n + 1, program, arguments =>
      if program.Same scriptShell then .ok (runShell m n program arguments)
      else do
        match ← m.object program with
        | .file data true =>
            match interpreter? data with
            | none => .error .badFormat
            | some (interpreter, extra) =>
                launch m n interpreter (extra ++ program.bytes :: arguments)
        | _ => .error .permissionDenied

def runShell (m : Machine) : Nat → Path → List Bytes → Output
  | 0, _, _ => ⟨some 2, [], []⟩
  | n + 1, program, arguments =>
      let w : Script.Surroundings :=
        ⟨fun p => (m.object ⟨Script.toBytes p⟩).toOption,
          fun name arguments =>
            startNamed m n ⟨Script.toBytes name⟩ (arguments.map Script.toBytes)⟩
      let run (text name : Bytes) (arguments : List Bytes) : Output :=
        Script.run w (Script.ofBytes text) (Script.ofBytes name) (arguments.map Script.ofBytes)
      match arguments with
      | [] => ⟨some 0, [], []⟩
      | option :: rest =>
          if option = bytesOf "-c" then
            match rest with
            | [] => ⟨some 2, [], []⟩
            | [text] => run text program.bytes []
            | text :: name :: arguments => run text name arguments
          else match m.object ⟨option⟩ with
            | .ok (.file text _) => run text option rest
            | _ => ⟨some 2, [], []⟩

def startNamed (m : Machine) : Nat → Path → List Bytes → Except IoFault Output
  | 0, _, _ => .error .tooManyLinks
  | n + 1, program, arguments =>
      if program.bytes = [] then .error .notFound
      else if Path.separator ∈ program.bytes then launch m n program arguments
      else search (launch m n · arguments) program m.searchPath false

end

def hasNul (bs : Bytes) : Bool := 0 ∈ bs

def answer (m : Machine) (c : Call) : Except IoFault Output :=
  if hasNul c.program.bytes || c.arguments.any hasNul then .error .nulByte
  else startNamed m programLimit c.program c.arguments

def shell (m : Machine) : Shell where
  find := m.find
  answer _ c := m.answer c

end Machine

end Lintel
