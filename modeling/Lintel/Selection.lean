import Lintel.Glob.Expand
import Lintel.Ignore.Filter
import Lintel.Path.FileSet

/-!
# Selecting files

Each token on the command line stands for files: a glob for those that it matches, any other token
for the file that it names. The first token that stands for nothing it could mean ends the
selection. Files are collected in the order of the tokens, and the ignore file is consulted last.
-/
namespace Lintel

structure Selection where
  workingDir : Path

namespace Selection

def under (dir : Path) : Selection := ⟨Path.anchor ⟨[Path.separator]⟩ dir⟩

def token (s : Selection) (t : Tree) (token : String) : Except Fault (List Path) :=
  if Glob.isGlob token then
    (Glob.expand t s.workingDir token).map (·.map s.workingDir.anchor)
  else
    let p := s.workingDir.anchor (Path.ofString token)
    if t.isFile p then .ok [p] else .error (.unresolved token)

def gather (s : Selection) (t : Tree) : List String → Except Fault (List Path)
  | [] => .ok []
  | tok :: toks => do
      let ps ← s.token t tok
      let rest ← gather s t toks
      .ok (ps ++ rest)

inductive Ignoring
  | off
  | named (path : Path)
  | byDefault
  deriving DecidableEq, Repr

def Ignoring.ofOptions (noIgnore : Bool) (path : Option Path) : Ignoring :=
  if noIgnore then .off
  else match path with
    | some p => .named p
    | none => .byDefault

def Ignoring.path? : Ignoring → Option Path
  | .named p => some p
  | .off | .byDefault => none

def resolve (s : Selection) (t : Tree) (toks : List String) (ignoring : Ignoring) :
    Except Fault FileSet := do
  let files := FileSet.ofList (← s.gather t toks)
  if ignoring = .off then .ok files
  else
    let f ← Ignore.Filter.load t s.workingDir ignoring.path?
    .ok (FileSet.ofList (f.keep files.files))

end Selection

end Lintel
