import Lintel.Tree.Basic

/-!
# Following paths

`Tree.locate` takes a path to the location it names. Names are followed one at a time: `..` goes
to the directory that really holds the current one, a link is replaced by its target, and every
part but the last must stand in a directory. A path that needs more than forty links is given up.
-/
namespace Lintel

inductive IoFault
  | notFound
  | permissionDenied
  | notDirectory
  | isDirectory
  | badFormat
  | nameTooLong
  | tooManyLinks
  | notText
  | nulByte
  deriving DecidableEq, Repr

def IoFault.message : IoFault → String
  | .notFound => "No such file or directory (os error 2)"
  | .badFormat => "Exec format error (os error 8)"
  | .permissionDenied => "Permission denied (os error 13)"
  | .notDirectory => "Not a directory (os error 20)"
  | .isDirectory => "Is a directory (os error 21)"
  | .nameTooLong => "File name too long (os error 36)"
  | .tooManyLinks => "Too many levels of symbolic links (os error 40)"
  | .notText => "stream did not contain valid UTF-8"
  | .nulByte => "nul byte found in provided data"

namespace Tree

inductive Reached
  | here (l : Location)
  | link (holder : Location) (target : Path) (rest : List Bytes)
  | stuck (f : IoFault)

def nameLimit : Nat := 255

def descend (t : Tree) (l : Location) : List Bytes → Reached
  | [] => .here l
  | part :: rest =>
      if t.at? l ≠ some .directory then .stuck .notDirectory
      else if Path.isSilent part then descend t l rest
      else if part = [Path.dot, Path.dot] then descend t l.dropLast rest
      else if nameLimit < part.length then .stuck .nameTooLong
      else match t.at? (l ++ [part]) with
        | none => .stuck .notFound
        | some (.link target) => .link l target rest
        | some _ => descend t (l ++ [part]) rest

def linkLimit : Nat := 40

def locateFrom (t : Tree) : Nat → Location → List Bytes → Except IoFault Location
  | links, l, parts =>
      match t.descend l parts with
      | .here k => .ok k
      | .stuck f => .error f
      | .link holder target rest =>
          match links with
          | 0 => .error .tooManyLinks
          | n + 1 => locateFrom t n (if target.isAbsolute then [] else holder) (target.parts ++ rest)

/-- The location a path names. Relative paths start at the top directory. -/
def locate (t : Tree) (p : Path) : Except IoFault Location :=
  if p.bytes = [] then .error .notFound else t.locateFrom linkLimit [] p.parts

def object (t : Tree) (p : Path) : Except IoFault Object := do
  match t.at? (← t.locate p) with
  | some o => .ok o
  | none => .error .notFound

def exists? (t : Tree) (p : Path) : Bool := (t.object p).isOk

def isFile (t : Tree) (p : Path) : Bool :=
  match t.object p with
  | .ok (.file ..) => true
  | _ => false

def isDirectory (t : Tree) (p : Path) : Bool :=
  match t.object p with
  | .ok .directory => true
  | _ => false

def read (t : Tree) (p : Path) : Except IoFault Bytes := do
  match ← t.object p with
  | .file data _ => .ok data
  | .directory => .error .isDirectory
  | .link _ => .error .tooManyLinks

def readText (t : Tree) (p : Path) : Except IoFault (List Char) := do
  match Text.strict (← t.read p) with
  | .ok cs => .ok cs
  | .error _ => .error .notText

def realPath (t : Tree) (p : Path) : Except IoFault Path :=
  (t.locate p).map (Path.ofNames true)

end Tree

end Lintel
