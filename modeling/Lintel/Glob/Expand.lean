import Lintel.Fault
import Lintel.Glob.Group
import Lintel.Glob.Table
import Lintel.Tree.Locate

/-!
# Expanding a glob

A glob is expanded by a walk from the directory that its leading literal parts name. The walk goes
no deeper than the remaining parts reach, and it passes over hidden entries unless one of those
parts asks for a leading dot. The files that the whole pattern matches are listed in the order of
the walk.
-/
namespace Lintel.Glob

/-- A compiled glob and the parts of its text. `literal` parts lead to where the walk starts; there
is at least one further part. -/
structure Search where
  absolute : Bool
  pattern : Pattern
  literal : List (List Char)
  parts : List (List Char)

def metaCharacters : List Char := ['*', '?', '[', ']', '{', '}', '\\']

def isLiteralPart (part : List Char) : Bool := part.all fun c => ! metaCharacters.contains c

def patternText (token : String) : Except Fault (List Char) :=
  match rewriteGroups token.toList with
  | .error operator => .error (.groupOperator token operator)
  | .ok text => .ok ((Text.dropPrefix? ['.', '/'] text).getD text)

namespace Search

def ofText (text : List Char) (pattern : Pattern) : Search :=
  let parts := Text.pieces (· == '/') text
  let literal := parts.dropLast.takeWhile isLiteralPart
  ⟨text.head? == some '/', pattern, literal, parts.drop literal.length⟩

def ofToken (token : String) : Except Fault Search := do
  if ! isGlob token then .error (.notGlob token)
  else
    let text ← patternText token
    match Pattern.read text with
    | .error cause => .error (.badGlob token (String.ofList text) cause)
    | .ok pattern => .ok (ofText text pattern)

def root (s : Search) (workingDir : Path) : Path :=
  let base := ['/'].intercalate s.literal
  if base = [] then if s.absolute then ⟨[Path.separator]⟩ else workingDir
  else if s.absolute then ⟨Text.bytes base⟩
  else workingDir.join ⟨Text.bytes base⟩

def hasPair (a b : Char) : List Char → Bool
  | x :: y :: rest => (x == a && y == b) || hasPair a b (y :: rest)
  | _ => false

def showsHidden (s : Search) : Bool :=
  s.parts.any fun part => part.head? == some '.' || hasPair '{' '.' part || hasPair ',' '.' part

/-- How deep matches can lie. Two stars and braces lift the limit. -/
def depthLimit (s : Search) : Option Nat :=
  if s.parts.any fun part => hasPair '*' '*' part || part.contains '{' then none
  else some s.parts.length

def isHidden (name : Bytes) : Bool := name.head? == some Path.dot

def visits (s : Search) (l : Location) : Bool :=
  s.depthLimit.all (l.length ≤ ·) && (s.showsHidden || ! l.any isHidden)

def candidate (s : Search) (workingDir file : Path) : Option Path :=
  if s.absolute then some file else Path.stripPrefix workingDir file

def accepts (s : Search) (workingDir file : Path) : Bool :=
  (s.candidate workingDir file).any fun p => s.pattern.accepts p.bytes

def run (s : Search) (t : Tree) (workingDir : Path) : List Path :=
  let start := s.root workingDir
  match t.locate start with
  | .error _ => []
  | .ok l =>
      if t.at? l ≠ some .directory then []
      else
        (((t.below l).filter fun e => s.visits e.1).map fun e =>
            e.1.foldl (fun p name => p.join ⟨name⟩) start).filter
          fun file => s.accepts workingDir file && t.isFile file

end Search

def expand (t : Tree) (workingDir : Path) (token : String) : Except Fault (List Path) :=
  (Search.ofToken token).map fun s => s.run t workingDir

end Lintel.Glob
