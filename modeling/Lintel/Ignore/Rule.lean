import Lintel.Glob.Table
import Lintel.Path.Basic
import Lintel.Text.Blank

/-!
# Ignore rules

Each line of an ignore file is a rule unless it is blank or a comment. A rule has a pattern; it may
be negated, and it may be about directories only. A pattern without a separator matches at any
depth. Of the rules that match a path the last one decides, and a path that no rule decides is
treated like the directory that holds it.
-/
namespace Lintel.Ignore

open Glob (Pattern PatternFault)

structure Rule where
  negated : Bool
  onlyDirectories : Bool
  pattern : Pattern

structure Line where
  spelled : List Char
  negated : Bool
  anchored : Bool
  onlyDirectories : Bool
  body : List Char
  deriving DecidableEq, Repr

/-- A trailing escaped blank keeps all blanks at the end. -/
def trimLine (cs : List Char) : List Char :=
  if (Text.dropSuffix? ['\\', ' '] cs).isSome then cs else Text.trimEnd cs

def dropSlash (cs : List Char) : Option (List Char) :=
  (Text.dropSuffix? ['/'] cs).map fun body => (Text.dropSuffix? ['\\'] body).getD body

namespace Line

/-- Reads a line; blank lines and comments hold no rule. -/
def read? (cs : List Char) : Option Line :=
  if cs.head? = some '#' then none
  else
    let spelled := trimLine cs
    if spelled = [] then none
    else
      let (negated, anchored, body) : Bool × Bool × List Char :=
        match spelled with
        | '\\' :: '!' :: rest => (false, false, '!' :: rest)
        | '\\' :: '#' :: rest => (false, false, '#' :: rest)
        | '!' :: '/' :: rest => (true, true, rest)
        | '!' :: rest => (true, false, rest)
        | '/' :: rest => (false, true, rest)
        | rest => (false, false, rest)
      match dropSlash body with
      | some body => some ⟨spelled, negated, anchored, true, body⟩
      | none => some ⟨spelled, negated, anchored, false, body⟩

def isFloating (body : List Char) : Bool :=
  body == ['*', '*'] || (Text.dropPrefix? ['*', '*', '/'] body).isSome

/-- The text of the pattern. One that ends in two stars matches what is inside a directory and not
the directory itself. -/
def patternText (l : Line) : List Char :=
  let text :=
    if l.anchored || l.body.contains '/' || isFloating l.body then l.body
    else '*' :: '*' :: '/' :: l.body
  if (Text.dropSuffix? ['/', '*', '*'] text).isSome then text ++ ['/', '*'] else text

def rule (l : Line) : Except PatternFault Rule :=
  (Pattern.readLenient l.patternText).map fun p => ⟨l.negated, l.onlyDirectories, p⟩

end Line

def Rule.covers (r : Rule) (path : Bytes) (isDirectory : Bool) : Bool :=
  (isDirectory || ! r.onlyDirectories) && r.pattern.accepts path

def verdict (rules : List Rule) (path : Bytes) (isDirectory : Bool) : Option Bool :=
  (rules.reverse.find? (·.covers path isDirectory)).map (! ·.negated)

/-- What the rules say about the directories that hold a path, the nearest first. The names of the
path are given last first. -/
def inherited (rules : List Rule) : List Bytes → Bool
  | [] => false
  | _ :: outer =>
      match verdict rules (Path.joinParts outer.reverse) true with
      | some ignored => ignored
      | none => inherited rules outer

def ignores (rules : List Rule) (names : List Bytes) : Bool :=
  match verdict rules (Path.joinParts names) false with
  | some ignored => ignored
  | none => inherited rules names.reverse

end Lintel.Ignore
