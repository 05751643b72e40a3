import Lintel.Fault
import Lintel.Ignore.Rule
import Lintel.Path.Normal
import Lintel.Tree.Locate

/-!
# Ignore files

A filter belongs to a working directory and takes its rules from an ignore file, which is either
named or, if it exists, the default one of that directory. The rules see paths relative to the
working directory; what lies outside is never ignored.
-/
namespace Lintel.Ignore

def defaultName : String := ".prettierignore"

structure Filter where
  workingDir : Path
  ignorePath : Option Path
  rules : List Rule

def readRules (path : Path) : List (List Char) → Except Fault (List Rule)
  | [] => .ok []
  | line :: rest =>
      match Line.read? line with
      | none => readRules path rest
      | some l =>
          match l.rule with
          | .error cause =>
              .error (.badIgnoreRule (String.ofList line) path (String.ofList l.spelled) cause)
          | .ok r => (readRules path rest).map (r :: ·)

namespace Filter

def choosePath (t : Tree) (workingDir : Path) : Option Path → Except Fault (Option Path)
  | some p =>
      let resolved := workingDir.anchor p
      if t.exists? resolved then .ok (some resolved) else .error (.ignorePathMissing p)
  | none =>
      let p := workingDir.join (Path.ofString defaultName)
      .ok (if t.isFile p then some p else none)

def load (t : Tree) (workingDir : Path) (named : Option Path) : Except Fault Filter := do
  match ← choosePath t workingDir named with
  | none => .ok ⟨workingDir, none, []⟩
  | some p =>
      match t.readText p with
      | .error cause => .error (.ignorePathUnreadable p cause)
      | .ok text => do
          let rules ← readRules p (Text.lines text)
          .ok ⟨workingDir, some p, rules⟩

def base (f : Filter) : Bytes :=
  (Text.dropPrefix? [Path.dot, Path.separator] f.workingDir.bytes).getD f.workingDir.bytes

/-- The names that the rules see. A base that starts the spelling of a path with several names is
taken off once more; this happens only below a relative working directory. -/
def names (f : Filter) (relative : Path) : List Bytes :=
  let bytes := relative.bytes
  let shortened :=
    if (Path.mk f.base).Same ⟨[Path.dot]⟩ ∨ Path.separator ∉ bytes then bytes
    else match Text.dropPrefix? f.base bytes with
      | none => bytes
      | some rest => (Text.dropPrefix? [Path.separator] rest).getD rest
  if shortened = [] then [] else Text.pieces (· == Path.separator) shortened

def isIgnored (f : Filter) (p : Path) : Bool :=
  match Path.stripPrefix f.workingDir (f.workingDir.anchor p) with
  | some relative => relative.bytes != [] && ignores f.rules (f.names relative)
  | none => false

def keep (f : Filter) (ps : List Path) : List Path :=
  (ps.filter (! f.isIgnored ·)).map f.workingDir.anchor

end Filter

end Lintel.Ignore
