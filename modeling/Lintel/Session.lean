import Lintel.Linter.Run
import Lintel.Selection

/-!
# A linting session

A session checks the linter, selects the files and lints them. The linter is checked before any
token is looked at.
-/
namespace Lintel

structure Request where
  linter : String
  tokens : List String
  ignorePath : Option Path := none
  noIgnore : Bool := false
  range : Option String := none
  options : Option String := none
  deriving DecidableEq, Repr

def Request.ignoring (r : Request) : Selection.Ignoring :=
  .ofOptions r.noIgnore r.ignorePath

namespace Session

def run (r : Request) (c : Catalogue) (t : Tree) (workingDir : Path) (sh : Shell) :
    Traced Report := do
  if r.tokens = [] then Traced.fail .noTokens
  else
    let l ← Installed.check c r.linter r.range sh
    let files ← Traced.ofExcept ((Selection.under workingDir).resolve t r.tokens r.ignoring)
    l.lint sh files r.options

end Session

end Lintel
