/-!
# Splitting an option string

Options are written the way one types them at a prompt: blanks separate arguments, quotes keep
them together, a backslash keeps the next character, and a `#` where an argument could start hides
the rest of its line. The only mistake is a quote that is not closed.
-/
namespace Lintel.Words

inductive Fault
  | unclosedQuote
  deriving DecidableEq, Repr

def Fault.message : Fault → String
  | .unclosedQuote => "missing closing quote"

/-- Where a reading stands. Outside `between` and `comment` there is a current word. -/
inductive Mode
  | between
  | betweenEscape
  | plain
  | plainEscape
  | single
  | double
  | doubleEscape
  | comment
  deriving DecidableEq, Repr

def isSeparator (c : Char) : Bool := c == ' ' || c == '\t' || c == '\n'

def isQuotable (c : Char) : Bool := c == '$' || c == '\x60' || c == '"' || c == '\\'

/-- One character: the next mode, the current word, last character first, and the word that is
complete, if any. -/
def step (mode : Mode) (word : List Char) (c : Char) : Mode × List Char × Option (List Char) :=
  match mode with
  | .between =>
      if c = '\'' then (.single, word, none)
      else if c = '"' then (.double, word, none)
      else if c = '\\' then (.betweenEscape, word, none)
      else if isSeparator c then (.between, word, none)
      else if c = '#' then (.comment, word, none)
      else (.plain, c :: word, none)
  | .betweenEscape => if c = '\n' then (.between, word, none) else (.plain, c :: word, none)
  | .plain =>
      if c = '\'' then (.single, word, none)
      else if c = '"' then (.double, word, none)
      else if c = '\\' then (.plainEscape, word, none)
      else if isSeparator c then (.between, [], some word.reverse)
      else (.plain, c :: word, none)
  | .plainEscape => if c = '\n' then (.plain, word, none) else (.plain, c :: word, none)
  | .single => if c = '\'' then (.plain, word, none) else (.single, c :: word, none)
  | .double =>
      if c = '"' then (.plain, word, none)
      else if c = '\\' then (.doubleEscape, word, none)
      else (.double, c :: word, none)
  | .doubleEscape =>
      if c = '\n' then (.double, word, none)
      else if isQuotable c then (.double, c :: word, none)
      else (.double, c :: '\\' :: word, none)
  | .comment => if c = '\n' then (.between, word, none) else (.comment, word, none)

def finish (mode : Mode) (word : List Char) : Except Fault (List (List Char)) :=
  match mode with
  | .between | .comment => .ok []
  | .plain => .ok [word.reverse]
  | .betweenEscape | .plainEscape => .ok [('\\' :: word).reverse]
  | .single | .double | .doubleEscape => .error .unclosedQuote

def splitFrom (mode : Mode) (word : List Char) : List Char → Except Fault (List (List Char))
  | [] => finish mode word
  | c :: rest =>
      match step mode word c with
      | (next, word, none) => splitFrom next word rest
      | (next, word, some w) => (splitFrom next word rest).map (w :: ·)

def split (text : String) : Except Fault (List String) :=
  (splitFrom .between [] text.toList).map (·.map String.ofList)

end Lintel.Words
