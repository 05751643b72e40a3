import Lintel.Script.Word

/-!
# Tokens of a script

A script is cut into words, operators and redirections. Quotes and parameters are resolved here, so
that a word already says which of its characters are quoted. Streams can be sent to each other or
nowhere, but not to files; a script that needs more is refused as a whole.
-/
namespace Lintel.Script

inductive Target
  | stream (n : Nat)
  | nowhere
  deriving DecidableEq, Repr

structure Redirect where
  stream : Nat
  target : Target
  deriving DecidableEq, Repr

inductive Operator
  | lineEnd
  | semicolon
  | armEnd
  | both
  | either
  | opening
  | closing
  | bar
  deriving DecidableEq, Repr

inductive Token
  | word (w : Word)
  | operator (o : Operator)
  | redirect (r : Redirect)
  deriving DecidableEq, Repr

def isNameStart (c : Char) : Bool := c.isAlpha || c == '_'

def isNameChar (c : Char) : Bool := c.isAlphanum || c == '_'

def isName : List Char → Bool
  | [] => false
  | c :: cs => isNameStart c && cs.all isNameChar

def specialParameter? (c : Char) : Option Parameter :=
  match c with
  | '@' => some .allFields
  | '*' => some .allJoined
  | '#' => some .count
  | '?' => some .status
  | '$' => some .process
  | c => if Text.isAsciiDigit c then some (.argument (Text.digitValue c)) else none

def parameterOf? (name : List Char) : Option Parameter :=
  if isName name then some (.variable name)
  else if name ≠ [] ∧ name.all Text.isAsciiDigit then some (.argument (Text.decimal name))
  else match name with
    | [c] => specialParameter? c
    | _ => none

def parameter? : List Char → Option (Parameter × List Char)
  | [] => none
  | '{' :: rest =>
      match rest.span (· != '}') with
      | (_, []) => none
      | (name, _ :: after) => (parameterOf? name).map (·, after)
  | c :: rest =>
      if isNameStart c then
        let (name, after) := (c :: rest).span isNameChar
        some (.variable name, after)
      else (specialParameter? c).map (·, rest)

def isQuotable (c : Char) : Bool := c == '$' || c == '\x60' || c == '"' || c == '\\'

def endsWord (c : Char) : Bool :=
  c == ' ' || c == '\t' || c == '\n' || c == ';' || c == '&' || c == '|' || c == '(' || c == ')'
    || c == '<' || c == '>'

def wordFrom (quoted : Bool) : Nat → List Char → Option (Word × List Char)
  | 0, cs => if quoted then none else some ([], cs)
  | _ + 1, [] => if quoted then none else some ([], [])
  | n + 1, c :: rest =>
      let continued (quoted : Bool) (ps : List Part) (cs : List Char) :=
        (wordFrom quoted n cs).map fun (w, after) => (ps ++ w, after)
      match c, rest with
      | '\x60', _ => none
      | '\\', '\n' :: rest => continued quoted [] rest
      | '\\', d :: rest =>
          if quoted && ! isQuotable d then continued quoted [.char '\\' true, .char d true] rest
          else continued quoted [.char d true] rest
      | '"', '"' :: rest =>
          if quoted then continued false [] ('"' :: rest) else continued false [.emptyQuotes] rest
      | '"', rest => continued (! quoted) [] rest
      | '$', rest =>
          match parameter? rest with
          | some (p, after) => continued quoted [.parameter p quoted] after
          | none => continued quoted [.char '$' quoted] rest
      | c, rest =>
          if quoted then continued true [.char c true] rest
          else if c = '\'' then
            match rest.span (· != '\'') with
            | (_, []) => none
            | ([], _ :: after) => continued false [.emptyQuotes] after
            | (body, _ :: after) => continued false (body.map (.char · true)) after
          else if endsWord c then some ([], c :: rest)
          else continued false [.char c false] rest

def word? (cs : List Char) : Option (Word × List Char) := wordFrom false (cs.length + 1) cs

def isDescriptor (c : Char) : Bool := c == '1' || c == '2'

def targetOf? (name : List Char) : Option Target :=
  if name = "/dev/null".toList then some .nowhere
  else if name = "/dev/stdout".toList then some (.stream 1)
  else if name = "/dev/stderr".toList then some (.stream 2)
  else none

def redirect? (cs : List Char) : Option (Redirect × List Char) := do
  let (number, arrow) := cs.span Text.isAsciiDigit
  match arrow with
  | '>' :: '&' :: d :: after =>
      if isDescriptor d then
        some (⟨if number = [] then 1 else Text.decimal number, .stream (Text.digitValue d)⟩, after)
      else none
  | '>' :: after =>
      let after := match after with
        | '>' :: more => more
        | after => after
      let (w, after) ← word? (after.dropWhile (· == ' '))
      let target ← targetOf? (← w.bare?)
      some (⟨if number = [] then 1 else Text.decimal number, target⟩, after)
  | '<' :: after =>
      let (w, after) ← word? (after.dropWhile (· == ' '))
      let target ← targetOf? (← w.bare?)
      if target = .nowhere then some (⟨0, target⟩, after) else none
  | _ => none

def isRedirect (cs : List Char) : Bool :=
  match (cs.span Text.isAsciiDigit).2 with
  | '>' :: _ | '<' :: _ => true
  | _ => false

def tokensFrom : Nat → List Char → Option (List Token)
  | 0, _ => none
  | _ + 1, [] => some []
  | n + 1, c :: rest =>
      match c, rest with
      | ' ', rest | '\t', rest => tokensFrom n rest
      | '\\', '\n' :: rest => tokensFrom n rest
      | '#', rest => tokensFrom n (rest.dropWhile (· != '\n'))
      | '\n', rest => (tokensFrom n rest).map (.operator .lineEnd :: ·)
      | ';', ';' :: rest => (tokensFrom n rest).map (.operator .armEnd :: ·)
      | ';', rest => (tokensFrom n rest).map (.operator .semicolon :: ·)
      | '&', '&' :: rest => (tokensFrom n rest).map (.operator .both :: ·)
      | '|', '|' :: rest => (tokensFrom n rest).map (.operator .either :: ·)
      | '|', rest => (tokensFrom n rest).map (.operator .bar :: ·)
      | '(', rest => (tokensFrom n rest).map (.operator .opening :: ·)
      | ')', rest => (tokensFrom n rest).map (.operator .closing :: ·)
      | '&', _ => none
      | c, rest =>
          if isRedirect (c :: rest) then do
            let (r, after) ← redirect? (c :: rest)
            (tokensFrom n after).map (.redirect r :: ·)
          else do
            let (w, after) ← word? (c :: rest)
            (tokensFrom n after).map (.word w :: ·)

def tokens? (cs : List Char) : Option (List Token) := tokensFrom (cs.length + 1) cs

def Token.bare? : Token → Option (List Char)
  | .word w => w.bare?
  | _ => none

def Token.spells (t : Token) (s : String) : Bool := t.bare? == some s.toList

end Lintel.Script
