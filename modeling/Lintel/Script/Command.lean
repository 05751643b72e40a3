import Lintel.Script.Token

/-!
# Commands of a script

Commands form a tree. The part of the language that is read has no pipes, no loops but those over
words and no functions, so that every script comes to an end.
-/
namespace Lintel.Script

inductive Command
  | nothing
  | simple (assignments : List (List Char × Word)) (words : List Word) (redirects : List Redirect)
  | sequence (first second : Command)
  | andThen (first second : Command)
  | orElse (first second : Command)
  | negated (body : Command)
  | choose (test yes no : Command)
  /-- Runs the body for each field of the words or, without words, for each argument. -/
  | each (name : List Char) (words : Option (List Word)) (body : Command)
  | arm (subject : Word) (patterns : List Word) (body otherwise : Command)
  | redirected (body : Command) (redirects : List Redirect)
  deriving Repr

def Token.isStop (t : Token) : Bool :=
  t == .operator .armEnd || t == .operator .closing
    || ["then", "else", "elif", "fi", "do", "done", "esac", "\x7d"].any t.spells

def isBreak (t : Token) : Bool := t == .operator .lineEnd || t == .operator .semicolon

def isLineEnd (t : Token) : Bool := t == .operator .lineEnd

def skipKeyword (s : String) : List Token → Option (List Token)
  | t :: ts => if t.spells s then some ts else none
  | [] => none

def assignment? (w : Word) : Option (List Char × Word) :=
  let isBare (p : Part) : Bool := p matches .char _ false
  let (name, value) := w.span fun p => isBare p && p != .char '=' false
  match value with
  | .char '=' false :: value => do
      let name ← Word.bare? name
      if isName name then some (name, value) else none
  | _ => none

def takeAssignments : List Word → List (List Char × Word) × List Word
  | [] => ([], [])
  | w :: ws =>
      match assignment? w with
      | some a => let (as, rest) := takeAssignments ws; (a :: as, rest)
      | none => ([], w :: ws)

def takeRedirects : List Token → List Redirect × List Token
  | .redirect r :: ts => let (rs, rest) := takeRedirects ts; (r :: rs, rest)
  | ts => ([], ts)

def takeWords : List Token → List Word × List Redirect × List Token
  | .word w :: ts => let (ws, rs, rest) := takeWords ts; (w :: ws, rs, rest)
  | .redirect r :: ts => let (ws, rs, rest) := takeWords ts; (ws, r :: rs, rest)
  | ts => ([], [], ts)

def takePatterns : List Token → Option (List Word × List Token)
  | .word w :: .operator .bar :: ts => (takePatterns ts).map fun (ws, rest) => (w :: ws, rest)
  | .word w :: .operator .closing :: ts => some ([w], ts)
  | _ => none

def simpleCommand? (ts : List Token) : Option (Command × List Token) :=
  match takeWords ts with
  | ([], [], _) => none
  | (words, redirects, rest) =>
      let (assignments, words) := takeAssignments words
      some (.simple assignments words redirects, rest)

mutual

/-- Reads commands up to a stop. The bound of this and the readers below counts tokens and calls. -/
def commandsFrom : Nat → List Token → Option (Command × List Token)
  | 0, _ => none
  | n + 1, ts =>
      match ts.dropWhile isBreak with
      | [] => some (.nothing, [])
      | t :: rest =>
          if t.isStop then some (.nothing, t :: rest)
          else do
            let (first, after) ← chainFrom n (t :: rest)
            match after with
            | [] => some (first, [])
            | b :: more =>
                if isBreak b then do
                  let (second, after) ← commandsFrom n more
                  match second with
                  | .nothing => some (first, after)
                  | second => some (.sequence first second, after)
                else if b.isStop then some (first, b :: more)
                else none

def chainFrom : Nat → List Token → Option (Command × List Token)
  | 0, _ => none
  | n + 1, ts => do
      let (first, after) ← commandFrom n ts
      linksFrom n first after

def linksFrom : Nat → Command → List Token → Option (Command × List Token)
  | 0, _, _ => none
  | n + 1, first, .operator .both :: ts => do
      let (second, after) ← commandFrom n (ts.dropWhile isLineEnd)
      linksFrom n (.andThen first second) after
  | n + 1, first, .operator .either :: ts => do
      let (second, after) ← commandFrom n (ts.dropWhile isLineEnd)
      linksFrom n (.orElse first second) after
  | _ + 1, first, ts => some (first, ts)

def commandFrom : Nat → List Token → Option (Command × List Token)
  | 0, _ => none
  | _ + 1, [] => none
  | n + 1, t :: ts =>
      let close : Option (Command × List Token) → Option (Command × List Token)
        | none => none
        | some (body, after) =>
            match takeRedirects after with
            | ([], after) => some (body, after)
            | (redirects, after) => some (.redirected body redirects, after)
      if t.isStop then none
      else if t.spells "!" then
        (commandFrom n ts).map fun (body, after) => (.negated body, after)
      else if t.spells "if" then close (conditionFrom n ts)
      else if t.spells "for" then close (loopFrom n ts)
      else if t.spells "case" then close do
        match ts with
        | .word subject :: ts =>
            let ts ← skipKeyword "in" (ts.dropWhile isLineEnd)
            armsFrom n subject ts
        | _ => none
      else if t.spells "\x7b" then close do
        let (body, after) ← commandsFrom n ts
        some (body, ← skipKeyword "\x7d" after)
      else simpleCommand? (t :: ts)

def conditionFrom : Nat → List Token → Option (Command × List Token)
  | 0, _ => none
  | n + 1, ts => do
      let (test, after) ← commandsFrom n ts
      let (yes, after) ← commandsFrom n (← skipKeyword "then" after)
      match after with
      | [] => none
      | t :: rest =>
          if t.spells "elif" then do
            let (no, after) ← conditionFrom n rest
            some (.choose test yes no, after)
          else if t.spells "else" then do
            let (no, after) ← commandsFrom n rest
            some (.choose test yes no, ← skipKeyword "fi" after)
          else do
            some (.choose test yes .nothing, ← skipKeyword "fi" (t :: rest))

def loopFrom : Nat → List Token → Option (Command × List Token)
  | 0, _ => none
  | n + 1, ts =>
      match ts with
      | [] => none
      | t :: ts => do
          let name ← t.bare?
          if ! isName name then none
          else
            let ts := ts.dropWhile isLineEnd
            let (words, ts) ← match skipKeyword "in" ts with
              | none => some (none, ts)
              | some ts =>
                  match takeWords ts with
                  | (ws, [], rest) => some (some ws, rest)
                  | _ => none
            let (body, after) ← commandsFrom n (← skipKeyword "do" (ts.dropWhile isBreak))
            some (.each name words body, ← skipKeyword "done" after)

def armsFrom : Nat → Word → List Token → Option (Command × List Token)
  | 0, _, _ => none
  | n + 1, subject, ts => do
      match skipKeyword "esac" (ts.dropWhile isLineEnd) with
      | some after => some (.nothing, after)
      | none =>
          let ts := match ts.dropWhile isLineEnd with
            | .operator .opening :: ts => ts
            | ts => ts
          let (patterns, after) ← takePatterns ts
          let (body, after) ← commandsFrom n after
          let (otherwise, after) ← match after with
            | .operator .armEnd :: ts => armsFrom n subject ts
            | ts => (skipKeyword "esac" ts).map (.nothing, ·)
          some (.arm subject patterns body otherwise, after)

end

def Command.read? (cs : List Char) : Option Command := do
  let ts ← tokens? cs
  match commandsFrom (10 * ts.length + 10) ts with
  | some (c, []) => some c
  | _ => none

end Lintel.Script
