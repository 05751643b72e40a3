import Lintel.Toml.Quoted
import Lintel.Toml.Scalar
import Lintel.Toml.Table

/-!
# Reading settings files

A settings file is a sequence of headers and entries, one to a line. The reader covers the TOML
that settings can be written in: all of it but headers in double brackets, since no setting is a
list of tables. Arrays and braces nest to a fixed depth, and a dotted key has a fixed number of
parts. Whatever does not fit makes the whole file unreadable.
-/
namespace Lintel.Toml

abbrev Reader := StateT (List Char) Option

namespace Reader

variable {α : Type}

def ofFunction (f : List Char → Option (α × List Char)) : Reader α := f

def peek : Reader (Option Char) := ofFunction fun cs => some (cs.head?, cs)

def spanOf (p : Char → Bool) : Reader (List Char) := ofFunction fun cs => some (cs.span p)

def accept (c : Char) : Reader Bool := ofFunction fun
  | d :: rest => if d = c then some (true, rest) else some (false, d :: rest)
  | [] => some (false, [])

def expect (c : Char) : Reader Unit := do
  if ← accept c then pure () else failure

/-- Runs a reader that takes a bound on its steps. Each step passes over a character, so the length
of the text is enough. -/
def bounded (r : Nat → Reader α) : Reader α := ofFunction fun cs => r (cs.length + 1) cs

def gap : Reader Unit := do
  let _ ← spanOf isGap

def restOfLine : Reader Unit := do
  gap
  if ← accept '#' then
    let _ ← spanOf isPlain
  ofFunction fun
    | [] => some ((), [])
    | '\n' :: rest => some ((), rest)
    | '\r' :: '\n' :: rest => some ((), rest)
    | _ => none

def dropFiller (inComment : Bool) : List Char → List Char
  | [] => []
  | '\n' :: rest => dropFiller false rest
  | '\r' :: '\n' :: rest => dropFiller false rest
  | c :: rest =>
      if inComment then if isPlain c then dropFiller true rest else c :: rest
      else if isGap c then dropFiller false rest
      else if c = '#' then dropFiller true rest
      else c :: rest

def filler : Reader Unit := ofFunction fun cs => some ((), dropFiller false cs)

/-! ## Keys -/

def isBareKey (c : Char) : Bool :=
  Text.isAsciiDigit c || ('a' ≤ c && c ≤ 'z') || ('A' ≤ c && c ≤ 'Z') || c == '-' || c == '_'

def keyPart : Reader String := do
  match ← peek with
  | some '"' | some '\'' => ofFunction shortString?
  | _ =>
      let cs ← spanOf isBareKey
      if cs = [] then failure else pure (String.ofList cs)

def depthLimit : Nat := 79

def keyFrom : Nat → Reader Key
  | 0 => failure
  | n + 1 => do
      gap
      let part ← keyPart
      gap
      if ← accept '.' then
        let k ← keyFrom n
        pure ⟨part :: k.path, k.name⟩
      else pure ⟨[], part⟩

def key : Reader Key := keyFrom depthLimit

/-! ## Values -/

/-- Items up to a closing character, with commas between them. Only if `trailing` may a comma
stand behind the last one. -/
def itemsFrom (item : Reader α) (between : Reader Unit) (close : Char) (trailing : Bool) :
    Nat → Reader (List α)
  | 0 => failure
  | n + 1 => do
      let a ← item
      between
      if ← accept close then pure [a]
      else
        expect ','
        between
        let closed ← if trailing then accept close else pure false
        if closed then pure [a]
        else
          let rest ← itemsFrom item between close trailing n
          pure (a :: rest)

def items (item : Reader α) (between : Reader Unit) (close : Char) (trailing : Bool) :
    Reader (List α) := do
  between
  if ← accept close then pure [] else bounded (itemsFrom item between close trailing)

def isScalarChar (c : Char) : Bool := isBareKey c || c == '+' || c == '.' || c == ':'

def scalar : Reader Node := do
  let cs ← spanOf isScalarChar
  if ! isScalar cs then failure
  if isDate cs then
    ofFunction fun rest =>
      match rest with
      | ' ' :: more =>
          let (clock, after) := more.span isScalarChar
          if isZonedClock clock then some ((), after) else some ((), rest)
      | rest => some ((), rest)
  pure .scalar

def braced (value : Reader Node) : Reader Node := do
  let entry : Reader (Key × Node) := do
    let k ← key
    expect '='
    gap
    let v ← value
    pure (k, v)
  let entries ← items entry gap '}' false
  let es ← ofFunction fun rest =>
    (entries.foldlM (fun (es : Entries) e => es.add e.1 e.2) []).map (·, rest)
  pure (.table .braced es)

def valueWith (inner : Option (Reader Node)) : Reader Node := do
  match ← peek, inner with
  | some '"', _ | some '\'', _ =>
      let s ← ofFunction string?
      pure (.string s)
  | some '[', some value =>
      expect '['
      let vs ← items value filler ']' true
      pure (.array vs)
  | some '{', some value =>
      expect '{'
      braced value
  | _, _ => scalar

def value : Nat → Reader Node
  | 0 => valueWith none
  | depth + 1 => valueWith (some (value depth))

/-! ## Lines -/

inductive Statement
  | header (key : Key)
  | entry (key : Key) (value : Node)

def statement? : Reader (Option Statement) := do
  gap
  match ← peek with
  | none | some '#' | some '\n' | some '\r' => pure none
  | some '[' =>
      expect '['
      let k ← key
      expect ']'
      pure (some (.header k))
  | some _ =>
      let k ← key
      expect '='
      gap
      let v ← value depthLimit
      pure (some (.entry k v))

def statementsFrom : Nat → Reader (List Statement)
  | 0 => failure
  | n + 1 => do
      match ← peek with
      | none => pure []
      | some _ =>
          let s ← statement?
          restOfLine
          let rest ← statementsFrom n
          pure (s.toList ++ rest)

def statements : Reader (List Statement) := do
  let _ ← accept '\uFEFF'
  bounded statementsFrom

end Reader

structure Draft where
  root : Entries
  header : List String

def Draft.extend (d : Draft) : Reader.Statement → Option Draft
  | .header k => (d.root.openTable k).map (⟨·, k.parts⟩)
  | .entry k v => (d.root.addUnder d.header k v).map (⟨·, d.header⟩)

def read? (text : List Char) : Option Entries := do
  let (statements, _) ← Reader.statements text
  let d ← statements.foldlM Draft.extend ⟨[], []⟩
  some d.root

end Lintel.Toml
