import Lintel.Json.Reader

/-!
# JSON values

Values are read without a shape in mind and written in two layouts: without any blanks, and with
an indentation of two spaces, where empty lists and objects stay on one line. Members keep their
order.
-/
namespace Lintel.Json

inductive Value
  | null
  | bool (b : Bool)
  | number (n : Number)
  | text (s : String)
  | list (items : List Value)
  | object (members : List (String × Value))
  deriving Repr

namespace Value

def natural (n : Nat) : Value := .number (.natural n)

def record (members : List (String × Option Value)) : Value :=
  .object (members.filterMap fun (k, v) => v.map (k, ·))

/-! ## Writing -/

def hexDigit (n : Nat) : Char := Nat.digitChar n

def escapeChar (c : Char) : List Char :=
  match c with
  | '"' => ['\\', '"']
  | '\\' => ['\\', '\\']
  | '\x08' => ['\\', 'b']
  | '\t' => ['\\', 't']
  | '\n' => ['\\', 'n']
  | '\x0c' => ['\\', 'f']
  | '\r' => ['\\', 'r']
  | c =>
      if c.toNat < 32 then ['\\', 'u', '0', '0', hexDigit (c.toNat / 16), hexDigit (c.toNat % 16)]
      else [c]

def writeText (s : String) : List Char := '"' :: s.toList.flatMap escapeChar ++ ['"']

def writeNumber : Number → List Char
  | .natural n => Nat.toDigits 10 n
  | .negative n => '-' :: Nat.toDigits 10 n
  | .binary neg b => (Decimal.text neg b).toList

def writeBool (b : Bool) : List Char := if b then ['t', 'r', 'u', 'e'] else ['f', 'a', 'l', 's', 'e']

mutual

def compact : Value → List Char
  | .null => ['n', 'u', 'l', 'l']
  | .bool b => writeBool b
  | .number n => writeNumber n
  | .text s => writeText s
  | .list items => '[' :: compactItems items ++ [']']
  | .object members => '{' :: compactMembers members ++ ['}']

def compactItems : List Value → List Char
  | [] => []
  | [v] => compact v
  | v :: vs => compact v ++ ',' :: compactItems vs

def compactMembers : List (String × Value) → List Char
  | [] => []
  | [(k, v)] => writeText k ++ ':' :: compact v
  | (k, v) :: ms => writeText k ++ ':' :: compact v ++ ',' :: compactMembers ms

end

def indent (depth : Nat) : List Char := '\n' :: List.replicate (2 * depth) ' '

mutual

def pretty (depth : Nat) : Value → List Char
  | .null => ['n', 'u', 'l', 'l']
  | .bool b => writeBool b
  | .number n => writeNumber n
  | .text s => writeText s
  | .list items =>
      if items.isEmpty then ['[', ']']
      else '[' :: prettyItems (depth + 1) items ++ indent depth ++ [']']
  | .object members =>
      if members.isEmpty then ['{', '}']
      else '{' :: prettyMembers (depth + 1) members ++ indent depth ++ ['}']

def prettyItems (depth : Nat) : List Value → List Char
  | [] => []
  | [v] => indent depth ++ pretty depth v
  | v :: vs => indent depth ++ pretty depth v ++ ',' :: prettyItems depth vs

def prettyMembers (depth : Nat) : List (String × Value) → List Char
  | [] => []
  | [(k, v)] => indent depth ++ writeText k ++ ':' :: ' ' :: pretty depth v
  | (k, v) :: ms =>
      indent depth ++ writeText k ++ ':' :: ' ' :: pretty depth v ++ ',' :: prettyMembers depth ms

end

def toCompact (v : Value) : String := String.ofList (compact v)

def toPretty (v : Value) : String := String.ofList (pretty 0 v)

/-! ## Reading -/

def readMembers {α : Type} (r : Reader α) (depth : Nat) :
    Nat → Bool → Cursor → Except Fault (List (String × α) × Cursor)
  | 0, _, c => .error (c.faultAhead .endInObject)
  | fuel + 1, isFirst, c => do
      match ← Reader.nextKey isFirst c with
      | (false, c) => .ok ([], c)
      | (true, c) =>
          let (key, c) ← string c
          let (a, c) ← r depth (← Reader.colon c)
          let (ms, c) ← readMembers r depth fuel false c
          .ok ((key, a) :: ms, c)

def reader : Reader Value
  | depth, c => do
      let (b, c) ← inSight c
      if b = 110 then .ok (.null, ← c.advance.ident nullTail)
      else if b = 116 then .ok (.bool true, ← c.advance.ident trueTail)
      else if b = 102 then .ok (.bool false, ← c.advance.ident falseTail)
      else if b = 45 then (Number.read true c.advance).map fun (n, d) => (.number n, d)
      else if Cursor.isDigit b then (Number.read false c).map fun (n, d) => (.number n, d)
      else if b = quoteByte then (string c.advance).map fun (s, d) => (.text s, d)
      else if b = listOpen then
        match depth with
        | 0 | 1 => .error (c.faultAhead .tooDeep)
        | inner + 1 => do
            let (vs, d) ← Reader.elements (fun _ => reader inner) inner
              (c.rest.length + 1) true c.advance
            .ok (.list vs, ← Reader.endList d)
      else if b = objectOpen then
        match depth with
        | 0 | 1 => .error (c.faultAhead .tooDeep)
        | inner + 1 => do
            let (ms, d) ← readMembers (fun _ => reader inner) inner
              (c.rest.length + 1) true c.advance
            .ok (.object ms, ← Reader.endObject d)
      else .error (c.faultAhead .expectedValue)

def ofText (text : String) : Except Fault Value := decode reader text

end Value

end Lintel.Json
