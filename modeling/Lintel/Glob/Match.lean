import Lintel.Glob.Token
import Lintel.Text.Pieces
import Lintel.Text.Utf8

/-!
# Matching

A token consumes bytes from the front of a path, in possibly many ways. `Token.ends` lists what
each of them leaves, and a pattern matches a path when some way through its tokens leaves nothing.
A wildcard and a class each consume a single byte, and only the spanning tokens and a class pass a
separator. `Pattern.accepts`, in the module on tables, decides this without following every way.
-/
namespace Lintel.Glob

def separator : UInt8 := 47

def starEnds : Bytes → List Bytes
  | [] => [[]]
  | b :: rest => (b :: rest) :: if b = separator then [] else starEnds rest

def suffixes : Bytes → List Bytes
  | [] => [[]]
  | b :: rest => (b :: rest) :: suffixes rest

def behindSeparators : Bytes → List Bytes
  | [] => []
  | b :: rest => (if b = separator then [rest] else []) ++ behindSeparators rest

/-- The byte ranges of a range of characters: its ends are spelled out, and the dash binds the
last byte of the lower to the first byte of the upper one. -/
def byteRanges (range : Char × Char) : List (UInt8 × UInt8) :=
  let low := String.utf8EncodeChar range.1
  let high := String.utf8EncodeChar range.2
  let single (b : UInt8) := (b, b)
  if range.1 = range.2 then low.map single
  else match low.getLast?, high with
    | some l, h :: tail => low.dropLast.map single ++ (l, h) :: tail.map single
    | _, _ => []

def classHolds (negated : Bool) (ranges : List (Char × Char)) (b : UInt8) : Bool :=
  negated != (ranges.flatMap byteRanges).any fun r => r.1 ≤ b && b ≤ r.2

mutual

/-- A group whose alternatives are all void is void. Void alternatives are never tried. -/
def Token.isVoid : Token → Bool
  | .either choices => Token.allVoid choices
  | _ => false

def Token.areVoid : List Token → Bool
  | [] => true
  | t :: ts => Token.isVoid t && Token.areVoid ts

def Token.allVoid : List (List Token) → Bool
  | [] => true
  | c :: cs => Token.areVoid c && Token.allVoid cs

end

mutual

def Token.ends : Token → Bytes → List Bytes
  | .literal c, s => (Text.dropPrefix? (String.utf8EncodeChar c) s).toList
  | .one, s => match s with
      | b :: rest => if b = separator then [] else [rest]
      | [] => []
  | .many, s => starEnds s
  | .leading, s => s :: behindSeparators s
  | .inner, s => match s with
      | b :: rest => if b = separator then rest :: behindSeparators rest else []
      | [] => []
  | .trailing, s => match s with
      | b :: rest => if b = separator then suffixes rest else []
      | [] => []
  | .oneOf negated ranges, s => match s with
      | b :: rest => if classHolds negated ranges b then [rest] else []
      | [] => []
  | .either choices, s =>
      if Token.allVoid choices then [s] else Token.choiceEnds choices s

def Token.listEnds : List Token → Bytes → List Bytes
  | [], s => [s]
  | t :: ts, s => (Token.ends t s).flatMap (Token.listEnds ts)

def Token.choiceEnds : List (List Token) → Bytes → List Bytes
  | [], _ => []
  | c :: cs, s =>
      (if Token.areVoid c then [] else Token.listEnds c s) ++ Token.choiceEnds cs s

end

def Pattern.Matches (p : Pattern) (s : Bytes) : Prop :=
  match p with
  | [.leading] => True
  | _ => [] ∈ Token.listEnds p s

end Lintel.Glob
