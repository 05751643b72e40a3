/-!
# Text and its bytes

File names, arguments and process output are byte strings; messages and patterns are text. This
module reads bytes as UTF-8 one byte at a time. `segments` cuts a byte string into characters,
spans that no character can begin with, and a possible unfinished character at the end; strict
and lossy reading are both views of it.
-/
namespace Lintel

abbrev Bytes := List UInt8

namespace Text

def bytes (cs : List Char) : Bytes := cs.flatMap String.utf8EncodeChar

@[simp] theorem bytes_nil : bytes [] = [] := rfl

@[simp] theorem bytes_append (cs ds : List Char) : bytes (cs ++ ds) = bytes cs ++ bytes ds := by
  simp [bytes]

inductive Segment
  | char (c : Char)
  | invalid (length : Nat)
  | unfinished (length : Nat)
  deriving DecidableEq, Repr

/-- A character whose first bytes have been read: how many bytes it still owes, which values the
next one may have, the bits so far, and the number of bytes so far. -/
structure Partial where
  owed : Nat
  low : UInt8
  high : UInt8
  bits : Nat
  taken : Nat
  deriving DecidableEq, Repr

inductive Lead
  | whole (c : Char)
  | opens (p : Partial)
  | none
  deriving DecidableEq, Repr

/-- What a first byte announces. The bounds on the second byte exclude overlong forms,
surrogates and values past the last code point. -/
def Lead.of (b : UInt8) : Lead :=
  if b < 0x80 then .whole (Char.ofNat b.toNat)
  else if 0xC2 ≤ b ∧ b ≤ 0xDF then .opens ⟨1, 0x80, 0xBF, b.toNat % 32, 1⟩
  else if b = 0xE0 then .opens ⟨2, 0xA0, 0xBF, 0, 1⟩
  else if b = 0xED then .opens ⟨2, 0x80, 0x9F, 13, 1⟩
  else if 0xE1 ≤ b ∧ b ≤ 0xEF then .opens ⟨2, 0x80, 0xBF, b.toNat % 16, 1⟩
  else if b = 0xF0 then .opens ⟨3, 0x90, 0xBF, 0, 1⟩
  else if 0xF1 ≤ b ∧ b ≤ 0xF3 then .opens ⟨3, 0x80, 0xBF, b.toNat % 8, 1⟩
  else if b = 0xF4 then .opens ⟨3, 0x80, 0x8F, 4, 1⟩
  else .none

def Partial.accepts (p : Partial) (b : UInt8) : Bool := p.low ≤ b && b ≤ p.high

def Partial.push (p : Partial) (b : UInt8) : Partial :=
  ⟨p.owed - 1, 0x80, 0xBF, p.bits * 64 + b.toNat % 64, p.taken + 1⟩

def segmentsFrom : Option Partial → Bytes → List Segment
  | none, [] => []
  | some p, [] => [.unfinished p.taken]
  | none, b :: rest =>
      match Lead.of b with
      | .whole c => .char c :: segmentsFrom none rest
      | .opens p => segmentsFrom (some p) rest
      | .none => .invalid 1 :: segmentsFrom none rest
  | some p, b :: rest =>
      if p.accepts b then
        if p.owed ≤ 1 then .char (Char.ofNat (p.push b).bits) :: segmentsFrom none rest
        else segmentsFrom (some (p.push b)) rest
      else
        .invalid p.taken :: match Lead.of b with
          | .whole c => .char c :: segmentsFrom none rest
          | .opens q => segmentsFrom (some q) rest
          | .none => .invalid 1 :: segmentsFrom none rest

def segments (bs : Bytes) : List Segment := segmentsFrom none bs

def Segment.lossy : Segment → Char
  | .char c => c
  | .invalid _ | .unfinished _ => '\uFFFD'

def lossy (bs : Bytes) : List Char := (segments bs).map Segment.lossy

structure Utf8Fault where
  validUpTo : Nat
  length : Option Nat
  deriving DecidableEq, Repr

def Utf8Fault.message (f : Utf8Fault) : String :=
  match f.length with
  | some n => "invalid utf-8 sequence of " ++ toString n ++ " bytes from index "
      ++ toString f.validUpTo
  | none => "incomplete utf-8 byte sequence from index " ++ toString f.validUpTo

def strictFrom (index : Nat) : List Segment → Except Utf8Fault (List Char)
  | [] => .ok []
  | .char c :: rest => (strictFrom (index + c.utf8Size) rest).map (c :: ·)
  | .invalid n :: _ => .error ⟨index, some n⟩
  | .unfinished _ :: _ => .error ⟨index, none⟩

def strict (bs : Bytes) : Except Utf8Fault (List Char) := strictFrom 0 (segments bs)

def decode? (bs : Bytes) : Option (List Char) := (strict bs).toOption

end Text

def bytesOf (s : String) : Bytes := Text.bytes s.toList

def displayText (bs : Bytes) : String := String.ofList (Text.lossy bs)

end Lintel
