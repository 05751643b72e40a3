import Lintel.Decimal.Shortest
import Lintel.Json.Cursor

/-!
# JSON numbers

A number is kept as an integer while it has neither fraction nor exponent and fits 64 bits.
Otherwise it is binary: its digits are collected while they fit 64 bits, the others only move the
point, and the result is scaled by a power of ten.
-/
namespace Lintel.Json

open Decimal (Binary)

/-- `negative n` is `-n` for a positive `n`. -/
inductive Number
  | natural (n : Nat)
  | negative (n : Nat)
  | binary (isNegative : Bool) (value : Binary)
  deriving DecidableEq, Repr

namespace Number

def wordLimit : Nat := Nat.pow 2 64 - 1

def exponentLimit : Nat := Nat.pow 2 31 - 1

def accumulate (limit : Nat) : Nat → Bytes → Nat × Bytes
  | n, [] => (n, [])
  | n, d :: ds =>
      let m := n * 10 + (d.toNat - 48)
      if limit < m then (n, d :: ds) else accumulate limit m ds

def ofParts (neg : Bool) (significand : Nat) (exponent : Int) (c : Cursor) :
    Except Fault (Number × Cursor) :=
  match Binary.ofDecimal significand exponent with
  | some b => .ok (.binary neg b, c)
  | none => .error (c.fault .numberTooLarge)

def isExponentMark (b : UInt8) : Bool := b == 101 || b == 69

def readExponent (neg : Bool) (significand : Nat) (start : Int) (c : Cursor) :
    Except Fault (Number × Cursor) :=
  let (grows, c) := match c.peek with
    | some 43 => (true, c.advance)
    | some 45 => (false, c.advance)
    | _ => (true, c)
  match c.peek with
  | none => .error (c.fault .endInValue)
  | some b =>
      if ! Cursor.isDigit b then .error (c.advance.fault .badNumber)
      else
        let (run, after) := c.digits
        match accumulate exponentLimit 0 run with
        | (e, []) =>
            ofParts neg significand (if grows then start + e else start - e) after
        | (_, extra) =>
            if significand ≠ 0 ∧ grows then
              .error ⟨.numberTooLarge,
                ⟨c.position.line, c.position.column + (run.length - extra.length) + 1⟩⟩
            else .ok (.binary neg ⟨0, Binary.minExponent⟩, after)

def readFraction (neg : Bool) (significand : Nat) (start : Int) (c : Cursor) :
    Except Fault (Number × Cursor) :=
  match c.digits with
  | ([], c) => match c.peek with
      | some _ => .error (c.faultAhead .badNumber)
      | none => .error (c.fault .endInValue)
  | (run, after) =>
      let (m, extra) := accumulate wordLimit significand run
      let e := start - (run.length - extra.length : Nat)
      if after.peek.any isExponentMark then readExponent neg m e after.advance
      else ofParts neg m e after

def readTail (neg : Bool) (significand : Nat) (c : Cursor) : Except Fault (Number × Cursor) :=
  if c.peek = some 46 then readFraction neg significand 0 c.advance
  else if c.peek.any isExponentMark then readExponent neg significand 0 c.advance
  else if ! neg then .ok (.natural significand, c)
  else if significand = 0 ∨ Nat.pow 2 63 < significand then ofParts true significand 0 c
  else .ok (.negative significand, c)

def read (neg : Bool) (c : Cursor) : Except Fault (Number × Cursor) :=
  match c.peek with
  | none => .error (c.fault .endInValue)
  | some b =>
      if b = 48 then
        if c.advance.peek.any Cursor.isDigit then .error (c.advance.faultAhead .badNumber)
        else readTail neg 0 c.advance
      else if Cursor.isDigit b then
        let (run, after) := c.digits
        match accumulate wordLimit 0 run with
        | (m, []) => readTail neg m after
        | (m, extra) =>
            if after.peek = some 46 then readFraction neg m extra.length after.advance
            else if after.peek.any isExponentMark then
              readExponent neg m extra.length after.advance
            else ofParts neg m extra.length after
      else .error (c.advance.fault .badNumber)

def skipExponent (c : Cursor) : Except Fault Cursor :=
  let c := match c.peek with
    | some 43 | some 45 => c.advance
    | _ => c
  if c.peek.any Cursor.isDigit then .ok c.digits.2 else .error (c.advance.fault .badNumber)

def skip (c : Cursor) : Except Fault Cursor := do
  let c ← match c.peek with
    | some 48 =>
        if c.advance.peek.any Cursor.isDigit then .error (c.advance.faultAhead .badNumber)
        else pure c.advance
    | some b => if Cursor.isDigit b then pure c.digits.2 else .error (c.advance.fault .badNumber)
    | none => .error (c.fault .badNumber)
  if c.peek = some 46 then
    match c.advance.digits with
    | ([], c) => .error (c.faultAhead .badNumber)
    | (_, c) => if c.peek.any isExponentMark then skipExponent c.advance else pure c
  else if c.peek.any isExponentMark then skipExponent c.advance
  else pure c

def describe : Number → String
  | .natural n => "integer \x60" ++ toString n ++ "\x60"
  | .negative n => "integer \x60-" ++ toString n ++ "\x60"
  | .binary neg b => "floating point \x60" ++ Decimal.text neg b ++ "\x60"

end Number

end Lintel.Json
