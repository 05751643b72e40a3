/-!
# Binary floating-point numbers

A binary number is a significand below 2^53 times a power of two that is at least 2^-1074. Rounding
takes the nearest such number and of two equally near ones the even one. Products and quotients
are rounded results of exact ones.
-/
namespace Lintel.Decimal

structure Binary where
  significand : Nat
  exponent : Int
  deriving DecidableEq, Repr

structure Ratio where
  num : Nat
  den : Nat
  deriving Repr

namespace Ratio

def mul (a b : Ratio) : Ratio := ⟨a.num * b.num, a.den * b.den⟩

def div (a b : Ratio) : Ratio := ⟨a.num * b.den, a.den * b.num⟩

def power (base : Nat) (e : Int) : Ratio :=
  match e with
  | .ofNat n => ⟨Nat.pow base n, 1⟩
  | .negSucc n => ⟨1, Nat.pow base (n + 1)⟩

def le (a b : Ratio) : Bool := a.num * b.den ≤ b.num * a.den

def lt (a b : Ratio) : Bool := a.num * b.den < b.num * a.den

def floor (a : Ratio) : Nat := a.num / a.den

def round (a : Ratio) : Nat :=
  let q := a.num / a.den
  let twice := 2 * (a.num % a.den)
  if twice < a.den then q
  else if a.den < twice then q + 1
  else if q % 2 = 0 then q else q + 1

end Ratio

namespace Binary

def precision : Nat := 53

def minExponent : Int := -1074

def maxExponent : Int := 971

def toRatio (b : Binary) : Ratio := Ratio.mul ⟨b.significand, 1⟩ (Ratio.power 2 b.exponent)

def exponentFor (r : Ratio) : Int :=
  let guess := (Nat.log2 r.num : Int) - Nat.log2 r.den - (precision - 1)
  let fits (e : Int) : Bool := Ratio.le (Ratio.power 2 (e + (precision - 1))) r
  let e := if fits guess then guess else guess - 1
  if e < minExponent then minExponent else e

def ofRatio (r : Ratio) : Option Binary :=
  if r.num = 0 then some ⟨0, minExponent⟩
  else
    let e := exponentFor r
    let m := (r.div (Ratio.power 2 e)).round
    let (m, e) := if m = Nat.pow 2 precision then (Nat.pow 2 (precision - 1), e + 1) else (m, e)
    if maxExponent < e then none else some ⟨m, e⟩

def ofNat (n : Nat) : Option Binary := ofRatio ⟨n, 1⟩

def powerOfTen (e : Nat) : Option Binary := ofNat (Nat.pow 10 e)

def largestTen : Nat := 308

/-- Scales by a power of ten in steps that each divide or multiply by a number and round. A product
that is too large has no value; a quotient ends at zero. -/
def scale : Nat → Binary → Int → Option Binary
  | 0, b, _ => some b
  | steps + 1, b, e =>
      if e.natAbs ≤ largestTen then do
        let ten ← powerOfTen e.natAbs
        if 0 ≤ e then ofRatio (b.toRatio.mul ten.toRatio)
        else ofRatio (b.toRatio.div ten.toRatio)
      else if b.significand = 0 then some b
      else if 0 ≤ e then none
      else do
        let ten ← powerOfTen largestTen
        scale steps (← ofRatio (b.toRatio.div ten.toRatio)) (e + largestTen)

/-- The number read from `significand * 10 ^ exponent`. A significand of 64 bits is gone after
three divisions by the largest power of ten. -/
def ofDecimal (significand : Nat) (exponent : Int) : Option Binary := do
  scale 4 (← ofNat significand) exponent

end Binary

end Lintel.Decimal
