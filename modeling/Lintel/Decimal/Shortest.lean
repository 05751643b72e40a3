import Lintel.Decimal.Binary

/-!
# Shortest decimals

The text of a binary number has the fewest digits that read back as the same number, and of those
the nearest. The decimals that read back are those between the midpoints to the two neighbours,
midpoints included when the significand is even. On each grid of `n` significant digits only the
two points around the value can lie there.
-/
namespace Lintel.Decimal

structure Scaled where
  digits : Nat
  exponent : Int
  deriving DecidableEq, Repr

namespace Binary

def upper (b : Binary) : Ratio :=
  Ratio.mul ⟨2 * b.significand + 1, 1⟩ (Ratio.power 2 (b.exponent - 1))

/-- The midpoint to the next smaller number, which is nearer at a power of two. -/
def lower (b : Binary) : Ratio :=
  if b.significand = Nat.pow 2 (precision - 1) ∧ minExponent < b.exponent then
    Ratio.mul ⟨4 * b.significand - 1, 1⟩ (Ratio.power 2 (b.exponent - 2))
  else Ratio.mul ⟨2 * b.significand - 1, 1⟩ (Ratio.power 2 (b.exponent - 1))

def readsBack (b : Binary) (r : Ratio) : Bool :=
  if b.significand % 2 = 0 then b.lower.le r && r.le b.upper else b.lower.lt r && r.lt b.upper

def leadingExponent (r : Ratio) : Int :=
  let guess : Int := ((Nat.log2 r.num : Int) - Nat.log2 r.den) * 30103 / 100000 - 1
  let fits (e : Int) : Bool := Ratio.le (Ratio.power 10 e) r
  if fits (guess + 2) then guess + 2
  else if fits (guess + 1) then guess + 1
  else guess

def Scaled.toRatio (s : Scaled) : Ratio := Ratio.mul ⟨s.digits, 1⟩ (Ratio.power 10 s.exponent)

def onGrid (b : Binary) (e : Int) : Option Scaled :=
  let r := b.toRatio
  let q := (r.div (Ratio.power 10 e)).floor
  let below : Scaled := ⟨q, e⟩
  let above : Scaled := ⟨q + 1, e⟩
  match b.readsBack (Scaled.toRatio below), b.readsBack (Scaled.toRatio above) with
  | true, true =>
      let middle := Ratio.mul ⟨2 * q + 1, 2⟩ (Ratio.power 10 e)
      if r.lt middle then some below
      else if middle.lt r then some above
      else if q % 2 = 0 then some below else some above
  | true, false => some below
  | false, true => some above
  | false, false => none

def shortestFrom (b : Binary) (lead : Int) (n : Nat) : Nat → Scaled
  | 0 => ⟨b.significand, b.exponent⟩
  | more + 1 =>
      match b.onGrid (lead - n) with
      | some s => s
      | none => shortestFrom b lead (n + 1) more

def shortest (b : Binary) : Scaled := shortestFrom b (leadingExponent b.toRatio) 0 18

def significant (s : Scaled) : List Char × Int :=
  let ds := Nat.toDigits 10 s.digits
  ((ds.reverse.dropWhile (· == '0')).reverse, s.exponent + (ds.length - 1))

end Binary

/-- Numbers from 1e-5 up to 1e16 are written out, with a digit on both sides of the point; others
have an exponent with a sign and no leading zeros. -/
def plainExponents : Int × Int := (-5, 15)

def text (negative : Bool) (b : Binary) : String :=
  let sign := if negative then "-" else ""
  if b.significand = 0 then sign ++ "0.0"
  else
    let (ds, e) := Binary.significant b.shortest
    let body : List Char :=
      if plainExponents.1 ≤ e ∧ e ≤ plainExponents.2 then
        if e < 0 then '0' :: '.' :: (List.replicate (e.natAbs - 1) '0' ++ ds)
        else
          let whole := e.toNat + 1
          if ds.length ≤ whole then ds ++ List.replicate (whole - ds.length) '0' ++ ['.', '0']
          else ds.take whole ++ '.' :: ds.drop whole
      else
        let tail := match ds with
          | [d] => [d]
          | d :: rest => d :: '.' :: rest
          | [] => []
        tail ++ 'e' :: (if e < 0 then '-' else '+') :: Nat.toDigits 10 e.natAbs
    sign ++ String.ofList body

end Lintel.Decimal
