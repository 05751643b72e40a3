import Lintel.Decimal.Binary
import Lintel.Text.Digit
import Lintel.Text.Pieces

/-!
# Scalars in settings

Numbers, truth values and dates are recognised and not kept, since no setting has one. An integer
fits 64 bits and a positive number with a fraction or an exponent is finite. A date has a day that
its month has, and a clock may show a leap second.
-/
namespace Lintel.Toml

open Text (isAsciiDigit digitValue)

def isHexDigit (c : Char) : Bool :=
  isAsciiDigit c || ('a' ≤ c && c ≤ 'f') || ('A' ≤ c && c ≤ 'F')

def isOctalDigit (c : Char) : Bool := '0' ≤ c && c ≤ '7'

def isBinaryDigit (c : Char) : Bool := c == '0' || c == '1'

def isGrouped (digit : Char → Bool) (cs : List Char) : Bool :=
  (Text.pieces (· == '_') cs).all fun p => p != [] && p.all digit

def isWhole (cs : List Char) : Bool :=
  isGrouped isAsciiDigit cs && (cs.length == 1 || cs.head? != some '0')

def digitOf (c : Char) : Nat :=
  if c ≤ '9' then c.toNat - 48 else if c ≤ 'F' then c.toNat - 55 else c.toNat - 87

def magnitude (base : Nat) (cs : List Char) : Nat :=
  (cs.filter (· != '_')).foldl (fun n c => n * base + digitOf c) 0

def signed : List Char → Bool × List Char
  | '-' :: cs => (true, cs)
  | '+' :: cs => (false, cs)
  | cs => (false, cs)

def wordBound : Nat := Nat.pow 2 63

def isInteger (cs : List Char) : Bool :=
  match cs with
  | '0' :: 'x' :: ds => isGrouped isHexDigit ds && magnitude 16 ds < wordBound
  | '0' :: 'o' :: ds => isGrouped isOctalDigit ds && magnitude 8 ds < wordBound
  | '0' :: 'b' :: ds => isGrouped isBinaryDigit ds && magnitude 2 ds < wordBound
  | cs =>
      let (negative, ds) := signed cs
      isWhole ds && magnitude 10 ds < wordBound + (if negative then 1 else 0)

/-- Whether `digits` times ten to the `exponent` is rounded to a finite number. The number of
digits decides unless the value is near the largest one. -/
def isFinite (digits : Nat) (exponent : Int) : Bool :=
  let size : Int := (Nat.toDigits 10 digits).length + exponent
  if digits = 0 ∨ size ≤ 308 then true
  else if 310 ≤ size then false
  else (Decimal.Binary.ofRatio (Decimal.Ratio.mul ⟨digits, 1⟩ (Decimal.Ratio.power 10 exponent))).isSome

def isExponentMark (c : Char) : Bool := c == 'e' || c == 'E'

def isFractional (cs : List Char) : Bool :=
  let (negative, ds) := signed cs
  let (mantissa, tail) := ds.span (! isExponentMark ·)
  let (whole, dotted) := mantissa.span (· != '.')
  let fraction := dotted.drop 1
  let (down, exponent) := signed (tail.drop 1)
  (tail != [] || dotted != []) && isWhole whole
    && (dotted == [] || isGrouped isAsciiDigit fraction)
    && (tail == [] || isGrouped isAsciiDigit exponent)
    && (negative ||
      let scale : Int := magnitude 10 exponent
      isFinite (magnitude 10 (whole ++ fraction))
        ((if down then -scale else scale) - (fraction.filter (· != '_')).length))

def isSpecial (cs : List Char) : Bool :=
  (signed cs).2 == ['i', 'n', 'f'] || (signed cs).2 == ['n', 'a', 'n']

def isTruth (cs : List Char) : Bool :=
  cs == ['t', 'r', 'u', 'e'] || cs == ['f', 'a', 'l', 's', 'e']

def pair? (high : Nat) (a b : Char) : Option Nat :=
  let n := digitValue a * 10 + digitValue b
  if isAsciiDigit a && isAsciiDigit b && n ≤ high then some n else none

def isLeapYear (y : Nat) : Bool := y % 4 == 0 && (y % 100 != 0 || y % 400 == 0)

def daysIn (year month : Nat) : Nat :=
  if month = 2 then (if isLeapYear year then 29 else 28)
  else if month ∈ [4, 6, 9, 11] then 30 else 31

def isDate : List Char → Bool
  | [y, z, v, w, '-', m, n, '-', d, e] =>
      [y, z, v, w].all isAsciiDigit &&
        match pair? 12 m n, pair? 31 d e with
        | some month, some day =>
            1 ≤ month && 1 ≤ day && day ≤ daysIn (Text.decimal [y, z, v, w]) month
        | _, _ => false
  | _ => false

def afterClock? : List Char → Option (List Char)
  | h :: i :: ':' :: m :: n :: ':' :: s :: t :: rest => do
      let _ ← pair? 23 h i
      let _ ← pair? 59 m n
      let _ ← pair? 60 s t
      match rest with
      | '.' :: f :: more => if isAsciiDigit f then some (more.dropWhile isAsciiDigit) else none
      | rest => some rest
  | _ => none

def isOffset : List Char → Bool
  | [] | ['Z'] | ['z'] => true
  | [sign, h, i, ':', m, n] =>
      (sign == '+' || sign == '-') && (pair? 23 h i).isSome && (pair? 59 m n).isSome
  | _ => false

def isClock (cs : List Char) : Bool := afterClock? cs == some []

def isZonedClock (cs : List Char) : Bool := (afterClock? cs).any isOffset

def isMoment (cs : List Char) : Bool :=
  isDate (cs.take 10) &&
    match cs.drop 10 with
    | [] => true
    | 'T' :: rest | 't' :: rest => isZonedClock rest
    | _ => false

def isScalar (cs : List Char) : Bool :=
  isTruth cs || isInteger cs || isFractional cs || isSpecial cs || isClock cs || isMoment cs

end Lintel.Toml
