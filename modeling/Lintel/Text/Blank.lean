import Lintel.Text.Pieces

/-!
# White space

Three notions of blank meet in the program. Patterns, ranges and plain output go by the Unicode
property White_Space; the test whether a linter printed anything goes by five ASCII bytes; the
reader of structured output goes by four. The first two are here.
-/
namespace Lintel.Text

/-- The Unicode property White_Space. -/
def isBlank (c : Char) : Bool :=
  (0x9 ≤ c.toNat && c.toNat ≤ 0xD) || c.toNat == 0x20 || c.toNat == 0x85 || c.toNat == 0xA0 ||
  c.toNat == 0x1680 || (0x2000 ≤ c.toNat && c.toNat ≤ 0x200A) || c.toNat == 0x2028 ||
  c.toNat == 0x2029 || c.toNat == 0x202F || c.toNat == 0x205F || c.toNat == 0x3000

def isBlankByte (b : UInt8) : Bool := b == 0x20 || b == 0x9 || b == 0xA || b == 0xC || b == 0xD

def trim (cs : List Char) : List Char := trimBoth isBlank cs

def trimEnd (cs : List Char) : List Char := dropEnd isBlank cs

def fields (cs : List Char) : List (List Char) := words isBlank cs

def Blank (cs : List Char) : Prop := ∀ c ∈ cs, isBlank c

instance (cs : List Char) : Decidable (Blank cs) := inferInstanceAs (Decidable (∀ c ∈ cs, isBlank c))

end Lintel.Text
