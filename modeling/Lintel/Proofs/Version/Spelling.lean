import Mathlib.Data.List.Basic
import Lintel.Version.Range
import Lintel.Proofs.Text.Fields

/-!
# The spelling of ranges

The grammar that ranges are written in, apart from any reader. A partial version is a dotted list
of at most three parts, numbers first and wildcards after them, and three numbers may carry a
suffix that a dash or a plus sign announces. A term puts an operator in front of it, an alternative
is a list of terms or a hyphen range, and white space stands between terms and behind operators.

Reading asks for more than the shape: a number has no leading zero and fits 64 bits, and the
identifiers of a suffix are well formed. That part is `Partial.Valid`.
-/
namespace Lintel.Version

def Relation.text : Relation → List Char
  | .exact => ['=']
  | .greater => ['>']
  | .greaterEq => ['>', '=']
  | .less => ['<']
  | .lessEq => ['<', '=']
  | .tilde => ['~']
  | .caret => ['^']

theorem Relation.isOperatorChar_of_mem_text (r : Relation) :
    ∀ c ∈ r.text, Range.isOperatorChar c = true := by
  cases r <;> simp [Relation.text, Range.isOperatorChar]

theorem Relation.text_ne_nil (r : Relation) : r.text ≠ [] := by
  cases r <;> decide

def operatorText (op : Option Relation) : List Char := (op.map Relation.text).getD []

theorem isOperatorChar_of_mem_operatorText {op : Option Relation} {c : Char}
    (hc : c ∈ operatorText op) : Range.isOperatorChar c = true := by
  cases op with
  | none => cases hc
  | some r => exact r.isOperatorChar_of_mem_text c hc

def Numeral (ds : List Char) : Prop := ds ≠ [] ∧ ∀ d ∈ ds, Text.isAsciiDigit d = true

instance (ds : List Char) : Decidable (Numeral ds) :=
  decidable_of_iff (ds ≠ [] ∧ ds.all Text.isAsciiDigit = true) (by simp [Numeral])

/-- A numeral without leading zeros that fits 64 bits. -/
def Canonical (ds : List Char) : Prop :=
  (ds.head? = some '0' → ds.length = 1) ∧ Text.decimal ds < Nat.pow 2 64

instance (ds : List Char) : Decidable (Canonical ds) := inferInstanceAs (Decidable (_ ∧ _))

def isSuffixChar (c : Char) : Bool := isIdentifierChar c || c == '.' || c == '+'

def announcesSuffix (c : Char) : Bool := c == '-' || c == '+'

structure Partial where
  numbers : List (List Char)
  wildcards : List Char
  suffix : List Char
  numeral : ∀ ds ∈ numbers, Numeral ds
  wild : ∀ c ∈ wildcards, Comparator.isWildcard c = true
  some_part : 0 < numbers.length + wildcards.length
  three_parts : numbers.length + wildcards.length ≤ 3
  suffix_full : suffix ≠ [] → numbers.length = 3
  suffix_announced : ∀ c ∈ suffix.head?, announcesSuffix c = true
  suffix_chars : ∀ c ∈ suffix, isSuffixChar c = true

namespace Partial

def plain (numbers : List (List Char)) (wildcards : List Char)
    (numeral : ∀ ds ∈ numbers, Numeral ds)
    (wild : ∀ c ∈ wildcards, Comparator.isWildcard c = true)
    (some_part : 0 < numbers.length + wildcards.length)
    (three_parts : numbers.length + wildcards.length ≤ 3) : Partial :=
  ⟨numbers, wildcards, [], numeral, wild, some_part, three_parts, fun h => absurd rfl h,
    fun _ hc => (nomatch hc), fun _ hc => (nomatch hc)⟩

def parts (p : Partial) : List (List Char) := p.numbers ++ p.wildcards.map fun c => [c]

def core (p : Partial) : List Char := ['.'].intercalate p.parts

def text (p : Partial) : List Char := p.core ++ p.suffix

end Partial

inductive Mark
  | absent
  | small
  | capital
  deriving DecidableEq, Repr

def Mark.text : Mark → List Char
  | .absent => []
  | .small => ['v']
  | .capital => ['V']

structure Operand where
  mark : Mark
  version : Partial

def Operand.text (o : Operand) : List Char := o.mark.text ++ o.version.text

structure Term where
  operator : Option Relation
  operand : Operand

namespace Term

def text (t : Term) : List Char := operatorText t.operator ++ t.operand.text

def Spells (t : Term) (fs : List (List Char)) : Prop :=
  fs = [t.text] ∨ t.operator ≠ none ∧ fs = [operatorText t.operator, t.operand.text]

end Term

/-- The text lists the terms, with white space between them and around them. -/
def Lists (ts : List Term) (cs : List Char) : Prop :=
  ∃ fss, List.Forall₂ Term.Spells ts fss ∧ Text.fields cs = fss.flatten

def Hyphenates (low high : Operand) (cs : List Char) : Prop :=
  Text.fields cs = [low.text, ['-'], high.text]

/-- An empty alternative is the empty list of terms. -/
def Grammatical (cs : List Char) : Prop :=
  (∃ ts, Lists ts cs) ∨ ∃ low high, Hyphenates low high cs

def announced (c : Char) : List (List Char) → List Char
  | [] => []
  | parts => c :: ['.'].intercalate parts

def IsIdentifier (cs : List Char) : Prop := cs ≠ [] ∧ ∀ c ∈ cs, isIdentifierChar c = true

instance (cs : List Char) : Decidable (IsIdentifier cs) :=
  decidable_of_iff (cs ≠ [] ∧ cs.all isIdentifierChar = true) (by simp [IsIdentifier])

/-- The identifiers of a pre-release tag: those that are numbers have no leading zeros. -/
def IsTagIdentifier (cs : List Char) : Prop :=
  IsIdentifier cs ∧ (cs.all Text.isAsciiDigit = true → cs.head? = some '0' → cs.length = 1)

instance (cs : List Char) : Decidable (IsTagIdentifier cs) := inferInstanceAs (Decidable (_ ∧ _))

def ValidSuffix (suffix : List Char) : Prop :=
  ∃ tag build, suffix = announced '-' tag ++ announced '+' build ∧
    (∀ cs ∈ tag, IsTagIdentifier cs) ∧ ∀ cs ∈ build, IsIdentifier cs

def Partial.Valid (p : Partial) : Prop := (∀ ds ∈ p.numbers, Canonical ds) ∧ ValidSuffix p.suffix

section Characters

variable {c d : Char}

def isVersionChar (c : Char) : Bool := isSuffixChar c || Comparator.isWildcard c

theorem le_iff_toNat_le : c ≤ d ↔ c.toNat ≤ d.toNat := Iff.rfl

theorem isAsciiDigit_iff : Text.isAsciiDigit c = true ↔ 48 ≤ c.toNat ∧ c.toNat ≤ 57 := by
  simp [Text.isAsciiDigit, le_iff_toNat_le]

theorem isIdentifierChar_iff : isIdentifierChar c = true ↔
    (48 ≤ c.toNat ∧ c.toNat ≤ 57) ∨ (97 ≤ c.toNat ∧ c.toNat ≤ 122) ∨
      (65 ≤ c.toNat ∧ c.toNat ≤ 90) ∨ c = '-' := by
  simp [isIdentifierChar, isAsciiDigit_iff, le_iff_toNat_le, or_assoc]

theorem isSuffixChar_of_isIdentifierChar (h : isIdentifierChar c = true) :
    isSuffixChar c = true := by
  simp [isSuffixChar, h]

theorem isIdentifierChar_of_isAsciiDigit (h : Text.isAsciiDigit c = true) :
    isIdentifierChar c = true := by
  simp [isIdentifierChar, h]

theorem isVersionChar_of_isSuffixChar (h : isSuffixChar c = true) : isVersionChar c = true := by
  simp [isVersionChar, h]

theorem isVersionChar_of_isAsciiDigit (h : Text.isAsciiDigit c = true) :
    isVersionChar c = true :=
  isVersionChar_of_isSuffixChar
    (isSuffixChar_of_isIdentifierChar (isIdentifierChar_of_isAsciiDigit h))

theorem isVersionChar_of_isWildcard (h : Comparator.isWildcard c = true) :
    isVersionChar c = true := by
  simp [isVersionChar, h]

theorem isBlank_of_isVersionChar (h : isVersionChar c = true) : Text.isBlank c = false := by
  simp only [isVersionChar, isSuffixChar, Comparator.isWildcard, Bool.or_eq_true,
    isIdentifierChar_iff, beq_iff_eq] at h
  by_contra hb
  simp only [Text.isBlank, Bool.not_eq_false, Bool.or_eq_true, Bool.and_eq_true,
    decide_eq_true_eq, beq_iff_eq] at hb
  rcases h with (((h | h | h | rfl) | rfl) | rfl) | (rfl | rfl) | rfl
  · omega
  · omega
  · omega
  all_goals revert hb; decide

theorem isOperatorChar_of_isVersionChar (h : isVersionChar c = true) :
    Range.isOperatorChar c = false := by
  by_contra hop
  simp only [Range.isOperatorChar, Bool.not_eq_false, Bool.or_eq_true, beq_iff_eq] at hop
  rcases hop with (((rfl | rfl) | rfl) | rfl) | rfl <;> revert h <;> decide

theorem ne_comma_of_isVersionChar (h : isVersionChar c = true) : c ≠ ',' := by
  intro h'
  subst h'
  revert h
  decide

theorem eq_dot_or_isAsciiDigit {numbers : List (List Char)} (h : ∀ q ∈ numbers, Numeral q)
    (hc : c ∈ ['.'].intercalate numbers) : c = '.' ∨ Text.isAsciiDigit c = true := by
  rcases Text.mem_intercalate hc with hdot | ⟨q, hq, hmem⟩
  · exact .inl hdot
  · exact .inr ((h q hq).2 c hmem)

theorem isVersionChar_of_mem_dotted {numbers : List (List Char)} (h : ∀ q ∈ numbers, Numeral q)
    (hc : c ∈ ['.'].intercalate numbers) : isVersionChar c = true := by
  rcases eq_dot_or_isAsciiDigit h hc with hdot | hdigit
  · rw [hdot]
    decide
  · exact isVersionChar_of_isAsciiDigit hdigit

end Characters

namespace Partial

variable (p : Partial)

theorem isVersionChar_of_mem_parts {q : List Char} (hq : q ∈ p.parts) :
    ∀ c ∈ q, isVersionChar c = true := by
  intro c hc
  rcases List.mem_append.1 hq with hnumber | hwild
  · exact isVersionChar_of_isAsciiDigit ((p.numeral q hnumber).2 c hc)
  · obtain ⟨w, hw, rfl⟩ := List.mem_map.1 hwild
    rw [List.mem_singleton.1 hc]
    exact isVersionChar_of_isWildcard (p.wild w hw)

theorem isVersionChar_of_mem_core {c : Char} (hc : c ∈ p.core) : isVersionChar c = true := by
  rcases Text.mem_intercalate hc with rfl | ⟨q, hq, hmem⟩
  · decide
  · exact p.isVersionChar_of_mem_parts hq c hmem

theorem isVersionChar_of_mem_text {c : Char} (hc : c ∈ p.text) : isVersionChar c = true := by
  rcases List.mem_append.1 hc with hcore | hsuffix
  · exact p.isVersionChar_of_mem_core hcore
  · exact isVersionChar_of_isSuffixChar (p.suffix_chars c hsuffix)

theorem head_of_mem_parts {q : List Char} (hq : q ∈ p.parts) :
    ∃ c cs, q = c :: cs ∧ (Text.isAsciiDigit c = true ∨ Comparator.isWildcard c = true) := by
  rcases List.mem_append.1 hq with hnumber | hwild
  · obtain ⟨hne, hdigits⟩ := p.numeral q hnumber
    obtain ⟨c, cs, rfl⟩ := List.exists_cons_of_ne_nil hne
    exact ⟨c, cs, rfl, .inl (hdigits c (List.mem_cons_self ..))⟩
  · obtain ⟨w, hw, rfl⟩ := List.mem_map.1 hwild
    exact ⟨w, [], rfl, .inr (p.wild w hw)⟩

theorem numbers_cases (hne : p.numbers ≠ []) :
    (∃ a, p.numbers = [a] ∧ p.suffix = []) ∨ (∃ a b, p.numbers = [a, b] ∧ p.suffix = []) ∨
      ∃ a b c, p.numbers = [a, b, c] := by
  have hthree := p.three_parts
  have hplain : p.numbers.length ≠ 3 → p.suffix = [] := by
    intro hlen
    by_contra h
    exact hlen (p.suffix_full h)
  have hpos := List.length_pos_iff.2 hne
  have hlen : p.numbers.length = 1 ∨ p.numbers.length = 2 ∨ p.numbers.length = 3 := by
    omega
  rcases hlen with hlen | hlen | hlen
  · obtain ⟨a, ha⟩ := List.length_eq_one_iff.1 hlen
    exact .inl ⟨a, ha, hplain (by omega)⟩
  · obtain ⟨a, b, hab⟩ := List.length_eq_two.1 hlen
    exact .inr (.inl ⟨a, b, hab, hplain (by omega)⟩)
  · obtain ⟨a, b, c, habc⟩ := List.length_eq_three.1 hlen
    exact .inr (.inr ⟨a, b, c, habc⟩)

theorem parts_ne_nil : p.parts ≠ [] := by
  have h := p.some_part
  intro hnil
  have hlen := congrArg List.length hnil
  simp only [parts, List.length_append, List.length_map, List.length_nil] at hlen
  omega

theorem head_of_text :
    ∃ c cs, p.text = c :: cs ∧ (Text.isAsciiDigit c = true ∨ Comparator.isWildcard c = true) := by
  cases hparts : p.parts with
  | nil => exact absurd hparts p.parts_ne_nil
  | cons q qs =>
    obtain ⟨c, cs, rfl, hc⟩ := p.head_of_mem_parts (hparts ▸ List.mem_cons_self ..)
    obtain ⟨tail, htail⟩ := Text.intercalate_cons_eq_append '.' (c :: cs) qs
    refine ⟨c, cs ++ tail ++ p.suffix, ?_, hc⟩
    rw [text, core, hparts, htail]
    rfl

end Partial

theorem Mark.isVersionChar_of_mem_text {m : Mark} {c : Char} (hc : c ∈ m.text) :
    isVersionChar c = true := by
  cases m with
  | absent => cases hc
  | small => rw [List.mem_singleton.1 hc]; decide
  | capital => rw [List.mem_singleton.1 hc]; decide

namespace Operand

variable (o : Operand)

theorem isVersionChar_of_mem_text {c : Char} (hc : c ∈ o.text) : isVersionChar c = true := by
  rcases List.mem_append.1 hc with hmark | hversion
  · exact Mark.isVersionChar_of_mem_text hmark
  · exact o.version.isVersionChar_of_mem_text hversion

theorem head_of_text : ∃ c cs, o.text = c :: cs ∧ c ≠ '-' := by
  obtain ⟨c, cs, htext, hc⟩ := o.version.head_of_text
  rw [text, htext]
  cases o.mark with
  | absent =>
    refine ⟨c, cs, rfl, ?_⟩
    intro h
    subst h
    revert hc
    decide
  | small => exact ⟨'v', _, rfl, by decide⟩
  | capital => exact ⟨'V', _, rfl, by decide⟩

theorem text_ne_nil : o.text ≠ [] := by
  obtain ⟨c, cs, htext, -⟩ := o.head_of_text
  simp [htext]

theorem text_ne_dash : o.text ≠ ['-'] := by
  obtain ⟨c, cs, htext, hc⟩ := o.head_of_text
  simp [htext, hc]

theorem isOperatorChar_of_mem_text {c : Char} (hc : c ∈ o.text) :
    Range.isOperatorChar c = false :=
  isOperatorChar_of_isVersionChar (o.isVersionChar_of_mem_text hc)

theorem dropV_text : Range.dropV o.text = o.version.text := by
  obtain ⟨c, cs, htext, hc⟩ := o.version.head_of_text
  rw [text]
  cases o.mark with
  | absent =>
    rw [htext]
    show Range.dropV (c :: cs) = c :: cs
    unfold Range.dropV
    split
    · next heq =>
      cases heq
      exact absurd hc (by decide)
    · next heq =>
      cases heq
      exact absurd hc (by decide)
    · rfl
  | small => rfl
  | capital => rfl

end Operand

namespace Term

variable (t : Term)

theorem span_text :
    t.text.span Range.isOperatorChar = (operatorText t.operator, t.operand.text) := by
  apply Text.span_append_stop fun _ h => isOperatorChar_of_mem_operatorText h
  intro c hc
  exact t.operand.isOperatorChar_of_mem_text (List.mem_of_mem_head? hc)

end Term

end Lintel.Version
