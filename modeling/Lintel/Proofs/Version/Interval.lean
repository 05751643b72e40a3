import Mathlib.Data.Prod.Lex
import Lintel.Proofs.Version.Reading

/-!
# Intervals of releases

Releases are ordered by their three numbers, the major one first. The releases that begin with
given numbers are those from `lowest` on that are before `beyond`, and each operator accepts the
releases of an interval with such ends. A pre-release tag puts the version that is named just
before the release of the same numbers.
-/
namespace Lintel.Version

abbrev Release := ℕ ×ₗ ℕ ×ₗ ℕ

def release (v : Version) : Release := toLex (v.major, toLex (v.minor, v.patch))

def lowest (values : List ℕ) : Release :=
  toLex (values.headD 0, toLex ((values[1]?).getD 0, (values[2]?).getD 0))

def increaseLast : List ℕ → List ℕ
  | [] => []
  | [n] => [n + 1]
  | n :: ns => n :: increaseLast ns

/-- The first release after all those that begin with the given numbers. -/
def beyond (values : List ℕ) : Release := lowest (increaseLast values)

example : beyond [1, 2] = lowest [1, 3, 0] := rfl

def upToNonzero : List ℕ → List ℕ
  | [] => []
  | n :: ns => if n = 0 then n :: upToNonzero ns else [n]

example : beyond (upToNonzero [0, 4, 2]) = lowest [0, 5, 0] := rfl

def Relation.Accepts (values : List ℕ) (tagged : Prop) (x : Release) : Relation → Prop
  | .exact => ¬ tagged ∧ lowest values ≤ x ∧ x < beyond values
  | .greater => (tagged ∧ lowest values ≤ x) ∨ beyond values ≤ x
  | .greaterEq => lowest values ≤ x
  | .less => x < lowest values
  | .lessEq => x < lowest values ∨ (¬ tagged ∧ x < beyond values)
  | .tilde => lowest values ≤ x ∧ x < beyond (values.take 2)
  | .caret => lowest values ≤ x ∧ x < beyond (upToNonzero values)

section Order

variable {a b c : ℕ} {v : Version}

theorem release_lt_iff : v.release < toLex (a, toLex (b, c)) ↔
    v.major < a ∨ v.major = a ∧ (v.minor < b ∨ v.minor = b ∧ v.patch < c) := by
  simp only [release, Prod.Lex.toLex_lt_toLex]

theorem le_release_iff : toLex (a, toLex (b, c)) ≤ v.release ↔
    a < v.major ∨ a = v.major ∧ (b < v.minor ∨ b = v.minor ∧ c ≤ v.patch) := by
  simp only [release, Prod.Lex.toLex_le_toLex]

end Order

inductive Shape : List ℕ → Tag → Prop
  | one (a : ℕ) : Shape [a] []
  | two (a b : ℕ) : Shape [a, b] []
  | three (a b c : ℕ) (tag : Tag) : Shape [a, b, c] tag

section Tags

theorem compare_nil_beq_lt (tag : Tag) : (tag.compare [] == .lt) = decide (tag ≠ []) := by
  cases tag <;> rfl

theorem compare_nil_bne_gt (tag : Tag) : (tag.compare [] != .gt) = true := by
  cases tag <;> rfl

theorem nil_compare_beq_lt (tag : Tag) : (Tag.compare [] tag == .lt) = false := by
  cases tag <;> rfl

theorem nil_beq (tag : Tag) : (([] : Tag) == tag) = decide (tag = []) := by
  cases tag <;> rfl

end Tags

namespace Comparator

variable {v : Version} {r : Relation} {values : List ℕ} {tag : Tag}

theorem agrees_iff (h : Shape values tag) (hv : v.tag = []) :
    (named r values tag).agrees v = true ↔
      tag = [] ∧ lowest values ≤ v.release ∧ v.release < beyond values := by
  cases h <;>
    simp only [named, agrees, lowest, beyond, increaseLast, release_lt_iff, le_release_iff, hv,
      nil_beq]
  case one a => grind
  case two a b => grind
  case three a b c => grind

theorem isBelow_iff (h : Shape values tag) (hv : v.tag = []) :
    (named r values tag).isBelow v = true ↔
      tag ≠ [] ∧ lowest values ≤ v.release ∨ beyond values ≤ v.release := by
  cases h <;>
    simp only [named, isBelow, lowest, beyond, increaseLast, le_release_iff, hv,
      compare_nil_beq_lt]
  case one a => grind
  case two a b => grind
  case three a b c => grind

theorem isAbove_iff (h : Shape values tag) (hv : v.tag = []) :
    (named r values tag).isAbove v = true ↔ v.release < lowest values := by
  cases h <;> simp only [named, isAbove, lowest, release_lt_iff, hv, nil_compare_beq_lt]
  case one a => grind
  case two a b => grind
  case three a b c => grind

theorem matchesTilde_iff (h : Shape values tag) (hv : v.tag = []) :
    (named r values tag).matchesTilde v = true ↔
      lowest values ≤ v.release ∧ v.release < beyond (values.take 2) := by
  cases h <;>
    simp only [named, matchesTilde, lowest, beyond, increaseLast, release_lt_iff,
      le_release_iff, hv, compare_nil_bne_gt, List.take]
  case one a => grind
  case two a b => grind
  case three a b c => grind

theorem matchesCaret_iff (h : Shape values tag) (hv : v.tag = []) :
    (named r values tag).matchesCaret v = true ↔
      lowest values ≤ v.release ∧ v.release < beyond (upToNonzero values) := by
  cases h with
  | one a =>
    have hfix : upToNonzero [a] = [a] := by grind [upToNonzero]
    simp only [hfix, named, matchesCaret, lowest, beyond, increaseLast, release_lt_iff,
      le_release_iff]
    grind
  | two a b =>
    have hfix : upToNonzero [a, b] = if a = 0 then [a, b] else [a] := by grind [upToNonzero]
    rw [hfix]
    split_ifs <;>
      simp only [named, matchesCaret, lowest, beyond, increaseLast, release_lt_iff,
        le_release_iff] <;>
      grind
  | three a b c =>
    have hfix : upToNonzero [a, b, c] =
        if a = 0 then if b = 0 then [a, b, c] else [a, b] else [a] := by
      grind [upToNonzero]
    rw [hfix]
    split_ifs <;>
      simp only [named, matchesCaret, lowest, beyond, increaseLast, release_lt_iff,
        le_release_iff, hv, compare_nil_bne_gt] <;>
      grind

theorem lowest_lt_beyond (h : Shape values tag) : lowest values < beyond values := by
  cases h <;> simp [lowest, beyond, increaseLast, Prod.Lex.toLex_lt_toLex]

theorem agrees_or_isBelow_iff (h : Shape values tag) (hv : v.tag = []) :
    ((named r values tag).agrees v = true ∨ (named r values tag).isBelow v = true) ↔
      lowest values ≤ v.release := by
  rw [agrees_iff h hv, isBelow_iff h hv]
  constructor
  · intro h'
    rcases h' with ⟨-, hle, -⟩ | ⟨-, hle⟩ | hle
    · exact hle
    · exact hle
    · exact (lowest_lt_beyond h).le.trans hle
  · intro hle
    by_cases htag : tag = []
    · rcases lt_or_ge v.release (beyond values) with hlt | hge
      · exact .inl ⟨htag, hle, hlt⟩
      · exact .inr (.inr hge)
    · exact .inr (.inl ⟨htag, hle⟩)

theorem agrees_or_isAbove_iff (h : Shape values tag) (hv : v.tag = []) :
    ((named r values tag).agrees v = true ∨ (named r values tag).isAbove v = true) ↔
      v.release < lowest values ∨ tag = [] ∧ v.release < beyond values := by
  rw [agrees_iff h hv, isAbove_iff h hv]
  constructor
  · intro h'
    rcases h' with ⟨htag, -, hlt⟩ | hlt
    · exact .inr ⟨htag, hlt⟩
    · exact .inl hlt
  · intro h'
    rcases h' with hlt | ⟨htag, hlt⟩
    · exact .inr hlt
    · rcases lt_or_ge v.release (lowest values) with hless | hge
      · exact .inr hless
      · exact .inl ⟨htag, hge, hlt⟩

theorem admits_named_iff (h : Shape values tag) (hv : v.tag = []) :
    (named r values tag).admits v = true ↔ r.Accepts values (tag ≠ []) v.release := by
  cases r with
  | exact => exact (agrees_iff h hv).trans (by rw [Relation.Accepts, not_ne_iff])
  | greater => exact isBelow_iff h hv
  | greaterEq => exact Bool.or_eq_true_iff.trans (agrees_or_isBelow_iff h hv)
  | less => exact isAbove_iff h hv
  | lessEq =>
    refine Bool.or_eq_true_iff.trans ((agrees_or_isAbove_iff h hv).trans ?_)
    rw [Relation.Accepts, not_ne_iff]
  | tilde => exact matchesTilde_iff h hv
  | caret => exact matchesCaret_iff h hv

end Comparator

end Lintel.Version
