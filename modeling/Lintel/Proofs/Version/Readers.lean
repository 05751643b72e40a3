import Lintel.Proofs.Elementwise
import Lintel.Proofs.Version.Spelling

/-!
# What the readers take

Each reader of a part of a comparator takes a spelling of that part off the front of the text and
leaves the rest: a canonical numeral, a part behind a dot, the tag and the build metadata that a
suffix consists of. A comparator is read off an operator, a partial version with a number in it,
and the spaces around them.
-/
namespace Lintel.Version

theorem word64?_eq_some_iff {ds : List Char} {n : Nat} :
    Text.word64? ds = some n ↔
      Numeral ds ∧ Text.decimal ds < Nat.pow 2 64 ∧ n = Text.decimal ds := by
  simp only [Text.word64?, Numeral, List.all_eq_true]
  split
  · next h =>
    rw [Option.some.injEq]
    exact ⟨fun hn => ⟨⟨h.1, h.2.1⟩, h.2.2, hn.symm⟩, fun hn => hn.2.2.symm⟩
  · next h =>
    exact ⟨fun hn => (nomatch hn), fun hn => absurd ⟨hn.1.1, hn.1.2, hn.2.1⟩ h⟩

theorem number?_eq (cs : List Char) :
    number? cs =
      if (cs.takeWhile Text.isAsciiDigit).head? = some '0' ∧
          (cs.takeWhile Text.isAsciiDigit).length ≠ 1 then none
      else (Text.word64? (cs.takeWhile Text.isAsciiDigit)).map fun n =>
        (n, cs.dropWhile Text.isAsciiDigit) := rfl

theorem number?_eq_some_iff {cs rest : List Char} {n : Nat} :
    number? cs = some (n, rest) ↔
      ∃ ds, cs = ds ++ rest ∧ Numeral ds ∧ Canonical ds ∧ Text.Stops Text.isAsciiDigit rest ∧
        n = Text.decimal ds := by
  rw [number?_eq]
  constructor
  · intro h
    split at h
    · cases h
    · next hzero =>
      simp only [Option.map_eq_some_iff, word64?_eq_some_iff, Prod.mk.injEq] at h
      obtain ⟨_, ⟨hnumeral, hword, rfl⟩, rfl, rfl⟩ := h
      refine ⟨_, List.takeWhile_append_dropWhile.symm, hnumeral, ⟨?_, hword⟩,
        Text.stops_dropWhile cs, rfl⟩
      intro hhead
      by_contra hlen
      exact hzero ⟨hhead, hlen⟩
  · intro h'
    obtain ⟨ds, rfl, hnumeral, ⟨hzero, hword⟩, hrest, rfl⟩ := h'
    rw [Text.takeWhile_append_stop hnumeral.2 hrest, Text.dropWhile_append_stop hnumeral.2 hrest,
      if_neg fun h => h.2 (hzero h.1), word64?_eq_some_iff.2 ⟨hnumeral, hword, rfl⟩]
    rfl

namespace Comparator

theorem isWildcard_of_isAsciiDigit {c : Char} (hc : Text.isAsciiDigit c = true) :
    isWildcard c = false := by
  by_contra h
  simp only [isWildcard, Bool.not_eq_false, Bool.or_eq_true, beq_iff_eq] at h
  rcases h with (rfl | rfl) | rfl <;> revert hc <;> decide

theorem part?_given {ds rest : List Char} {n : Nat} (hds : Numeral ds)
    (h : number? (ds ++ rest) = some (n, rest)) :
    part? ('.' :: (ds ++ rest)) = some (.given n, rest) := by
  obtain ⟨d, ds, rfl⟩ := List.exists_cons_of_ne_nil hds.1
  have hd := isWildcard_of_isAsciiDigit (hds.2 d (List.mem_cons_self ..))
  rw [List.cons_append] at h ⊢
  simp [part?, hd, h]

def Part.Spells : Part → List Char → Prop
  | .absent, cs => cs = []
  | .wildcard, cs => ∃ c, isWildcard c = true ∧ cs = ['.', c]
  | .given _, cs => ∃ ds, Numeral ds ∧ Canonical ds ∧ cs = '.' :: ds

theorem spells_of_part? {cs rest : List Char} {x : Part} (h : part? cs = some (x, rest)) :
    ∃ v, cs = v ++ rest ∧ x.Spells v := by
  unfold part? at h
  split at h
  · next c tail =>
    split at h
    · next hc =>
      cases h
      exact ⟨['.', c], rfl, c, hc, rfl⟩
    · simp only [Option.map_eq_some_iff, Prod.exists, Prod.mk.injEq] at h
      obtain ⟨n, _, hn, rfl, rfl⟩ := h
      obtain ⟨ds, hds, hnumeral, hcanonical, -, -⟩ := number?_eq_some_iff.1 hn
      exact ⟨'.' :: ds, by rw [hds]; rfl, ds, hnumeral, hcanonical, rfl⟩
  · cases h
  · cases h
    exact ⟨[], rfl, rfl⟩

theorem eq_append_of_readRelation {cs rest : List Char} {op : Option Relation}
    (h : readRelation cs = (op, rest)) : cs = operatorText op ++ rest := by
  unfold readRelation at h
  split at h <;> cases h <;> rfl

theorem readRelation_text (r : Relation) {rest : List Char} (h : Text.Stops (· == '=') rest) :
    readRelation (r.text ++ rest) = (some r, rest) := by
  cases rest with
  | nil => cases r <;> rfl
  | cons c rest =>
    have hc : c ≠ '=' := by simpa using Text.stops_cons.1 h
    cases r <;> simp [readRelation, Relation.text, hc]

end Comparator

section Suffix

variable {cs rest : List Char}

theorem isSuffixChar_of_mem_spanSuffix {c : Char} (hc : c ∈ (spanSuffix cs).1) :
    isSuffixChar c = true := by
  rw [spanSuffix, List.span_eq_takeWhile_dropWhile] at hc
  have h := List.all_takeWhile (p := fun c => isIdentifierChar c || c == '.') (l := cs)
  have := List.all_eq_true.1 h c hc
  simp only [Bool.or_eq_true] at this
  rcases this with hid | hdot
  · exact isSuffixChar_of_isIdentifierChar hid
  · simp [isSuffixChar, hdot]

theorem spanSuffix_append (cs : List Char) : (spanSuffix cs).1 ++ (spanSuffix cs).2 = cs := by
  rw [spanSuffix, List.span_eq_takeWhile_dropWhile, List.takeWhile_append_dropWhile]

theorem spells_of_optionalTag? {tag : Tag} (h : optionalTag? cs = some (tag, rest)) :
    ∃ v, cs = v ++ rest ∧ (∀ c ∈ v, isSuffixChar c = true) ∧ (v ≠ [] → v.head? = some '-') := by
  unfold optionalTag? at h
  split at h
  · next tail =>
    simp only [tag?, Option.bind_eq_bind, Option.bind_eq_some_iff, Option.some.injEq,
      Prod.mk.injEq] at h
    obtain ⟨_, -, rfl, rfl⟩ := h
    refine ⟨'-' :: (spanSuffix tail).1, ?_, ?_, fun _ => rfl⟩
    · rw [List.cons_append, spanSuffix_append]
    · exact List.forall_mem_cons.2 ⟨by decide, fun _ => isSuffixChar_of_mem_spanSuffix⟩
  · cases h
    exact ⟨[], rfl, by simp, fun hne => absurd rfl hne⟩

theorem spells_of_skipOptionalBuild? (h : skipOptionalBuild? cs = some rest) :
    ∃ v, cs = v ++ rest ∧ (∀ c ∈ v, isSuffixChar c = true) ∧ (v ≠ [] → v.head? = some '+') := by
  unfold skipOptionalBuild? at h
  split at h
  · next tail =>
    simp only [skipBuild?] at h
    split at h
    · cases h
    · cases h
      refine ⟨'+' :: (spanSuffix tail).1, ?_, ?_, fun _ => rfl⟩
      · rw [List.cons_append, spanSuffix_append]
      · exact List.forall_mem_cons.2 ⟨by decide, fun _ => isSuffixChar_of_mem_spanSuffix⟩
  · cases h
    exact ⟨[], rfl, by simp, fun hne => absurd rfl hne⟩

end Suffix

namespace Comparator

theorem exists_skipSpaces (cs : List Char) :
    ∃ blanks, cs = blanks ++ skipSpaces cs ∧ ∀ b ∈ blanks, b = ' ' := by
  refine ⟨cs.takeWhile (· == ' '), List.takeWhile_append_dropWhile.symm, ?_⟩
  intro b hb
  simpa using List.all_eq_true.1 (List.all_takeWhile (l := cs) (p := (· == ' '))) b hb

theorem exists_partial (numbers : List (List Char)) (wildcards : List Char) (hne : numbers ≠ [])
    (hnumbers : ∀ ds ∈ numbers, Numeral ds) (hwild : ∀ c ∈ wildcards, isWildcard c = true)
    (hlen : numbers.length + wildcards.length ≤ 3) :
    ∃ p : Partial, p.numbers ≠ [] ∧
      p.text = ['.'].intercalate (numbers ++ wildcards.map fun c => [c]) := by
  have hpos := List.length_pos_iff.2 hne
  refine ⟨.plain numbers wildcards hnumbers hwild (by omega) hlen, hne, ?_⟩
  exact List.append_nil _

theorem exists_full {d₁ d₂ d₃ v w : List Char} (h₁ : Numeral d₁) (h₂ : Numeral d₂)
    (h₃ : Numeral d₃) (hv : (∀ c ∈ v, isSuffixChar c = true) ∧ (v ≠ [] → v.head? = some '-'))
    (hw : (∀ c ∈ w, isSuffixChar c = true) ∧ (w ≠ [] → w.head? = some '+')) :
    ∃ p : Partial, p.numbers ≠ [] ∧ p.text = ['.'].intercalate [d₁, d₂, d₃] ++ (v ++ w) := by
  refine ⟨⟨[d₁, d₂, d₃], [], v ++ w, by simp [h₁, h₂, h₃], by simp, by simp, by simp,
    fun _ => rfl, ?_, ?_⟩, by simp, rfl⟩
  · intro c hc
    rw [List.head?_append] at hc
    by_cases hnil : v = []
    · have hne : w ≠ [] := by
        intro h
        subst h
        simp [hnil] at hc
      rw [hnil, hw.2 hne] at hc
      cases hc
      rfl
    · rw [hv.2 hnil] at hc
      cases hc
      rfl
  · exact fun c hc => (List.mem_append.1 hc).elim (hv.1 c) (hw.1 c)

def SpelledLoosely (cs : List Char) : Prop :=
  ∃ (op : Option Relation) (before behind : List Char) (p : Partial),
    cs = operatorText op ++ before ++ p.text ++ behind ∧
      (∀ b ∈ before, b = ' ') ∧ (∀ b ∈ behind, b = ' ') ∧ p.numbers ≠ []

theorem spelled_of_read? {cs rest : List Char} {c : Comparator} (h : read? cs = some (c, rest)) :
    ∃ v, cs = v ++ rest ∧ SpelledLoosely v := by
  simp only [read?, Option.bind_eq_bind, Option.bind_eq_some_iff, Prod.exists] at h
  obtain ⟨n, r₁, hmajor, x, r₂, hminor, y, r₃, hpatch, h⟩ := h
  have hop := eq_append_of_readRelation (Prod.eta (readRelation cs)).symm
  obtain ⟨before, hbefore, hblank⟩ := exists_skipSpaces (readRelation cs).2
  obtain ⟨d₁, htext, hd₁, -⟩ := number?_eq_some_iff.1 hmajor
  obtain ⟨v₂, rfl, hv₂⟩ := spells_of_part? hminor
  obtain ⟨v₃, rfl, hv₃⟩ := spells_of_part? hpatch
  have hclose : ∀ {p : Partial} {tail : List Char}, p.numbers ≠ [] →
      d₁ ++ (v₂ ++ (v₃ ++ r₃)) = p.text ++ tail → rest = skipSpaces tail →
      ∃ v, cs = v ++ rest ∧ SpelledLoosely v := by
    intro p tail hne hp hrest
    obtain ⟨behind, hbehind, hblank'⟩ := exists_skipSpaces tail
    refine ⟨_, ?_, (readRelation cs).1, before, behind, p, rfl, hblank, hblank', hne⟩
    rw [hrest, List.append_assoc, ← hbehind, List.append_assoc, ← hp, List.append_assoc, ← htext,
      ← hbefore, ← hop]
  have hplain : ∀ (numbers : List (List Char)) (wildcards : List Char), numbers ≠ [] →
      (∀ ds ∈ numbers, Numeral ds) → (∀ c ∈ wildcards, isWildcard c = true) →
      numbers.length + wildcards.length ≤ 3 →
      d₁ ++ v₂ ++ v₃ = ['.'].intercalate (numbers ++ wildcards.map fun c => [c]) →
      rest = skipSpaces r₃ → ∃ v, cs = v ++ rest ∧ SpelledLoosely v := by
    intro numbers wildcards hne hnumbers hwild hlen hcore hrest
    obtain ⟨p, hp, hptext⟩ := exists_partial numbers wildcards hne hnumbers hwild hlen
    refine hclose hp ?_ hrest
    rw [hptext, ← hcore, List.append_assoc, List.append_assoc]
  -- without a third number the version has no suffix
  cases x with
  | absent =>
    cases hv₂
    cases y with
    | absent =>
      cases h
      cases hv₃
      exact hplain [d₁] [] (by simp) (by simpa using hd₁) (by simp) (by simp) (by simp) rfl
    | wildcard => cases h
    | given _ => cases h
  | wildcard =>
    obtain ⟨w₂, hw₂, rfl⟩ := hv₂
    cases y with
    | absent =>
      cases h
      cases hv₃
      exact hplain [d₁] [w₂] (by simp) (by simpa using hd₁) (by simpa using hw₂) (by simp)
        (by simp) rfl
    | wildcard =>
      cases h
      obtain ⟨w₃, hw₃, rfl⟩ := hv₃
      exact hplain [d₁] [w₂, w₃] (by simp) (by simpa using hd₁) (by simp [hw₂, hw₃]) (by simp)
        (by simp) rfl
    | given _ => cases h
  | given _ =>
    obtain ⟨d₂, hd₂, -, rfl⟩ := hv₂
    cases y with
    | absent =>
      cases h
      cases hv₃
      exact hplain [d₁, d₂] [] (by simp) (by simp [hd₁, hd₂]) (by simp) (by simp) (by simp) rfl
    | wildcard =>
      cases h
      obtain ⟨w₃, hw₃, rfl⟩ := hv₃
      exact hplain [d₁, d₂] [w₃] (by simp) (by simp [hd₁, hd₂]) (by simpa using hw₃) (by simp)
        (by simp) rfl
    | given _ =>
      obtain ⟨d₃, hd₃, -, rfl⟩ := hv₃
      simp only [Option.bind_eq_some_iff, Prod.exists] at h
      obtain ⟨tag, r₄, htag, r₅, hbuild, h⟩ := h
      cases h
      obtain ⟨v, rfl, hv⟩ := spells_of_optionalTag? htag
      obtain ⟨w, rfl, hw⟩ := spells_of_skipOptionalBuild? hbuild
      obtain ⟨p, hne, hp⟩ := exists_full hd₁ hd₂ hd₃ hv hw
      exact hclose hne (by simp [hp]) rfl

end Comparator

end Lintel.Version
