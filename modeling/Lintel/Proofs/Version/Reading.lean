import Lintel.Proofs.Version.Readers

/-!
# Valid spellings are read

A valid partial version with a number in it is read to its end, and what is read holds the values
of its numbers and whether it has a pre-release tag. Its wildcards are left out before it is read.
-/
namespace Lintel.Version

namespace Partial

variable (p : Partial)

def bare : List Char := ['.'].intercalate p.numbers ++ p.suffix

def values : List Nat := p.numbers.map Text.decimal

def IsTagged : Prop := p.suffix.head? = some '-'

instance : Decidable p.IsTagged := inferInstanceAs (Decidable (_ = _))

end Partial

def Comparator.named (r : Relation) (values : List Nat) (tag : Tag) : Comparator :=
  ⟨r, values.headD 0, values[1]?, values[2]?, tag⟩

section Suffix

theorem ofText?_of_isTagIdentifier {cs : List Char} (h : IsTagIdentifier cs) :
    ∃ i, Identifier.ofText? cs = some i := by
  obtain ⟨⟨hne, -⟩, hzero⟩ := h
  rw [Identifier.ofText?, if_neg hne]
  by_cases hdigits : cs.all Text.isAsciiDigit = true
  · rw [if_pos hdigits, if_neg]
    · exact ⟨_, rfl⟩
    · intro h'
      obtain ⟨hhead, hlen⟩ := h'
      exact hlen (hzero hdigits hhead)
  · rw [if_neg hdigits]
    exact ⟨_, rfl⟩

theorem dot_notMem_of_isIdentifier {cs : List Char} (h : IsIdentifier cs) : '.' ∉ cs := by
  intro hdot
  exact absurd (h.2 '.' hdot) (by decide)

theorem spanSuffix_identifiers {parts : List (List Char)} (hparts : ∀ cs ∈ parts, IsIdentifier cs)
    {rest : List Char} (hrest : rest = [] ∨ rest.head? = some '+') :
    spanSuffix (['.'].intercalate parts ++ rest) = (['.'].intercalate parts, rest) := by
  apply Text.span_append_stop
  · intro c hc
    rcases Text.mem_intercalate hc with rfl | ⟨q, hq, hmem⟩
    · decide
    · simp [(hparts q hq).2 c hmem]
  · intro c hc
    rcases hrest with rfl | hplus
    · cases hc
    · rw [hplus] at hc
      cases hc
      decide

theorem announced_head (c : Char) (parts : List (List Char)) :
    announced c parts = [] ∨ (announced c parts).head? = some c := by
  cases parts with
  | nil => exact .inl rfl
  | cons q qs => exact .inr rfl

theorem optionalTag?_announced {tag : List (List Char)} (htag : ∀ cs ∈ tag, IsTagIdentifier cs)
    (build : List (List Char)) :
    ∃ t : Tag, optionalTag? (announced '-' tag ++ announced '+' build) =
      some (t, announced '+' build) ∧ t.length = tag.length := by
  cases tag with
  | nil =>
    refine ⟨[], ?_, rfl⟩
    cases build <;> rfl
  | cons i is =>
    obtain ⟨t, ht⟩ := exists_forall₂_iff.2 fun cs hcs => ofText?_of_isTagIdentifier (htag cs hcs)
    refine ⟨t, ?_, ht.length_eq.symm⟩
    have hspan := spanSuffix_identifiers (fun cs hcs => (htag cs hcs).1)
      (announced_head '+' build)
    have hpieces := Text.pieces_intercalate (a := '.')
      (fun cs hcs => dot_notMem_of_isIdentifier (htag cs hcs).1) (List.cons_ne_nil i is)
    have hread : tag? (['.'].intercalate (i :: is) ++ announced '+' build) =
        some (t, announced '+' build) := by
      simp only [tag?, hspan, hpieces, mapM_eq_some_iff.2 ht]
      rfl
    exact hread

theorem skipOptionalBuild?_announced {build : List (List Char)}
    (hbuild : ∀ cs ∈ build, IsIdentifier cs) :
    skipOptionalBuild? (announced '+' build) = some [] := by
  cases build with
  | nil => rfl
  | cons i is =>
    have hspan := spanSuffix_identifiers hbuild (.inl rfl)
    rw [List.append_nil] at hspan
    have hpieces := Text.pieces_intercalate (a := '.')
      (fun cs hcs => dot_notMem_of_isIdentifier (hbuild cs hcs)) (List.cons_ne_nil i is)
    have hne : [] ∉ i :: is := fun hnil => (hbuild [] hnil).1 rfl
    have hread : skipBuild? (['.'].intercalate (i :: is)) = some [] := by
      simp only [skipBuild?, hspan, hpieces, if_neg hne]
    exact hread

theorem suffix_of_valid {suffix : List Char} (h : ValidSuffix suffix) :
    ∃ (t : Tag) (rest : List Char), optionalTag? suffix = some (t, rest) ∧
      skipOptionalBuild? rest = some [] ∧ (t = [] ↔ suffix.head? ≠ some '-') := by
  obtain ⟨tag, build, rfl, htag, hbuild⟩ := h
  obtain ⟨t, ht, hlen⟩ := optionalTag?_announced htag build
  refine ⟨t, _, ht, skipOptionalBuild?_announced hbuild, ?_⟩
  cases tag with
  | nil =>
    rw [List.length_eq_zero_iff.1 hlen]
    cases build <;> simp [announced]
  | cons i is =>
    have hne : t ≠ [] := by
      intro h'
      subst h'
      cases hlen
    simp [hne, announced]

end Suffix

namespace Comparator

section Numbers

variable {ds rest : List Char}

theorem number?_append (hds : Numeral ds) (hcanonical : Canonical ds)
    (hrest : Text.Stops Text.isAsciiDigit rest) :
    number? (ds ++ rest) = some (Text.decimal ds, rest) :=
  number?_eq_some_iff.2 ⟨ds, rfl, hds, hcanonical, hrest, rfl⟩

theorem part?_number (hds : Numeral ds) (hcanonical : Canonical ds)
    (hrest : Text.Stops Text.isAsciiDigit rest) :
    part? ('.' :: (ds ++ rest)) = some (.given (Text.decimal ds), rest) :=
  part?_given hds (number?_append hds hcanonical hrest)

theorem stops_of_numeral {c : Char} (hds : Numeral ds) (hc : Text.isAsciiDigit c = false) :
    Text.Stops (· == c) (ds ++ rest) := by
  obtain ⟨d, ds, rfl⟩ := List.exists_cons_of_ne_nil hds.1
  have hd := hds.2 d (List.mem_cons_self ..)
  refine Text.stops_cons.2 (beq_false_of_ne ?_)
  intro h
  subst h
  rw [hc] at hd
  cases hd

theorem readRelation_numeral (r : Relation) (hds : Numeral ds) :
    readRelation (r.text ++ (ds ++ rest)) = (some r, ds ++ rest) :=
  readRelation_text r (stops_of_numeral hds (by decide))

theorem skipSpaces_numeral (hds : Numeral ds) : skipSpaces (ds ++ rest) = ds ++ rest :=
  Text.dropWhile_append_stop (v := []) (by simp) (stops_of_numeral hds (by decide))

end Numbers

section Read

variable (r : Relation) {a b c suffix : List Char}

theorem read?_one (ha : Numeral a ∧ Canonical a) :
    read? (r.text ++ a) = some (named r [Text.decimal a] [], []) := by
  have hrelation : readRelation (r.text ++ (a ++ [])) = (some r, a ++ []) :=
    readRelation_numeral r ha.1
  have hspaces : skipSpaces (a ++ []) = a ++ [] := skipSpaces_numeral ha.1
  have hmajor := number?_append ha.1 ha.2 Text.stops_nil
  rw [List.append_nil] at hrelation hspaces hmajor
  simp only [read?, hrelation, hspaces, hmajor]
  rfl

theorem read?_two (ha : Numeral a ∧ Canonical a) (hb : Numeral b ∧ Canonical b) :
    read? (r.text ++ (a ++ '.' :: b)) =
      some (named r [Text.decimal a, Text.decimal b] [], []) := by
  have hdot : Text.Stops Text.isAsciiDigit ('.' :: b) := Text.stops_cons.2 (by decide)
  have hminor := part?_number hb.1 hb.2 Text.stops_nil
  rw [List.append_nil] at hminor
  simp only [read?, readRelation_numeral r ha.1, skipSpaces_numeral ha.1,
    number?_append ha.1 ha.2 hdot, Option.bind_eq_bind, Option.bind_some, hminor]
  rfl

theorem read?_three (ha : Numeral a ∧ Canonical a) (hb : Numeral b ∧ Canonical b)
    (hc : Numeral c ∧ Canonical c) (hsuffix : Text.Stops Text.isAsciiDigit suffix)
    {tag : Tag} {rest : List Char} (htag : optionalTag? suffix = some (tag, rest))
    (hbuild : skipOptionalBuild? rest = some []) :
    read? (r.text ++ (a ++ '.' :: (b ++ '.' :: (c ++ suffix)))) =
      some (named r [Text.decimal a, Text.decimal b, Text.decimal c] tag, []) := by
  have hdot : ∀ cs, Text.Stops Text.isAsciiDigit ('.' :: cs) :=
    fun cs => Text.stops_cons.2 (by decide)
  simp only [read?, readRelation_numeral r ha.1, skipSpaces_numeral ha.1,
    number?_append ha.1 ha.2 (hdot _), part?_number hb.1 hb.2 (hdot _),
    part?_number hc.1 hc.2 hsuffix, Option.bind_eq_bind, Option.bind_some, htag, hbuild]
  rfl

end Read

theorem isAsciiDigit_of_announcesSuffix {c : Char} (hc : announcesSuffix c = true) :
    Text.isAsciiDigit c = false := by
  simp only [announcesSuffix, Bool.or_eq_true, beq_iff_eq] at hc
  rcases hc with rfl | rfl <;> decide

theorem read?_bare (r : Relation) {p : Partial} (hvalid : p.Valid) (hne : p.numbers ≠ []) :
    ∃ tag : Tag, read? (r.text ++ p.bare) = some (named r p.values tag, []) ∧
      (tag = [] ↔ ¬ p.IsTagged) := by
  have hnumber : ∀ ds ∈ p.numbers, Numeral ds ∧ Canonical ds :=
    fun ds hds => ⟨p.numeral ds hds, hvalid.1 ds hds⟩
  rw [Partial.bare, Partial.values, Partial.IsTagged]
  rcases p.numbers_cases hne with ⟨a, hnumbers, hplain⟩ | ⟨a, b, hnumbers, hplain⟩ |
    ⟨a, b, c, hnumbers⟩
  · simp only [hnumbers, List.forall_mem_singleton] at hnumber
    refine ⟨[], ?_, by simp [hplain]⟩
    simpa [hnumbers, hplain] using read?_one r hnumber
  · simp only [hnumbers, List.forall_mem_cons] at hnumber
    refine ⟨[], ?_, by simp [hplain]⟩
    simpa [hnumbers, hplain] using read?_two r hnumber.1 hnumber.2.1
  · simp only [hnumbers, List.forall_mem_cons] at hnumber
    obtain ⟨tag, rest, htag, hbuild, htagged⟩ := suffix_of_valid hvalid.2
    refine ⟨tag, ?_, htagged⟩
    have hsuffix : Text.Stops Text.isAsciiDigit p.suffix :=
      fun d hd => isAsciiDigit_of_announcesSuffix (p.suffix_announced d hd)
    simpa [hnumbers] using
      read?_three r hnumber.1 hnumber.2.1 hnumber.2.2.1 hsuffix htag hbuild

end Comparator

end Lintel.Version
