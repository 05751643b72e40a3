import Lintel.Proofs.Version.Meaning
import Lintel.Proofs.Text.Pairs

/-!
# Hyphen ranges

A hyphen range has two readers in it: its ends go to the requirement reader as they are spelled, and
the bounds `>=` and `<=` that it stands for are translated first, which takes their wildcards away.
The requirement reader takes a wildcard behind a number for nothing, so both come to the same bounds
where each end has a number. An end of wildcards alone is a bound that leaves nothing out when it is
translated, and is no bound to the requirement reader.
-/
namespace Lintel.Version

def wildTail (ws : List Char) : List Char := ws.flatMap fun w => ['.', w]

theorem intercalate_wildcards (q ws : List Char) :
    ['.'].intercalate (q :: ws.map fun w => [w]) = q ++ wildTail ws := by
  induction ws generalizing q with
  | nil => simp [wildTail]
  | cons w ws ih =>
    rw [List.map_cons, List.intercalate_cons_cons, ih]
    simp [wildTail]

namespace Comparator

section Wildcards

variable (r : Relation) {a b rest ws : List Char}

theorem stops_dot (cs : List Char) : Text.Stops Text.isAsciiDigit ('.' :: cs) :=
  Text.stops_cons.2 (by decide)

theorem stops_wildTail (ws : List Char) : Text.Stops Text.isAsciiDigit (wildTail ws) := by
  cases ws with
  | nil => exact Text.stops_nil
  | cons w ws => exact stops_dot _

theorem number?_eq_none (ha : Numeral a) (hcanonical : ¬ Canonical a)
    (hrest : Text.Stops Text.isAsciiDigit rest) : number? (a ++ rest) = none := by
  rw [Option.eq_none_iff_forall_ne_some]
  rintro ⟨n, rest'⟩ hread
  obtain ⟨ds, htext, hds, hds_canonical, hrest', -⟩ := number?_eq_some_iff.1 hread
  have hsame := congrArg (List.takeWhile Text.isAsciiDigit) htext
  rw [Text.takeWhile_append_stop ha.2 hrest, Text.takeWhile_append_stop hds.2 hrest'] at hsame
  exact hcanonical (hsame ▸ hds_canonical)

theorem read?_eq_none (ha : Numeral a) (hcanonical : ¬ Canonical a)
    (hrest : Text.Stops Text.isAsciiDigit rest) : read? (r.text ++ (a ++ rest)) = none := by
  simp only [read?, readRelation_numeral r ha, skipSpaces_numeral ha,
    number?_eq_none ha hcanonical hrest]
  rfl

theorem part?_eq_none (hb : Numeral b) (hcanonical : ¬ Canonical b)
    (hrest : Text.Stops Text.isAsciiDigit rest) : part? ('.' :: (b ++ rest)) = none := by
  obtain ⟨d, ds, rfl⟩ := List.exists_cons_of_ne_nil hb.1
  have hd := isWildcard_of_isAsciiDigit (hb.2 d (List.mem_cons_self ..))
  have hnone := number?_eq_none hb hcanonical hrest
  rw [List.cons_append] at hnone ⊢
  simp [part?, hd, hnone]

theorem read?_eq_none_of_minor (ha : Numeral a) (hb : Numeral b) (hcanonical : ¬ Canonical b)
    (hrest : Text.Stops Text.isAsciiDigit rest) :
    read? (r.text ++ (a ++ '.' :: (b ++ rest))) = none := by
  by_cases hmajor : Canonical a
  · simp only [read?, readRelation_numeral r ha, skipSpaces_numeral ha,
      number?_append ha hmajor (stops_dot _), Option.bind_eq_bind, Option.bind_some,
      part?_eq_none hb hcanonical hrest]
    rfl
  · exact read?_eq_none r ha hmajor (stops_dot _)

theorem part?_wildcard {w : Char} (hw : isWildcard w = true) (rest : List Char) :
    part? ('.' :: w :: rest) = some (.wildcard, rest) := by
  simp [part?, hw]

theorem read?_one_wildTail (ha : Numeral a) (hws : ∀ w ∈ ws, isWildcard w = true)
    (hlen : ws.length ≤ 2) : read? (r.text ++ (a ++ wildTail ws)) = read? (r.text ++ a) := by
  by_cases hcanonical : Canonical a
  · rw [read?_one r ⟨ha, hcanonical⟩]
    simp only [read?, readRelation_numeral r ha, skipSpaces_numeral ha,
      number?_append ha hcanonical (stops_wildTail ws), Option.bind_eq_bind, Option.bind_some]
    rcases ws with _ | ⟨w, _ | ⟨x, _ | ⟨y, ws⟩⟩⟩
    · rfl
    · have hw := hws w (by simp)
      rw [wildTail, List.flatMap_singleton, part?_wildcard hw]
      rfl
    · have hw := hws w (by simp)
      have hx := hws x (by simp)
      simp only [wildTail, List.flatMap_cons, List.flatMap_nil, List.cons_append, List.nil_append,
        part?_wildcard hw, part?_wildcard hx, Option.bind_some]
      rfl
    · simp at hlen
  · have hnone := read?_eq_none r ha hcanonical Text.stops_nil
    rw [List.append_nil] at hnone
    rw [read?_eq_none r ha hcanonical (stops_wildTail ws), hnone]

theorem read?_two_wildTail (ha : Numeral a) (hb : Numeral b)
    (hws : ∀ w ∈ ws, isWildcard w = true) (hlen : ws.length ≤ 1) :
    read? (r.text ++ (a ++ '.' :: (b ++ wildTail ws))) = read? (r.text ++ (a ++ '.' :: b)) := by
  by_cases hmajor : Canonical a
  · by_cases hminor : Canonical b
    · rw [read?_two r ⟨ha, hmajor⟩ ⟨hb, hminor⟩]
      simp only [read?, readRelation_numeral r ha, skipSpaces_numeral ha,
        number?_append ha hmajor (stops_dot _), part?_number hb hminor (stops_wildTail ws),
        Option.bind_eq_bind, Option.bind_some]
      rcases ws with _ | ⟨w, _ | ⟨x, ws⟩⟩
      · rfl
      · rw [wildTail, List.flatMap_singleton, part?_wildcard (hws w (by simp))]
        rfl
      · simp at hlen
    · have hnone := read?_eq_none_of_minor r ha hb hminor Text.stops_nil
      rw [List.append_nil] at hnone
      rw [read?_eq_none_of_minor r ha hb hminor (stops_wildTail ws), hnone]
  · rw [read?_eq_none r ha hmajor (stops_dot _), read?_eq_none r ha hmajor (stops_dot _)]

end Wildcards

variable (r : Relation) {p : Partial}

theorem read?_text (hne : p.numbers ≠ []) : read? (r.text ++ p.text) = read? (r.text ++ p.bare) := by
  have hthree := p.three_parts
  rw [Partial.text, Partial.core, Partial.parts, Partial.bare]
  rcases p.numbers_cases hne with ⟨a, hnumbers, hplain⟩ | ⟨a, b, hnumbers, hplain⟩ |
    ⟨a, b, c, hnumbers⟩
  · have ha : Numeral a := p.numeral a (by simp [hnumbers])
    rw [hnumbers, List.length_singleton] at hthree
    rw [hnumbers, hplain, List.singleton_append, intercalate_wildcards, List.append_nil,
      List.append_nil, List.intercalate_singleton]
    exact read?_one_wildTail r ha p.wild (by omega)
  · have ha : Numeral a := p.numeral a (by simp [hnumbers])
    have hb : Numeral b := p.numeral b (by simp [hnumbers])
    have hlen : p.wildcards.length ≤ 1 := by
      rw [hnumbers] at hthree
      exact Nat.le_of_add_le_add_left hthree
    have hread := read?_two_wildTail r ha hb p.wild hlen
    rw [hnumbers, hplain, List.cons_append, List.cons_append, List.nil_append,
      List.intercalate_cons_cons, intercalate_wildcards]
    simpa using hread
  · have hnil : p.wildcards = [] := by
      rw [hnumbers] at hthree
      exact List.length_eq_zero_iff.1 (Nat.le_zero.1 (Nat.le_of_add_le_add_left hthree))
    rw [hnil, List.map_nil, List.append_nil]

theorem read?_eq_none_of_numbers (hnil : p.numbers = []) : read? (r.text ++ p.text) = none := by
  have hsome := p.some_part
  have hplain : p.suffix = [] := by
    by_contra hne
    have hlen := p.suffix_full hne
    simp [hnil] at hlen
  obtain ⟨w, ws, hws⟩ : ∃ w ws, p.wildcards = w :: ws := by
    apply List.exists_cons_of_ne_nil
    intro hnone
    simp [hnil, hnone] at hsome
  have hw : isWildcard w = true := p.wild w (hws ▸ List.mem_cons_self ..)
  have htext : p.text = w :: wildTail ws := by
    rw [Partial.text, Partial.core, Partial.parts, hnil, hplain, hws, List.nil_append,
      List.append_nil, List.map_cons, intercalate_wildcards]
    rfl
  have hother : w ≠ '=' ∧ w ≠ ' ' ∧ Text.isAsciiDigit w = false := by
    simp only [isWildcard, Bool.or_eq_true, beq_iff_eq] at hw
    rcases hw with (rfl | rfl) | rfl <;> decide
  have hnumber : number? (w :: wildTail ws) = none := by
    rw [number?_eq]
    simp [hother.2.2, Text.word64?]
  have hrelation : readRelation (r.text ++ (w :: wildTail ws)) = (some r, w :: wildTail ws) :=
    readRelation_text r (Text.stops_cons.2 (by simpa using hother.1))
  have hspaces : skipSpaces (w :: wildTail ws) = w :: wildTail ws :=
    List.dropWhile_cons_of_neg (by simpa using hother.2.1)
  simp only [htext, read?, hrelation, hspaces, hnumber]
  rfl

theorem ofText?_text :
    ofText? (r.text ++ p.text) = if p.numbers = [] then none else ofText? (r.text ++ p.bare) := by
  split
  · next hnil => rw [ofText?, read?_eq_none_of_numbers r hnil]
  · next hne => rw [ofText?, ofText?, read?_text r hne]

end Comparator

namespace Operand

theorem solid_text (o : Operand) : Text.Solid o.text := fun _ hc =>
  isBlank_of_isVersionChar (o.isVersionChar_of_mem_text hc)

theorem bar_notMem_text (o : Operand) : '|' ∉ o.text := fun hmem =>
  absurd (o.isVersionChar_of_mem_text hmem) (by decide)

end Operand

theorem Term.solid_text (t : Term) : Text.Solid t.text :=
  Text.solid_append.2 ⟨fun _ hc =>
    Range.isBlank_of_isOperatorChar (isOperatorChar_of_mem_operatorText hc), t.operand.solid_text⟩

theorem Term.text_ne_nil (t : Term) : t.text ≠ [] :=
  List.append_ne_nil_of_right_ne_nil _ t.operand.text_ne_nil

theorem Term.bar_notMem_text (t : Term) : '|' ∉ t.text := by
  rw [Term.text, List.mem_append, not_or]
  exact ⟨fun hmem => absurd (isOperatorChar_of_mem_operatorText hmem) (by decide),
    t.operand.bar_notMem_text⟩

end Lintel.Version

namespace Lintel.Range

open Version (Operand Term Relation Requirement Comparator)

variable (low high : Operand)

def hyphenated : List Char := low.text ++ ' ' :: '-' :: ' ' :: high.text

theorem fields_hyphenated : Text.fields (hyphenated low high) = [low.text, ['-'], high.text] := by
  have hsolid : Text.Solid ['-'] := List.forall_mem_singleton.2 (by decide)
  have hdash := Text.fields_cons_of_solid (c := ' ') hsolid (by decide) (by decide) high.text
  rw [List.singleton_append] at hdash
  rw [hyphenated, Text.fields_cons_of_solid low.solid_text low.text_ne_nil (by decide), hdash,
    Text.fields_of_solid high.solid_text high.text_ne_nil]

theorem bar_notMem_hyphenated : '|' ∉ hyphenated low high := by
  simp [hyphenated, low.bar_notMem_text, high.bar_notMem_text]

def between : List Char := '>' :: '=' :: low.text ++ ' ' :: '<' :: '=' :: high.text

def atLeast (o : Operand) : Term := ⟨some .greaterEq, o⟩

def atMost (o : Operand) : Term := ⟨some .lessEq, o⟩

theorem between_eq : between low high = (atLeast low).text ++ ' ' :: (atMost high).text := rfl

theorem lists_between : Version.Lists [atLeast low, atMost high] (between low high) := by
  refine ⟨[[(atLeast low).text], [(atMost high).text]], .cons (.inl rfl) (.cons (.inl rfl) .nil), ?_⟩
  rw [between_eq, Text.fields_cons_of_solid (Term.solid_text _) (Term.text_ne_nil _) (by decide),
    Text.fields_of_solid (Term.solid_text _) (Term.text_ne_nil _)]
  rfl

theorem bar_notMem_between : '|' ∉ between low high := by
  simp [between_eq, Term.bar_notMem_text]

theorem alternative?_between :
    alternative? (between low high) =
      (Term.items [atLeast low, atMost high]).mapM Comparator.ofText? := by
  rw [Term.alternative?_of_lists (lists_between low high), if_pos]
  · rw [Term.items, List.length_map]
    have hlimit : 2 ≤ Requirement.limit := by decide
    exact (List.length_filter_le ..).trans hlimit
  · simp [Term.Bounded, atLeast, atMost]

theorem alternative?_hyphenated :
    alternative? (hyphenated low high) =
      [Relation.greaterEq.text ++ low.version.text, Relation.lessEq.text ++ high.version.text].mapM
        Comparator.ofText? := by
  have hitem : ∀ (r : Relation) (o : Operand), Requirement.Item (r.text ++ o.version.text) := by
    intro r o
    refine Requirement.item_append r.text_ne_nil r.isOperatorChar_of_mem_text fun hmem => ?_
    exact Version.ne_comma_of_isVersionChar (o.version.isVersionChar_of_mem_text hmem) rfl
  have hitems : ∀ cs ∈ [Relation.greaterEq.text ++ low.version.text,
      Relation.lessEq.text ++ high.version.text], Requirement.Item cs := by
    simp [hitem]
  have hread := Requirement.parse?_intercalate (by simp) hitems
  rw [if_pos (by simp; decide)] at hread
  rw [alternative?_of_hyphen (fields_hyphenated low high), low.dropV_text, high.dropV_text, ← hread]
  simp [Relation.text]

theorem alternative?_hyphenated_eq :
    alternative? (hyphenated low high) =
      if low.version.numbers = [] ∨ high.version.numbers = [] then none
      else alternative? (between low high) := by
  rw [alternative?_hyphenated, alternative?_between]
  by_cases hlow : low.version.numbers = []
  · simp [Comparator.ofText?_text, hlow]
  by_cases hhigh : high.version.numbers = []
  · simp [Comparator.ofText?_text, hhigh]
  have hitems : Term.items [atLeast low, atMost high] =
      [Relation.greaterEq.text ++ low.version.bare, Relation.lessEq.text ++ high.version.bare] := by
    simp [Term.items, Term.asking, Term.item, atLeast, atMost, hlow, hhigh]
  rw [if_neg (by simp [hlow, hhigh]), hitems]
  simp only [List.mapM_cons, Comparator.ofText?_text, if_neg hlow, if_neg hhigh]

theorem parse?_of_no_bar {cs : List Char} (h : '|' ∉ cs) :
    parse? (String.ofList cs) =
      (alternative? cs).map fun r => ⟨String.ofList (Text.trim cs), [r]⟩ := by
  simp only [parse?, String.toList_ofList, Text.piecesAtPair_of_notMem h, List.mapM_cons,
    List.mapM_nil]
  cases alternative? cs <;> rfl

theorem admits_singleton (text : String) (r : Requirement) : admits ⟨text, [r]⟩ = r.admits := by
  funext v
  simp [admits]

/-- A hyphen range is the two bounds, as long as both of its ends have a number. -/
theorem parse?_hyphenated :
    ((parse? (String.ofList (hyphenated low high))).isSome = true ↔
      (parse? (String.ofList (between low high))).isSome = true ∧
        low.version.numbers ≠ [] ∧ high.version.numbers ≠ []) ∧
    ∀ g h, parse? (String.ofList (hyphenated low high)) = some g →
      parse? (String.ofList (between low high)) = some h → ∀ v, g.admits v = h.admits v := by
  rw [parse?_of_no_bar (bar_notMem_hyphenated low high),
    parse?_of_no_bar (bar_notMem_between low high), alternative?_hyphenated_eq]
  by_cases hnumbers : low.version.numbers = [] ∨ high.version.numbers = []
  · rw [if_pos hnumbers]
    refine ⟨?_, by simp⟩
    have hnot : ¬ (low.version.numbers ≠ [] ∧ high.version.numbers ≠ []) := fun h =>
      hnumbers.elim h.1 h.2
    simp [hnot]
  · rw [if_neg hnumbers]
    rw [not_or] at hnumbers
    refine ⟨by simp [hnumbers], ?_⟩
    intro g h hg hh v
    obtain ⟨r, hr, rfl⟩ := Option.map_eq_some_iff.1 hg
    rw [hr, Option.map_some, Option.some.injEq] at hh
    rw [← hh, admits_singleton, admits_singleton]

section Sample

def someOne : Operand where
  mark := .capital
  version := .plain [['1']] ['X'] (by decide) (by simp [Comparator.isWildcard]) (by decide)
    (by decide)

theorem parse?_hyphenated_one_to_two :
    ∃ g h, parse? "V1.X - 2" = some g ∧ parse? ">=V1.X <=2" = some h ∧
      ∀ v, g.admits v = h.admits v := by
  have hbetween : (parse? (String.ofList (between someOne belowTwo.operand))).isSome = true := by
    decide +kernel
  have hboth := (parse?_hyphenated someOne belowTwo.operand).1.2
    ⟨hbetween, by decide, by decide⟩
  obtain ⟨g, hg⟩ := Option.isSome_iff_exists.1 hboth
  obtain ⟨h, hh⟩ := Option.isSome_iff_exists.1 hbetween
  exact ⟨g, h, hg, hh, (parse?_hyphenated someOne belowTwo.operand).2 g h hg hh⟩

theorem parse?_hyphenated_wildcard :
    ∃ low high : Operand, parse? (String.ofList (hyphenated low high)) = none ∧
      (parse? (String.ofList (between low high))).isSome = true :=
  ⟨anything.operand, belowTwo.operand, by decide +kernel, by decide +kernel⟩

end Sample

end Lintel.Range
