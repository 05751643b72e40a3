import Lintel.Proofs.Version.Gaps
import Lintel.Proofs.Version.Joined
import Lintel.Proofs.Version.Reading

/-!
# Terms are translated

The fields that spell a list of terms are glued to the texts of the terms, since only an operator
ends in an operator character. Each term is then cut into its operator and its version, and the
version into its numbers and its suffix; a term with a number in it becomes an item of a
requirement, and one without asks for nothing.
-/
namespace Lintel.Version

open Range (EndsOpen glue attach isOperatorChar)

namespace Term

variable (t : Term)

theorem not_endsOpen_text : ¬ EndsOpen t.text := by
  intro h
  obtain ⟨c, hlast, hc⟩ := h
  rw [text, List.getLast?_append_of_ne_nil _ t.operand.text_ne_nil] at hlast
  rw [t.operand.isOperatorChar_of_mem_text (List.mem_of_getLast? hlast)] at hc
  cases hc

theorem endsOpen_operatorText (h : t.operator ≠ none) : EndsOpen (operatorText t.operator) := by
  cases hop : t.operator with
  | none => exact absurd hop h
  | some r => cases r <;> decide

theorem not_endsOpen_operand : ¬ EndsOpen t.operand.text := by
  intro h
  obtain ⟨c, hlast, hc⟩ := h
  rw [t.operand.isOperatorChar_of_mem_text (List.mem_of_getLast? hlast)] at hc
  cases hc

theorem glue_of_spells {fs : List (List Char)} (h : t.Spells fs) (rest : List (List Char)) :
    glue (fs ++ rest) = t.text :: glue rest := by
  rcases h with rfl | ⟨hop, rfl⟩
  · exact Range.glue_cons_of_not_open t.not_endsOpen_text rest
  · rw [List.cons_append, Range.glue_cons_of_open (t.endsOpen_operatorText hop),
      List.cons_append, Range.glue_cons_of_not_open t.not_endsOpen_operand]
    rfl

theorem glue_flatten {ts : List Term} {fss : List (List (List Char))}
    (h : List.Forall₂ Spells ts fss) : glue fss.flatten = ts.map text := by
  induction h with
  | nil => rfl
  | cons hspells _ ih =>
    rw [List.flatten_cons, glue_of_spells _ hspells, ih, List.map_cons]

theorem operatorText_ne_dash : operatorText t.operator ≠ ['-'] := by
  intro h
  have hdash := isOperatorChar_of_mem_operatorText (h ▸ List.mem_singleton_self '-')
  exact absurd hdash (by decide)

theorem text_ne_dash : t.text ≠ ['-'] := by
  intro h
  rcases List.append_eq_singleton_iff.1 h with ⟨-, hdash⟩ | ⟨hdash, -⟩
  · exact t.operand.text_ne_dash hdash
  · exact t.operatorText_ne_dash hdash

theorem dash_notMem_of_spells {fs : List (List Char)} (h : t.Spells fs) : ['-'] ∉ fs := by
  rcases h with rfl | ⟨-, rfl⟩
  · simpa using t.text_ne_dash.symm
  · simpa using ⟨t.operatorText_ne_dash.symm, t.operand.text_ne_dash.symm⟩

theorem dash_notMem_flatten {ts : List Term} {fss : List (List (List Char))}
    (h : List.Forall₂ Spells ts fss) : ['-'] ∉ fss.flatten := by
  induction h with
  | nil => simp
  | cons hspells _ ih =>
    rw [List.flatten_cons, List.mem_append, not_or]
    exact ⟨dash_notMem_of_spells _ hspells, ih⟩

end Term

section Parts

def IsWildPart (q : List Char) : Prop := q = ['x'] ∨ q = ['X'] ∨ q = ['*']

instance (q : List Char) : Decidable (IsWildPart q) :=
  inferInstanceAs (Decidable (_ ∨ _))

theorem isWildPart_iff {q : List Char} :
    IsWildPart q ↔ ∃ c, Comparator.isWildcard c = true ∧ q = [c] := by
  simp only [IsWildPart, Comparator.isWildcard, Bool.or_eq_true, beq_iff_eq]
  constructor
  · intro h
    rcases h with rfl | rfl | rfl
    · exact ⟨'x', by decide, rfl⟩
    · exact ⟨'X', by decide, rfl⟩
    · exact ⟨'*', by decide, rfl⟩
  · intro h
    obtain ⟨c, (rfl | rfl) | rfl, rfl⟩ := h
    · exact .inr (.inr rfl)
    · exact .inl rfl
    · exact .inr (.inl rfl)

theorem not_isWildPart_of_numeral {q : List Char} (h : Numeral q) : ¬ IsWildPart q := by
  rintro (rfl | rfl | rfl) <;> exact absurd (h.2 _ (List.mem_singleton_self _)) (by decide)

theorem leadingNumbers?_cons (part : List Char) (parts : List (List Char)) :
    Range.leadingNumbers? (part :: parts) =
      if IsWildPart part then some []
      else if part ≠ [] ∧ part.all Text.isAsciiDigit = true then
        (Range.leadingNumbers? parts).map (part :: ·)
      else none := rfl

theorem leadingNumbers?_eq_some_iff {parts numbers : List (List Char)} :
    Range.leadingNumbers? parts = some numbers ↔
      ∃ rest, parts = numbers ++ rest ∧ (∀ q ∈ numbers, Numeral q) ∧
        Text.Stops (fun q => !decide (IsWildPart q)) rest := by
  induction parts generalizing numbers with
  | nil =>
    rw [Range.leadingNumbers?]
    constructor
    · intro h
      cases h
      exact ⟨[], rfl, by simp, Text.stops_nil⟩
    · intro h'
      obtain ⟨rest, h, -, -⟩ := h'
      rw [(List.append_eq_nil_iff.1 h.symm).1]
  | cons part parts ih =>
    rw [leadingNumbers?_cons]
    by_cases hwild : IsWildPart part
    · rw [if_pos hwild]
      constructor
      · intro h
        cases h
        exact ⟨part :: parts, rfl, by simp, Text.stops_cons.2 (by simpa using hwild)⟩
      · intro h'
        obtain ⟨rest, h, hnumbers, -⟩ := h'
        cases numbers with
        | nil => rfl
        | cons q numbers =>
          obtain ⟨rfl, -⟩ := List.cons.inj h
          exact absurd hwild (not_isWildPart_of_numeral (hnumbers _ (List.mem_cons_self ..)))
    · rw [if_neg hwild]
      constructor
      · intro h
        split at h
        · next hpart =>
          rw [Option.map_eq_some_iff] at h
          obtain ⟨ns, hns, rfl⟩ := h
          obtain ⟨rest, rfl, hnumbers, hrest⟩ := ih.1 hns
          exact ⟨rest, rfl, List.forall_mem_cons.2
            ⟨⟨hpart.1, List.all_eq_true.1 hpart.2⟩, hnumbers⟩, hrest⟩
        · cases h
      · intro h'
        obtain ⟨rest, h, hnumbers, hrest⟩ := h'
        cases numbers with
        | nil =>
          rw [List.nil_append] at h
          rw [← h] at hrest
          exact absurd (by simpa using Text.stops_cons.1 hrest) hwild
        | cons q numbers =>
          obtain ⟨rfl, rfl⟩ := List.cons.inj h
          rw [List.forall_mem_cons] at hnumbers
          rw [if_pos ⟨hnumbers.1.1, List.all_eq_true.2 hnumbers.1.2⟩,
            ih.2 ⟨rest, rfl, hnumbers.2, hrest⟩]
          rfl

theorem ite_suffix {numbers : List (List Char)} {suffix : List Char}
    (h : suffix ≠ [] → numbers.length = 3) :
    (if numbers.length = 3 then suffix else []) = suffix := by
  split
  · rfl
  · next hlen =>
    by_contra hne
    exact hlen (h (Ne.symm hne))

end Parts

namespace Partial

variable (p : Partial)

theorem dot_notMem_parts {q : List Char} (hq : q ∈ p.parts) : '.' ∉ q := by
  intro hdot
  rcases List.mem_append.1 hq with hnumber | hwild
  · exact absurd ((p.numeral q hnumber).2 '.' hdot) (by decide)
  · obtain ⟨w, hw, rfl⟩ := List.mem_map.1 hwild
    rw [← List.mem_singleton.1 hdot] at hw
    exact absurd (p.wild _ hw) (by decide)

theorem pieces_core : Text.pieces (· == '.') p.core = p.parts :=
  Text.pieces_intercalate (fun _ hq => p.dot_notMem_parts hq) p.parts_ne_nil

theorem isWildPart_of_mem {q : List Char} (hq : q ∈ p.wildcards.map fun c => [c]) :
    IsWildPart q := by
  obtain ⟨w, hw, rfl⟩ := List.mem_map.1 hq
  exact isWildPart_iff.2 ⟨w, p.wild w hw, rfl⟩

theorem stops_wildcards :
    Text.Stops (fun q => !decide (IsWildPart q)) (p.wildcards.map fun c => [c]) := by
  intro q hq
  simpa using p.isWildPart_of_mem (List.mem_of_mem_head? hq)

theorem leadingNumbers?_parts : Range.leadingNumbers? p.parts = some p.numbers :=
  leadingNumbers?_eq_some_iff.2 ⟨_, rfl, p.numeral, p.stops_wildcards⟩

theorem announcesSuffix_of_mem_core {c : Char} (hc : c ∈ p.core) : announcesSuffix c = false := by
  rcases Text.mem_intercalate hc with rfl | ⟨q, hq, hmem⟩
  · decide
  · by_contra h
    simp only [announcesSuffix, Bool.not_eq_false, Bool.or_eq_true, beq_iff_eq] at h
    rcases List.mem_append.1 hq with hnumber | hwild
    · have hdigit := (p.numeral q hnumber).2 c hmem
      rcases h with rfl | rfl <;> exact absurd hdigit (by decide)
    · obtain ⟨w, hw, rfl⟩ := List.mem_map.1 hwild
      rw [← List.mem_singleton.1 hmem] at hw
      rcases h with rfl | rfl <;> exact absurd (p.wild _ hw) (by decide)

theorem span_text : p.text.span (fun c => c != '-' && c != '+') = (p.core, p.suffix) := by
  apply Text.span_append_stop
  · intro c hc
    simpa [announcesSuffix] using p.announcesSuffix_of_mem_core hc
  · intro c hc
    have h := p.suffix_announced c hc
    simp only [announcesSuffix, Bool.or_eq_true, beq_iff_eq] at h
    rcases h with rfl | rfl <;> decide

theorem splitVersion?_text : Range.splitVersion? p.text = some (p.numbers, p.suffix) := by
  have hlen := p.three_parts
  have hguard : ¬ (3 < p.numbers.length ∨ p.numbers.length < 3 ∧ p.suffix ≠ []) := by
    intro h
    rcases h with h | ⟨h, hne⟩
    · omega
    · have := p.suffix_full hne
      omega
  simp only [Range.splitVersion?, p.span_text, p.pieces_core, p.leadingNumbers?_parts,
    Option.bind_eq_bind, Option.bind_some, if_neg hguard]

theorem isVersionChar_of_mem_bare {c : Char} (hc : c ∈ p.bare) : isVersionChar c = true := by
  rcases List.mem_append.1 hc with hcore | hsuffix
  · exact isVersionChar_of_mem_dotted p.numeral hcore
  · exact isVersionChar_of_isSuffixChar (p.suffix_chars c hsuffix)

end Partial

namespace Term

variable (t : Term)

/-- A term without a number in it asks for nothing, if its operator allows that. -/
def Bounded : Prop :=
  t.operand.version.numbers = [] → t.operator ≠ some .greater ∧ t.operator ≠ some .less

def item : List Char := (t.operator.getD .exact).text ++ t.operand.version.bare

theorem item_isItem : Requirement.Item t.item := by
  refine Requirement.item_append (Relation.text_ne_nil _)
    (Relation.isOperatorChar_of_mem_text _) fun hmem => ?_
  exact ne_comma_of_isVersionChar (t.operand.version.isVersionChar_of_mem_bare hmem) rfl

theorem ofList_operatorText_mem (h : t.operator ≠ some .greater ∧ t.operator ≠ some .less) :
    String.ofList (operatorText t.operator) ∈ Range.wildcardOperators := by
  cases hop : t.operator with
  | none => decide
  | some r =>
    rw [hop] at h
    cases r <;> first | decide | simp at h

theorem text_getD_operator :
    (if operatorText t.operator = [] then ['='] else operatorText t.operator) =
      (t.operator.getD .exact).text := by
  cases t.operator with
  | none => rfl
  | some r => exact if_neg r.text_ne_nil

theorem comparator?_text (h : t.Bounded) :
    Range.comparator? t.text =
      some (if t.operand.version.numbers = [] then none else some t.item) := by
  simp only [Range.comparator?, t.span_text, t.operand.dropV_text,
    t.operand.version.splitVersion?_text, Option.bind_eq_bind, Option.bind_some]
  by_cases hnil : t.operand.version.numbers = []
  · rw [if_pos hnil, if_pos hnil, if_pos (t.ofList_operatorText_mem (h hnil))]
  · rw [if_neg hnil, if_neg hnil, ite_suffix t.operand.version.suffix_full, t.text_getD_operator,
      item, Partial.bare, List.append_assoc]

def asking (ts : List Term) : List Term := ts.filter fun t => t.operand.version.numbers ≠ []

theorem mem_asking {t : Term} {ts : List Term} :
    t ∈ asking ts ↔ t ∈ ts ∧ t.operand.version.numbers ≠ [] := by
  simp [asking]

def items (ts : List Term) : List (List Char) := (asking ts).map item

theorem filterMap_comparators (ts : List Term) :
    (ts.map fun t => if t.operand.version.numbers = [] then none else some t.item).filterMap id =
      items ts := by
  induction ts with
  | nil => rfl
  | cons t ts ih =>
    rw [items, asking] at ih ⊢
    by_cases hnil : t.operand.version.numbers = []
    · rw [List.map_cons, if_pos hnil, List.filterMap_cons_none rfl, ih,
        List.filter_cons_of_neg (by simpa using hnil)]
    · rw [List.filter_cons_of_pos (by simpa using hnil), List.map_cons, if_neg hnil, List.map_cons,
        ← ih]
      rfl

theorem spelled?_of_lists {ts : List Term} {cs : List Char} (h : Lists ts cs)
    (hts : ∀ t ∈ ts, t.Bounded) : Range.spelled? (Text.fields cs) = some (items ts) := by
  obtain ⟨fss, hfss, hfields⟩ := h
  have hread : (ts.map text).mapM Range.comparator? =
      some (ts.map fun t => if t.operand.version.numbers = [] then none else some t.item) := by
    rw [mapM_eq_some_iff, List.forall₂_map_left_iff, List.forall₂_map_right_iff, List.forall₂_same]
    exact fun t ht => t.comparator?_text (hts t ht)
  rw [Range.spelled?, hfields, glue_flatten hfss, hread, Option.map_some, filterMap_comparators]

theorem alternative?_of_lists {ts : List Term} {cs : List Char} (h : Lists ts cs)
    (hts : ∀ t ∈ ts, t.Bounded) :
    Range.alternative? cs =
      if (items ts).length ≤ Requirement.limit then (items ts).mapM Comparator.ofText?
      else none := by
  have hlist : ∀ low high, Text.fields cs ≠ [low, ['-'], high] := by
    intro low high hfields
    obtain ⟨fss, hfss, hflat⟩ := h
    apply dash_notMem_flatten hfss
    rw [← hflat, hfields]
    simp
  rw [Range.alternative?_of_list hlist, spelled?_of_lists h hts, Option.bind_some]
  by_cases hnil : items ts = []
  · rw [if_pos hnil, hnil]
    rfl
  · rw [if_neg hnil]
    apply Requirement.parse?_intercalate hnil
    intro cs hcs
    obtain ⟨t, -, rfl⟩ := List.mem_map.1 hcs
    exact t.item_isItem

end Term

end Lintel.Version
