import Mathlib.Data.List.Chain
import Lintel.Proofs.Version.Meaning
import Lintel.Proofs.Version.Recovered

/-!
# Accepted ranges and the grammar

An accepted range is not always spelled by the grammar, and what an alternative has to avoid for
that is `Clean`: a comma, which the requirement reader takes for its own separator; parts behind a
wildcard that are no wildcards, or a fourth part, which the translation never looks at; and white
space inside an operator, which is removed before the operator is read. An accepted range is spelled
by the grammar exactly if its alternatives avoid these.
-/
namespace Lintel.Version

open Range (EndsOpen glue attach isOperatorChar)

section Regroup

variable {t : Term} {f g : List Char}

theorem Term.operators_first (t : Term) :
    t.text.Pairwise fun c d => isOperatorChar d = true → isOperatorChar c = true := by
  refine List.pairwise_append.2 ⟨?_, ?_, ?_⟩
  · exact List.pairwise_of_forall_mem_list fun c hc _ _ _ => isOperatorChar_of_mem_operatorText hc
  · apply List.pairwise_of_forall_mem_list
    intro _ _ d hd hop
    rw [t.operand.isOperatorChar_of_mem_text hd] at hop
    cases hop
  · exact fun c hc _ _ _ => isOperatorChar_of_mem_operatorText hc

theorem forall_isOperatorChar_of_endsOpen (h : f ++ g = t.text) (hf : EndsOpen f) :
    ∀ c ∈ f, isOperatorChar c = true := by
  obtain ⟨d, hlast, hd⟩ := hf
  obtain ⟨v, rfl⟩ := List.getLast?_eq_some_iff.1 hlast
  have hfirst := t.operators_first
  rw [← h, List.append_assoc] at hfirst
  intro c hc
  rcases List.mem_append.1 hc with hv | hlast
  · exact (List.pairwise_append.1 hfirst).2.2 c hv d (by simp) hd
  · rw [List.mem_singleton.1 hlast]
    exact hd

theorem spells_of_pair (h : f ++ g = t.text) (hf : EndsOpen f)
    (hg : Text.Stops isOperatorChar g) : t.Spells [f, g] := by
  have hspan := t.span_text
  rw [← h, Text.span_append_stop (forall_isOperatorChar_of_endsOpen h hf) hg] at hspan
  obtain ⟨rfl, rfl⟩ := Prod.mk.inj hspan
  refine .inr ⟨?_, rfl⟩
  intro hnone
  rw [hnone] at hf
  exact Range.not_endsOpen_nil hf

def Unbroken (fs : List (List Char)) : Prop :=
  fs.IsChain fun f g => EndsOpen f → Text.Stops isOperatorChar g

instance (fs : List (List Char)) : Decidable (Unbroken fs) :=
  inferInstanceAs (Decidable (fs.IsChain _))

theorem not_stops_of_attach {ts : List Term} {gs : List (List Char)} (hg : EndsOpen g)
    (h : attach (f ++ g) gs = ts.map Term.text) : ¬ Text.Stops isOperatorChar g := by
  intro hstops
  obtain ⟨v, rest, hattach⟩ := Range.attach_eq_cons (f ++ g) gs
  rw [hattach] at h
  cases ts with
  | nil => cases h
  | cons t ts =>
    have hne : g ≠ [] := fun hnil => Range.not_endsOpen_nil (hnil ▸ hg)
    have hall := forall_isOperatorChar_of_endsOpen (List.cons.inj h).1
      ((Range.endsOpen_append hne).2 hg)
    obtain ⟨c, cs, rfl⟩ := List.exists_cons_of_ne_nil hne
    have hc := hall c (by simp)
    rw [Text.stops_cons.1 hstops] at hc
    cases hc

theorem exists_spells_cons {fs gs : List (List Char)} {ts : List Term}
    (h : f :: gs = ts.map Term.text)
    (ih : ∀ {ts : List Term}, gs = ts.map Term.text →
      ∃ fss, List.Forall₂ Term.Spells ts fss ∧ fs = fss.flatten) :
    ∃ fss, List.Forall₂ Term.Spells ts fss ∧ f :: fs = fss.flatten := by
  cases ts with
  | nil => cases h
  | cons t ts =>
    obtain ⟨rfl, hrest⟩ := List.cons.inj h
    obtain ⟨fss, hfss, rfl⟩ := ih hrest
    exact ⟨[t.text] :: fss, .cons (.inl rfl) hfss, rfl⟩

theorem exists_spells : ∀ {fs : List (List Char)} {ts : List Term}, glue fs = ts.map Term.text →
    Unbroken fs → ∃ fss, List.Forall₂ Term.Spells ts fss ∧ fs = fss.flatten
  | [], ts, h, _ => by
    cases ts with
    | nil => exact ⟨[], .nil, rfl⟩
    | cons t ts => cases h
  | [f], ts, h, _ => by
    have hglue : glue [f] = [f] := by
      rw [glue]
      split <;> rfl
    rw [hglue] at h
    apply exists_spells_cons h
    intro ts hts
    exact ⟨[], by rw [List.map_eq_nil_iff.1 hts.symm]; exact .nil, rfl⟩
  -- one field at a time, or an operator and its operand
  | f :: g :: fs, ts, h, hchain => by
    have hnext : Unbroken (g :: fs) := (List.isChain_cons_cons.1 hchain).2
    by_cases hf : EndsOpen f
    · have hg : Text.Stops isOperatorChar g := (List.isChain_cons_cons.1 hchain).1 hf
      rw [Range.glue_cons_of_open hf] at h
      by_cases hgo : EndsOpen g
      · rw [Range.glue_cons_of_open hgo, Range.attach_attach] at h
        exact absurd hg (not_stops_of_attach hgo h)
      · rw [Range.glue_cons_of_not_open hgo] at h
        cases ts with
        | nil => cases h
        | cons t ts =>
          obtain ⟨htext, hrest⟩ := List.cons.inj h
          obtain ⟨fss, hfss, rfl⟩ := exists_spells hrest hnext.tail
          exact ⟨[f, g] :: fss, .cons (spells_of_pair htext hf hg) hfss, rfl⟩
    · rw [Range.glue_cons_of_not_open hf] at h
      exact exists_spells_cons h fun hts => exists_spells hts hnext

end Regroup

/-- What an accepted alternative has to avoid to be spelled by the grammar. -/
structure Clean (cs : List Char) : Prop where
  no_comma : ',' ∉ cs
  unbroken : Unbroken (Text.fields cs)
  tidy : ∀ f ∈ glue (Text.fields cs), Tidy f

instance (cs : List Char) : Decidable (Clean cs) :=
  decidable_of_iff (',' ∉ cs ∧ Unbroken (Text.fields cs) ∧ ∀ f ∈ glue (Text.fields cs), Tidy f)
    ⟨fun h => ⟨h.1, h.2.1, h.2.2⟩, fun h => ⟨h.1, h.2, h.3⟩⟩

section Clean

variable {cs : List Char}

theorem dottedParts_text (t : Term) : dottedParts t.text = t.operand.version.parts := by
  have hspan := t.span_text
  have hcore := t.operand.version.span_text
  rw [List.span_eq_takeWhile_dropWhile, Prod.mk.injEq] at hspan hcore
  rw [dottedParts, versionOf, hspan.2, t.operand.dropV_text, hcore.1,
    t.operand.version.pieces_core]

theorem Term.tidy_text (t : Term) : Tidy t.text := by
  have hthree := t.operand.version.three_parts
  constructor
  · rw [dottedParts_text, Partial.parts, List.length_append, List.length_map]
    exact hthree
  · rw [dottedParts_text, Partial.parts, Text.dropWhile_append_stop ?_
      t.operand.version.stops_wildcards]
    · exact fun q hq => t.operand.version.isWildPart_of_mem hq
    · exact fun q hq => by
        simpa using not_isWildPart_of_numeral (t.operand.version.numeral q hq)

theorem Operand.tidy_text (o : Operand) : Tidy o.text := Term.tidy_text ⟨none, o⟩

theorem Operand.comma_notMem_text (o : Operand) : ',' ∉ o.text := fun hmem =>
  ne_comma_of_isVersionChar (o.isVersionChar_of_mem_text hmem) rfl

theorem comma_notMem_operatorText (op : Option Relation) : ',' ∉ operatorText op := fun hmem =>
  absurd (isOperatorChar_of_mem_operatorText hmem) (by decide)

theorem Term.comma_notMem_of_spells {t : Term} {fs : List (List Char)} (h : t.Spells fs)
    {f : List Char} (hf : f ∈ fs) : ',' ∉ f := by
  have hop := comma_notMem_operatorText t.operator
  have hoperand := t.operand.comma_notMem_text
  rcases h with rfl | ⟨-, rfl⟩
  · rw [List.mem_singleton.1 hf, Term.text, List.mem_append, not_or]
    exact ⟨hop, hoperand⟩
  · rcases List.mem_pair.1 hf with rfl | rfl
    · exact hop
    · exact hoperand

theorem Term.unbroken_flatten {ts : List Term} {fss : List (List (List Char))}
    (h : List.Forall₂ Term.Spells ts fss) : Unbroken fss.flatten := by
  induction h with
  | nil => exact .nil
  | @cons t fs ts fss hspells _ ih =>
    have hoperand : Text.Stops isOperatorChar t.operand.text := fun c hc =>
      t.operand.isOperatorChar_of_mem_text (List.mem_of_mem_head? hc)
    rcases hspells with rfl | ⟨-, rfl⟩
    · exact List.isChain_cons.2 ⟨fun _ _ hopen => absurd hopen t.not_endsOpen_text, ih⟩
    · refine List.isChain_cons_cons.2 ⟨fun _ => hoperand, ?_⟩
      exact List.isChain_cons.2 ⟨fun _ _ hopen => absurd hopen t.not_endsOpen_operand, ih⟩

theorem comma_notMem_of_fields (h : ∀ f ∈ Text.fields cs, ',' ∉ f) : ',' ∉ cs := by
  intro hmem
  obtain ⟨f, hf, hin⟩ := Text.mem_fields_of_mem hmem (by decide)
  exact h f hf hin

theorem Lists.clean {ts : List Term} (h : Lists ts cs) : Clean cs := by
  obtain ⟨fss, hfss, hfields⟩ := h
  refine ⟨comma_notMem_of_fields ?_, ?_, ?_⟩
  · rw [hfields]
    intro f hf
    obtain ⟨fs, hfs, hin⟩ := List.mem_flatten.1 hf
    obtain ⟨t, -, hspells⟩ := exists_of_mem_forall₂ hfss hfs
    exact Term.comma_notMem_of_spells hspells hin
  · rw [hfields]
    exact Term.unbroken_flatten hfss
  · rw [hfields, Term.glue_flatten hfss]
    intro f hf
    obtain ⟨t, -, rfl⟩ := List.mem_map.1 hf
    exact t.tidy_text

theorem Hyphenates.clean {low high : Operand} (h : Hyphenates low high cs) : Clean cs := by
  have hlow : ¬ EndsOpen low.text := Term.not_endsOpen_text ⟨none, low⟩
  have hhigh : ¬ EndsOpen high.text := Term.not_endsOpen_text ⟨none, high⟩
  have hdash : ¬ EndsOpen ['-'] := by decide
  rw [Hyphenates] at h
  refine ⟨comma_notMem_of_fields ?_, ?_, ?_⟩
  · simp [h, low.comma_notMem_text, high.comma_notMem_text]
  · rw [h]
    exact List.isChain_cons_cons.2 ⟨fun hopen => absurd hopen hlow,
      List.isChain_pair.2 fun hopen => absurd hopen hdash⟩
  · rw [h, Range.glue_cons_of_not_open hlow, Range.glue_cons_of_not_open hdash,
      Range.glue_cons_of_not_open hhigh]
    have htidy : Tidy ['-'] := by decide
    simp [low.tidy_text, high.tidy_text, htidy, glue]

theorem Grammatical.clean (h : Grammatical cs) : Clean cs := by
  rcases h with ⟨ts, h⟩ | ⟨low, high, h⟩
  · exact h.clean
  · exact h.clean

theorem grammatical_of_hyphen {r : Requirement} {low high : List Char}
    (h : Range.alternative? cs = some r) (hfields : Text.fields cs = [low, ['-'], high])
    (hcomma : ',' ∉ cs) : Grammatical cs := by
  have hcommas : ∀ f ∈ Text.fields cs, ',' ∉ Range.dropV f := by
    intro f hf hmem
    obtain ⟨m, hm⟩ := exists_mark f
    refine hcomma (Text.mem_of_mem_fields hf ?_)
    rw [hm]
    exact List.mem_append_right _ hmem
  have hsolid : ∀ f ∈ Text.fields cs, Text.Solid f := fun f => Text.solid_of_mem_fields
  rw [hfields] at hcommas hsolid
  have hread : Requirement.parse? ([',', ' '].intercalate
      [Relation.greaterEq.text ++ Range.dropV low, Relation.lessEq.text ++ Range.dropV high]) =
        some r := by
    rw [← h, Range.alternative?_of_hyphen hfields]
    simp [Relation.text]
  have hitem : ∀ {s : Relation} {f : List Char}, ',' ∉ Range.dropV f →
      Requirement.Item (s.text ++ Range.dropV f) := fun {s _} hf =>
    Requirement.item_append s.text_ne_nil s.isOperatorChar_of_mem_text hf
  rw [Requirement.parse?_intercalate (by simp) (by simp [hitem, hcommas]), if_pos (by simp; decide),
    mapM_eq_some_iff] at hread
  cases hread with
  | cons hlow hrest =>
    cases hrest with
    | cons hhigh _ =>
      obtain ⟨lowest, rfl⟩ := exists_operand_of_ofText? (.inl rfl) (hsolid low (by simp)) hlow
      obtain ⟨highest, rfl⟩ := exists_operand_of_ofText? (.inr rfl) (hsolid high (by simp)) hhigh
      exact .inr ⟨lowest, highest, hfields⟩

theorem grammatical_of_list {r : Requirement} (h : Range.alternative? cs = some r)
    (hlist : ∀ low high, Text.fields cs ≠ [low, ['-'], high]) (hclean : Clean cs) :
    Grammatical cs := by
  rw [Range.alternative?_of_list hlist, Option.bind_eq_some_iff] at h
  obtain ⟨given, hgiven, h⟩ := h
  simp only [Range.spelled?, Option.map_eq_some_iff, mapM_eq_some_iff] at hgiven
  obtain ⟨xs, hxs, rfl⟩ := hgiven
  have hchars : ∀ f ∈ glue (Text.fields cs), ∀ c ∈ f, c ∈ cs :=
    Range.forall_mem_glue fun f hf c hc => Text.mem_of_mem_fields hf hc
  have hsolid : ∀ f ∈ glue (Text.fields cs), Text.Solid f :=
    Range.forall_mem_glue fun f hf => Text.solid_of_mem_fields hf
  have hgiven : ∀ {item}, item ∈ xs.filterMap id ↔ some item ∈ xs := by
    simp
  have hread : ∀ item, some item ∈ xs → ∃ c, Comparator.ofText? item = some c := by
    intro item hmem
    have hne : xs.filterMap id ≠ [] := List.ne_nil_of_mem (hgiven.2 hmem)
    rw [if_neg hne, Requirement.parse?_intercalate hne] at h
    · split at h
      · exact exists_forall₂_iff.1 ⟨r, mapM_eq_some_iff.1 h⟩ item (hgiven.2 hmem)
      · cases h
    · intro other hother
      obtain ⟨f, hf, hcomparator⟩ := exists_of_mem_forall₂ hxs (hgiven.1 hother)
      exact item_of_comparator? hcomparator fun hcomma => hclean.no_comma (hchars f hf _ hcomma)
  have hterm : ∀ f ∈ glue (Text.fields cs), ∃ t : Term, f = t.text := by
    intro f hf
    obtain ⟨x, hx, hcomparator⟩ := exists_of_mem_forall₂ hxs.flip hf
    apply exists_term_of_comparator? hcomparator (hclean.tidy f hf) (hsolid f hf)
    rintro item rfl
    exact hread item hx
  obtain ⟨ts, hts⟩ := exists_forall₂_iff.2 hterm
  have hglue : glue (Text.fields cs) = ts.map Term.text := by
    rw [← List.forall₂_eq_eq_eq]
    exact List.forall₂_map_right_iff.2 hts
  obtain ⟨fss, hfss, hfields⟩ := exists_spells hglue hclean.unbroken
  exact .inl ⟨ts, fss, hfss, hfields⟩

theorem grammatical_of_clean {r : Requirement} (h : Range.alternative? cs = some r)
    (hclean : Clean cs) : Grammatical cs := by
  by_cases hhyphen : ∃ low high, Text.fields cs = [low, ['-'], high]
  · obtain ⟨low, high, hfields⟩ := hhyphen
    exact grammatical_of_hyphen h hfields hclean.no_comma
  · exact grammatical_of_list h (fun low high hfields => hhyphen ⟨low, high, hfields⟩) hclean

end Clean

end Lintel.Version

namespace Lintel.Range

open Version (Grammatical Clean)

/-- An accepted range is spelled by the grammar exactly if each of its alternatives avoids what the
grammar leaves out. -/
theorem grammatical_iff_clean {text : String} {g : Range} (h : parse? text = some g) :
    (∀ cs ∈ Text.piecesAtPair '|' '|' text.toList, Grammatical cs) ↔
      ∀ cs ∈ Text.piecesAtPair '|' '|' text.toList, Clean cs := by
  obtain ⟨-, hread⟩ := parse?_eq_some_iff.1 h
  constructor
  · exact fun hall cs hcs => (hall cs hcs).clean
  · intro hall cs hcs
    obtain ⟨r, hr⟩ := exists_forall₂_iff.1 ⟨_, hread⟩ cs hcs
    exact Version.grammatical_of_clean hr (hall cs hcs)

theorem grammatical_hyphen_or_comparators :
    (parse? ">= v1.2.0-rc.1 <2.x || 1.0 - 2.3").isSome = true ∧
      ∀ cs ∈ Text.piecesAtPair '|' '|' ">= v1.2.0-rc.1 <2.x || 1.0 - 2.3".toList,
        Grammatical cs := by
  have haccepted : (parse? ">= v1.2.0-rc.1 <2.x || 1.0 - 2.3").isSome = true := by decide
  obtain ⟨g, hg⟩ := Option.isSome_iff_exists.1 haccepted
  exact ⟨haccepted, (grammatical_iff_clean hg).2 (by decide)⟩

/-- Accepted are characters behind a wildcard, a fourth part, a comma, and an operator with a blank
in it. -/
theorem accepted_not_grammatical :
    (["1.x.foo", "1.2.3.x", "1.2.3-a,<2.0.0", "> =1.2.3"].all fun text => (parse? text).isSome) =
        true ∧
      ¬ ∃ text ∈ ["1.x.foo", "1.2.3.x", "1.2.3-a,<2.0.0", "> =1.2.3"],
        ∀ cs ∈ Text.piecesAtPair '|' '|' text.toList, Grammatical cs := by
  have hunclean : ∀ text ∈ ["1.x.foo", "1.2.3.x", "1.2.3-a,<2.0.0", "> =1.2.3"],
      ∃ cs ∈ Text.piecesAtPair '|' '|' text.toList, ¬ Clean cs := by
    decide
  refine ⟨by decide, ?_⟩
  intro h
  obtain ⟨text, htext, hall⟩ := h
  obtain ⟨cs, hcs, hclean⟩ := hunclean text htext
  exact hclean (hall cs hcs).clean

end Lintel.Range
