import Lintel.Version.Coerce
import Lintel.Proofs.Version.Interval
import Lintel.Proofs.Version.Terms

/-!
# What a range admits

A well-formed range is read, and it admits the releases that satisfy all terms of one of its
alternatives. The interval of a term is that of its operator around the numbers it gives, and a
term without numbers, like an alternative without terms, leaves nothing out.
-/
namespace Lintel

namespace Version

theorem tag_of_coerce? {cs : List Char} {v : Version} (h : coerce? cs = some v) : v.tag = [] := by
  simp only [coerce?, Option.bind_eq_bind, Option.bind_eq_some_iff, Prod.exists] at h
  obtain ⟨major, rest, -, h⟩ := h
  split at h
  · obtain ⟨a, -, h⟩ := Option.bind_eq_some_iff.1 h
    cases h
    rfl
  · split at h
    · simp only [Option.bind_eq_some_iff] at h
      obtain ⟨a, -, b, -, h⟩ := h
      cases h
      rfl
    · simp only [Option.bind_eq_some_iff] at h
      obtain ⟨a, -, b, -, c, -, h⟩ := h
      cases h
      rfl

theorem Partial.shape (p : Partial) {tag : Tag} (hne : p.numbers ≠ [])
    (htag : tag = [] ↔ ¬ p.IsTagged) : Shape p.values tag := by
  have huntagged : p.suffix = [] → tag = [] := by
    intro hplain
    rw [htag, IsTagged]
    simp [hplain]
  rw [values]
  rcases p.numbers_cases hne with ⟨a, hnumbers, hplain⟩ | ⟨a, b, hnumbers, hplain⟩ |
    ⟨a, b, c, hnumbers⟩
  · rw [hnumbers, huntagged hplain]
    exact .one _
  · rw [hnumbers, huntagged hplain]
    exact .two _ _
  · rw [hnumbers]
    exact .three _ _ _ _

namespace Term

def Accepts (t : Term) (x : Release) : Prop :=
  t.operand.version.numbers = [] ∨
    (t.operator.getD .exact).Accepts t.operand.version.values t.operand.version.IsTagged x

structure WellFormed (t : Term) : Prop where
  valid : t.operand.version.Valid
  bounded : t.Bounded

variable {t : Term}

theorem ofText?_item (h : t.WellFormed) (hne : t.operand.version.numbers ≠ []) :
    ∃ c, Comparator.ofText? t.item = some c ∧
      ∀ v : Version, v.tag = [] → (t.Accepts v.release ↔ c.admits v = true) := by
  obtain ⟨tag, hread, htag⟩ := Comparator.read?_bare (t.operator.getD .exact) h.valid hne
  refine ⟨_, Comparator.ofText?_eq_some_iff.2 hread, ?_⟩
  intro v hv
  have htagged : tag ≠ [] ↔ t.operand.version.IsTagged := by
    rw [Ne, htag, not_not]
  rw [Comparator.admits_named_iff (t.operand.version.shape hne htag) hv, Accepts,
    or_iff_right hne, propext htagged]

end Term

theorem admits_of_tag_nil {r : Requirement} {v : Version} (hv : v.tag = []) :
    r.admits v = true ↔ ∀ c ∈ r, c.admits v = true := by
  simp [Requirement.admits, hv]

theorem alternative_of_lists {ts : List Term} {cs : List Char} (h : Lists ts cs)
    (hlen : ts.length ≤ 32) (hts : ∀ t ∈ ts, t.WellFormed) :
    ∃ r, Range.alternative? cs = some r ∧
      ∀ v : Version, v.tag = [] → ((∀ t ∈ ts, t.Accepts v.release) ↔ r.admits v = true) := by
  have hitems : (Term.items ts).length ≤ Requirement.limit := by
    rw [Term.items, List.length_map]
    exact (List.length_filter_le _ ts).trans hlen
  rw [Term.alternative?_of_lists h fun t ht => (hts t ht).bounded, if_pos hitems]
  have hread : ∀ t ∈ Term.asking ts, ∃ c, Comparator.ofText? t.item = some c ∧
      ∀ v : Version, v.tag = [] → (t.Accepts v.release ↔ c.admits v = true) := by
    intro t ht
    obtain ⟨hmem, hne⟩ := Term.mem_asking.1 ht
    exact Term.ofText?_item (hts t hmem) hne
  obtain ⟨r, hr⟩ := exists_forall₂_iff.2 hread
  refine ⟨r, ?_, ?_⟩
  · rw [mapM_eq_some_iff, Term.items, List.forall₂_map_left_iff]
    exact hr.imp fun t c h => h.1
  · intro v hv
    rw [admits_of_tag_nil hv, ← forall_mem_iff_of_forall₂ hr fun t c h => h.2 v hv]
    constructor
    · exact fun hall t ht => hall t (Term.mem_asking.1 ht).1
    · intro hall t ht
      by_cases hnil : t.operand.version.numbers = []
      · exact .inl hnil
      · exact hall t (Term.mem_asking.2 ⟨ht, hnil⟩)

end Version

namespace Range

open Version (Term Lists)

theorem parse?_eq_some_iff {text : String} {g : Range} :
    parse? text = some g ↔
      g.text = String.ofList (Text.trim text.toList) ∧
        List.Forall₂ (fun cs r => alternative? cs = some r)
          (Text.piecesAtPair '|' '|' text.toList) g.alternatives := by
  simp only [parse?, Option.bind_eq_bind, Option.bind_eq_some_iff, mapM_eq_some_iff,
    Option.some.injEq]
  constructor
  · intro h
    obtain ⟨rs, hrs, rfl⟩ := h
    exact ⟨rfl, hrs⟩
  · intro h
    obtain ⟨htext, hrs⟩ := h
    exact ⟨g.alternatives, hrs, by rw [← htext]⟩

theorem admits_iff {g : Range} {v : Version} :
    g.admits v = true ↔ ∃ r ∈ g.alternatives, r.admits v = true := by
  rw [admits, List.any_eq_true]

/-- The alternatives are what stands between the double bars. -/
theorem parse?_admits {text : String} {alts : List (List Term)}
    (hspelled : List.Forall₂ Lists alts (Text.piecesAtPair '|' '|' text.toList))
    (hterms : ∀ ts ∈ alts, ts.length ≤ 32 ∧ ∀ t ∈ ts, t.WellFormed) :
    (∃ g, parse? text = some g ∧ ∀ v : Version, v.tag = [] →
      (g.admits v = true ↔ ∃ ts ∈ alts, ∀ t ∈ ts, t.Accepts v.release)) ∧
    ∀ (printed : List Char) (v : Version), Version.coerce? printed = some v → v.tag = [] := by
  refine ⟨?_, fun printed v h => Version.tag_of_coerce? h⟩
  obtain ⟨rs, hmeaning, hread⟩ := exists_forall₂_forall₂ hspelled fun ts hts cs h => by
    obtain ⟨r, hr, hadmits⟩ :=
      Version.alternative_of_lists h (hterms ts hts).1 (hterms ts hts).2
    exact ⟨r, hadmits, hr⟩
  refine ⟨⟨_, rs⟩, parse?_eq_some_iff.2 ⟨rfl, hread⟩, ?_⟩
  intro v hv
  rw [admits_iff, exists_mem_iff_of_forall₂ hmeaning fun ts r h => h v hv]

section Sample

def afterCandidate : Term where
  operator := some .greater
  operand :=
    { mark := .small
      version := ⟨[['1'], ['2'], ['3']], [], "-rc.1".toList, by decide, by simp, by decide,
        by decide, by decide, by simp [Version.announcesSuffix], List.all_eq_true.1 (by decide)⟩ }

def belowTwo : Term where
  operator := some .less
  operand :=
    { mark := .absent
      version := .plain [['2']] [] (by decide) (by simp) (by decide) (by decide) }

def anything : Term where
  operator := none
  operand :=
    { mark := .absent
      version := .plain [] ['x'] (by decide) (by simp [Version.Comparator.isWildcard]) (by decide)
        (by decide) }

theorem parse?_admits_candidate_or_anything :
    ∃ g, parse? "> v1.2.3-rc.1 <2 || x" = some g ∧ ∀ v : Version, v.tag = [] →
      (g.admits v = true ↔
        ∃ ts ∈ [[afterCandidate, belowTwo], [anything]], ∀ t ∈ ts, t.Accepts v.release) := by
  have hspelled : List.Forall₂ Lists [[afterCandidate, belowTwo], [anything]]
      (Text.piecesAtPair '|' '|' "> v1.2.3-rc.1 <2 || x".toList) := by
    refine .cons ⟨[[['>'], "v1.2.3-rc.1".toList], [['<', '2']]], ?_, by decide⟩
      (.cons ⟨[[['x']]], ?_, by decide⟩ .nil)
    · exact .cons (.inr ⟨by decide, rfl⟩) (.cons (.inl rfl) .nil)
    · exact .cons (.inl rfl) .nil
  refine (parse?_admits hspelled ?_).1
  have hfirst : afterCandidate.WellFormed :=
    ⟨⟨by decide, ["rc".toList, ['1']], [], by decide, by decide, by decide⟩,
      fun h => absurd h (by decide)⟩
  have hsecond : belowTwo.WellFormed :=
    ⟨⟨by decide, [], [], by decide, by decide, by decide⟩, fun h => absurd h (by decide)⟩
  have hthird : anything.WellFormed :=
    ⟨⟨by decide, [], [], by decide, by decide, by decide⟩, fun _ => by decide⟩
  simp [hfirst, hsecond, hthird]

end Sample

end Range

end Lintel
