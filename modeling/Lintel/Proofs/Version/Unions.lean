import Lintel.Linter.Installed
import Lintel.Proofs.Text.Pairs
import Lintel.Proofs.Version.Meaning

/-!
# Unions of ranges

Whether a range is accepted, and what it admits, depends on the set of its alternatives alone. Two
ranges with a double bar between them have the alternatives of both, unless a bar is left over at
the end of the first: then the double bar is shifted by one, and the alternative behind it starts
with a bar, which no alternative does.
-/
namespace Lintel.Range

section Bars

theorem splitVersion?_bar (cs : List Char) : splitVersion? ('|' :: cs) = none := by
  obtain ⟨q, qs, hcut⟩ := List.exists_cons_of_ne_nil
    (Text.pieces_ne_nil (· == '.') (cs.takeWhile fun c => c != '-' && c != '+'))
  have hdigit : Text.isAsciiDigit '|' = false := by decide
  have hnone : leadingNumbers? (('|' :: q) :: qs) = none := by
    simp [leadingNumbers?, hdigit]
  have hspan : ('|' :: cs).takeWhile (fun c => c != '-' && c != '+') =
      '|' :: cs.takeWhile fun c => c != '-' && c != '+' := rfl
  simp only [splitVersion?, List.span_eq_takeWhile_dropWhile, hspan]
  rw [Text.pieces_cons_of_not_sep (by decide), hcut, List.modifyHead_cons, hnone]
  rfl

theorem comparator?_bar (cs : List Char) : comparator? ('|' :: cs) = none := by
  have hoperator : ('|' :: cs).span isOperatorChar = ([], '|' :: cs) :=
    Text.span_append_stop (v := []) (by simp) (Text.stops_cons.2 (by decide))
  have hversion : dropV ('|' :: cs) = '|' :: cs := rfl
  simp only [comparator?, hoperator, hversion, splitVersion?_bar]
  rfl

theorem alternative?_bar (cs : List Char) : alternative? ('|' :: cs) = none := by
  have hsolid : Text.Solid ['|'] := List.forall_mem_singleton.2 (by decide)
  obtain ⟨q, fs, hfields, -⟩ := Text.fields_append_solid hsolid (by decide) cs
  rw [List.singleton_append, List.singleton_append] at hfields
  -- the bar is in the lower end of a hyphen range, or in the first comparator of a list
  by_cases hhyphen : ∃ low high, Text.fields ('|' :: cs) = [low, ['-'], high]
  · obtain ⟨low, high, hthree⟩ := hhyphen
    rw [alternative?_of_hyphen hthree]
    rw [hfields] at hthree
    rw [← (List.cons.inj hthree).1]
    rfl
  · obtain ⟨w, rest, hglue⟩ := glue_eq_cons ('|' :: q) fs
    rw [alternative?_of_list fun low high hthree => hhyphen ⟨low, high, hthree⟩, hfields, spelled?,
      hglue, List.cons_append, List.mapM_cons, comparator?_bar]
    rfl

end Bars

section Alternatives

variable {a b text : String} {g : Range} {v : Version}

/-- The alternatives of a range as they are written. -/
def written (text : String) : List (List Char) := Text.piecesAtPair '|' '|' text.toList

theorem isSome_parse?_iff :
    (parse? text).isSome = true ↔ ∀ cs ∈ written text, ∃ r, alternative? cs = some r := by
  rw [Option.isSome_iff_exists, ← exists_forall₂_iff]
  constructor
  · intro h
    obtain ⟨g, hg⟩ := h
    exact ⟨g.alternatives, (parse?_eq_some_iff.1 hg).2⟩
  · intro h
    obtain ⟨rs, hrs⟩ := h
    exact ⟨⟨_, rs⟩, parse?_eq_some_iff.2 ⟨rfl, hrs⟩⟩

theorem admits_iff_of_parse? (h : parse? text = some g) :
    g.admits v = true ↔ ∃ cs ∈ written text, ∃ r, alternative? cs = some r ∧ r.admits v = true := by
  have hread := (parse?_eq_some_iff.1 h).2
  rw [admits_iff]
  refine (exists_mem_iff_of_forall₂ hread ?_).symm
  intro cs r hr
  simp [hr]

theorem parse?_congr (h : ∀ cs, cs ∈ written a ↔ cs ∈ written b) :
    (parse? a).map admits = (parse? b).map admits := by
  have haccepted : (parse? a).isSome = true ↔ (parse? b).isSome = true := by
    simp only [isSome_parse?_iff, h]
  cases ha : parse? a with
  | none =>
    rw [ha] at haccepted
    rw [Option.not_isSome_iff_eq_none.1 (mt haccepted.2 (by simp))]
  | some g =>
    rw [ha] at haccepted
    obtain ⟨g', hb⟩ := Option.isSome_iff_exists.1 (haccepted.1 rfl)
    have hsame : g.admits = g'.admits := by
      funext v
      rw [Bool.eq_iff_iff, admits_iff_of_parse? ha, admits_iff_of_parse? hb]
      simp only [h]
    rw [hb, Option.map_some, Option.map_some, hsame]

theorem toList_union (a b : String) :
    (a ++ "||" ++ b).toList = a.toList ++ '|' :: '|' :: b.toList := by
  simp

theorem written_union (h : ¬ Text.EndsLone '|' a.toList) (b : String) :
    written (a ++ "||" ++ b) = written a ++ written b := by
  rw [written, toList_union, Text.piecesAtPair_append h]
  rfl

theorem isSome_parse?_union (h : ¬ Text.EndsLone '|' a.toList) (b : String) :
    (parse? (a ++ "||" ++ b)).isSome = true ↔
      (parse? a).isSome = true ∧ (parse? b).isSome = true := by
  simp only [isSome_parse?_iff, written_union h, List.forall_mem_append]

theorem head?_ne_bar_of_parse? (h : (parse? text).isSome = true) {cs : List Char}
    (hcs : cs ∈ written text) : cs.head? ≠ some '|' := by
  intro hhead
  obtain ⟨cs, rfl⟩ := List.head?_eq_some_iff.1 hhead
  obtain ⟨r, hr⟩ := isSome_parse?_iff.1 h _ hcs
  rw [alternative?_bar] at hr
  cases hr

theorem parse?_union_of_endsLone (h : Text.EndsLone '|' a.toList)
    (hb : (parse? b).isSome = true) : parse? (a ++ "||" ++ b) = none := by
  obtain ⟨front, hfront, hlone⟩ := Text.exists_eq_concat_of_endsLone h
  have hwritten : written (a ++ "||" ++ b) =
      Text.piecesAtPair '|' '|' front ++ Text.piecesAtPair '|' '|' ('|' :: b.toList) := by
    rw [written, toList_union, hfront, ← Text.piecesAtPair_append hlone]
    simp
  obtain ⟨cs, hcs, hhead⟩ := Text.exists_piece_of_cons fun _ => head?_ne_bar_of_parse? hb
  rw [← Option.not_isSome_iff_eq_none]
  intro haccepted
  exact head?_ne_bar_of_parse? haccepted (hwritten ▸ List.mem_append_right _ hcs) hhead

end Alternatives

/-- The union of two ranges admits what one of them admits, whatever the order of the alternatives
and however often they are written. Ranges are joined safely if no bar is left over. -/
theorem parse?_union (a b : String) :
    (∀ g h, parse? a = some g → parse? b = some h →
      ((parse? (a ++ "||" ++ b)).isSome = true ↔ ¬ Text.EndsLone '|' a.toList) ∧
      ∀ u, parse? (a ++ "||" ++ b) = some u → ∀ v, u.admits v = (g.admits v || h.admits v)) ∧
    (∀ c, (∀ cs, cs ∈ written c ↔ cs ∈ written (a ++ "||" ++ b)) →
      (parse? c).map admits = (parse? (a ++ "||" ++ b)).map admits) ∧
    (a.toList.getLast? ≠ some '|' → parse? a = none ∨ parse? b = none →
      parse? (a ++ "||" ++ b) = none ∧
      ∀ name version, Installed.checkRange name version (some (a ++ "||" ++ b)) =
        .error (.badRange (a ++ "||" ++ b))) := by
  refine ⟨?_, fun c => parse?_congr, ?_⟩
  · intro g h hg hh
    have haccepted : (parse? (a ++ "||" ++ b)).isSome = true ↔ ¬ Text.EndsLone '|' a.toList := by
      constructor
      · intro hsome hlone
        rw [parse?_union_of_endsLone hlone (by rw [hh]; rfl)] at hsome
        cases hsome
      · intro hlone
        rw [isSome_parse?_union hlone, hg, hh]
        exact ⟨rfl, rfl⟩
    refine ⟨haccepted, ?_⟩
    intro u hu v
    have hlone := haccepted.1 (by rw [hu]; rfl)
    rw [Bool.eq_iff_iff, Bool.or_eq_true, admits_iff_of_parse? hu, admits_iff_of_parse? hg,
      admits_iff_of_parse? hh, written_union hlone]
    simp only [List.mem_append, or_and_right, exists_or]
  · intro hlast hrejected
    have hnone : parse? (a ++ "||" ++ b) = none := by
      rw [← Option.not_isSome_iff_eq_none,
        isSome_parse?_union (Text.not_endsLone_of_getLast? hlast)]
      rintro ⟨ha, hb⟩
      rcases hrejected with h | h
      · simp [h] at ha
      · simp [h] at hb
    exact ⟨hnone, fun name version => by rw [Installed.checkRange, hnone]⟩

section Sample

theorem parse?_union_one_or_two :
    (∃ g h u, parse? " 1.x ||" = some g ∧ parse? "2.x || >=3.0.0-rc.1" = some h ∧
      parse? " 1.x ||||2.x || >=3.0.0-rc.1" = some u ∧
      ∀ v, u.admits v = (g.admits v || h.admits v)) ∧
    (parse? "2.x||1.x||2.x").map admits = (parse? "1.x||2.x").map admits ∧
    Installed.checkRange "lint" ⟨1, 0, 0, []⟩ (some "1.x||two") = .error (.badRange "1.x||two") := by
  have hfirst : (parse? " 1.x ||").isSome = true := by decide +kernel
  have hsecond : (parse? "2.x || >=3.0.0-rc.1").isSome = true := by decide +kernel
  obtain ⟨g, hg⟩ := Option.isSome_iff_exists.1 hfirst
  obtain ⟨h, hh⟩ := Option.isSome_iff_exists.1 hsecond
  obtain ⟨haccepted, hadmits⟩ := (parse?_union " 1.x ||" "2.x || >=3.0.0-rc.1").1 g h hg hh
  obtain ⟨u, hu⟩ := Option.isSome_iff_exists.1 (haccepted.2 (by decide +kernel))
  refine ⟨⟨g, h, u, hg, hh, hu, hadmits u hu⟩, ?_, ?_⟩
  · apply (parse?_union "1.x" "2.x").2.1
    have htwice : written "2.x||1.x||2.x" = ["2.x".toList, "1.x".toList, "2.x".toList] := by
      decide +kernel
    have honce : written ("1.x" ++ "||" ++ "2.x") = ["1.x".toList, "2.x".toList] := by
      decide +kernel
    intro cs
    rw [htwice, honce]
    simp only [List.mem_cons, List.not_mem_nil, or_false]
    tauto
  · exact ((parse?_union "1.x" "two").2.2 (by decide +kernel) (.inr (by decide +kernel))).2 _ _

theorem parse?_union_shifted :
    (parse? "1.x.|").isSome = true ∧ (parse? "2.x").isSome = true ∧
      parse? ("1.x.|" ++ "||" ++ "2.x") = none := by
  -- a bar behind a wildcard is not looked at, and then it takes half of the double bar
  decide +kernel

end Sample

end Lintel.Range
