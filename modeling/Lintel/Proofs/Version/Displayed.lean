import Lintel.Proofs.Text.Padded
import Lintel.Proofs.Version.Unions

/-!
# The text of a range

A range shows its text without the blanks around it. White space around an alternative does not
change what the alternative is read as, and the blanks around the whole text are those in front of
its first alternative and behind its last one; so the shown text is read as the range it shows.
-/
namespace Lintel.Range

abbrev Spaced (alts spaced : List (List Char)) : Prop :=
  List.Forall₂ (Text.Padded Text.isBlank) alts spaced

def ofAlternatives (alts : List (List Char)) : String :=
  String.ofList (['|', '|'].intercalate alts)

section Writing

variable {text shown : String} {spaced : List (List Char)}

theorem ofAlternatives_written (text : String) : ofAlternatives (written text) = text := by
  rw [ofAlternatives, written, Text.intercalate_piecesAtPair, String.ofList_toList]

theorem written_ofAlternatives (h : Spaced (written text) spaced) :
    written (ofAlternatives spaced) = spaced := by
  rw [written, ofAlternatives, String.toList_ofList]
  exact Text.piecesAtPair_padded (by decide) h

theorem spaced_written (h : Text.Padded Text.isBlank shown.toList text.toList) :
    Spaced (written shown) (written text) := by
  obtain ⟨u, w, hu, hw, htext⟩ := h
  obtain ⟨spaced, hspaced, hjoined⟩ := Text.exists_padded_intercalate hu hw ['|', '|']
    (Text.piecesAtPair_ne_nil '|' '|' shown.toList)
  have hsame : ofAlternatives spaced = text := by
    rw [ofAlternatives, hjoined, Text.intercalate_piecesAtPair, ← htext, String.ofList_toList]
  have hcut := written_ofAlternatives hspaced
  rw [hsame] at hcut
  exact hcut ▸ hspaced

end Writing

section Reading

variable {text : String} {r : Range} {cs padded : List Char} {alts spaced : List (List Char)}

theorem alternative?_padded (h : Text.Padded Text.isBlank cs padded) :
    alternative? padded = alternative? cs := by
  have htrim : Text.trim padded = Text.trim cs := h.trimBoth_eq
  rw [alternative?, htrim, alternative?]

theorem mapM_alternative?_spaced (h : Spaced alts spaced) :
    spaced.mapM alternative? = alts.mapM alternative? := by
  induction h with
  | nil => rfl
  | cons hpadded _ ih => rw [List.mapM_cons, List.mapM_cons, alternative?_padded hpadded, ih]

theorem parse?_eq_some_iff_mapM :
    parse? text = some r ↔ r.text = String.ofList (Text.trim text.toList) ∧
      (written text).mapM alternative? = some r.alternatives := by
  rw [parse?_eq_some_iff, mapM_eq_some_iff, written]

theorem parse?_shown (h : parse? text = some r) : parse? r.text = some r := by
  obtain ⟨hshown, hread⟩ := parse?_eq_some_iff_mapM.1 h
  have htrim : r.text.toList = Text.trim text.toList := by rw [hshown, String.toList_ofList]
  have hspaced : Spaced (written r.text) (written text) := by
    apply spaced_written
    rw [htrim]
    exact Text.padded_trimBoth Text.isBlank text.toList
  refine parse?_eq_some_iff_mapM.2 ⟨?_, ?_⟩
  · rw [htrim, hshown, Text.trim, Text.trim, Text.trimBoth_trimBoth]
  · rw [← mapM_alternative?_spaced hspaced, hread]

theorem parse?_spaced (h : parse? text = some r) (hspaced : Spaced (written text) spaced) :
    parse? (ofAlternatives spaced) =
      some ⟨String.ofList (Text.trim (ofAlternatives spaced).toList), r.alternatives⟩ := by
  refine parse?_eq_some_iff_mapM.2 ⟨rfl, ?_⟩
  rw [written_ofAlternatives hspaced, mapM_alternative?_spaced hspaced]
  exact (parse?_eq_some_iff_mapM.1 h).2

/-- What a range shows is read as that range. A text is its alternatives with double bars between
them, and however much white space stands around each of them, the range admits the same versions. -/
theorem parse?_shown_and_spaced (h : parse? text = some r) :
    parse? r.text = some r ∧ ofAlternatives (written text) = text ∧
      ∀ spaced, Spaced (written text) spaced →
        ∃ r', parse? (ofAlternatives spaced) = some r' ∧ r'.alternatives = r.alternatives ∧
          ∀ v, r'.admits v = r.admits v := by
  refine ⟨parse?_shown h, ofAlternatives_written text, ?_⟩
  intro spaced hspaced
  refine ⟨_, parse?_spaced h hspaced, rfl, ?_⟩
  intro v
  rw [admits, admits]

theorem parse?_shown_and_spaced_blanks :
    ∃ r r', parse? "\u2003|| 1.0 - 2.3\t||>= v1.2||" = some r ∧
      r.text = "|| 1.0 - 2.3\t||>= v1.2||" ∧ parse? r.text = some r ∧
      parse? "\u2003|| 1.0 - 2.3\t\u00a0||\u3000>= v1.2||\u2028" = some r' ∧ r'.text ≠ r.text ∧
      ∀ v, r'.admits v = r.admits v := by
  have haccepted : (parse? "\u2003|| 1.0 - 2.3\t||>= v1.2||").isSome = true := by decide +kernel
  obtain ⟨r, hr⟩ := Option.isSome_iff_exists.1 haccepted
  obtain ⟨hshown, -, hspacing⟩ := parse?_shown_and_spaced hr
  have hwritten : written "\u2003|| 1.0 - 2.3\t||>= v1.2||" =
      [['\u2003'], " 1.0 - 2.3\t".toList, ">= v1.2".toList, []] := by
    decide +kernel
  have hspaced : Spaced (written "\u2003|| 1.0 - 2.3\t||>= v1.2||")
      [['\u2003'], " 1.0 - 2.3\t\u00a0".toList, "\u3000>= v1.2".toList, ['\u2028']] := by
    rw [hwritten]
    have hnone : ∀ c ∈ [], Text.isBlank c = true := List.forall_mem_nil _
    have hone {c : Char} (h : Text.isBlank c = true) : ∀ d ∈ [c], Text.isBlank d = true :=
      List.forall_mem_singleton.2 h
    refine .cons ⟨[], [], hnone, hnone, ?_⟩ (.cons ⟨[], ['\u00a0'], hnone, hone (by decide), ?_⟩
      (.cons ⟨['\u3000'], [], hone (by decide), hnone, ?_⟩
        (.cons ⟨[], ['\u2028'], hnone, hone (by decide), ?_⟩ .nil)))
    all_goals decide +kernel
  obtain ⟨r', hr', -, hadmits⟩ := hspacing _ hspaced
  have htext := (parse?_eq_some_iff.1 hr).1
  have htext' := (parse?_eq_some_iff.1 hr').1
  refine ⟨r, r', hr, ?_, hshown, ?_, ?_, hadmits⟩
  · rw [htext]
    decide +kernel
  · rw [← hr']
    decide +kernel
  · rw [htext, htext']
    decide +kernel

end Reading

end Lintel.Range
