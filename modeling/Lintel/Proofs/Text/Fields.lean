import Mathlib.Data.List.Induction
import Lintel.Text.Blank
import Lintel.Proofs.Text.Cutting

/-!
# Laws of fields

The fields of a text are its pieces at white space without the empty ones. White space around the
text has no say in them, white space inside ends a field, and a run of other characters in front of
the text joins its first field or stands alone.
-/
namespace Lintel.Text

def Solid (cs : List Char) : Prop := ∀ c ∈ cs, isBlank c = false

theorem solid_append {v w : List Char} : Solid (v ++ w) ↔ Solid v ∧ Solid w :=
  List.forall_mem_append

theorem fields_cons_blank {c : Char} (hc : isBlank c = true) (cs : List Char) :
    fields (c :: cs) = fields cs := by
  simp only [fields, words, pieces_cons_sep hc]
  rfl

theorem fields_append_blank {c : Char} (hc : isBlank c = true) (v w : List Char) :
    fields (v ++ c :: w) = fields v ++ fields w := by
  simp only [fields, words, pieces_append_sep hc, List.filter_append]

theorem fields_of_solid {w : List Char} (hw : Solid w) (hne : w ≠ []) : fields w = [w] := by
  simp [fields, words, pieces_of_no_sep hw, hne]

theorem fields_cons_of_solid {w : List Char} (hw : Solid w) (hne : w ≠ []) {c : Char}
    (hc : isBlank c = true) (cs : List Char) : fields (w ++ c :: cs) = w :: fields cs := by
  rw [fields_append_blank hc, fields_of_solid hw hne, List.singleton_append]

theorem solid_of_mem_fields {cs f : List Char} (hf : f ∈ fields cs) : Solid f :=
  no_sep_of_mem_pieces (List.mem_filter.1 hf).1

theorem mem_of_mem_fields {cs f : List Char} {c : Char} (hf : f ∈ fields cs) (hc : c ∈ f) :
    c ∈ cs :=
  mem_of_mem_pieces (List.mem_filter.1 hf).1 hc

theorem fields_append_solid {w : List Char} (hw : Solid w) (hne : w ≠ []) (cs : List Char) :
    ∃ q fs, fields (w ++ cs) = (w ++ q) :: fs ∧ fields cs = if q = [] then fs else q :: fs := by
  obtain ⟨q, qs, hcut⟩ := List.exists_cons_of_ne_nil (pieces_ne_nil isBlank cs)
  refine ⟨q, qs.filter (! ·.isEmpty), ?_, ?_⟩
  · simp [fields, words, pieces_append_of_no_sep hw, hcut, hne]
  · by_cases hq : q = []
    · simp [fields, words, hcut, hq]
    · simp [fields, words, hcut, hq]

theorem fields_dropWhile (cs : List Char) : fields (cs.dropWhile isBlank) = fields cs := by
  induction cs with
  | nil => rfl
  | cons c cs ih =>
    cases hc : isBlank c with
    | true => rw [List.dropWhile_cons_of_pos hc, ih, fields_cons_blank hc]
    | false => rw [List.dropWhile_cons_of_neg (by simp [hc])]

theorem fields_dropEnd (cs : List Char) : fields (dropEnd isBlank cs) = fields cs := by
  induction cs using List.reverseRecOn with
  | nil => rfl
  | append_singleton cs c ih =>
    cases hc : isBlank c with
    | true =>
      have hdrop : dropEnd isBlank (cs ++ [c]) = dropEnd isBlank cs := by
        simp [dropEnd, hc]
      rw [hdrop, ih, fields_append_blank hc]
      simp [fields, words, pieces]
    | false => simp [dropEnd, hc]

theorem fields_trim (cs : List Char) : fields (trim cs) = fields cs := by
  rw [trim, trimBoth, fields_dropEnd, fields_dropWhile]

theorem mem_fields_of_mem {cs : List Char} {c : Char} (hmem : c ∈ cs) (hc : isBlank c = false) :
    ∃ f ∈ fields cs, c ∈ f := by
  obtain ⟨f, hf, hin⟩ := exists_piece_of_mem hmem hc
  refine ⟨f, List.mem_filter.2 ⟨hf, ?_⟩, hin⟩
  simpa using List.ne_nil_of_mem hin

end Lintel.Text
