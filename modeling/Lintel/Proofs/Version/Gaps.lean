import Lintel.Version.Range
import Lintel.Proofs.Text.Fields

/-!
# Blanks behind operators

Removing the blanks behind operators joins each field that ends in an operator to the one after it.
`glue` does that on the fields, from the right, and the fields of the shortened text are the glued
fields of the text. An alternative is therefore read off its fields alone.
-/
namespace Lintel.Range

def EndsOpen (f : List Char) : Prop := ∃ c, f.getLast? = some c ∧ isOperatorChar c = true

instance (f : List Char) : Decidable (EndsOpen f) :=
  match h : f.getLast? with
  | none => .isFalse fun ⟨_, hc, _⟩ => by simp [h] at hc
  | some c => decidable_of_iff (isOperatorChar c = true) (by simp [EndsOpen, h])

def attach (f : List Char) : List (List Char) → List (List Char)
  | [] => [f]
  | g :: gs => (f ++ g) :: gs

/-- Joins every field that ends in an operator to the one behind it. -/
def glue : List (List Char) → List (List Char)
  | [] => []
  | f :: fs => if EndsOpen f then attach f (glue fs) else f :: glue fs

theorem glue_cons_of_open {f : List Char} (hf : EndsOpen f) (fs : List (List Char)) :
    glue (f :: fs) = attach f (glue fs) := by
  rw [glue, if_pos hf]

theorem glue_cons_of_not_open {f : List Char} (hf : ¬ EndsOpen f) (fs : List (List Char)) :
    glue (f :: fs) = f :: glue fs := by
  rw [glue, if_neg hf]

theorem attach_attach (f g : List Char) (gs : List (List Char)) :
    attach f (attach g gs) = attach (f ++ g) gs := by
  cases gs with
  | nil => rfl
  | cons h gs => simp [attach]

theorem attach_eq_cons (w : List Char) (gs : List (List Char)) :
    ∃ v rest, attach w gs = (w ++ v) :: rest := by
  cases gs with
  | nil => exact ⟨[], [], by rw [List.append_nil]; rfl⟩
  | cons v rest => exact ⟨v, rest, rfl⟩

theorem glue_eq_cons (f : List Char) (fs : List (List Char)) :
    ∃ v rest, glue (f :: fs) = (f ++ v) :: rest := by
  rw [glue]
  split
  · exact attach_eq_cons f (glue fs)
  · exact ⟨[], glue fs, by rw [List.append_nil]⟩

theorem forall_mem_glue {P : Char → Prop} {fs : List (List Char)} (h : ∀ f ∈ fs, ∀ c ∈ f, P c) :
    ∀ f ∈ glue fs, ∀ c ∈ f, P c := by
  induction fs with
  | nil => exact h
  | cons f fs ih =>
    rw [List.forall_mem_cons] at h
    rw [glue]
    split
    · cases hglue : glue fs with
      | nil => exact List.forall_mem_singleton.2 h.1
      | cons g gs =>
        have hrest := ih h.2
        rw [hglue, List.forall_mem_cons] at hrest
        exact List.forall_mem_cons.2 ⟨List.forall_mem_append.2 ⟨h.1, hrest.1⟩, hrest.2⟩
    · exact List.forall_mem_cons.2 ⟨h.1, ih h.2⟩

theorem not_endsOpen_nil : ¬ EndsOpen [] := by
  intro h
  obtain ⟨c, hc, -⟩ := h
  cases hc

theorem endsOpen_concat {w : List Char} {c : Char} :
    EndsOpen (w ++ [c]) ↔ isOperatorChar c = true := by
  simp [EndsOpen]

theorem endsOpen_append {w q : List Char} (hq : q ≠ []) : EndsOpen (w ++ q) ↔ EndsOpen q := by
  simp only [EndsOpen, List.getLast?_append]
  cases h : q.getLast? with
  | none => exact absurd (List.getLast?_eq_none_iff.1 h) hq
  | some c => simp

theorem isBlank_of_isOperatorChar {c : Char} (hc : isOperatorChar c = true) :
    Text.isBlank c = false := by
  simp only [isOperatorChar, Bool.or_eq_true, beq_iff_eq] at hc
  rcases hc with (((rfl | rfl) | rfl) | rfl) | rfl <;> decide

theorem isOperatorChar_of_isBlank {c : Char} (hc : Text.isBlank c = true) :
    isOperatorChar c = false := by
  by_contra h
  rw [isBlank_of_isOperatorChar (by simpa using h)] at hc
  cases hc

theorem glue_fields_append_of_open {w : List Char} (hw : Text.Solid w) (hopen : EndsOpen w)
    (cs : List Char) :
    glue (Text.fields (w ++ cs)) = attach w (glue (Text.fields cs)) := by
  have hne : w ≠ [] := fun h => not_endsOpen_nil (h ▸ hopen)
  obtain ⟨q, fs, happend, hrest⟩ := Text.fields_append_solid hw hne cs
  rw [happend, hrest]
  by_cases hq : q = []
  · rw [if_pos hq, hq, List.append_nil, glue_cons_of_open hopen]
  · rw [if_neg hq]
    by_cases hqo : EndsOpen q
    · rw [glue_cons_of_open ((endsOpen_append hq).2 hqo), glue_cons_of_open hqo, attach_attach]
    · rw [glue_cons_of_not_open (mt (endsOpen_append hq).1 hqo), glue_cons_of_not_open hqo]
      rfl

theorem fields_append_closeGaps {w : List Char} (hw : Text.Solid w) (cs : List Char) :
    Text.fields (w ++ closeGaps (decide (EndsOpen w)) cs) = glue (Text.fields (w ++ cs)) := by
  -- the scan is behind an operator exactly when the run `w` in front of the text ends in one
  induction cs generalizing w with
  | nil =>
    rw [closeGaps, List.append_nil]
    by_cases hne : w = []
    · subst hne
      rfl
    · rw [Text.fields_of_solid hw hne, glue]
      split <;> rfl
  | cons c cs ih =>
    cases hc : Text.isBlank c with
    | false =>
      have hnext : Text.Solid (w ++ [c]) := Text.solid_append.2 ⟨hw, by simpa [Text.Solid] using hc⟩
      have hstep := ih hnext
      simpa [closeGaps, hc, endsOpen_concat] using hstep
    | true =>
      by_cases hopen : EndsOpen w
      · have hstep := ih hw
        have hskip := glue_fields_append_of_open hw hopen
        rw [hskip] at hstep
        rw [hskip, Text.fields_cons_blank hc, ← hstep]
        simp [closeGaps, hc, hopen]
      · have hstep := ih (w := []) (by simp [Text.Solid])
        have hclosed : Text.fields (w ++ closeGaps (decide (EndsOpen w)) (c :: cs)) =
            Text.fields w ++ Text.fields (closeGaps false cs) := by
          rw [← Text.fields_append_blank hc]
          simp [closeGaps, hopen, isOperatorChar_of_isBlank hc]
        rw [hclosed, Text.fields_append_blank hc]
        simp only [not_endsOpen_nil, decide_false, List.nil_append] at hstep
        rw [hstep]
        by_cases hne : w = []
        · subst hne
          rfl
        · rw [Text.fields_of_solid hw hne]
          exact (glue_cons_of_not_open hopen _).symm

theorem fields_closeGaps (cs : List Char) :
    Text.fields (closeGaps false cs) = glue (Text.fields cs) := by
  have h := fields_append_closeGaps (w := []) (by simp [Text.Solid]) cs
  simpa [not_endsOpen_nil] using h

def spelled? (fs : List (List Char)) : Option (List (List Char)) :=
  ((glue fs).mapM comparator?).map (·.filterMap id)

theorem alternative?_of_hyphen {cs low high : List Char}
    (h : Text.fields cs = [low, ['-'], high]) :
    alternative? cs =
      Version.Requirement.parse?
        ('>' :: '=' :: dropV low ++ ',' :: ' ' :: '<' :: '=' :: dropV high) := by
  simp only [alternative?, Text.fields_trim, h]

theorem alternative?_of_list {cs : List Char}
    (h : ∀ low high, Text.fields cs ≠ [low, ['-'], high]) :
    alternative? cs = (spelled? (Text.fields cs)).bind fun given =>
      if given = [] then some []
      else Version.Requirement.parse? ([',', ' '].intercalate given) := by
  simp only [alternative?, Text.fields_trim, fields_closeGaps, spelled?]
  cases (glue (Text.fields cs)).mapM comparator? with
  | none => rfl
  | some comparators =>
    simp only [Option.bind_eq_bind, Option.bind_some, Option.map_some]
    cases comparators.filterMap id <;> rfl

end Lintel.Range
