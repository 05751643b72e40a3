import Lintel.Proofs.Report.Ending

/-!
# The blocks of a report

The text compares neighbouring findings only. When the findings of one file stand together, and no
two groups are about the same file, the text has one block for each group that is not empty: an empty
line, the name of the file and a row for each of its findings.
-/
namespace Lintel.Report

variable (coloured : Bool) (row : Finding → List Span)

abbrev Groups := List (Path × List Finding)

structure Groups.Separate (groups : Groups) : Prop where
  own : ∀ g ∈ groups, ∀ f ∈ g.2, f.file = g.1
  distinct : groups.Pairwise fun g h => ¬ g.1.Same h.1

theorem Groups.separate_cons {g : Path × List Finding} {groups : Groups}
    (h : Separate (g :: groups)) :
    (∀ f ∈ g.2, f.file = g.1) ∧ (∀ h ∈ groups, ¬ g.1.Same h.1) ∧ Separate groups := by
  obtain ⟨hown, hdistinct⟩ := h
  rw [List.forall_mem_cons] at hown
  rw [List.pairwise_cons] at hdistinct
  exact ⟨hown.1, hdistinct.1, hown.2, hdistinct.2⟩

theorem rows_same {file : Path} {fs : List Finding} (hfile : ∀ f ∈ fs, f.file = file)
    (rest : List Finding) :
    rows row (some file) (fs ++ rest) = fs.flatMap row ++ rows row (some file) rest := by
  induction fs with
  | nil => rfl
  | cons f fs ih =>
    rw [List.forall_mem_cons] at hfile
    rw [List.cons_append, rows, hfile.1, ih hfile.2, List.flatMap_cons]
    simp [Path.Same.refl]

theorem rows_other {current : Option Path} {file : Path}
    (hcurrent : ∀ p, current = some p → ¬ p.Same file) {fs : List Finding} (hne : fs ≠ [])
    (hfile : ∀ f ∈ fs, f.file = file) (rest : List Finding) :
    rows row current (fs ++ rest) = header file ++ fs.flatMap row ++ rows row (some file) rest := by
  obtain ⟨f, fs, rfl⟩ := List.exists_cons_of_ne_nil hne
  rw [List.forall_mem_cons] at hfile
  have hnew : current.any (·.Same file) = false := by
    cases current with
    | none => rfl
    | some p => simpa using hcurrent p rfl
  rw [List.cons_append, rows, hfile.1, rows_same row hfile.2, List.flatMap_cons, hnew]
  simp

theorem rows_groups {current : Option Path} {groups : Groups} (h : groups.Separate)
    (hcurrent : ∀ p, current = some p → ∀ g ∈ groups, ¬ p.Same g.1) :
    rows row current (groups.flatMap (·.2)) =
      (groups.filter (·.2 ≠ [])).flatMap fun g => header g.1 ++ g.2.flatMap row := by
  induction groups generalizing current with
  | nil => rfl
  | cons g groups ih =>
    obtain ⟨hown, hnext, hrest⟩ := Groups.separate_cons h
    rw [List.flatMap_cons]
    by_cases hempty : g.2 = []
    · have hlater : ∀ p, current = some p → ∀ g ∈ groups, ¬ p.Same g.1 := fun p hp k hk =>
        hcurrent p hp k (List.mem_cons_of_mem _ hk)
      rw [hempty, List.nil_append, ih hrest hlater, List.filter_cons_of_neg (by simp [hempty])]
    · have hlater : ∀ p, some g.1 = some p → ∀ k ∈ groups, ¬ p.Same k.1 := by
        rintro p ⟨⟩
        exact hnext
      rw [rows_other row (fun p hp => hcurrent p hp g (List.mem_cons_self ..)) hempty hown,
        ih hrest hlater, List.filter_cons_of_pos (by simpa using hempty), List.flatMap_cons]

/-! ## Without colours -/

def rowText (r : Report) (f : Finding) : List Char :=
  match r.mode with
  | .plainText => f.message.toList ++ ['\n']
  | .structured => Span.render false (structuredRow (Widths.measure r.findings) f)

def closing (r : Report) : List Char :=
  match r.mode with
  | .plainText => []
  | .structured => '\n' :: Span.render false (trailer r.tally)

def block (r : Report) (file : Path) (fs : List Finding) : List Char :=
  '\n' :: file.display.toList ++ '\n' :: fs.flatMap r.rowText

theorem render_header (file : Path) :
    Span.render false (header file) = '\n' :: file.display.toList ++ ['\n'] := by
  simp [Span.render, header, Span.normal]

theorem render_flatMap {α : Type} (spans : α → List Span) (as : List α) :
    Span.render coloured (as.flatMap spans) = as.flatMap fun a => Span.render coloured (spans a) :=
  List.flatMap_assoc ..

theorem text_groups {r : Report} {groups : Groups} (h : groups.Separate)
    (hfindings : r.findings = groups.flatMap (·.2)) :
    (r.text false).toList =
      ((groups.filter (·.2 ≠ [])).flatMap fun g => r.block g.1 g.2) ++ r.closing := by
  have hrows : ∀ row : Finding → List Span, Span.render false (rows row none r.findings) =
      (groups.filter (·.2 ≠ [])).flatMap fun g =>
        '\n' :: g.1.display.toList ++ '\n' :: g.2.flatMap fun f => Span.render false (row f) := by
    intro row
    have hnone : ∀ p, (none : Option Path) = some p → ∀ g ∈ groups, ¬ p.Same g.1 := by
      rintro p ⟨⟩
    rw [hfindings, rows_groups row h hnone, render_flatMap]
    simp only [Span.render_append, render_header, render_flatMap, List.append_assoc,
      List.singleton_append]
  cases hmode : r.mode with
  | plainText =>
    have hrow : r.rowText = fun f => Span.render false (plainRow f) := by
      funext f
      simp [rowText, hmode, plainRow, Span.render, Span.normal]
    rw [text_plainText false hmode, hrows, closing, hmode, List.append_nil]
    simp only [block, hrow]
  | structured =>
    have hrow : r.rowText =
        fun f => Span.render false (structuredRow (Widths.measure r.findings) f) := by
      funext f
      simp [rowText, hmode]
    rw [text_structured false hmode, hrows, closing, hmode, List.append_assoc]
    simp only [block, hrow, List.singleton_append]

end Lintel.Report
