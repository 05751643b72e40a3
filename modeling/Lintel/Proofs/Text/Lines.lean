import Lintel.Proofs.Text.Cutting

/-!
# The lines of a text

A line ends in a line feed, and a carriage return in front of the line feed belongs to the end of
the line. The last line may do without an end. Every text is written so by its lines, and only by
them.
-/
namespace Lintel.Text

/-- A text with its lines. A line that ends in a carriage return needs one more in front of its line
feed. -/
inductive Written : List (List Char) → List Char → Prop
  | empty : Written [] []
  | feed {line : List Char} {ls : List (List Char)} {text : List Char} (hline : '\n' ∉ line)
      (hreturn : line.getLast? ≠ some '\r') (hrest : Written ls text) :
      Written (line :: ls) (line ++ '\n' :: text)
  | returned {line : List Char} {ls : List (List Char)} {text : List Char} (hline : '\n' ∉ line)
      (hrest : Written ls text) : Written (line :: ls) (line ++ '\r' :: '\n' :: text)
  | unended {line : List Char} (hline : '\n' ∉ line) (hne : line ≠ []) : Written [line] line

def linePieces (cs : List Char) : List (List Char) :=
  let ps := pieces (· == '\n') cs
  if ps.getLast? = some [] then ps.dropLast else ps

theorem lines_eq (cs : List Char) :
    lines cs = match cs.getLast? with
      | some '\n' => (linePieces cs).map lines.unreturn
      | _ => (linePieces cs).dropLast.map lines.unreturn ++ (linePieces cs).getLast?.toList := rfl

theorem pieces_of_unbroken {line : List Char} (h : '\n' ∉ line) :
    pieces (· == '\n') line = [line] :=
  pieces_of_no_sep fun c hc => by
    rw [beq_eq_false_iff_ne]
    rintro rfl
    exact h hc

theorem linePieces_feed {line : List Char} (h : '\n' ∉ line) (rest : List Char) :
    linePieces (line ++ '\n' :: rest) = line :: linePieces rest := by
  obtain ⟨q, qs, hcut⟩ := List.exists_cons_of_ne_nil (pieces_ne_nil (· == '\n') rest)
  rw [linePieces, linePieces, pieces_append_sep (by rfl), pieces_of_unbroken h, hcut]
  rw [List.singleton_append, List.getLast?_cons_cons, List.dropLast_cons_cons]
  split <;> rfl

theorem linePieces_ne_nil {rest : List Char} (h : rest ≠ []) : linePieces rest ≠ [] := by
  obtain ⟨q, qs, hcut⟩ := List.exists_cons_of_ne_nil (pieces_ne_nil (· == '\n') rest)
  rw [linePieces, hcut]
  cases qs with
  | nil =>
    have hq : q = rest := by
      rw [← intercalate_pieces '\n' rest, hcut]
      simp
    rw [if_neg (by simpa [hq] using h)]
    simp
  | cons r qs => split <;> simp

theorem lines_feed {line : List Char} (h : '\n' ∉ line) (rest : List Char) :
    lines (line ++ '\n' :: rest) = lines.unreturn line :: lines rest := by
  rw [lines_eq, lines_eq, linePieces_feed h]
  by_cases hrest : rest = []
  · subst hrest
    rw [List.getLast?_concat]
    rfl
  · have hlast : (line ++ '\n' :: rest).getLast? = rest.getLast? := by
      rw [List.getLast?_append, List.getLast?_cons, List.getLast?_eq_some_getLast hrest]
      rfl
    obtain ⟨q, qs, hcut⟩ := List.exists_cons_of_ne_nil (linePieces_ne_nil hrest)
    rw [hlast, hcut]
    split <;> rfl

theorem lines_unended {line : List Char} (h : '\n' ∉ line) (hne : line ≠ []) :
    lines line = [line] := by
  have hpieces : linePieces line = [line] := by
    rw [linePieces, pieces_of_unbroken h]
    exact if_neg (by simpa using hne)
  rw [lines_eq, hpieces]
  split
  · rename_i hlast
    exact absurd (List.mem_of_getLast? hlast) h
  · rfl

theorem unreturn_returned (line : List Char) : lines.unreturn (line ++ ['\r']) = line := by
  simp [lines.unreturn, dropSuffix?, dropPrefix?]

theorem unreturn_of_getLast? {line : List Char} (h : line.getLast? ≠ some '\r') :
    lines.unreturn line = line := by
  rcases List.eq_nil_or_concat line with rfl | ⟨front, c, hcut⟩
  · rfl
  · rw [List.concat_eq_append] at hcut
    subst hcut
    have hc : '\r' ≠ c := by simpa [eq_comm] using h
    simp [lines.unreturn, dropSuffix?, dropPrefix?, hc]

theorem lines_of_written {ls : List (List Char)} {text : List Char} (h : Written ls text) :
    lines text = ls := by
  induction h with
  | empty => rfl
  | feed hline hreturn _ ih => rw [lines_feed hline, unreturn_of_getLast? hreturn, ih]
  | @returned line _ text hline _ ih =>
    have hline' : '\n' ∉ line ++ ['\r'] := by simpa using hline
    have hend := lines_feed hline' text
    rw [List.append_assoc, unreturn_returned, ih] at hend
    exact hend
  | unended hline hne => exact lines_unended hline hne

theorem written_lines (text : List Char) : Written (lines text) text := by
  by_cases hmem : '\n' ∈ text
  · obtain ⟨line, rest, hcut, hline⟩ := List.eq_append_cons_of_mem hmem
    have hlen : rest.length < text.length := by
      rw [hcut, List.length_append, List.length_cons]
      omega
    have ih := written_lines rest
    rw [hcut, lines_feed hline]
    by_cases hreturn : line.getLast? = some '\r'
    · obtain ⟨front, rfl⟩ := List.getLast?_eq_some_iff.1 hreturn
      rw [unreturn_returned, List.append_assoc]
      exact .returned (fun h => hline (List.mem_append_left _ h)) ih
    · rw [unreturn_of_getLast? hreturn]
      exact .feed hline hreturn ih
  · by_cases hne : text = []
    · subst hne
      exact .empty
    · rw [lines_unended hmem hne]
      exact .unended hmem hne
termination_by text.length

theorem lines_eq_iff_written {ls : List (List Char)} {text : List Char} :
    lines text = ls ↔ Written ls text := by
  constructor
  · rintro rfl
    exact written_lines text
  · exact lines_of_written

end Lintel.Text
