import Lintel.Report.Layout

/-!
# The last line of a report

Headers and rows are closed lines, so the text of a report with structured findings ends in the
problem line if there are problems, and in an empty line if there are none. The text of a report
with plain findings ends in the message of the last one.
-/
namespace Lintel

def Text.Closed (cs : List Char) : Prop := cs = [] ∨ cs.getLast? = some '\n'

def Text.EndsInLine (cs line : List Char) : Prop :=
  ∃ front, Closed front ∧ cs = front ++ line ++ ['\n']

namespace Text

theorem closed_append {as bs : List Char} (has : Closed as) (hbs : Closed bs) :
    Closed (as ++ bs) := by
  rcases hbs with rfl | hbs
  · rwa [List.append_nil]
  · right
    rw [List.getLast?_append, hbs, Option.some_or]

theorem closed_concat (as : List Char) : Closed (as ++ ['\n']) := by
  right
  simp

theorem not_endsInLine_concat {as line : List Char} {c : Char} (has : Closed as)
    (hlast : line.getLast? = some c) (hc : c ≠ '\n') : ¬ EndsInLine (as ++ ['\n']) line := by
  rintro ⟨front, -, h⟩
  obtain rfl := List.append_cancel_right h
  rcases has with hnil | hclosed
  · obtain ⟨-, rfl⟩ := List.append_eq_nil_iff.1 hnil
    simp at hlast
  · rw [List.getLast?_append, hlast, Option.some_or, Option.some.injEq] at hclosed
    exact hc hclosed

end Text

theorem Span.render_append (coloured : Bool) (as bs : List Span) :
    render coloured (as ++ bs) = render coloured as ++ render coloured bs :=
  List.flatMap_append

theorem Span.render_normal (coloured : Bool) (cs : List Char) :
    render coloured [.normal cs] = cs := by
  cases coloured <;> simp [render, normal, Style.apply, Style.codes]

namespace Report

open Text (Closed EndsInLine)

variable (coloured : Bool) {row : Finding → List Span}

theorem closed_header (file : Path) : Closed (Span.render coloured (header file)) := by
  have hsplit : header file =
      [.normal ['\n'], ⟨.underline, file.display.toList⟩] ++ [.normal ['\n']] := rfl
  rw [hsplit, Span.render_append, Span.render_normal]
  exact Text.closed_concat _

theorem closed_rows (hrow : ∀ f, Closed (Span.render coloured (row f))) (current : Option Path)
    (fs : List Finding) : Closed (Span.render coloured (rows row current fs)) := by
  induction fs generalizing current with
  | nil => exact .inl rfl
  | cons f fs ih =>
    rw [rows, Span.render_append, Span.render_append]
    apply Text.closed_append _ (ih _)
    apply Text.closed_append _ (hrow f)
    split
    · exact .inl rfl
    · exact closed_header coloured f.file

theorem exists_render_rows_concat (hrow : ∀ f, Closed (Span.render coloured (row f)))
    (current : Option Path) (fs : List Finding) (f : Finding) :
    ∃ front, Closed front ∧ Span.render coloured (rows row current (fs ++ [f])) =
      front ++ Span.render coloured (row f) := by
  induction fs generalizing current with
  | nil =>
    refine ⟨Span.render coloured (if current.any (·.Same f.file) then [] else header f.file), ?_, ?_⟩
    · split
      · exact .inl rfl
      · exact closed_header coloured f.file
    · simp only [List.nil_append, rows, List.append_nil, Span.render_append]
  | cons g fs ih =>
    obtain ⟨front, hfront, hrest⟩ := ih (some g.file)
    refine ⟨Span.render coloured (rows row current [g]) ++ front,
      Text.closed_append (closed_rows coloured hrow current [g]) hfront, ?_⟩
    rw [List.append_assoc, ← hrest]
    simp only [List.cons_append, rows, List.append_nil, Span.render_append]

theorem closed_structuredRow (w : Widths) (f : Finding) :
    Closed (Span.render coloured (structuredRow w f)) := by
  have hsplit : structuredRow w f = (structuredRow w f).dropLast ++ [.normal ['\n']] := rfl
  rw [hsplit, Span.render_append, Span.render_normal]
  exact Text.closed_concat _

theorem closed_plainRow (f : Finding) : Closed (Span.render coloured (plainRow f)) := by
  have hsplit : plainRow f = [⟨.yellow, f.message.toList⟩] ++ [.normal ['\n']] := rfl
  rw [hsplit, Span.render_append, Span.render_normal]
  exact Text.closed_concat _

/-! ## The problem line -/

def problemSpan (t : Tally) : Span :=
  ⟨if t.error = 0 then .boldYellow else .boldRed, (problemLine t).toList⟩

theorem getLast?_problemLine (t : Tally) : (problemLine t).toList.getLast? = some ')' := by
  rw [problemLine, String.toList_append, List.getLast?_append]
  rfl

theorem getLast?_apply {s : Style} {code : String} (h : s.codes = some code) (cs : List Char) :
    (s.apply cs).getLast? = some 'm' := by
  have hreset : Style.reset.getLast? = some 'm' := rfl
  simp only [Style.apply, h, List.getLast?_append, hreset, Option.some_or]

theorem exists_getLast?_problemSpan (t : Tally) :
    ∃ c, (Span.render coloured [problemSpan t]).getLast? = some c ∧ c ≠ '\n' := by
  cases coloured with
  | false =>
    refine ⟨')', ?_, by decide⟩
    simpa [Span.render, problemSpan] using getLast?_problemLine t
  | true =>
    obtain ⟨code, hcode⟩ : ∃ code, (problemSpan t).style.codes = some code := by
      by_cases herror : t.error = 0 <;> simp [problemSpan, herror, Style.codes]
    refine ⟨'m', ?_, by decide⟩
    simpa [Span.render] using getLast?_apply hcode (problemSpan t).text

theorem text_structured {r : Report} (h : r.mode = .structured) :
    (r.text coloured).toList =
      Span.render coloured (rows (structuredRow (Widths.measure r.findings)) none r.findings) ++
        ['\n'] ++ Span.render coloured (trailer r.tally) := by
  rw [text, String.toList_ofList, spans, h]
  dsimp only
  rw [List.append_cons, Span.render_append, Span.render_append, Span.render_normal]

theorem endsInLine_problemSpan_iff {r : Report} (h : r.mode = .structured) :
    EndsInLine (r.text coloured).toList (Span.render coloured [problemSpan r.tally]) ↔
      0 < r.tally.problems := by
  have hrows : Closed (Span.render coloured
      (rows (structuredRow (Widths.measure r.findings)) none r.findings)) :=
    closed_rows coloured (closed_structuredRow coloured _) none r.findings
  rw [text_structured coloured h, trailer]
  by_cases hnone : r.tally.problems = 0
  · obtain ⟨c, hlast, hc⟩ := exists_getLast?_problemSpan coloured r.tally
    rw [if_pos hnone, hnone]
    have hempty : Span.render coloured [] = [] := rfl
    rw [hempty, List.append_nil]
    simp only [Nat.lt_irrefl, iff_false]
    exact Text.not_endsInLine_concat hrows hlast hc
  · have hsplit : [⟨if r.tally.error = 0 then .boldYellow else .boldRed,
        (problemLine r.tally).toList⟩, .normal ['\n']] = [problemSpan r.tally] ++ [.normal ['\n']] :=
      rfl
    rw [if_neg hnone, hsplit, Span.render_append, Span.render_normal, ← List.append_assoc]
    simp only [Nat.pos_of_ne_zero hnone, iff_true]
    exact ⟨_, Text.closed_concat _, rfl⟩

/-! ## Plain findings -/

theorem text_plainText {r : Report} (h : r.mode = .plainText) :
    (r.text coloured).toList = Span.render coloured (rows plainRow none r.findings) := by
  rw [text, String.toList_ofList, spans, h]

theorem endsInLine_message {r : Report} (h : r.mode = .plainText) {fs : List Finding} {f : Finding}
    (hlast : r.findings = fs ++ [f]) :
    EndsInLine (r.text coloured).toList
      (Span.render coloured [⟨.yellow, f.message.toList⟩]) := by
  obtain ⟨front, hfront, hrows⟩ :=
    exists_render_rows_concat coloured (closed_plainRow coloured) none fs f
  have hsplit : plainRow f = [⟨.yellow, f.message.toList⟩] ++ [.normal ['\n']] := rfl
  refine ⟨front, hfront, ?_⟩
  rw [text_plainText coloured h, hlast, hrows, hsplit, Span.render_append, Span.render_normal,
    List.append_assoc]

end Report

end Lintel
