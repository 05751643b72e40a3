import Lintel.Proofs.Report.Ending
import Lintel.Proofs.Text.Cutting

/-!
# Colours

A report in colours is the plain report with escape sequences between its spans. When its texts hold
no escape character of their own, the sequences are found again and nothing but them is lost with
them: fields are filled with blanks before they are styled, so no style moves a column.
-/
namespace Lintel

namespace Style

def isParameter (c : Char) : Bool := c.isDigit || c == ';'

def afterSequence? : List Char → Option (List Char)
  | '\x1b' :: '[' :: rest => Text.dropPrefix? ['m'] (rest.dropWhile isParameter)
  | _ => none

theorem length_lt_of_afterSequence? {cs after : List Char} (h : afterSequence? cs = some after) :
    after.length < cs.length := by
  unfold afterSequence? at h
  split at h
  · rename_i rest
    have hdrop := congrArg List.length (Text.dropPrefix?_eq_some_iff.1 h)
    have hle := (List.dropWhile_suffix isParameter (l := rest)).length_le
    simp only [List.length_append, List.length_cons, List.length_nil] at hdrop ⊢
    omega
  · cases h

def removeSequences (cs : List Char) : List Char :=
  match cs with
  | [] => []
  | c :: rest =>
      match _h : afterSequence? (c :: rest) with
      | some after => removeSequences after
      | none => c :: removeSequences rest
termination_by cs.length
decreasing_by
  · exact length_lt_of_afterSequence? _h
  · exact Nat.lt_succ_self _

theorem removeSequences_of_some {c : Char} {rest after : List Char}
    (h : afterSequence? (c :: rest) = some after) :
    removeSequences (c :: rest) = removeSequences after := by
  rw [removeSequences]
  split
  · simp_all
  · simp_all

theorem removeSequences_of_none {c : Char} {rest : List Char}
    (h : afterSequence? (c :: rest) = none) :
    removeSequences (c :: rest) = c :: removeSequences rest := by
  rw [removeSequences]
  split
  · simp_all
  · rfl

theorem removeSequences_append {cs : List Char} (h : escape ∉ cs) (rest : List Char) :
    removeSequences (cs ++ rest) = cs ++ removeSequences rest := by
  induction cs with
  | nil => rfl
  | cons c cs ih =>
    rw [List.mem_cons, not_or] at h
    have hnone : afterSequence? (c :: (cs ++ rest)) = none := by
      unfold afterSequence?
      split
      · rename_i heq
        exact absurd (List.cons.inj heq).1.symm h.1
      · rfl
    rw [List.cons_append, removeSequences_of_none hnone, ih h.2, List.cons_append]

theorem removeSequences_sequence {code : String} (h : ∀ c ∈ code.toList, isParameter c = true)
    (rest : List Char) : removeSequences (sequence code ++ rest) = removeSequences rest := by
  have hdrop : (code.toList ++ 'm' :: rest).dropWhile isParameter = 'm' :: rest :=
    Text.dropWhile_append_stop h (Text.stops_cons.2 rfl)
  have hafter : afterSequence? (sequence code ++ rest) = some rest := by
    simp only [sequence, escape, List.cons_append, List.append_assoc, List.nil_append,
      afterSequence?, hdrop]
    rfl
  exact removeSequences_of_some hafter

theorem resume_eq_self {cs : List Char} (h : escape ∉ cs) (on : List Char) :
    resume on cs = cs := by
  fun_induction resume on cs with
  | case1 rest ih => simp [escape] at h
  | case2 c rest _ ih =>
    rw [List.mem_cons, not_or] at h
    rw [ih h.2]
  | case3 => rfl

theorem isParameter_of_codes {s : Style} {code : String} (h : s.codes = some code) :
    ∀ c ∈ code.toList, isParameter c = true := by
  have hall : ∀ s : Style, ∀ code ∈ s.codes, code.toList.all isParameter = true := by
    intro s
    cases s <;> decide
  exact List.all_eq_true.1 (hall s code h)

theorem removeSequences_apply {cs : List Char} (h : escape ∉ cs) (s : Style) (rest : List Char) :
    removeSequences (s.apply cs ++ rest) = cs ++ removeSequences rest := by
  cases hcodes : s.codes with
  | none =>
    simp only [apply, hcodes]
    exact removeSequences_append h rest
  | some code =>
    have hreset : ∀ c ∈ "0".toList, isParameter c = true := List.all_eq_true.1 rfl
    simp only [apply, hcodes, resume_eq_self h, List.append_assoc]
    rw [removeSequences_sequence (isParameter_of_codes hcodes), removeSequences_append h, reset,
      removeSequences_sequence hreset]

end Style

theorem Span.removeSequences_render {spans : List Span}
    (h : ∀ s ∈ spans, Style.escape ∉ s.text) :
    Style.removeSequences (render true spans) = render false spans := by
  induction spans with
  | nil => rw [render, List.flatMap_nil, Style.removeSequences]; rfl
  | cons s spans ih =>
    rw [List.forall_mem_cons] at h
    simp only [render, List.flatMap_cons, if_pos, Bool.false_eq_true, if_false] at ih ⊢
    rw [Style.removeSequences_apply h.1, ih h.2]

structure Finding.LacksEscapes (f : Finding) : Prop where
  file : Style.escape ∉ f.file.display.toList
  message : Style.escape ∉ f.message.toList
  level : ∀ level, f.level = some level → Style.escape ∉ level.toList
  code : ∀ code, f.code = some code → Style.escape ∉ code.toList

namespace Report

theorem escape_notMem_digits (n : Nat) : Style.escape ∉ Nat.toDigits 10 n := by
  intro h
  have hdigit := Nat.isDigit_of_mem_toDigits (by omega) (by omega) h
  exact absurd hdigit (by decide)

theorem escape_notMem_numberText (n : Option UInt32) : Style.escape ∉ numberText n := by
  cases n with
  | none => exact List.not_mem_nil
  | some n => exact escape_notMem_digits _

theorem escape_notMem_padRight {cs : List Char} (h : Style.escape ∉ cs) (width : Nat) :
    Style.escape ∉ padRight width cs := by
  rw [padRight, List.mem_append, List.mem_replicate, not_or]
  exact ⟨h, fun hblank => absurd hblank.2 (by decide)⟩

theorem escape_notMem_padLeft {cs : List Char} (h : Style.escape ∉ cs) (width : Nat) :
    Style.escape ∉ padLeft width cs := by
  rw [padLeft, List.mem_append, List.mem_replicate, not_or]
  exact ⟨fun hblank => absurd hblank.2 (by decide), h⟩

theorem escape_notMem_positionText (w : Widths) (f : Finding) :
    Style.escape ∉ positionText w f := by
  rw [positionText, List.mem_append, List.mem_cons, not_or, not_or]
  exact ⟨escape_notMem_padLeft (escape_notMem_numberText _) _, by decide,
    escape_notMem_padRight (escape_notMem_numberText _) _⟩

theorem escape_notMem_counted (n : Nat) {noun : String} (h : Style.escape ∉ noun.toList) :
    Style.escape ∉ (counted n noun).toList := by
  have hplural : Style.escape ∉ (if n = 1 then "" else "s").toList := by split <;> decide
  have hblank : Style.escape ∉ " ".toList := by decide
  have hnumber : Style.escape ∉ (toString n).toList := by simpa using escape_notMem_digits n
  simp only [counted, String.toList_append, List.mem_append, not_or]
  exact ⟨⟨⟨hnumber, hblank⟩, h⟩, hplural⟩

theorem escape_notMem_problemLine (t : Tally) : Style.escape ∉ (problemLine t).toList := by
  have hproblems : Style.escape ∉ (counted t.problems "problem").toList :=
    escape_notMem_counted _ (by decide)
  have herrors : Style.escape ∉ (counted t.error "error").toList :=
    escape_notMem_counted _ (by decide)
  have hwarnings : Style.escape ∉ (counted t.warning "warning").toList :=
    escape_notMem_counted _ (by decide)
  simp only [problemLine, String.toList_append, List.mem_append, not_or]
  exact ⟨⟨⟨⟨⟨⟨by decide, hproblems⟩, by decide⟩, herrors⟩, by decide⟩, hwarnings⟩, by decide⟩

/-! ## Spans -/

theorem mem_rows {row : Finding → List Span} {current : Option Path} {fs : List Finding} {s : Span}
    (h : s ∈ rows row current fs) : ∃ f ∈ fs, s ∈ header f.file ∨ s ∈ row f := by
  induction fs generalizing current with
  | nil => cases h
  | cons f fs ih =>
    rw [rows, List.mem_append, List.mem_append] at h
    rcases h with (hhead | hrow) | hrest
    · split at hhead
      · cases hhead
      · exact ⟨f, List.mem_cons_self .., .inl hhead⟩
    · exact ⟨f, List.mem_cons_self .., .inr hrow⟩
    · obtain ⟨g, hg, hs⟩ := ih hrest
      exact ⟨g, List.mem_cons_of_mem _ hg, hs⟩

variable {f : Finding} {s : Span}

theorem escape_notMem_header (h : f.LacksEscapes) (hs : s ∈ header f.file) :
    Style.escape ∉ s.text := by
  simp only [header, List.mem_cons, List.not_mem_nil, or_false] at hs
  rcases hs with rfl | rfl | rfl
  · decide
  · exact h.file
  · decide

theorem escape_notMem_plainRow (h : f.LacksEscapes) (hs : s ∈ plainRow f) :
    Style.escape ∉ s.text := by
  simp only [plainRow, List.mem_cons, List.not_mem_nil, or_false] at hs
  rcases hs with rfl | rfl
  · exact h.message
  · decide

theorem escape_notMem_structuredRow {w : Widths} (h : f.LacksEscapes)
    (hs : s ∈ structuredRow w f) : Style.escape ∉ s.text := by
  have hlevel : Style.escape ∉ levelText f := by
    rw [levelText]
    cases hlevel : f.level with
    | none => decide
    | some level => exact h.level level hlevel
  have hcode : Style.escape ∉ (f.code.getD "").toList := by
    cases hcode : f.code with
    | none => decide
    | some code => exact h.code code hcode
  have hgap : Style.escape ∉ gap.text := by decide
  simp only [structuredRow, List.mem_cons, List.not_mem_nil, or_false] at hs
  rcases hs with rfl | rfl | rfl | rfl | rfl | rfl | rfl | rfl | rfl
  · exact hgap
  · exact escape_notMem_positionText w f
  · exact hgap
  · exact escape_notMem_padRight hlevel _
  · exact hgap
  · exact escape_notMem_padRight h.message _
  · exact hgap
  · exact hcode
  · decide

theorem escape_notMem_trailer {t : Tally} (hs : s ∈ trailer t) : Style.escape ∉ s.text := by
  rw [trailer] at hs
  split at hs
  · cases hs
  · simp only [List.mem_cons, List.not_mem_nil, or_false] at hs
    rcases hs with rfl | rfl
    · dsimp only
      exact escape_notMem_problemLine t
    · decide

theorem escape_notMem_spans {r : Report} (h : ∀ f ∈ r.findings, f.LacksEscapes) :
    ∀ s ∈ r.spans, Style.escape ∉ s.text := by
  intro s hs
  rw [spans] at hs
  split at hs
  · obtain ⟨f, hf, hhead | hrow⟩ := mem_rows hs
    · exact escape_notMem_header (h f hf) hhead
    · exact escape_notMem_plainRow (h f hf) hrow
  · rw [List.mem_append, List.mem_cons] at hs
    rcases hs with hrows | rfl | htrailer
    · obtain ⟨f, hf, hhead | hrow⟩ := mem_rows hrows
      · exact escape_notMem_header (h f hf) hhead
      · exact escape_notMem_structuredRow (h f hf) hrow
    · decide
    · exact escape_notMem_trailer htrailer

/-- Without its escape sequences the text in colours is the text without colours, if no file name,
message, level or code holds an escape character. -/
theorem removeSequences_text {r : Report} (h : ∀ f ∈ r.findings, f.LacksEscapes) :
    Style.removeSequences (r.text true).toList = (r.text false).toList := by
  rw [text, text, String.toList_ofList, String.toList_ofList]
  exact Span.removeSequences_render (escape_notMem_spans h)

def sparseFinding : Finding :=
  ⟨.ofString "/a b", "", none, some 12, some .error, some "é", none⟩

theorem removeSequences_text_sparse :
    sparseFinding.LacksEscapes ∧
    (Report.mk .structured [sparseFinding]).text true =
      "\n\x1b[4m/a b\x1b[0m\n  \x1b[2m:12\x1b[0m  \x1b[31mé \x1b[0m    \x1b[2m\x1b[0m\n" ++
        "\n\x1b[1;31m✗ 1 problem (1 error, 0 warnings)\x1b[0m\n" ∧
    Style.removeSequences ((Report.mk .structured [sparseFinding]).text true).toList =
      ((Report.mk .structured [sparseFinding]).text false).toList ∧
    (Report.mk .plainText [sparseFinding]).text true =
      "\n\x1b[4m/a b\x1b[0m\n\x1b[33m\x1b[0m\n" ∧
    Style.removeSequences ((Report.mk .plainText [sparseFinding]).text true).toList =
      ((Report.mk .plainText [sparseFinding]).text false).toList := by
  have hlacks : sparseFinding.LacksEscapes := by
    refine ⟨by decide +kernel, by decide +kernel, fun level h => ?_, fun code h => ?_⟩
    · obtain rfl := Option.some.inj h
      decide +kernel
    · cases h
  have hall : ∀ f ∈ [sparseFinding], f.LacksEscapes := List.forall_mem_singleton.2 hlacks
  exact ⟨hlacks, by decide +kernel, removeSequences_text hall, by decide +kernel,
    removeSequences_text hall⟩

end Report

end Lintel
