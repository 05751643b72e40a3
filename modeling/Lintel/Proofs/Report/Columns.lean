import Mathlib.Data.List.Forall2
import Lintel.Proofs.Report.Blocks

/-!
# Columns

The rows of structured findings are cut into fields of fixed widths, so that level, message and rule
code start at one offset in all rows. The fields of the position and of the message are as wide as
their longest cells. That of the level is as wide as the longest level in bytes, which is wider than
any level in characters as soon as a level that is not ASCII outgrows the others.
-/
namespace Lintel

namespace Text

theorem length_bytes_cons (c : Char) (cs : List Char) :
    (bytes (c :: cs)).length = c.utf8Size + (bytes cs).length := by
  rw [bytes, List.flatMap_cons, List.length_append, String.length_utf8EncodeChar]
  rfl

theorem length_le_length_bytes (cs : List Char) : cs.length ≤ (bytes cs).length := by
  induction cs with
  | nil => exact Nat.le_refl 0
  | cons c cs ih =>
    have hpos := c.utf8Size_pos
    rw [length_bytes_cons, List.length_cons]
    omega

theorem length_bytes_eq_iff {cs : List Char} :
    (bytes cs).length = cs.length ↔ ∀ c ∈ cs, c.val ≤ 127 := by
  induction cs with
  | nil => simp
  | cons c cs ih =>
    have hpos := c.utf8Size_pos
    have hle := length_le_length_bytes cs
    rw [length_bytes_cons, List.length_cons, List.forall_mem_cons, ← Char.utf8Size_eq_one_iff, ← ih]
    omega

end Text

namespace Report

/-! ## Widths -/

variable {α : Type}

def longest? (cell : Finding → List α) (fs : List Finding) : Option Nat :=
  (fs.map fun f => (cell f).length).max?

def widest (cell : Finding → List α) (fs : List Finding) : Nat :=
  (fs.map fun f => (cell f).length).foldl max 0

theorem longest?_eq_some_iff {cell : Finding → List α} {fs : List Finding} {n : Nat} :
    longest? cell fs = some n ↔
      (∃ f ∈ fs, (cell f).length = n) ∧ ∀ f ∈ fs, (cell f).length ≤ n := by
  rw [longest?, List.max?_eq_some_iff, List.mem_map, List.forall_mem_map]

theorem longest?_eq_widest (cell : Finding → List α) {fs : List Finding} (hne : fs ≠ []) :
    longest? cell fs = some (widest cell fs) := by
  cases fs with
  | nil => exact absurd rfl hne
  | cons f fs =>
    rw [longest?, widest, List.map_cons, List.max?_cons', List.foldl_cons, Nat.zero_max]

theorem length_le_widest (cell : Finding → List α) {fs : List Finding} {f : Finding}
    (hf : f ∈ fs) : (cell f).length ≤ widest cell fs :=
  (longest?_eq_some_iff.1 (longest?_eq_widest cell (List.ne_nil_of_mem hf))).2 f hf

def levelBytes (f : Finding) : Bytes := Text.bytes (levelText f)

theorem measure_eq (fs : List Finding) :
    Widths.measure fs =
      ⟨widest (numberText ·.line) fs, widest (numberText ·.column) fs, widest levelBytes fs,
        widest (·.message.toList) fs⟩ := by
  have hfold (w : Widths) : fs.foldl
      (fun w f =>
        ⟨max w.line (numberText f.line).length, max w.column (numberText f.column).length,
          max w.level (Text.bytes (levelText f)).length, max w.message f.message.toList.length⟩) w =
      ⟨(fs.map fun f => (numberText f.line).length).foldl max w.line,
        (fs.map fun f => (numberText f.column).length).foldl max w.column,
        (fs.map fun f => (levelBytes f).length).foldl max w.level,
        (fs.map fun f => f.message.toList.length).foldl max w.message⟩ := by
    induction fs generalizing w with
    | nil => rfl
    | cons f fs ih =>
      rw [List.foldl_cons, ih]
      rfl
  exact hfold _

theorem longest?_level_iff {fs : List Finding} (hne : fs ≠ []) :
    longest? levelText fs = some (widest levelBytes fs) ↔
      ∃ f ∈ fs, (∀ c ∈ levelText f, c.val ≤ 127) ∧
        ∀ g ∈ fs, (levelBytes g).length ≤ (levelText f).length := by
  have hshort {f : Finding} (hf : f ∈ fs) : (levelText f).length ≤ (levelBytes f).length ∧
      (levelBytes f).length ≤ widest levelBytes fs :=
    ⟨Text.length_le_length_bytes _, length_le_widest levelBytes hf⟩
  rw [longest?_eq_some_iff]
  constructor
  · intro h
    obtain ⟨f, hf, heq⟩ := h.1
    have hlong := hshort hf
    have hsame : (levelBytes f).length = (levelText f).length := by omega
    refine ⟨f, hf, Text.length_bytes_eq_iff.1 hsame, fun g hg => ?_⟩
    rw [heq]
    exact (hshort hg).2
  · intro h'
    obtain ⟨f, hf, hascii, hlongest⟩ := h'
    obtain ⟨g, hg, heq⟩ := (longest?_eq_some_iff.1 (longest?_eq_widest levelBytes hne)).1
    have hsame : (levelBytes f).length = (levelText f).length := Text.length_bytes_eq_iff.2 hascii
    have hmost := hlongest g hg
    have hleast := (hshort hf).2
    exact ⟨⟨f, hf, by omega⟩, fun k hk => Nat.le_trans (hshort hk).1 (hshort hk).2⟩

/-! ## Rows and their fields -/

theorem length_padRight {width : Nat} {cs : List Char} (h : cs.length ≤ width) :
    (padRight width cs).length = width := by
  rw [padRight, List.length_append, List.length_replicate]
  omega

theorem length_padLeft {width : Nat} {cs : List Char} (h : cs.length ≤ width) :
    (padLeft width cs).length = width := by
  rw [padLeft, List.length_append, List.length_replicate]
  omega

/-- The fields of a row: its cells, each with the blanks beside it. -/
structure Fields where
  line : List Char
  column : List Char
  level : List Char
  message : List Char
  code : List Char

namespace Fields

def beforeLevel (x : Fields) : List Char := [' ', ' '] ++ x.line ++ [':'] ++ x.column ++ [' ', ' ']

def beforeMessage (x : Fields) : List Char := x.beforeLevel ++ x.level ++ [' ', ' ']

def beforeCode (x : Fields) : List Char := x.beforeMessage ++ x.message ++ [' ', ' ']

def text (x : Fields) : List Char := x.beforeCode ++ x.code ++ ['\n']

/-- The fields hold the cells of a finding and blanks. The number of the line is at the right of its
field, and the other cells are at the left of theirs. -/
structure Hold (x : Fields) (f : Finding) : Prop where
  line : ∃ n, x.line = List.replicate n ' ' ++ numberText f.line
  column : ∃ n, x.column = numberText f.column ++ List.replicate n ' '
  level : ∃ n, x.level = levelText f ++ List.replicate n ' '
  message : ∃ n, x.message = f.message.toList ++ List.replicate n ' '
  code : x.code = (f.code.getD "").toList

structure Aligned (x y : Fields) : Prop where
  level : x.beforeLevel.length = y.beforeLevel.length
  message : x.beforeMessage.length = y.beforeMessage.length
  code : x.beforeCode.length = y.beforeCode.length

theorem aligned_of_length {x y : Fields} (hline : x.line.length = y.line.length)
    (hcolumn : x.column.length = y.column.length) (hlevel : x.level.length = y.level.length)
    (hmessage : x.message.length = y.message.length) : x.Aligned y := by
  refine ⟨?_, ?_, ?_⟩ <;>
    simp only [beforeCode, beforeMessage, beforeLevel, List.length_append, hline, hcolumn, hlevel,
      hmessage]

end Fields

variable {r : Report}

def fields (r : Report) (f : Finding) : Fields :=
  let w := Widths.measure r.findings
  ⟨padLeft w.line (numberText f.line), padRight w.column (numberText f.column),
    padRight w.level (levelText f), padRight w.message f.message.toList, (f.code.getD "").toList⟩

theorem hold_fields (r : Report) (f : Finding) : (r.fields f).Hold f :=
  ⟨⟨_, rfl⟩, ⟨_, rfl⟩, ⟨_, rfl⟩, ⟨_, rfl⟩, rfl⟩

theorem length_fields {f : Finding} (hf : f ∈ r.findings) :
    (r.fields f).line.length = widest (numberText ·.line) r.findings ∧
    (r.fields f).column.length = widest (numberText ·.column) r.findings ∧
    (r.fields f).level.length = widest levelBytes r.findings ∧
    (r.fields f).message.length = widest (·.message.toList) r.findings := by
  rw [fields, measure_eq]
  have hlevel : (levelText f).length ≤ widest levelBytes r.findings :=
    Nat.le_trans (Text.length_le_length_bytes _) (length_le_widest levelBytes hf)
  exact ⟨length_padLeft (length_le_widest (numberText ·.line) hf),
    length_padRight (length_le_widest (numberText ·.column) hf), length_padRight hlevel,
    length_padRight (length_le_widest (·.message.toList) hf)⟩

theorem rowText_eq (hmode : r.mode = .structured) (f : Finding) :
    r.rowText f = (r.fields f).text := by
  simp [rowText, hmode, structuredRow, Span.render, gap, Span.normal, fields, Fields.text,
    Fields.beforeCode, Fields.beforeMessage, Fields.beforeLevel, positionText]

def heads : Option Path → List Finding → List (List Char)
  | _, [] => []
  | current, f :: fs =>
      (if current.any (·.Same f.file) then [] else '\n' :: f.file.display.toList ++ ['\n']) ::
        heads (some f.file) fs

theorem heads_forall₂ (current : Option Path) (fs : List Finding) :
    List.Forall₂ (fun head f => head = [] ∨ head = '\n' :: f.file.display.toList ++ ['\n'])
      (heads current fs) fs := by
  induction fs generalizing current with
  | nil => exact .nil
  | cons f fs ih =>
    apply List.Forall₂.cons _ (ih _)
    split
    · exact .inl rfl
    · exact .inr rfl

theorem render_rows (row : Finding → List Span) (current : Option Path) (fs : List Finding) :
    Span.render false (rows row current fs) =
      (List.zipWith (fun head f => head ++ Span.render false (row f)) (heads current fs) fs).flatten
      := by
  induction fs generalizing current with
  | nil => rfl
  | cons f fs ih =>
    rw [rows, heads, List.zipWith_cons_cons, List.flatten_cons, Span.render_append,
      Span.render_append, ih]
    congr 2
    split
    · rfl
    · exact render_header f.file

/-- The structured text is made of rows, headers of files in front of some, and each row is made of
its fields, which hold its cells and blanks. Level, message and code start at one offset in all rows.
The fields of line, column and message are as long as their longest cells in the report; that of the
level is as long as its longest cell if a level of ASCII alone is as long as any other in bytes. -/
theorem columns_exact_iff (hmode : r.mode = .structured) (hne : r.findings ≠ []) :
    (∃ heads, List.Forall₂
        (fun head f => head = [] ∨ head = '\n' :: f.file.display.toList ++ ['\n'])
        heads r.findings ∧
      (r.text false).toList =
        (List.zipWith (fun head f => head ++ (r.fields f).text) heads r.findings).flatten ++
          r.closing) ∧
    (∀ f ∈ r.findings, (r.fields f).Hold f) ∧
    (∀ f ∈ r.findings, ∀ g ∈ r.findings, (r.fields f).Aligned (r.fields g)) ∧
    (∀ f ∈ r.findings,
      longest? (numberText ·.line) r.findings = some (r.fields f).line.length ∧
      longest? (numberText ·.column) r.findings = some (r.fields f).column.length ∧
      longest? (·.message.toList) r.findings = some (r.fields f).message.length) ∧
    ((∀ f ∈ r.findings, longest? levelText r.findings = some (r.fields f).level.length) ↔
      ∃ f ∈ r.findings, (∀ c ∈ levelText f, c.val ≤ 127) ∧
        ∀ g ∈ r.findings, (levelBytes g).length ≤ (levelText f).length) := by
  refine ⟨⟨heads none r.findings, heads_forall₂ none r.findings, ?_⟩, fun f _ => hold_fields r f,
    fun f hf g hg => ?_, fun f hf => ?_, ?_⟩
  · rw [text_structured false hmode, render_rows, closing, hmode, List.append_assoc]
    simp only [← rowText_eq hmode, rowText, hmode]
    rfl
  · obtain ⟨hline, hcolumn, hlevel, hmessage⟩ := length_fields hf
    obtain ⟨hline', hcolumn', hlevel', hmessage'⟩ := length_fields hg
    exact Fields.aligned_of_length (hline.trans hline'.symm) (hcolumn.trans hcolumn'.symm)
      (hlevel.trans hlevel'.symm) (hmessage.trans hmessage'.symm)
  · obtain ⟨hline, hcolumn, -, hmessage⟩ := length_fields hf
    rw [hline, hcolumn, hmessage]
    exact ⟨longest?_eq_widest _ hne, longest?_eq_widest _ hne, longest?_eq_widest _ hne⟩
  · rw [← longest?_level_iff hne]
    constructor
    · intro h
      obtain ⟨f, hf⟩ := List.exists_mem_of_ne_nil _ hne
      rw [h f hf, (length_fields hf).2.2.1]
    · intro h f hf
      rw [h, (length_fields hf).2.2.1]

def twoRows : Report := ⟨.structured, [
  ⟨.ofString "/a", "tag it", some 3, some 12, some .warning, some "WARN", some "E1"⟩,
  ⟨.ofString "/a", "né", none, none, some .other, some "é", none⟩]⟩

theorem columns_exact_iff_two_rows :
    (twoRows.mode = .structured ∧ twoRows.findings ≠ []) ∧
    twoRows.text false = "\n/a\n  3:12  WARN  tag it  E1\n" ++ "   :    é     né      \n" ++
      "\n✗ 1 problem (0 errors, 1 warning)\n" ∧
    (∀ f ∈ twoRows.findings, ∀ g ∈ twoRows.findings,
      (twoRows.fields f).Aligned (twoRows.fields g)) ∧
    ∀ f ∈ twoRows.findings,
      longest? levelText twoRows.findings = some (twoRows.fields f).level.length := by
  have hne : twoRows.findings ≠ [] := by decide
  obtain ⟨-, -, haligned, -, hlevel⟩ := columns_exact_iff (r := twoRows) rfl hne
  have hascii : ['W', 'A', 'R', 'N'].all (·.val ≤ 127) = true := by decide
  refine ⟨⟨rfl, hne⟩, by decide +kernel, haligned, hlevel.2 ?_⟩
  refine ⟨_, List.mem_cons_self .., fun c hc => ?_, by decide +kernel⟩
  exact of_decide_eq_true (List.all_eq_true.1 hascii c hc)

def wideLevel : Report :=
  ⟨.structured, [⟨.ofString "/a", "m", none, none, some .other, some "é", some "c"⟩]⟩

theorem level_field_too_wide :
    wideLevel.text false = "\n/a\n  :  é   m  c\n\n" ∧
    longest? levelText wideLevel.findings = some 1 ∧
    ¬ ∀ f ∈ wideLevel.findings,
      longest? levelText wideLevel.findings = some (wideLevel.fields f).level.length := by
  -- the only level is one character and two bytes
  decide +kernel

end Report

end Lintel
