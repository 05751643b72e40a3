import Mathlib.Data.List.TakeWhile
import Lintel.Proofs.Json.Reading
import Lintel.Proofs.Linter.Running
import Lintel.Proofs.Text.Decoding

/-!
# Blank output

Plain output has no finding exactly if it is made of white space, whatever mix of it. Structured
output is first asked for bytes that are not one of five, and read as JSON if it has one. No
character of white space beyond these begins a value, so output with such a character is refused
where plain output would have been passed over.
-/
namespace Lintel

namespace Text

def asciiBlanks : List Char := [' ', '\t', '\n', '\x0c', '\r']

theorem blank_iff_all {cs : List Char} : Blank cs ↔ cs.all isBlank = true := List.all_eq_true.symm

theorem blank_asciiBlanks : Blank asciiBlanks := blank_iff_all.2 (by decide)

theorem isBlankByte_of_le {b : UInt8} (h : 128 ≤ b.toNat) : isBlankByte b = false := by
  have hall : ∀ n : Fin 256, 128 ≤ n.val → isBlankByte (UInt8.ofNat n) = false := by decide +kernel
  simpa using hall ⟨b.toNat, b.toNat_lt⟩ h

theorem all_isBlankByte_encode (c : Char) :
    (∀ b ∈ String.utf8EncodeChar c, isBlankByte b = true) ↔ c ∈ asciiBlanks := by
  by_cases hc : c.toNat < 128
  · have hall : ∀ n : Fin 128,
        isBlankByte (UInt8.ofNat n) = true ↔ Char.ofNat n ∈ asciiBlanks := by
      decide +kernel
    rw [encode_of_lt hc, List.forall_mem_singleton]
    simpa using hall ⟨c.toNat, hc⟩
  · have hlong : 128 ≤ c.toNat := Nat.le_of_not_lt hc
    constructor
    · intro h
      obtain ⟨b, hb⟩ := List.exists_mem_of_ne_nil _ (String.utf8EncodeChar_ne_nil (c := c))
      have hblank := h b hb
      rw [isBlankByte_of_le (le_of_mem_encode hlong hb)] at hblank
      cases hblank
    · intro h
      have hshort : asciiBlanks.all (·.toNat < 128) = true := by decide
      exact absurd (by simpa using List.all_eq_true.1 hshort c h) hc

theorem all_isBlankByte_bytes {cs : List Char} :
    (bytes cs).all isBlankByte = true ↔ ∀ c ∈ cs, c ∈ asciiBlanks := by
  simp only [bytes, List.all_eq_true, List.mem_flatMap, forall_exists_index, and_imp,
    ← all_isBlankByte_encode]
  exact ⟨fun h c hc b hb => h b c hc hb, fun h b c hc hb => h c hc b hb⟩

theorem trim_eq_nil_iff {cs : List Char} : trim cs = [] ↔ Blank cs := by
  rw [trim, trimBoth, dropEnd, List.reverse_eq_nil_iff, List.dropWhile_eq_nil_iff]
  constructor
  · intro h c hc
    rw [← List.takeWhile_append_dropWhile (p := isBlank) (l := cs)] at hc
    rcases List.mem_append.1 hc with hfront | hrest
    · exact List.mem_takeWhile_imp hfront
    · exact h c (List.mem_reverse.2 hrest)
  · intro h c hc
    exact h c ((List.dropWhile_suffix isBlank).mem (List.mem_reverse.1 hc))

end Text

namespace Linter

theorem isBlank_of_isLineEnd {c : Char} (h : isLineEnd c = true) : Text.isBlank c = true := by
  have hend : c = '\r' ∨ c = '\n' := by simpa [isLineEnd] using h
  rcases hend with rfl | rfl <;> rfl

theorem plainFindings_eq_nil_iff {cs : List Char} {file : Path} :
    plainFindings (String.ofList cs) file = [] ↔ Text.Blank cs := by
  rw [plainFindings, List.map_eq_nil_iff, List.filter_eq_nil_iff, String.toList_ofList]
  simp only [Bool.not_eq_true', Bool.not_eq_false, List.isEmpty_iff, Text.trim_eq_nil_iff]
  constructor
  · intro h c hc
    cases hend : isLineEnd c with
    | true => exact isBlank_of_isLineEnd hend
    | false =>
      obtain ⟨line, hline, hin⟩ := Text.exists_piece_of_mem hc hend
      exact h line hline c hin
  · intro h line hline c hc
    exact h c (Text.mem_of_mem_pieces hline hc)

end Linter

namespace Json

variable {α : Type} {cs : List Char} {b : UInt8}

theorem opensValue_of_blank (h : Text.Blank cs) (hb : b ∈ Text.bytes cs) :
    opensValue b = false ∧ b ≠ 45 := by
  obtain ⟨c, hc, hb⟩ := List.mem_flatMap.1 hb
  by_cases hshort : c.toNat < 128
  · have hall : ∀ n : Fin 128, Text.isBlank (Char.ofNat n) = true →
        opensValue (UInt8.ofNat n) = false ∧ UInt8.ofNat n ≠ 45 := by
      decide +kernel
    rw [Text.encode_of_lt hshort, List.mem_singleton] at hb
    rw [hb]
    exact hall ⟨c.toNat, hshort⟩ (by simpa using h c hc)
  · have hall : ∀ n : Fin 256, 128 ≤ n.val →
        opensValue (UInt8.ofNat n) = false ∧ UInt8.ofNat n ≠ 45 := by
      decide +kernel
    have hlong := Text.le_of_mem_encode (Nat.le_of_not_lt hshort) hb
    simpa using hall ⟨b.toNat, b.toNat_lt⟩ hlong

theorem wrongKind_of_no_value {c : Cursor} (hpeek : c.peek = some b) (hb : opensValue b = false)
    (hminus : b ≠ 45) (expected : String) :
    wrongKind expected c = c.faultAhead .expectedValue := by
  simp only [opensValue, quoteByte, listOpen, objectOpen, Bool.or_eq_false_iff, beq_eq_false_iff_ne]
    at hb
  rw [wrongKind, hpeek]
  dsimp only
  split <;> simp_all

theorem list_of_no_value (r : Reader α) (depth : Nat) {c : Cursor}
    (hpeek : c.skipBlanks.peek = some b) (hb : opensValue b = false) (hminus : b ≠ 45) :
    Reader.list r depth c = .error (c.skipBlanks.faultAhead .expectedValue) := by
  have hopen : b ≠ listOpen := by
    rintro rfl
    cases hb
  rw [Reader.list, inSight]
  simp only [hpeek, bind, Except.bind, if_neg hopen, wrongKind_of_no_value hpeek hb hminus]

theorem isBlankByte_of_isBlank (h : Cursor.isBlank b = true) : Text.isBlankByte b = true := by
  simp only [Cursor.isBlank, Bool.or_eq_true, beq_iff_eq] at h
  rcases h with ((rfl | rfl) | rfl) | rfl <;> rfl

theorem decode_list_of_blank (r : Reader α) (h : Text.Blank cs)
    (hloud : ¬ (Text.bytes cs).all Text.isBlankByte = true) :
    decode (Reader.list r) (String.ofList cs) =
      .error ((Cursor.start (Text.bytes cs)).skipBlanks.faultAhead .expectedValue) := by
  have hrest := Cursor.rest_skipBlanks (Cursor.start (Text.bytes cs))
  cases hleft : (Text.bytes cs).dropWhile Cursor.isBlank with
  | nil =>
    refine absurd (List.all_eq_true.2 fun b hb => isBlankByte_of_isBlank ?_) hloud
    exact List.dropWhile_eq_nil_iff.1 hleft b hb
  | cons b bs =>
    have hmem : b ∈ Text.bytes cs :=
      (List.dropWhile_suffix Cursor.isBlank).mem (hleft ▸ List.mem_cons_self ..)
    obtain ⟨hb, hminus⟩ := opensValue_of_blank h hmem
    have hpeek := Cursor.peek_of_rest (hrest.trans hleft)
    rw [decode, bytesOf, String.toList_ofList, list_of_no_value r _ hpeek hb hminus]
    rfl

end Json

namespace Installed

variable {l : Installed} {sh : Shell} {leading : List Bytes} {before : List Call} {file : Path}
  {o : Output} {cs : List Char}

theorem readOutput_plainText_eq_nil_iff (hout : o.out = Text.bytes cs) :
    l.readOutput .plainText file o = .ok [] ↔ Text.Blank cs := by
  rw [readOutput, hout]
  split
  · rename_i hblank
    have hall := Text.all_isBlankByte_bytes.1 hblank
    exact iff_of_true rfl fun c hc => Text.blank_asciiBlanks c (hall c hc)
  · rw [Except.ok.injEq, displayText, Text.lossy_bytes, Linter.plainFindings_eq_nil_iff]

theorem readOutput_structured_of_blank (hout : o.out = Text.bytes cs) (h : Text.Blank cs) :
    l.readOutput .structured file o =
      if (Text.bytes cs).all Text.isBlankByte then .ok []
      else .error (.badOutput l.name file (.notRecords
        ((Json.Cursor.start o.out).skipBlanks.faultAhead .expectedValue))) := by
  rw [readOutput, hout]
  split
  · rfl
  · rename_i hloud
    have hdecode := Json.decode_list_of_blank Linter.Record.shape.reader h hloud
    simp only [Text.strict_eq_ok_iff.2 rfl, Linter.structuredFindings, hdecode, bind, Except.bind]

/-- Blank output and the two modes: plain output holds no finding if it is blank and in no other
case, whatever white space it has. Blank structured output holds none either if it has no white
space but the five characters, and is refused if it has any other. -/
theorem lintFile_blank (hanswer : sh.answer before (l.lintCall leading file) = .ok o)
    (hout : o.out = Text.bytes cs) :
    let found := fun mode => ((l.lintFile sh mode leading file).startAfter before).1
    (found .plainText = .ok [] ↔ Text.Blank cs) ∧
    (Text.Blank cs → (∀ c ∈ cs, c ∈ Text.asciiBlanks) → found .structured = .ok []) ∧
    (Text.Blank cs → ∀ c ∈ cs, c ∉ Text.asciiBlanks →
      found .structured = .error (.badOutput l.name file (.notRecords
        ((Json.Cursor.start o.out).skipBlanks.faultAhead .expectedValue)))) := by
  intro found
  have hfound (mode : OutputMode) : found mode = l.readOutput mode file o := by
    simp only [found, lintFile_startAfter, outcome, hanswer]
  rw [hfound, hfound]
  refine ⟨readOutput_plainText_eq_nil_iff hout, fun h hall => ?_, fun h c hc hother => ?_⟩
  · rw [readOutput_structured_of_blank hout h, if_pos (Text.all_isBlankByte_bytes.2 hall)]
  · rw [readOutput_structured_of_blank hout h,
      if_neg fun hall => hother (Text.all_isBlankByte_bytes.1 hall c hc)]

def capable : Installed :=
  ⟨"hadolint", .withStructured "--version" "--format json" ">=1.5.0", .ofString "/hadolint",
    ⟨2, 12, 0, []⟩⟩

def printing (text : String) : Shell := .scripted [] [⟨some 0, bytesOf text, []⟩]

theorem lintFile_blank_printed :
    let file := Path.ofString "/a"
    let found := fun text mode =>
      ((capable.lintFile (printing text) mode [] file).startAfter []).1
    found "\t\n\x0c\r " .plainText = .ok [] ∧ found "\t\n\x0c\r " .structured = .ok [] ∧
    found "\n\u00a0\x0b" .plainText = .ok [] ∧
    found "\n\u00a0\x0b" .structured =
      .error (.badOutput "hadolint" file (.notRecords ⟨.expectedValue, ⟨2, 1⟩⟩)) ∧
    found "\n a" .plainText ≠ .ok [] := by
  intro file found
  have hanswer (text : String) : (printing text).answer [] (capable.lintCall [] file) =
      .ok ⟨some 0, bytesOf text, []⟩ := rfl
  have hbytes (text : String) : (Output.mk (some 0) (bytesOf text) []).out =
      Text.bytes text.toList := rfl
  obtain ⟨hplain, hpassed, -⟩ := lintFile_blank (hanswer "\t\n\x0c\r ") (hbytes _)
  obtain ⟨hplain', -, hrefused⟩ := lintFile_blank (hanswer "\n\u00a0\x0b") (hbytes _)
  obtain ⟨hloud, -⟩ := lintFile_blank (hanswer "\n a") (hbytes _)
  have hfive : "\t\n\x0c\r ".toList.all (· ∈ Text.asciiBlanks) = true := by decide +kernel
  have hall : ∀ c ∈ "\t\n\x0c\r ".toList, c ∈ Text.asciiBlanks := by
    simpa using List.all_eq_true.1 hfive
  have hblank : Text.Blank "\t\n\x0c\r ".toList := fun c hc => Text.blank_asciiBlanks c (hall c hc)
  have hblank' : Text.Blank "\n\u00a0\x0b".toList := Text.blank_iff_all.2 (by decide +kernel)
  have hother : '\x0b' ∈ "\n\u00a0\x0b".toList ∧ '\x0b' ∉ Text.asciiBlanks := by decide +kernel
  have hletter : "\n a".toList.all Text.isBlank = false := by decide +kernel
  refine ⟨hplain.2 hblank, hpassed hblank hall, hplain'.2 hblank',
    hrefused hblank' _ hother.1 hother.2, fun h => ?_⟩
  rw [Text.blank_iff_all.1 (hloud.1 h)] at hletter
  cases hletter

theorem structured_refuses_blank :
    let file := Path.ofString "/a"
    let found := fun mode =>
      ((capable.lintFile (printing "\x0b\n") mode [] file).startAfter []).1
    Text.Blank "\x0b\n".toList ∧ found .plainText = .ok [] ∧ found .structured ≠ .ok [] := by
  intro file found
  exact ⟨Text.blank_iff_all.2 (by decide +kernel), by decide +kernel, by decide +kernel⟩

end Installed

end Lintel
