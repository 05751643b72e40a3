import Lintel.Json.Value
import Lintel.Proofs.Text.Cutting
import Lintel.Proofs.Text.Encoding

/-!
# Strings and numbers are read back

A reading is described by the bytes in front of it, what it gives and the bytes behind it; where the
cursor stands in the text only matters to faults. Strings are read back character by character,
whatever the escape, and natural numbers of 64 bits digit by digit.
-/
namespace Lintel.Json

variable {α β : Type}

namespace Cursor

@[simp] theorem rest_advance (c : Cursor) : c.advance.rest = c.rest.tail := by
  obtain ⟨rest, p⟩ := c
  cases rest <;> rfl

theorem rest_advance_of_rest {c : Cursor} {b : UInt8} {bs : Bytes} (h : c.rest = b :: bs) :
    c.advance.rest = bs := by
  rw [rest_advance, h, List.tail_cons]

theorem rest_skipBlanksFrom (p : Position) (bs : Bytes) :
    (skipBlanksFrom p bs).rest = bs.dropWhile isBlank := by
  induction bs generalizing p with
  | nil => rfl
  | cons b bs ih =>
    rw [skipBlanksFrom, List.dropWhile_cons]
    split
    · exact ih _
    · rfl

@[simp] theorem rest_skipBlanks (c : Cursor) : c.skipBlanks.rest = c.rest.dropWhile isBlank :=
  rest_skipBlanksFrom _ _

theorem peek_of_rest {c : Cursor} {b : UInt8} {bs : Bytes} (h : c.rest = b :: bs) :
    c.peek = some b := by
  rw [peek, h, List.head?_cons]

end Cursor

/-- From any place in front of `text`, `f` gives `a` and stops in front of `rest`. -/
def Yields (f : Cursor → Except Fault (α × Cursor)) (text : Bytes) (a : α) (rest : Bytes) : Prop :=
  ∀ c, c.rest = text → ∃ d, f c = .ok (a, d) ∧ d.rest = rest

theorem Yields.map {f : Cursor → Except Fault (α × Cursor)} {text rest : Bytes} {a : α}
    (h : Yields f text a rest) (g : α → β) :
    Yields (fun c => (f c).map fun (a, d) => (g a, d)) text (g a) rest := by
  intro c hc
  obtain ⟨d, hd, hrest⟩ := h c hc
  exact ⟨d, by simp [hd, Except.map], hrest⟩

/-! ## Strings -/

theorem stringBytes_of_peek {c : Cursor} {b : UInt8} (h : c.peek = some b) :
    stringBytes c =
      if b = 34 then .ok ([], c.advance)
      else if b = 92 then escape c.advance >>= fun (bs, after) =>
        (stringBytes after).map fun (rest, d) => (bs ++ rest, d)
      else if b < 32 then .error (c.advance.fault .controlCharacter)
      else (stringBytes c.advance).map fun (rest, d) => (b :: rest, d) := by
  rw [stringBytes]
  split
  · rename_i hnone
    rw [h] at hnone
    cases hnone
  · rename_i x hx
    obtain rfl : b = x := by simpa [h] using hx
    split
    · rfl
    · split
      · cases escape c.advance <;> rfl
      · rfl

theorem Yields.stringBytes_quote (rest : Bytes) : Yields stringBytes (34 :: rest) [] rest := by
  intro c hc
  rw [stringBytes_of_peek (Cursor.peek_of_rest hc)]
  exact ⟨c.advance, rfl, by simp [hc]⟩

theorem Yields.stringBytes_cons {b : UInt8} {text bs rest : Bytes} (hquote : b ≠ 34)
    (hback : b ≠ 92) (hcontrol : ¬ b < 32) (h : Yields stringBytes text bs rest) :
    Yields stringBytes (b :: text) (b :: bs) rest := by
  intro c hc
  obtain ⟨d, hd, hrest⟩ := h c.advance (by simp [hc])
  rw [stringBytes_of_peek (Cursor.peek_of_rest hc), if_neg hquote, if_neg hback, if_neg hcontrol]
  exact ⟨d, by simp [hd, Except.map], hrest⟩

theorem Yields.stringBytes_escape {escaped text x bs rest : Bytes}
    (hescape : Yields escape escaped x text) (h : Yields stringBytes text bs rest) :
    Yields stringBytes (92 :: escaped) (x ++ bs) rest := by
  intro c hc
  obtain ⟨d, hd, hdrest⟩ := hescape c.advance (by simp [hc])
  obtain ⟨e, he, herest⟩ := h d hdrest
  rw [stringBytes_of_peek (Cursor.peek_of_rest hc), if_neg (by decide), if_pos rfl]
  exact ⟨e, by simp [hd, he, bind, Except.bind, Except.map], herest⟩

theorem Yields.escape_simple {b x : UInt8} (h : simpleEscape? b = some x) (text : Bytes) :
    Yields escape (b :: text) [x] text := by
  intro c hc
  have hu : b ≠ 117 := by
    rintro rfl
    cases h
  rw [escape, Cursor.peek_of_rest hc]
  simp only [if_neg hu, h]
  exact ⟨c.advance, rfl, by simp [hc]⟩

def hexByte (n : Nat) : UInt8 := UInt8.ofNat (Value.hexDigit n).toNat

theorem hexValue?_hexByte {n : Nat} (h : n < 16) : hexValue? (hexByte n) = some n := by
  have hall : ∀ n : Fin 16, hexValue? (hexByte n) = some n.val := by decide
  exact hall ⟨n, h⟩

theorem Yields.escape_control {n : Nat} (h : n < 32) (text : Bytes) :
    Yields escape (117 :: 48 :: 48 :: hexByte (n / 16) :: hexByte (n % 16) :: text)
      (String.utf8EncodeChar (Char.ofNat n)) text := by
  intro c hc
  have hquad : hexQuad? 48 48 (hexByte (n / 16)) (hexByte (n % 16)) = some n := by
    have hzero : hexValue? 48 = some 0 := rfl
    simp only [hexQuad?, hzero, hexValue?_hexByte (n := n / 16) (by omega),
      hexValue?_hexByte (n := n % 16) (by omega), bind, Option.bind]
    congr 1
    omega
  have htail : isTailSurrogate n = false := by
    simp [isTailSurrogate]
    omega
  have hlead : isLeadSurrogate n = false := by
    simp [isLeadSurrogate]
    omega
  have hrest : c.advance.rest = 48 :: 48 :: hexByte (n / 16) :: hexByte (n % 16) :: text := by
    simp [hc]
  rw [escape, Cursor.peek_of_rest hc]
  simp only [if_true, unicodeEscape, hexEscape, hrest, hquad, htail, hlead, bind, Except.bind]
  exact ⟨_, rfl, rfl⟩

theorem encode_hexDigit {n : Nat} (h : n < 16) :
    String.utf8EncodeChar (Value.hexDigit n) = [hexByte n] := by
  have hall : ∀ n : Fin 16, (Value.hexDigit n).toNat < 128 := by decide
  exact Text.encode_of_lt (hall ⟨n, h⟩)

def IsPlainByte (b : UInt8) : Prop := b ≠ 34 ∧ b ≠ 92 ∧ ¬ b < 32

theorem Yields.stringBytes_append {plain text bs rest : Bytes}
    (hplain : ∀ b ∈ plain, IsPlainByte b) (h : Yields stringBytes text bs rest) :
    Yields stringBytes (plain ++ text) (plain ++ bs) rest := by
  induction plain with
  | nil => exact h
  | cons b plain ih =>
    rw [List.forall_mem_cons] at hplain
    exact .stringBytes_cons hplain.1.1 hplain.1.2.1 hplain.1.2.2 (ih hplain.2)

theorem isPlainByte_of_mem_encode {ch : Char} (hquote : ch ≠ '"') (hback : ch ≠ '\\')
    (hcontrol : ¬ ch.toNat < 32) {b : UInt8} (hb : b ∈ String.utf8EncodeChar ch) :
    IsPlainByte b := by
  by_cases hshort : ch.toNat < 128
  · rw [Text.encode_of_lt hshort, List.mem_singleton] at hb
    have htoNat : b.toNat = ch.toNat := by
      rw [hb, UInt8.toNat_ofNat']
      omega
    refine ⟨fun h => hquote ?_, fun h => hback ?_, fun h => hcontrol ?_⟩
    · exact Char.toNat_inj.1 (by rw [← htoNat, h]; rfl)
    · exact Char.toNat_inj.1 (by rw [← htoNat, h]; rfl)
    · rw [← htoNat]
      exact UInt8.lt_iff_toNat_lt.1 h
  · have hle := Text.le_of_mem_encode (Nat.le_of_not_lt hshort) hb
    refine ⟨fun h => ?_, fun h => ?_, fun h => ?_⟩
    · rw [h] at hle
      exact absurd hle (by decide)
    · rw [h] at hle
      exact absurd hle (by decide)
    · have hlt : b.toNat < 32 := UInt8.lt_iff_toNat_lt.1 h
      omega

theorem Yields.stringBytes_escapeChar (ch : Char) {text bs rest : Bytes}
    (h : Yields stringBytes text bs rest) :
    Yields stringBytes (Text.bytes (Value.escapeChar ch) ++ text)
      (String.utf8EncodeChar ch ++ bs) rest := by
  unfold Value.escapeChar
  split
  · exact .stringBytes_escape (.escape_simple (b := 34) rfl _) h
  · exact .stringBytes_escape (.escape_simple (b := 92) rfl _) h
  · exact .stringBytes_escape (.escape_simple (b := 98) rfl _) h
  · exact .stringBytes_escape (.escape_simple (b := 116) rfl _) h
  · exact .stringBytes_escape (.escape_simple (b := 110) rfl _) h
  · exact .stringBytes_escape (.escape_simple (b := 102) rfl _) h
  · exact .stringBytes_escape (.escape_simple (b := 114) rfl _) h
  · rename_i hquote hback _ _ _ _ _
    split
    · rename_i hcontrol
      have hread := Yields.stringBytes_escape (.escape_control hcontrol text) h
      rw [Char.ofNat_toNat] at hread
      have hbytes : Text.bytes ['\\', 'u', '0', '0', Value.hexDigit (ch.toNat / 16),
          Value.hexDigit (ch.toNat % 16)] =
          [92, 117, 48, 48, hexByte (ch.toNat / 16), hexByte (ch.toNat % 16)] := by
        simp only [Text.bytes_cons, Text.bytes_nil, encode_hexDigit (n := ch.toNat / 16) (by omega),
          encode_hexDigit (n := ch.toNat % 16) (by omega)]
        rfl
      rw [hbytes]
      exact hread
    · rename_i hcontrol
      rw [Text.bytes_cons, Text.bytes_nil, List.append_nil]
      exact h.stringBytes_append fun b hb => isPlainByte_of_mem_encode hquote hback hcontrol hb

theorem Yields.stringBytes_text (cs : List Char) (rest : Bytes) :
    Yields stringBytes (Text.bytes (cs.flatMap Value.escapeChar) ++ 34 :: rest) (Text.bytes cs)
      rest := by
  induction cs with
  | nil => exact .stringBytes_quote rest
  | cons ch cs ih =>
    rw [List.flatMap_cons, Text.bytes_append, Text.bytes_cons, List.append_assoc]
    exact ih.stringBytes_escapeChar ch

theorem Yields.string_text (s : String) (rest : Bytes) :
    Yields string (Text.bytes (s.toList.flatMap Value.escapeChar) ++ 34 :: rest) s rest := by
  have hself : displayText (Text.bytes s.toList) = s := by
    rw [displayText, Text.lossy_bytes, String.ofList_toList]
  have hread := (Yields.stringBytes_text s.toList rest).map displayText
  rw [hself] at hread
  exact hread

theorem bytes_writeText (s : String) :
    Text.bytes (Value.writeText s) =
      34 :: (Text.bytes (s.toList.flatMap Value.escapeChar) ++ [34]) := by
  simp [Value.writeText]
  rfl

/-! ## Numbers -/

def continuesNumber (b : UInt8) : Bool :=
  Cursor.isDigit b || b == 46 || Number.isExponentMark b

def digitBytes (n : Nat) : Bytes := Text.bytes (Nat.toDigits 10 n)

theorem digitBytes_of_lt {n : Nat} (h : n < 10) : digitBytes n = [UInt8.ofNat (n + 48)] := by
  have hall : ∀ n : Fin 10, String.utf8EncodeChar (Nat.digitChar n) = [UInt8.ofNat (n + 48)] := by
    decide
  rw [digitBytes, Nat.toDigits_of_lt_base h, Text.bytes_cons, Text.bytes_nil, List.append_nil]
  exact hall ⟨n, h⟩

theorem digitBytes_of_le {n : Nat} (h : 10 ≤ n) :
    digitBytes n = digitBytes (n / 10) ++ digitBytes (n % 10) := by
  rw [digitBytes, Nat.toDigits_of_base_le (by decide) h, Text.bytes_append, digitBytes, digitBytes,
    Nat.toDigits_of_lt_base (Nat.mod_lt n (by decide))]

theorem isDigit_of_mem_digitBytes {n : Nat} {b : UInt8} (hb : b ∈ digitBytes n) :
    Cursor.isDigit b = true := by
  induction n using Nat.strongRecOn generalizing b with
  | ind n ih =>
    by_cases h : n < 10
    · have hall : ∀ n : Fin 10, Cursor.isDigit (UInt8.ofNat (n + 48)) = true := by decide
      rw [digitBytes_of_lt h, List.mem_singleton] at hb
      rw [hb]
      exact hall ⟨n, h⟩
    · rw [digitBytes_of_le (Nat.le_of_not_lt h), List.mem_append] at hb
      rcases hb with hb | hb
      · exact ih (n / 10) (by omega) hb
      · exact ih (n % 10) (by omega) hb

theorem head?_digitBytes {n : Nat} (hn : n ≠ 0) :
    ∃ b bs, digitBytes n = b :: bs ∧ b ≠ 48 := by
  induction n using Nat.strongRecOn with
  | ind n ih =>
    by_cases h : n < 10
    · have hall : ∀ n : Fin 10, n.val ≠ 0 → UInt8.ofNat (n + 48) ≠ 48 := by decide
      exact ⟨_, [], digitBytes_of_lt h, hall ⟨n, h⟩ hn⟩
    · obtain ⟨b, bs, hbytes, hb⟩ := ih (n / 10) (by omega) (by omega)
      exact ⟨b, bs ++ digitBytes (n % 10), by
        rw [digitBytes_of_le (Nat.le_of_not_lt h), hbytes, List.cons_append], hb⟩

def digitsValue (start : Nat) (ds : Bytes) : Nat :=
  ds.foldl (fun n d => n * 10 + (d.toNat - 48)) start

theorem le_digitsValue (start : Nat) (ds : Bytes) : start ≤ digitsValue start ds := by
  induction ds generalizing start with
  | nil => exact Nat.le_refl _
  | cons d ds ih =>
    have hstep : start ≤ start * 10 + (d.toNat - 48) := by omega
    exact Nat.le_trans hstep (ih _)

theorem accumulate_of_le {limit start : Nat} {ds : Bytes} (h : digitsValue start ds ≤ limit) :
    Number.accumulate limit start ds = (digitsValue start ds, []) := by
  induction ds generalizing start with
  | nil => rfl
  | cons d ds ih =>
    have hstep : start * 10 + (d.toNat - 48) ≤ limit := Nat.le_trans (le_digitsValue _ ds) h
    rw [Number.accumulate, if_neg (Nat.not_lt.2 hstep)]
    exact ih h

theorem digitsValue_digitBytes (n : Nat) : digitsValue 0 (digitBytes n) = n := by
  induction n using Nat.strongRecOn with
  | ind n ih =>
    have hdigit : ∀ start k, k < 10 → digitsValue start (digitBytes k) = start * 10 + k := by
      intro start k hk
      have htoNat : (UInt8.ofNat (k + 48)).toNat = k + 48 := by
        rw [UInt8.toNat_ofNat']
        omega
      rw [digitBytes_of_lt hk, digitsValue, List.foldl_cons, List.foldl_nil, htoNat]
      omega
    by_cases h : n < 10
    · rw [hdigit 0 n h]
      omega
    · have hfront := ih (n / 10) (by omega)
      rw [digitsValue] at hfront
      rw [digitBytes_of_le (Nat.le_of_not_lt h), digitsValue, List.foldl_append, hfront]
      have hlast := hdigit (n / 10) (n % 10) (by omega)
      rw [digitsValue] at hlast
      rw [hlast]
      omega

theorem peek_any_of_stops {p : UInt8 → Bool} {c : Cursor} (h : Text.Stops p c.rest) :
    c.peek.any p = false := by
  rw [Cursor.peek]
  cases hhead : c.rest.head? with
  | none => rfl
  | some b => exact h b hhead

theorem Yields.readTail {n : Nat} {rest : Bytes} (hrest : Text.Stops continuesNumber rest) :
    Yields (Number.readTail false n) rest (.natural n) rest := by
  intro c hc
  have hpoint : c.peek ≠ some 46 := by
    intro hpeek
    rw [Cursor.peek, hc] at hpeek
    exact absurd (hrest 46 hpeek) (by decide)
  have hexponent : c.peek.any Number.isExponentMark = false := by
    refine peek_any_of_stops fun b hb => ?_
    rw [hc] at hb
    have hstop := hrest b hb
    simp only [continuesNumber, Bool.or_eq_false_iff] at hstop
    exact hstop.2
  rw [Number.readTail, if_neg hpoint, hexponent]
  exact ⟨c, rfl, hc⟩

theorem Yields.read_natural {n : Nat} (hn : n ≤ Number.wordLimit) {rest : Bytes}
    (hrest : Text.Stops continuesNumber rest) :
    Yields (Number.read false) (digitBytes n ++ rest) (.natural n) rest := by
  intro c hc
  have hdigits : Text.Stops Cursor.isDigit rest := by
    intro b hb
    have hstop := hrest b hb
    simp only [continuesNumber, Bool.or_eq_false_iff] at hstop
    exact hstop.1.1
  by_cases hzero : n = 0
  · subst hzero
    have hpeek : c.rest = 48 :: rest := hc
    have hadvance : c.advance.rest = rest := by rw [Cursor.rest_advance, hpeek, List.tail_cons]
    have hnext : c.advance.peek.any Cursor.isDigit = false :=
      peek_any_of_stops (by rw [hadvance]; exact hdigits)
    rw [Number.read, Cursor.peek_of_rest hpeek]
    simp only [if_true, hnext]
    exact Yields.readTail hrest c.advance hadvance
  · obtain ⟨b, bs, hbytes, hb⟩ := head?_digitBytes hzero
    have hall : ∀ d ∈ digitBytes n, Cursor.isDigit d = true := fun d hd =>
      isDigit_of_mem_digitBytes hd
    have hpeek : c.rest = b :: (bs ++ rest) := by rw [hc, hbytes, List.cons_append]
    have hrun : c.rest.takeWhile Cursor.isDigit = digitBytes n := by
      rw [hc, Text.takeWhile_append_stop hall hdigits]
    have hafter : c.digits.2.rest = rest := by
      rw [Cursor.digits]
      exact (congrArg (List.dropWhile Cursor.isDigit) hc).trans
        (Text.dropWhile_append_stop hall hdigits)
    have hvalue : Number.accumulate Number.wordLimit 0 c.digits.1 = (n, []) := by
      have hself := digitsValue_digitBytes n
      rw [Cursor.digits, hrun, accumulate_of_le (by rw [hself]; exact hn), hself]
    have hdigit : Cursor.isDigit b = true := hall b (by rw [hbytes]; exact List.mem_cons_self ..)
    rw [Number.read, Cursor.peek_of_rest hpeek]
    simp only [if_neg hb, hdigit, if_true, hvalue]
    exact Yields.readTail hrest c.digits.2 hafter

end Lintel.Json
