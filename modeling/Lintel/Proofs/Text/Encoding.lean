import Lintel.Text.Utf8

/-!
# Reading what was written as UTF-8

Each character is found again in its bytes, so the bytes of a text read back as that text, strictly
and lossily, and two texts with the same bytes are equal. A byte below 128 is a character of its
own and occurs in no longer one.
-/
namespace Lintel.Text

/-! ## Single bytes -/

theorem Lead.of_one {n : Nat} (h : n < 128) :
    Lead.of (UInt8.ofNat n) = .whole (Char.ofNat n) := by
  have hall : ∀ n : Fin 128, Lead.of (UInt8.ofNat n) = .whole (Char.ofNat n) := by decide +kernel
  exact hall ⟨n, h⟩

theorem Lead.of_two {n : Nat} (h : 2 ≤ n) (h' : n < 32) :
    Lead.of (UInt8.ofNat (n + 192)) = .opens ⟨1, 0x80, 0xBF, n, 1⟩ := by
  have hall : ∀ n : Fin 32, 2 ≤ n.val →
      Lead.of (UInt8.ofNat (n + 192)) = .opens ⟨1, 0x80, 0xBF, n, 1⟩ := by
    decide
  exact hall ⟨n, h'⟩ h

theorem Lead.of_three {n : Nat} (h : n < 16) :
    Lead.of (UInt8.ofNat (n + 224)) =
      .opens ⟨2, if n = 0 then 0xA0 else 0x80, if n = 13 then 0x9F else 0xBF, n, 1⟩ := by
  have hall : ∀ n : Fin 16, Lead.of (UInt8.ofNat (n + 224)) =
      .opens ⟨2, if n.val = 0 then 0xA0 else 0x80, if n.val = 13 then 0x9F else 0xBF, n, 1⟩ := by
    decide
  exact hall ⟨n, h⟩

theorem Lead.of_four {n : Nat} (h : n < 5) :
    Lead.of (UInt8.ofNat (n + 240)) =
      .opens ⟨3, if n = 0 then 0x90 else 0x80, if n = 4 then 0x8F else 0xBF, n, 1⟩ := by
  have hall : ∀ n : Fin 5, Lead.of (UInt8.ofNat (n + 240)) =
      .opens ⟨3, if n.val = 0 then 0x90 else 0x80, if n.val = 4 then 0x8F else 0xBF, n, 1⟩ := by
    decide
  exact hall ⟨n, h⟩

theorem toNat_tail {n : Nat} (h : n < 64) : (UInt8.ofNat (n + 128)).toNat = n + 128 := by
  rw [UInt8.toNat_ofNat']
  omega

theorem Partial.accepts_tail {p : Partial} {n : Nat} (h : n < 64) (hlow : p.low.toNat ≤ n + 128)
    (hhigh : n + 128 ≤ p.high.toNat) : p.accepts (UInt8.ofNat (n + 128)) = true := by
  simp only [Partial.accepts, Bool.and_eq_true, decide_eq_true_eq, UInt8.le_iff_toNat_le,
    toNat_tail h]
  exact ⟨hlow, hhigh⟩

theorem Partial.push_tail (p : Partial) {n : Nat} (h : n < 64) :
    p.push (UInt8.ofNat (n + 128)) = ⟨p.owed - 1, 0x80, 0xBF, p.bits * 64 + n, p.taken + 1⟩ := by
  rw [Partial.push, toNat_tail h]
  congr 2
  omega

/-! ## Steps of the reading -/

variable {rest : Bytes}

theorem segmentsFrom_whole {b : UInt8} {c : Char} (h : Lead.of b = .whole c) :
    segmentsFrom none (b :: rest) = .char c :: segmentsFrom none rest := by
  simp [segmentsFrom, h]

theorem segmentsFrom_opens {b : UInt8} {p : Partial} (h : Lead.of b = .opens p) :
    segmentsFrom none (b :: rest) = segmentsFrom (some p) rest := by
  simp [segmentsFrom, h]

theorem segmentsFrom_tail {p : Partial} {n : Nat} (h : n < 64) (hlow : p.low.toNat ≤ n + 128)
    (hhigh : n + 128 ≤ p.high.toNat) :
    segmentsFrom (some p) (UInt8.ofNat (n + 128) :: rest) =
      if p.owed ≤ 1 then .char (Char.ofNat (p.bits * 64 + n)) :: segmentsFrom none rest
      else segmentsFrom (some ⟨p.owed - 1, 0x80, 0xBF, p.bits * 64 + n, p.taken + 1⟩) rest := by
  rw [segmentsFrom, if_pos (Partial.accepts_tail h hlow hhigh), p.push_tail h]

theorem segmentsFrom_encode (c : Char) (rest : Bytes) :
    segmentsFrom none (String.utf8EncodeChar c ++ rest) = .char c :: segmentsFrom none rest := by
  have hvalid : c.toNat < 0xD800 ∨ 0xDFFF < c.toNat ∧ c.toNat < 0x110000 := c.valid
  have hself : Char.ofNat c.toNat = c := Char.ofNat_toNat c
  have hv : c.val.toNat = c.toNat := rfl
  unfold String.utf8EncodeChar
  simp only [hv]
  generalize c.toNat = v at *
  split
  · rw [List.singleton_append, segmentsFrom_whole (Lead.of_one (by omega)), hself]
  · split
    · have hlead : v / 64 % 32 = v / 64 := by omega
      rw [hlead, List.cons_append, List.cons_append,
        segmentsFrom_opens (Lead.of_two (by omega) (by omega)),
        segmentsFrom_tail (by omega) (by simp) (by simp; omega), if_pos (by simp)]
      have hbits : v / 64 * 64 + v % 64 = v := by omega
      simp only [hbits, hself, List.nil_append]
    · split
      · have hlead : v / 4096 % 16 = v / 4096 := by omega
        rw [hlead, List.cons_append, List.cons_append, List.cons_append,
          segmentsFrom_opens (Lead.of_three (by omega)),
          segmentsFrom_tail (by omega) ?_ ?_, if_neg (by simp),
          segmentsFrom_tail (by omega) (by simp) (by simp; omega), if_pos (by simp)]
        · have hbits : (v / 4096 * 64 + v / 64 % 64) * 64 + v % 64 = v := by omega
          simp only [hbits, hself, List.nil_append]
        · simp only; split <;> simp; omega
        · simp only; split <;> simp <;> omega
      · have hlead : v / 262144 % 8 = v / 262144 := by omega
        rw [hlead, List.cons_append, List.cons_append, List.cons_append, List.cons_append,
          segmentsFrom_opens (Lead.of_four (by omega)),
          segmentsFrom_tail (by omega) ?_ ?_, if_neg (by simp),
          segmentsFrom_tail (by omega) (by simp) (by simp; omega), if_neg (by simp),
          segmentsFrom_tail (by omega) (by simp) (by simp; omega), if_pos (by simp)]
        · have hbits :
              ((v / 262144 * 64 + v / 4096 % 64) * 64 + v / 64 % 64) * 64 + v % 64 = v := by
            omega
          simp only [hbits, hself, List.nil_append]
        · simp only; split <;> simp; omega
        · simp only; split <;> simp <;> omega

/-! ## Whole texts -/

@[simp] theorem bytes_cons (c : Char) (cs : List Char) :
    bytes (c :: cs) = String.utf8EncodeChar c ++ bytes cs := by
  simp [bytes]

theorem segments_bytes (cs : List Char) : segments (bytes cs) = cs.map .char := by
  induction cs with
  | nil => rfl
  | cons c cs ih => rw [bytes_cons, segments, segmentsFrom_encode, List.map_cons, ← ih, segments]

theorem lossy_bytes (cs : List Char) : lossy (bytes cs) = cs := by
  have hself : Segment.lossy ∘ Segment.char = id := rfl
  rw [lossy, segments_bytes, List.map_map, hself, List.map_id]

theorem strictFrom_chars (index : Nat) (cs : List Char) :
    strictFrom index (cs.map .char) = .ok cs := by
  induction cs generalizing index with
  | nil => rfl
  | cons c cs ih => rw [List.map_cons, strictFrom, ih]; rfl

theorem decode?_bytes (cs : List Char) : decode? (bytes cs) = some cs := by
  rw [decode?, strict, segments_bytes, strictFrom_chars]
  rfl

theorem bytes_injective {cs ds : List Char} (h : bytes cs = bytes ds) : cs = ds := by
  rw [← lossy_bytes cs, h, lossy_bytes]

/-! ## Characters of one byte -/

theorem encode_of_lt {c : Char} (h : c.toNat < 128) :
    String.utf8EncodeChar c = [UInt8.ofNat c.toNat] := by
  have hv : c.val.toNat ≤ 127 := Nat.le_of_lt_succ h
  simp only [String.utf8EncodeChar, if_pos hv]
  rfl

theorem le_of_mem_encode {c : Char} (h : 128 ≤ c.toNat) {b : UInt8}
    (hb : b ∈ String.utf8EncodeChar c) : 128 ≤ b.toNat := by
  have hvalid : c.toNat < 0x110000 := by
    have h' : c.toNat < 0xD800 ∨ 0xDFFF < c.toNat ∧ c.toNat < 0x110000 := c.valid
    omega
  have hv : c.val.toNat = c.toNat := rfl
  unfold String.utf8EncodeChar at hb
  simp only [hv] at hb
  generalize c.toNat = v at *
  split at hb
  · omega
  · split at hb
    · simp only [List.mem_cons, List.not_mem_nil, or_false] at hb
      rcases hb with rfl | rfl <;> rw [UInt8.toNat_ofNat'] <;> omega
    · split at hb
      · simp only [List.mem_cons, List.not_mem_nil, or_false] at hb
        rcases hb with rfl | rfl | rfl <;> rw [UInt8.toNat_ofNat'] <;> omega
      · simp only [List.mem_cons, List.not_mem_nil, or_false] at hb
        rcases hb with rfl | rfl | rfl | rfl <;> rw [UInt8.toNat_ofNat'] <;> omega

theorem count_encode {d : Char} (hd : d.toNat < 128) (c : Char) :
    (String.utf8EncodeChar c).count (UInt8.ofNat d.toNat) = if c = d then 1 else 0 := by
  have hbyte : (UInt8.ofNat d.toNat).toNat = d.toNat := by
    rw [UInt8.toNat_ofNat']
    omega
  by_cases hc : c.toNat < 128
  · rw [encode_of_lt hc, List.count_singleton]
    by_cases hcd : c = d
    · simp [hcd]
    · have hne : UInt8.ofNat c.toNat ≠ UInt8.ofNat d.toNat := by
        intro h
        have hnat := congrArg UInt8.toNat h
        rw [hbyte, UInt8.toNat_ofNat', Nat.mod_eq_of_lt (by omega)] at hnat
        exact hcd (Char.toNat_inj.1 hnat)
      simp [hcd, hne]
  · have hcd : c ≠ d := by
      rintro rfl
      exact hc hd
    rw [if_neg hcd, List.count_eq_zero]
    intro hmem
    have hle := le_of_mem_encode (Nat.le_of_not_lt hc) hmem
    omega

theorem mem_encode_iff {d : Char} (hd : d.toNat < 128) {c : Char} :
    UInt8.ofNat d.toNat ∈ String.utf8EncodeChar c ↔ c = d := by
  rw [← List.count_pos_iff, count_encode hd]
  split <;> simp [*]

theorem count_bytes {d : Char} (hd : d.toNat < 128) (cs : List Char) :
    (bytes cs).count (UInt8.ofNat d.toNat) = cs.count d := by
  induction cs with
  | nil => rfl
  | cons c cs ih =>
    rw [bytes_cons, List.count_append, count_encode hd, ih, List.count_cons, Nat.add_comm]
    simp only [beq_iff_eq]

theorem mem_bytes_iff {d : Char} (hd : d.toNat < 128) {cs : List Char} :
    UInt8.ofNat d.toNat ∈ bytes cs ↔ d ∈ cs := by
  rw [← List.count_pos_iff, ← List.count_pos_iff, count_bytes hd]

end Lintel.Text
