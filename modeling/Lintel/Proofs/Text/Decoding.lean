import Lintel.Proofs.Outcome
import Lintel.Proofs.Text.Encoding

/-!
# Bytes that read as text

Bytes in which the reading finds characters only are the bytes of these characters, so that strict
reading and writing are inverse to each other.
-/
namespace Lintel.Text

/-! ## Characters of two, three and four bytes -/

theorem toNat_ofNat_of_valid {v : Nat} (h : v < 0xD800 ∨ 0xDFFF < v ∧ v < 0x110000) :
    (Char.ofNat v).val.toNat = v := by
  have hvalid : v.isValidChar := h
  rw [Char.ofNat, dif_pos hvalid]
  rfl

theorem encode_two {n m : Nat} (hn : 2 ≤ n) (hn' : n < 32) (hm : m < 64) :
    String.utf8EncodeChar (Char.ofNat (n * 64 + m)) =
      [UInt8.ofNat (n + 192), UInt8.ofNat (m + 128)] := by
  have hv := toNat_ofNat_of_valid (v := n * 64 + m) (by omega)
  have hfirst : (n * 64 + m) / 64 % 32 = n := by omega
  have hlast : (n * 64 + m) % 64 = m := by omega
  simp only [String.utf8EncodeChar, hv, hfirst, hlast]
  rw [if_neg (by omega), if_pos (by omega)]

theorem encode_three {n m k : Nat} (hn : n < 16) (hm : m < 64) (hk : k < 64)
    (hlow : n = 0 → 32 ≤ m) (hhigh : n = 13 → m < 32) :
    String.utf8EncodeChar (Char.ofNat ((n * 64 + m) * 64 + k)) =
      [UInt8.ofNat (n + 224), UInt8.ofNat (m + 128), UInt8.ofNat (k + 128)] := by
  have hv := toNat_ofNat_of_valid (v := (n * 64 + m) * 64 + k) (by omega)
  have hfirst : ((n * 64 + m) * 64 + k) / 4096 % 16 = n := by omega
  have hmiddle : ((n * 64 + m) * 64 + k) / 64 % 64 = m := by omega
  have hlast : ((n * 64 + m) * 64 + k) % 64 = k := by omega
  simp only [String.utf8EncodeChar, hv, hfirst, hmiddle, hlast]
  rw [if_neg (by omega), if_neg (by omega), if_pos (by omega)]

theorem encode_four {n m k j : Nat} (hn : n < 5) (hm : m < 64) (hk : k < 64) (hj : j < 64)
    (hlow : n = 0 → 16 ≤ m) (hhigh : n = 4 → m < 16) :
    String.utf8EncodeChar (Char.ofNat (((n * 64 + m) * 64 + k) * 64 + j)) =
      [UInt8.ofNat (n + 240), UInt8.ofNat (m + 128), UInt8.ofNat (k + 128),
        UInt8.ofNat (j + 128)] := by
  have hv := toNat_ofNat_of_valid (v := ((n * 64 + m) * 64 + k) * 64 + j) (by omega)
  have hfirst : (((n * 64 + m) * 64 + k) * 64 + j) / 262144 % 8 = n := by omega
  have hsecond : (((n * 64 + m) * 64 + k) * 64 + j) / 4096 % 64 = m := by omega
  have hthird : (((n * 64 + m) * 64 + k) * 64 + j) / 64 % 64 = k := by omega
  have hlast : (((n * 64 + m) * 64 + k) * 64 + j) % 64 = j := by omega
  simp only [String.utf8EncodeChar, hv, hfirst, hsecond, hthird, hlast]
  rw [if_neg (by omega), if_neg (by omega), if_neg (by omega)]

/-! ## Steps of the reading -/

theorem Lead.of_cases (b : UInt8) :
    (∃ n < 128, b = UInt8.ofNat n) ∨ (∃ n, 2 ≤ n ∧ n < 32 ∧ b = UInt8.ofNat (n + 192)) ∨
      (∃ n < 16, b = UInt8.ofNat (n + 224)) ∨ (∃ n < 5, b = UInt8.ofNat (n + 240)) ∨
      Lead.of b = .none := by
  have hall : ∀ n : Fin 256, (128 ≤ n.val ∧ n.val < 194 ∨ 245 ≤ n.val) →
      Lead.of (UInt8.ofNat n) = .none := by
    decide +kernel
  have hself (k : Nat) (hk : k ≤ b.toNat) : b = UInt8.ofNat (b.toNat - k + k) := by
    rw [Nat.sub_add_cancel hk, UInt8.ofNat_toNat]
  have hlt : b.toNat < 256 := b.toNat_lt
  by_cases hone : b.toNat < 128
  · exact .inl ⟨b.toNat, hone, hself 0 (by omega)⟩
  by_cases hnone : b.toNat < 194 ∨ 245 ≤ b.toNat
  · have hof := hall ⟨b.toNat, hlt⟩ (by dsimp only; omega)
    exact .inr (.inr (.inr (.inr (by simpa using hof))))
  by_cases htwo : b.toNat < 224
  · exact .inr (.inl ⟨b.toNat - 192, by omega, by omega, hself 192 (by omega)⟩)
  by_cases hthree : b.toNat < 240
  · exact .inr (.inr (.inl ⟨b.toNat - 224, by omega, hself 224 (by omega)⟩))
  · exact .inr (.inr (.inr (.inl ⟨b.toNat - 240, by omega, hself 240 (by omega)⟩)))

theorem exists_tail_of_segmentsFrom {owed bits taken : Nat} {low high : UInt8} {bs : Bytes}
    {cs : List Char} (hlow : 128 ≤ low.toNat) (hhigh : high.toNat < 192)
    (h : segmentsFrom (some ⟨owed, low, high, bits, taken⟩) bs = cs.map .char) :
    ∃ n rest, n < 64 ∧ low.toNat ≤ n + 128 ∧ n + 128 ≤ high.toNat ∧
      bs = UInt8.ofNat (n + 128) :: rest ∧
      (if owed ≤ 1 then .char (Char.ofNat (bits * 64 + n)) :: segmentsFrom none rest
        else segmentsFrom (some ⟨owed - 1, 0x80, 0xBF, bits * 64 + n, taken + 1⟩) rest) =
      cs.map .char := by
  cases bs with
  | nil => cases cs <;> simp [segmentsFrom] at h
  | cons b rest =>
    by_cases haccepts : Partial.accepts ⟨owed, low, high, bits, taken⟩ b = true
    · have hbounds : low.toNat ≤ b.toNat ∧ b.toNat ≤ high.toNat := by
        simpa [Partial.accepts, UInt8.le_iff_toNat_le] using haccepts
      have hself : UInt8.ofNat (b.toNat - 128 + 128) = b := by
        rw [Nat.sub_add_cancel (by omega), UInt8.ofNat_toNat]
      refine ⟨b.toNat - 128, rest, by omega, by omega, by omega, by rw [hself], ?_⟩
      rw [← h, ← hself, segmentsFrom_tail (by omega) (by dsimp only; omega) (by dsimp only; omega),
        hself]
    · rw [segmentsFrom, if_neg haccepts] at h
      cases cs <;> simp at h

/-! ## Whole texts -/

theorem append_eq_bytes {c : Char} {cs : List Char} {front rest : Bytes}
    (hfront : String.utf8EncodeChar c = front)
    (hrest : ∀ ds, segmentsFrom none rest = ds.map .char → rest = bytes ds)
    (h : .char c :: segmentsFrom none rest = cs.map .char) : front ++ rest = bytes cs := by
  obtain ⟨d, ds, rfl, hchar, hds⟩ := List.map_eq_cons_iff.1 h.symm
  obtain rfl : d = c := Segment.char.inj hchar
  rw [bytes_cons, hfront, ← hrest ds hds.symm]

theorem eq_bytes_of_segmentsFrom {bs : Bytes} {cs : List Char}
    (h : segmentsFrom none bs = cs.map .char) : bs = bytes cs := by
  match bs with
  | [] =>
    cases cs with
    | nil => rfl
    | cons c cs => simp [segmentsFrom] at h
  | b :: bs =>
    rcases Lead.of_cases b with
      ⟨n, hn, rfl⟩ | ⟨n, hn, hn', rfl⟩ | ⟨n, hn, rfl⟩ | ⟨n, hn, rfl⟩ | hnone
    · rw [segmentsFrom_whole (Lead.of_one hn)] at h
      have hself := toNat_ofNat_of_valid (v := n) (by omega)
      have hfront : String.utf8EncodeChar (Char.ofNat n) = [UInt8.ofNat n] := by
        simp only [String.utf8EncodeChar, hself]
        rw [if_pos (by omega)]
      exact append_eq_bytes hfront (fun ds hds => eq_bytes_of_segmentsFrom hds) h
    · rw [segmentsFrom_opens (Lead.of_two hn hn')] at h
      obtain ⟨m, rest, hm, -, -, rfl, hlast⟩ :=
        exists_tail_of_segmentsFrom (by decide) (by decide) h
      exact append_eq_bytes (encode_two hn hn' hm)
        (fun ds hds => eq_bytes_of_segmentsFrom hds) hlast
    · rw [segmentsFrom_opens (Lead.of_three hn)] at h
      obtain ⟨m, rest, hm, hlow, hhigh, rfl, hnext⟩ :=
        exists_tail_of_segmentsFrom (by split <;> decide) (by split <;> decide) h
      obtain ⟨k, rest, hk, -, -, rfl, hlast⟩ :=
        exists_tail_of_segmentsFrom (by decide) (by decide) hnext
      have hsecond : n = 0 → 32 ≤ m := by
        rintro rfl
        simpa using hlow
      have hsecond' : n = 13 → m < 32 := by
        rintro rfl
        simp at hhigh
        omega
      exact append_eq_bytes (encode_three hn hm hk hsecond hsecond')
        (fun ds hds => eq_bytes_of_segmentsFrom hds) hlast
    · rw [segmentsFrom_opens (Lead.of_four hn)] at h
      obtain ⟨m, rest, hm, hlow, hhigh, rfl, hnext⟩ :=
        exists_tail_of_segmentsFrom (by split <;> decide) (by split <;> decide) h
      obtain ⟨k, rest, hk, -, -, rfl, hthird⟩ :=
        exists_tail_of_segmentsFrom (by decide) (by decide) hnext
      obtain ⟨j, rest, hj, -, -, rfl, hlast⟩ :=
        exists_tail_of_segmentsFrom (by decide) (by decide) hthird
      have hsecond : n = 0 → 16 ≤ m := by
        rintro rfl
        simpa using hlow
      have hsecond' : n = 4 → m < 16 := by
        rintro rfl
        simp at hhigh
        omega
      exact append_eq_bytes (encode_four hn hm hk hj hsecond hsecond')
        (fun ds hds => eq_bytes_of_segmentsFrom hds) hlast
    · rw [segmentsFrom] at h
      simp only [hnone] at h
      cases cs <;> simp at h
termination_by bs.length

theorem segments_of_strictFrom {index : Nat} {segs : List Segment} {cs : List Char}
    (h : strictFrom index segs = .ok cs) : segs = cs.map .char := by
  induction segs generalizing index cs with
  | nil =>
    cases h
    rfl
  | cons seg segs ih =>
    cases seg with
    | char c =>
      obtain ⟨ds, hds, rfl⟩ := map_eq_ok_iff.1 h
      rw [List.map_cons, ← ih hds]
    | invalid n => cases h
    | unfinished n => cases h

theorem strict_eq_ok_iff {bs : Bytes} {cs : List Char} : strict bs = .ok cs ↔ bs = bytes cs := by
  constructor
  · intro h
    exact eq_bytes_of_segmentsFrom (segments_of_strictFrom h)
  · rintro rfl
    rw [strict, segments_bytes, strictFrom_chars]

theorem decode?_eq_some_iff {bs : Bytes} {cs : List Char} :
    decode? bs = some cs ↔ bs = bytes cs := by
  rw [decode?, toOption_eq_some_iff, strict_eq_ok_iff]

end Lintel.Text
