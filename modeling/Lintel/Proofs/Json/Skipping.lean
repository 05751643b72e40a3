import Lintel.Proofs.Json.Reading
import Lintel.Proofs.Outcome

/-!
# Passing over strings

The reader of records passes over the values of members that it does not know. What is read as a
string is passed over up to the same place; a pair of surrogates is then two escapes in a row, and
nothing asks that they belong together. So a written text is passed over in every layout.
-/
namespace Lintel.Json

theorem skipString_of_peek {c : Cursor} {b : UInt8} (h : c.peek = some b) :
    skipString c =
      if b = 34 then .ok c.advance
      else if b = 92 then skipEscape c.advance >>= skipString
      else if b < 32 then .error (c.fault .controlCharacter)
      else skipString c.advance := by
  rw [skipString]
  split
  · rename_i hnone
    rw [h] at hnone
    cases hnone
  · rename_i x hx
    obtain rfl : b = x := by simpa [h] using hx
    split
    · rfl
    · split
      · cases skipEscape c.advance <;> rfl
      · rfl

theorem expect_eq_ok_iff {b : UInt8} {c d : Cursor} :
    unicodeEscape.expect b c = .ok d ↔ c.peek = some b ∧ c.advance = d := by
  rw [unicodeEscape.expect]
  cases hpeek : c.peek with
  | none => simp
  | some x => by_cases hx : x = b <;> simp [hx]

theorem skipEscape_of_escape {c d : Cursor} {bs : Bytes} (h : escape c = .ok (bs, d)) :
    skipEscape c = .ok d ∨
      ∃ e, skipEscape c = .ok e ∧ e.peek = some 92 ∧ skipEscape e.advance = .ok d := by
  rw [escape] at h
  cases hpeek : c.peek with
  | none => simp [hpeek] at h
  | some b =>
    by_cases hb : b = 117
    · have hunicode : ∀ e, e.peek = some 117 → ∀ n g, hexEscape e.advance = .ok (n, g) →
          skipEscape e = .ok g := by
        intro e he n g hg
        simp [skipEscape, he, hg, Except.map]
      simp only [hpeek, hb, if_true, unicodeEscape, bind, Except.bind] at h
      rw [hb] at hpeek
      cases hfirst : hexEscape c.advance with
      | error f => simp [hfirst] at h
      | ok first =>
        obtain ⟨n, e⟩ := first
        simp only [hfirst] at h
        have hskip := hunicode c hpeek n e hfirst
        split at h
        · cases h
        · split at h
          · simp only [Except.ok.injEq, Prod.mk.injEq] at h
            exact .inl (h.2 ▸ hskip)
          · cases hback : unicodeEscape.expect 92 e with
            | error f => simp [hback] at h
            | ok e₁ =>
              cases hu : unicodeEscape.expect 117 e₁ with
              | error f => simp [hback, hu] at h
              | ok e₂ =>
                cases hsecond : hexEscape e₂ with
                | error f => simp [hback, hu, hsecond] at h
                | ok second =>
                  obtain ⟨m, g⟩ := second
                  simp only [hback, hu, hsecond] at h
                  obtain ⟨hbackpeek, rfl⟩ := expect_eq_ok_iff.1 hback
                  obtain ⟨hupeek, rfl⟩ := expect_eq_ok_iff.1 hu
                  split at h
                  · simp only [Except.ok.injEq, Prod.mk.injEq] at h
                    exact .inr ⟨e, hskip, hbackpeek, h.2 ▸ hunicode _ hupeek m g hsecond⟩
                  · cases h
    · simp only [hpeek, hb, if_false] at h
      cases hsimple : simpleEscape? b with
      | none => simp [hsimple] at h
      | some x =>
        simp only [hsimple, Except.ok.injEq, Prod.mk.injEq] at h
        exact .inl (by simp [skipEscape, hpeek, hb, hsimple, h.2])

theorem skipString_of_stringBytes {c d : Cursor} {bs : Bytes} (h : stringBytes c = .ok (bs, d)) :
    skipString c = .ok d := by
  induction c using stringBytes.induct generalizing bs with
  | case1 c hpeek =>
    rw [stringBytes.eq_def] at h
    split at h
    · cases h
    · simp_all
  | case2 c hpeek =>
    rw [stringBytes_of_peek hpeek, if_pos rfl, Except.ok.injEq, Prod.mk.injEq] at h
    rw [skipString_of_peek hpeek, if_pos rfl, h.2]
  | case3 c f hescape hpeek _ =>
    rw [stringBytes_of_peek hpeek, if_neg (by decide), if_pos rfl, hescape] at h
    cases h
  | case4 c escaped after hescape hpeek _ ih =>
    rw [stringBytes_of_peek hpeek, if_neg (by decide), if_pos rfl, hescape] at h
    obtain ⟨⟨rest, e⟩, hrest, he⟩ := map_eq_ok_iff.1 h
    obtain rfl : d = e := congrArg Prod.snd he
    have htail := ih hrest
    rw [skipString_of_peek hpeek, if_neg (by decide), if_pos rfl]
    rcases skipEscape_of_escape hescape with hskip | ⟨e, hfirst, hback, hsecond⟩
    · rw [hskip]
      exact htail
    · rw [hfirst]
      refine (skipString_of_peek hback).trans ?_
      rw [if_neg (by decide), if_pos rfl, hsecond]
      exact htail
  | case5 c b hpeek hquote hback hcontrol =>
    rw [stringBytes_of_peek hpeek, if_neg hquote, if_neg hback, if_pos hcontrol] at h
    cases h
  | case6 c b hpeek hquote hback hcontrol ih =>
    rw [stringBytes_of_peek hpeek, if_neg hquote, if_neg hback, if_neg hcontrol] at h
    obtain ⟨⟨rest, e⟩, hrest, he⟩ := map_eq_ok_iff.1 h
    obtain rfl : d = e := congrArg Prod.snd he
    rw [skipString_of_peek hpeek, if_neg hquote, if_neg hback, if_neg hcontrol]
    exact ih hrest

def Skipped (v : Value) : Prop :=
  ∀ l : Layout, ∀ indent ws rest, AllBlank ws → Text.Stops continuesNumber rest →
    ∀ c : Cursor, c.rest = ws ++ (Text.bytes (l.write indent v) ++ rest) →
      ∃ d, skipValue c = .ok d ∧ d.rest = rest

theorem skipped_text (s : String) : Skipped (.text s) := by
  intro l indent ws rest hws _ c hc
  rw [l.bytes_write_text, List.cons_append, List.append_assoc, List.singleton_append] at hc
  obtain ⟨d, hd, hdrest⟩ := Yields.inSight hws (by rfl) c hc
  obtain ⟨e, he, herest⟩ := Yields.stringBytes_text s.toList rest d.advance
    (by simp [hdrest])
  have hskip := skipString_of_stringBytes he
  have hother : quoteByte ≠ 110 ∧ quoteByte ≠ 116 ∧ quoteByte ≠ 102 ∧ quoteByte ≠ 45 ∧
      Cursor.isDigit quoteByte = false := by
    decide
  refine ⟨e, ?_, herest⟩
  simp [skipValue, skipFrom, skipStep, hd, hother, hskip, bind, Except.bind]

end Lintel.Json
