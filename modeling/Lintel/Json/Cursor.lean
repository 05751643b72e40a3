import Lintel.Json.Fault
import Lintel.Text.Utf8

/-!
# Reading JSON bytes

A cursor holds the bytes still to be read and the place of the last byte read. A fault is placed
either there or one byte further, on the byte that was seen but not accepted.
-/
namespace Lintel.Json

structure Cursor where
  rest : Bytes
  position : Position
  deriving DecidableEq, Repr

def Position.after (p : Position) (b : UInt8) : Position :=
  if b = 10 then ⟨p.line + 1, 0⟩ else ⟨p.line, p.column + 1⟩

namespace Cursor

def start (bs : Bytes) : Cursor := ⟨bs, ⟨1, 0⟩⟩

def peek (c : Cursor) : Option UInt8 := c.rest.head?

def advance (c : Cursor) : Cursor :=
  match c.rest with
  | [] => c
  | b :: rest => ⟨rest, c.position.after b⟩

def fault (c : Cursor) (cause : Cause) : Fault := ⟨cause, c.position⟩

def faultAhead (c : Cursor) (cause : Cause) : Fault := c.advance.fault cause

def isBlank (b : UInt8) : Bool := b == 32 || b == 10 || b == 9 || b == 13

def skipBlanksFrom (p : Position) : Bytes → Cursor
  | [] => ⟨[], p⟩
  | b :: rest => if isBlank b then skipBlanksFrom (p.after b) rest else ⟨b :: rest, p⟩

def skipBlanks (c : Cursor) : Cursor := skipBlanksFrom c.position c.rest

def ident : Bytes → Cursor → Except Fault Cursor
  | [], c => .ok c
  | b :: bs, c =>
      match c.peek with
      | none => .error (c.fault .endInValue)
      | some x => if x = b then ident bs c.advance else .error (c.advance.fault .expectedIdent)

def isDigit (b : UInt8) : Bool := 48 ≤ b && b ≤ 57

def digits (c : Cursor) : Bytes × Cursor :=
  let run := c.rest.takeWhile isDigit
  (run, ⟨c.rest.dropWhile isDigit, ⟨c.position.line, c.position.column + run.length⟩⟩)

end Cursor

/-! ## Strings -/

def hexValue? (b : UInt8) : Option Nat :=
  if 48 ≤ b ∧ b ≤ 57 then some (b.toNat - 48)
  else if 97 ≤ b ∧ b ≤ 102 then some (b.toNat - 87)
  else if 65 ≤ b ∧ b ≤ 70 then some (b.toNat - 55)
  else none

def hexQuad? (a b c d : UInt8) : Option Nat := do
  some ((((← hexValue? a) * 16 + (← hexValue? b)) * 16 + (← hexValue? c)) * 16 + (← hexValue? d))

def simpleEscape? (b : UInt8) : Option UInt8 :=
  match b with
  | 34 => some 34
  | 92 => some 92
  | 47 => some 47
  | 98 => some 8
  | 102 => some 12
  | 110 => some 10
  | 114 => some 13
  | 116 => some 9
  | _ => none

def isLeadSurrogate (n : Nat) : Bool := 0xD800 ≤ n && n ≤ 0xDBFF

def isTailSurrogate (n : Nat) : Bool := 0xDC00 ≤ n && n ≤ 0xDFFF

def joinSurrogates (lead tail : Nat) : Char :=
  Char.ofNat ((lead - 0xD800) * 0x400 + (tail - 0xDC00) + 0x10000)

def Position.afterAll (p : Position) (bs : Bytes) : Position := bs.foldl Position.after p

def hexEscape (c : Cursor) : Except Fault (Nat × Cursor) :=
  match c.rest with
  | x :: y :: z :: w :: rest =>
      let after : Cursor := ⟨rest, c.position.afterAll [x, y, z, w]⟩
      match hexQuad? x y z w with
      | some n => .ok (n, after)
      | none => .error (after.fault .badEscape)
  | short => .error ⟨.endInString, c.position.afterAll short⟩

/-- Reads the rest of an escape behind its `u`. A leading surrogate needs a tail behind it. -/
def unicodeEscape (c : Cursor) : Except Fault (Bytes × Cursor) := do
  let (n, c) ← hexEscape c
  if isTailSurrogate n then .error (c.fault .loneSurrogate)
  else if ! isLeadSurrogate n then .ok (String.utf8EncodeChar (Char.ofNat n), c)
  else
    let c ← expect 92 c
    let c ← expect 117 c
    let (m, c) ← hexEscape c
    if isTailSurrogate m then .ok (String.utf8EncodeChar (joinSurrogates n m), c)
    else .error (c.fault .loneSurrogate)
where
  expect (b : UInt8) (c : Cursor) : Except Fault Cursor :=
    match c.peek with
    | none => .error (c.fault .endInString)
    | some x => if x = b then .ok c.advance else .error (c.advance.fault .endOfEscape)

def escape (c : Cursor) : Except Fault (Bytes × Cursor) :=
  match c.peek with
  | none => .error (c.fault .endInString)
  | some b =>
      if b = 117 then unicodeEscape c.advance
      else match simpleEscape? b with
        | some x => .ok ([x], c.advance)
        | none => .error (c.advance.fault .badEscape)

theorem length_advance_lt {c : Cursor} {b : UInt8} (h : c.peek = some b) :
    c.advance.rest.length < c.rest.length := by
  obtain ⟨rest, p⟩ := c
  cases rest with
  | nil => simp [Cursor.peek] at h
  | cons x xs => simp [Cursor.advance]

theorem length_advance_le (c : Cursor) : c.advance.rest.length ≤ c.rest.length := by
  obtain ⟨rest, p⟩ := c
  cases rest <;> simp [Cursor.advance]

theorem length_hexEscape_le {c d : Cursor} {n : Nat} (h : hexEscape c = .ok (n, d)) :
    d.rest.length ≤ c.rest.length := by
  unfold hexEscape at h
  split at h
  · rename_i x y z w rest hc
    simp only at h
    split at h
    · simp only [Except.ok.injEq, Prod.mk.injEq] at h
      simp [← h.2, hc]
      omega
    · simp at h
  · simp at h

theorem length_expect_le {b : UInt8} {c d : Cursor} (h : unicodeEscape.expect b c = .ok d) :
    d.rest.length ≤ c.rest.length := by
  unfold unicodeEscape.expect at h
  split at h
  · simp at h
  · split at h
    · simp only [Except.ok.injEq] at h
      exact h ▸ length_advance_le c
    · simp at h

theorem length_unicodeEscape_le {c d : Cursor} {bs : Bytes} (h : unicodeEscape c = .ok (bs, d)) :
    d.rest.length ≤ c.rest.length := by
  unfold unicodeEscape at h
  simp only [bind, Except.bind] at h
  split at h
  · simp at h
  · rename_i r hr
    obtain ⟨n, c₁⟩ := r
    have h₁ := length_hexEscape_le hr
    simp only at h
    split at h
    · simp at h
    · split at h
      · simp only [Except.ok.injEq, Prod.mk.injEq] at h
        exact h.2 ▸ h₁
      · split at h
        · simp at h
        · rename_i c₂ h₂
          split at h
          · simp at h
          · rename_i c₃ h₃
            split at h
            · simp at h
            · rename_i r hr
              obtain ⟨m, c₄⟩ := r
              have h₄ := length_hexEscape_le hr
              have h₂ := length_expect_le h₂
              have h₃ := length_expect_le h₃
              simp only at h
              split at h
              · simp only [Except.ok.injEq, Prod.mk.injEq] at h
                have := h.2
                subst this
                omega
              · simp at h

theorem length_escape_le {c d : Cursor} {bs : Bytes} (h : escape c = .ok (bs, d)) :
    d.rest.length ≤ c.rest.length := by
  unfold escape at h
  split at h
  · simp at h
  · split at h
    · exact Nat.le_trans (length_unicodeEscape_le h) (length_advance_le c)
    · split at h
      · simp only [Except.ok.injEq, Prod.mk.injEq] at h
        exact h.2 ▸ length_advance_le c
      · simp at h

def stringBytes (c : Cursor) : Except Fault (Bytes × Cursor) :=
  match _h : c.peek with
  | none => .error (c.fault .endInString)
  | some b =>
      if b = 34 then .ok ([], c.advance)
      else if b = 92 then
        match _e : escape c.advance with
        | .error f => .error f
        | .ok (bs, after) => (stringBytes after).map fun (rest, d) => (bs ++ rest, d)
      else if b < 32 then .error (c.advance.fault .controlCharacter)
      else (stringBytes c.advance).map fun (rest, d) => (b :: rest, d)
termination_by c.rest.length
decreasing_by
  · have := length_escape_le _e
    have := length_advance_lt _h
    omega
  · exact length_advance_lt _h

def string (c : Cursor) : Except Fault (String × Cursor) :=
  (stringBytes c).map fun (bs, d) => (displayText bs, d)

def skipEscape (c : Cursor) : Except Fault Cursor :=
  match c.peek with
  | none => .error (c.fault .endInString)
  | some b =>
      if b = 117 then (hexEscape c.advance).map (·.2)
      else match simpleEscape? b with
        | some _ => .ok c.advance
        | none => .error (c.advance.fault .badEscape)

theorem length_skipEscape_le {c d : Cursor} (h : skipEscape c = .ok d) :
    d.rest.length ≤ c.rest.length := by
  unfold skipEscape at h
  split at h
  · simp at h
  · split at h
    · cases he : hexEscape c.advance with
      | error f => simp [he, Except.map] at h
      | ok r =>
        simp only [he, Except.map, Except.ok.injEq] at h
        exact h ▸ Nat.le_trans (length_hexEscape_le (n := r.1) he) (length_advance_le c)
    · split at h
      · simp only [Except.ok.injEq] at h
        exact h ▸ length_advance_le c
      · simp at h

/-- Passes over a string behind its opening quote. A control character is reported in front of
itself. -/
def skipString (c : Cursor) : Except Fault Cursor :=
  match _h : c.peek with
  | none => .error (c.fault .endInString)
  | some b =>
      if b = 34 then .ok c.advance
      else if b = 92 then
        match _e : skipEscape c.advance with
        | .error f => .error f
        | .ok after => skipString after
      else if b < 32 then .error (c.fault .controlCharacter)
      else skipString c.advance
termination_by c.rest.length
decreasing_by
  · have := length_skipEscape_le _e
    have := length_advance_lt _h
    omega
  · exact length_advance_lt _h

end Lintel.Json
