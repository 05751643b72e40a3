import Lintel.Glob.Match
import Lintel.Proofs.Glob.Reading
import Lintel.Proofs.Text.Cutting
import Lintel.Proofs.Text.Encoding

/-!
# What a pattern begins with

Literal text in front of a separator stays in front. Reading on may merge the separator with stars
behind it into a spanning token, which still begins with a separator, and changes nothing before
it. So whatever the pattern matches begins with the literal text and a separator.
-/
namespace Lintel.Glob

def Token.OpensPart (t : Token) : Prop := t = .literal '/' ∨ t = .inner ∨ t = .trailing

/-- Tokens, last first, that begin with a literal text and a separator. -/
def BeginsWith (base : List Char) (ts : List Token) : Prop :=
  ∃ later t, ts = later ++ t :: (base.map .literal).reverse ∧ t.OpensPart

theorem BeginsWith.append {base : List Char} {ts : List Token} (h : BeginsWith base ts)
    (us : List Token) : BeginsWith base (us ++ ts) := by
  obtain ⟨later, t, rfl, ht⟩ := h
  exact ⟨us ++ later, t, by simp, ht⟩

theorem BeginsWith.spanning {base : List Char} {ts : List Token} (h : BeginsWith base ts)
    (atEnd : Bool) : BeginsWith base (spanning atEnd ts) := by
  have hspan : Token.OpensPart (if atEnd then .trailing else .inner) := by
    cases atEnd
    · exact .inr (.inl rfl)
    · exact .inr (.inr rfl)
  obtain ⟨later, t, rfl, ht⟩ := h
  -- the stars may take the place of the token behind the base, and then a separator is left there
  cases later with
  | nil =>
    rcases ht with rfl | rfl | rfl
    · exact ⟨[], _, rfl, hspan⟩
    · exact ⟨[], _, rfl, hspan⟩
    · exact ⟨[], _, rfl, .inr (.inr rfl)⟩
  | cons u later =>
    have hlast : ∀ u' : Token,
        BeginsWith base (u' :: (later ++ t :: (base.map .literal).reverse)) :=
      fun u' => ⟨u' :: later, t, rfl, ht⟩
    cases u <;> exact hlast _

theorem BeginsWith.ne_nil {base : List Char} {ts : List Token} (h : BeginsWith base ts) :
    ts ≠ [] := by
  obtain ⟨later, t, rfl, -⟩ := h
  simp

def outermost (current : List Token) : List OpenGroup → List Token
  | [] => current
  | g :: outer => outermost g.before outer

theorem BeginsWith.outermost_append {base : List Char} {ts : List Token} {groups : List OpenGroup}
    (h : BeginsWith base (outermost ts groups)) (us : List Token) :
    BeginsWith base (outermost (us ++ ts) groups) := by
  cases groups with
  | nil => exact h.append us
  | cons g outer => exact h

theorem BeginsWith.outermost_pushStars {base : List Char} {r : Reading}
    (h : BeginsWith base (outermost r.current r.groups)) (rest : List Char) :
    BeginsWith base (outermost (r.pushStars rest).1.current r.groups) := by
  cases hgroups : r.groups with
  | cons g outer =>
    rw [hgroups] at h
    exact h
  | nil =>
    rw [hgroups] at h
    rw [outermost] at h ⊢
    have hcurrent : r.current.isEmpty = false := by simpa using h.ne_nil
    have hplain : BeginsWith base (r.push '*' [.many, .many]).current := h.append _
    unfold Reading.pushStars
    rw [hcurrent]
    simp only [Bool.false_eq_true, if_false]
    split
    · exact hplain
    · split
      · exact h.spanning true
      · exact h.spanning false
      · split
        · exact h.spanning true
        · exact hplain

theorem Step.beginsWith {base : List Char} {r r' : Reading} {cs cs' : List Char}
    (hstep : Step r cs r' cs') (h : BeginsWith base (outermost r.current r.groups)) :
    BeginsWith base (outermost r'.current r'.groups) := by
  cases hstep with
  | one => exact h.outermost_append _
  | stars =>
    rw [Reading.pushStars_groups]
    exact h.outermost_pushStars _
  | many => exact h.outermost_append _
  | escaped => exact h.outermost_append _
  | bracket => exact h.outermost_append _
  | opening => exact h
  | closing _ g outer hgroups =>
    rw [hgroups, outermost] at h
    exact h.outermost_append [_]
  | dividing _ g outer hgroups =>
    rw [hgroups] at h
    exact h
  | literal => exact h.outermost_append _

theorem Reads.beginsWith {base : List Char} {r : Reading} {cs : List Char} {p : Pattern}
    (h : Reads r cs p) (hr : BeginsWith base (outermost r.current r.groups)) :
    ∃ t later, p = base.map .literal ++ t :: later ∧ t.OpensPart := by
  induction h with
  | done r hgroups =>
    rw [hgroups, outermost] at hr
    obtain ⟨later, t, hcurrent, ht⟩ := hr
    exact ⟨t, later.reverse, by simp [hcurrent], ht⟩
  | step hstep _ ih => exact ih (hstep.beginsWith hr)

/-! ## Literal text at the start -/

theorem Reads.of_literal {r : Reading} {c : Char} {cs : List Char} {p : Pattern}
    (hc : isMark c = false) (hgroups : r.groups = []) (h : Reads r (c :: cs) p) :
    Reads (r.push c [.literal c]) cs p := by
  cases h with
  | step hstep hrest =>
    cases hstep with
    | literal => exact hrest
    | dividing _ g outer hcons => simp [hgroups] at hcons
    | _ => simp [isMark] at hc

theorem Reads.of_literals {base cs : List Char} {r : Reading} {p : Pattern}
    (hbase : ∀ c ∈ base, isMark c = false) (hgroups : r.groups = []) (h : Reads r (base ++ cs) p) :
    ∃ r' : Reading, r'.groups = [] ∧ r'.current = (base.map .literal).reverse ++ r.current ∧
      Reads r' cs p := by
  induction base generalizing r with
  | nil => exact ⟨r, hgroups, by simp, h⟩
  | cons c base ih =>
    have hstep : Reads (r.push c [.literal c]) (base ++ cs) p :=
      h.of_literal (hbase c (by simp)) hgroups
    obtain ⟨r', hgroups', hcurrent, hrest⟩ :=
      ih (r := r.push c [.literal c]) (fun d hd => hbase d (by simp [hd])) hgroups hstep
    exact ⟨r', hgroups', by simp [hcurrent, Reading.push], hrest⟩

/-! ## What is matched -/

theorem listEnds_append (ts us : List Token) (s : Bytes) :
    Token.listEnds (ts ++ us) s = (Token.listEnds ts s).flatMap (Token.listEnds us) := by
  induction ts generalizing s with
  | nil => simp [Token.listEnds]
  | cons t ts ih =>
    rw [List.cons_append, Token.listEnds, Token.listEnds, List.flatMap_assoc]
    exact congrArg (List.flatMap · (t.ends s)) (funext ih)

theorem eq_append_of_mem_listEnds_literals {base : List Char} {s rest : Bytes}
    (h : rest ∈ Token.listEnds (base.map .literal) s) : s = Text.bytes base ++ rest := by
  induction base generalizing s with
  | nil => simpa [Token.listEnds, eq_comm] using h
  | cons c base ih =>
    rw [List.map_cons, Token.listEnds, List.mem_flatMap] at h
    obtain ⟨u, hu, hrest⟩ := h
    rw [Token.ends, Option.mem_toList] at hu
    rw [Text.bytes_cons, List.append_assoc, ← ih hrest]
    exact Text.dropPrefix?_eq_some_iff.1 hu

theorem Token.OpensPart.eq_cons {t : Token} (ht : t.OpensPart) {s u : Bytes} (h : u ∈ t.ends s) :
    ∃ rest, s = separator :: rest := by
  rcases ht with rfl | rfl | rfl
  · rw [Token.ends, Option.mem_toList] at h
    exact ⟨u, Text.dropPrefix?_eq_some_iff.1 h⟩
  · cases s with
    | nil => simp [Token.ends] at h
    | cons b s =>
      by_cases hb : b = separator
      · exact ⟨s, by rw [hb]⟩
      · simp [Token.ends, hb] at h
  · cases s with
    | nil => simp [Token.ends] at h
    | cons b s =>
      by_cases hb : b = separator
      · exact ⟨s, by rw [hb]⟩
      · simp [Token.ends, hb] at h

theorem starts_of_matches {base rest : List Char} {p : Pattern} {s : Bytes}
    (hbase : ∀ c ∈ base, isMark c = false) (hread : Pattern.read (base ++ '/' :: rest) = .ok p)
    (h : p.Matches s) : ∃ u, s = Text.bytes base ++ separator :: u := by
  obtain ⟨r, hgroups, hcurrent, hreads⟩ := (reads_of_read hread).of_literals hbase rfl
  have hslash := hreads.of_literal rfl hgroups
  have hbegins : BeginsWith base (outermost (r.push '/' [.literal '/']).current []) :=
    ⟨[], .literal '/', by simp [Reading.push, hcurrent, Reading.start, outermost], .inl rfl⟩
  rw [← hgroups] at hbegins
  obtain ⟨t, later, rfl, ht⟩ := hslash.beginsWith hbegins
  have hmatch : [] ∈ Token.listEnds (base.map .literal ++ t :: later) s := by
    unfold Pattern.Matches at h
    split at h
    · -- two stars alone open no part
      rename_i heq
      cases base with
      | nil =>
        obtain ⟨rfl, -⟩ := List.cons.inj heq
        rcases ht with ht | ht | ht <;> cases ht
      | cons c base => simp at heq
    · exact h
  rw [listEnds_append, List.mem_flatMap] at hmatch
  obtain ⟨u, hu, hlater⟩ := hmatch
  rw [Token.listEnds, List.mem_flatMap] at hlater
  obtain ⟨v, hv, -⟩ := hlater
  obtain ⟨w, rfl⟩ := ht.eq_cons hv
  exact ⟨w, eq_append_of_mem_listEnds_literals hu⟩

end Lintel.Glob
