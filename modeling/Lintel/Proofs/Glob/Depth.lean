import Lintel.Glob.Expand
import Lintel.Proofs.Glob.Classes
import Lintel.Proofs.Glob.Leading

/-!
# How deep a pattern reaches

Without braces and pairs of stars, a separator of a path can only be matched by a literal one, or by
a class that holds it. A pattern whose classes do not hold it then matches no path with more
separators than its text has.
-/
namespace Lintel.Glob

mutual

def Token.isConfined : Token → Bool
  | .oneOf negated ranges => ! classHolds negated ranges separator
  | .either choices => Token.allConfined choices
  | _ => true

def Token.areConfined : List Token → Bool
  | [] => true
  | t :: ts => Token.isConfined t && Token.areConfined ts

def Token.allConfined : List (List Token) → Bool
  | [] => true
  | c :: cs => Token.areConfined c && Token.allConfined cs

end

def Token.isPlain : Token → Bool
  | .leading | .inner | .trailing | .either _ => false
  | _ => true

def Token.isSlash : Token → Bool
  | .literal c => c == '/'
  | _ => false

theorem Search.hasPair_iff {a b : Char} {cs : List Char} :
    Search.hasPair a b cs = true ↔ [a, b] <:+: cs := by
  induction cs with
  | nil => simp [Search.hasPair]
  | cons x rest ih =>
    rw [List.infix_cons_iff, ← ih]
    cases rest with
    | nil => simp [Search.hasPair]
    | cons y rest =>
      simp only [Search.hasPair, List.cons_prefix_cons, List.nil_prefix, Bool.or_eq_true,
        Bool.and_eq_true, beq_iff_eq, and_true]
      rw [eq_comm (a := x), eq_comm (a := y)]

/-! ## What is read -/

/-- A reading without groups and spanning stars, in front of a text that brings none. -/
structure PlainReading (r : Reading) (cs : List Char) : Prop where
  groups : r.groups = []
  tokens : ∀ t ∈ r.current, t.isPlain = true
  braces : '{' ∉ cs
  stars : ¬ ['*', '*'] <:+: cs

theorem PlainReading.push {r : Reading} {cs cs' : List Char} (h : PlainReading r cs)
    (hsuffix : cs' <:+ cs) (c : Char) {t : Token} (ht : t.isPlain = true) :
    PlainReading (r.push c [t]) cs' where
  groups := h.groups
  tokens := by
    intro u hu
    rcases List.mem_cons.1 (by simpa [Reading.push] using hu) with rfl | hold
    · exact ht
    · exact h.tokens u hold
  braces := fun hmem => h.braces (hsuffix.mem hmem)
  stars := fun hin => h.stars (hin.trans hsuffix.isInfix)

def separatorsIn (r : Reading) (cs : List Char) : Nat :=
  r.current.countP Token.isSlash + cs.count '/'

theorem separatorsIn_push_le {r : Reading} {cs cs' : List Char} (c : Char) {t : Token}
    (h : (if t.isSlash then 1 else 0) + cs'.count '/' ≤ cs.count '/') :
    separatorsIn (r.push c [t]) cs' ≤ separatorsIn r cs := by
  simp only [separatorsIn, Reading.push, List.reverse_singleton, List.singleton_append,
    List.countP_cons]
  omega

theorem count_literal_le (c : Char) (rest : List Char) :
    (if (Token.literal c).isSlash then 1 else 0) + rest.count '/' ≤ (c :: rest).count '/' := by
  exact Nat.le_of_eq (by rw [List.count_cons, Nat.add_comm, Token.isSlash])

theorem Step.plain {r r' : Reading} {cs cs' : List Char} (h : Step r cs r' cs')
    (hr : PlainReading r cs) : PlainReading r' cs' ∧ separatorsIn r' cs' ≤ separatorsIn r cs := by
  have hcons : ∀ (c : Char) (rest : List Char), rest.count '/' ≤ (c :: rest).count '/' :=
    fun c rest => (List.sublist_cons_self c rest).count_le _
  cases h with
  | one =>
    exact ⟨hr.push (List.suffix_cons ..) _ rfl, separatorsIn_push_le _ (by simp [Token.isSlash])⟩
  | stars rest => exact absurd ⟨[], rest, rfl⟩ hr.stars
  | many =>
    exact ⟨hr.push (List.suffix_cons ..) _ rfl, separatorsIn_push_le _ (by simp [Token.isSlash])⟩
  | escaped c =>
    exact ⟨hr.push ((List.suffix_cons ..).trans (List.suffix_cons ..)) c rfl,
      separatorsIn_push_le c (Nat.le_trans (count_literal_le c cs') (hcons _ _))⟩
  | bracket rest token after hclass =>
    obtain ⟨⟨negated, ranges, rfl⟩, inner, hrest, -⟩ := class_of_readClass hclass
    have hafter : cs' <:+ rest := ⟨inner ++ [']'], by simp [hrest]⟩
    have hcount : cs'.count '/' ≤ rest.count '/' := hafter.sublist.count_le _
    refine ⟨hr.push (hafter.trans (List.suffix_cons ..)) _ rfl, separatorsIn_push_le _ ?_⟩
    simpa [Token.isSlash] using Nat.le_trans hcount (hcons '[' rest)
  | opening rest => exact absurd (List.mem_cons_self ..) hr.braces
  | closing rest g outer hgroups => simp [hr.groups] at hgroups
  | dividing rest g outer hgroups => simp [hr.groups] at hgroups
  | literal c =>
    exact ⟨hr.push (List.suffix_cons ..) c rfl, separatorsIn_push_le c (count_literal_le c cs')⟩

theorem Reads.plain {r : Reading} {cs : List Char} {p : Pattern} (h : Reads r cs p)
    (hr : PlainReading r cs) :
    (∀ t ∈ p, t.isPlain = true) ∧ p.countP Token.isSlash ≤ separatorsIn r cs := by
  induction h with
  | done r hgroups =>
    refine ⟨fun t ht => hr.tokens t (List.mem_reverse.1 ht), ?_⟩
    simp [separatorsIn]
  | step hstep _ ih =>
    obtain ⟨hplain, hle⟩ := hstep.plain hr
    obtain ⟨htokens, hcount⟩ := ih hplain
    exact ⟨htokens, Nat.le_trans hcount hle⟩

theorem plain_of_read {text : List Char} {p : Pattern} (hbraces : '{' ∉ text)
    (hstars : ¬ ['*', '*'] <:+: text) (hread : Pattern.read text = .ok p) :
    (∀ t ∈ p, t.isPlain = true) ∧ p.countP Token.isSlash ≤ text.count '/' := by
  have hstart : PlainReading .start text := ⟨rfl, by simp [Reading.start], hbraces, hstars⟩
  obtain ⟨hplain, hcount⟩ := (reads_of_read hread).plain hstart
  exact ⟨hplain, by simpa [separatorsIn, Reading.start] using hcount⟩

/-! ## What is matched -/

theorem mem_starEnds_iff {s u : Bytes} :
    u ∈ starEnds s ↔ ∃ w, s = w ++ u ∧ separator ∉ w := by
  induction s with
  | nil =>
    rw [starEnds, List.mem_singleton]
    constructor
    · rintro rfl
      exact ⟨[], rfl, List.not_mem_nil⟩
    · intro h'
      obtain ⟨w, hw, -⟩ := h'
      exact (List.append_eq_nil_iff.1 hw.symm).2
  | cons b rest ih =>
    rw [starEnds, List.mem_cons]
    constructor
    · intro h'
      rcases h' with rfl | h
      · exact ⟨[], rfl, List.not_mem_nil⟩
      · split at h
        · cases h
        · rename_i hb
          obtain ⟨w, rfl, hw⟩ := ih.1 h
          exact ⟨b :: w, rfl, by simp [Ne.symm hb, hw]⟩
    · intro h'
      obtain ⟨w, hcut, hw⟩ := h'
      cases w with
      | nil => exact .inl hcut.symm
      | cons c w =>
        obtain ⟨rfl, rfl⟩ := List.cons.inj hcut
        rw [List.mem_cons, not_or] at hw
        rw [if_neg (Ne.symm hw.1)]
        exact .inr (ih.2 ⟨w, rfl, hw.2⟩)

theorem Token.exists_taken {t : Token} {s u : Bytes} (hplain : t.isPlain = true)
    (hconfined : t.isConfined = true) (hslash : t.isSlash = false) (h : u ∈ t.ends s) :
    ∃ w, s = w ++ u ∧ separator ∉ w ∧ ∀ other, other ∈ t.ends (w ++ other) := by
  cases t with
  | literal c =>
    rw [Token.ends, Option.mem_toList] at h
    refine ⟨_, Text.dropPrefix?_eq_some_iff.1 h, fun hmem => ?_, fun other => ?_⟩
    · obtain rfl := (Text.mem_encode_iff (d := '/') (by decide)).1 hmem
      cases hslash
    · rw [Token.ends, Option.mem_toList]
      exact Text.dropPrefix?_eq_some_iff.2 rfl
  | one =>
    cases s with
    | nil => simp [Token.ends] at h
    | cons b rest =>
      by_cases hb : b = separator
      · simp [Token.ends, hb] at h
      · obtain rfl : u = rest := by simpa [Token.ends, hb] using h
        exact ⟨[b], rfl, by simpa using Ne.symm hb, fun other => by simp [Token.ends, hb]⟩
  | many =>
    obtain ⟨w, hcut, hw⟩ := mem_starEnds_iff.1 h
    exact ⟨w, hcut, hw, fun other => mem_starEnds_iff.2 ⟨w, rfl, hw⟩⟩
  | oneOf negated ranges =>
    cases s with
    | nil => simp [Token.ends] at h
    | cons b rest =>
      by_cases hholds : classHolds negated ranges b = true
      · obtain rfl : u = rest := by simpa [Token.ends, hholds] using h
        refine ⟨[b], rfl, fun hmem => ?_, fun other => by simp [Token.ends, hholds]⟩
        rw [← List.mem_singleton.1 hmem] at hholds
        simp [Token.isConfined, hholds] at hconfined
      · simp [Token.ends, hholds] at h
  | leading => cases hplain
  | inner => cases hplain
  | trailing => cases hplain
  | either choices => cases hplain

theorem Token.eq_cons_of_isSlash {t : Token} {s u : Bytes} (hslash : t.isSlash = true)
    (h : u ∈ t.ends s) : s = separator :: u := by
  cases t with
  | literal c =>
    obtain rfl : c = '/' := by simpa [Token.isSlash] using hslash
    rw [Token.ends, Option.mem_toList] at h
    exact Text.dropPrefix?_eq_some_iff.1 h
  | _ => cases hslash

theorem Token.count_of_mem_ends {t : Token} {s u : Bytes} (hplain : t.isPlain = true)
    (hconfined : t.isConfined = true) (h : u ∈ t.ends s) :
    s.count separator = u.count separator + if t.isSlash then 1 else 0 := by
  cases hslash : t.isSlash with
  | true =>
    rw [Token.eq_cons_of_isSlash hslash h, List.count_cons_self]
    rfl
  | false =>
    obtain ⟨w, rfl, hw, -⟩ := Token.exists_taken hplain hconfined hslash h
    rw [List.count_append, List.count_eq_zero.2 hw, Nat.zero_add]
    rfl

theorem count_of_mem_listEnds {ts : List Token} {s u : Bytes}
    (hplain : ∀ t ∈ ts, t.isPlain = true) (hconfined : Token.areConfined ts = true)
    (h : u ∈ Token.listEnds ts s) :
    s.count separator = u.count separator + ts.countP Token.isSlash := by
  induction ts generalizing s with
  | nil =>
    rw [Token.listEnds, List.mem_singleton] at h
    simp [h]
  | cons t ts ih =>
    rw [List.forall_mem_cons] at hplain
    rw [Token.areConfined, Bool.and_eq_true] at hconfined
    rw [Token.listEnds, List.mem_flatMap] at h
    obtain ⟨v, hv, hu⟩ := h
    rw [Token.count_of_mem_ends hplain.1 hconfined.1 hv, ih hplain.2 hconfined.2 hu,
      List.countP_cons]
    omega

theorem mem_listEnds_of_matches {p : Pattern} {s : Bytes} (hplain : ∀ t ∈ p, t.isPlain = true)
    (h : p.Matches s) : [] ∈ Token.listEnds p s := by
  unfold Pattern.Matches at h
  split at h
  · cases hplain .leading (List.mem_cons_self ..)
  · exact h

theorem count_le_of_matches {text : List Char} {p : Pattern} {s : Bytes} (hbraces : '{' ∉ text)
    (hstars : ¬ ['*', '*'] <:+: text) (hread : Pattern.read text = .ok p)
    (hconfined : Token.areConfined p = true) (h : p.Matches s) :
    s.count separator ≤ text.count '/' := by
  obtain ⟨hplain, hcount⟩ := plain_of_read hbraces hstars hread
  rw [count_of_mem_listEnds hplain hconfined (mem_listEnds_of_matches hplain h)]
  simpa using hcount

end Lintel.Glob
