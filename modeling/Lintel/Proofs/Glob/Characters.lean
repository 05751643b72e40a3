import Lintel.Proofs.Glob.Hidden

/-!
# Patterns read by characters

A shell reads a pattern by characters: a question mark and a class each stand for one character of a
name. Tokens take bytes. The two readings agree on what is made of one-byte characters, as far as no
class takes a separator; and whatever is read with such characters for the question marks and
classes is matched, whatever stands around them.
-/
namespace Lintel.Glob

def InClass (negated : Bool) (ranges : List (Char × Char)) (c : Char) : Prop :=
  (∃ r ∈ ranges, r.1 ≤ c ∧ c ≤ r.2) ↔ negated = false

section Spelling

variable (takes : Char → Prop)

mutual

/-- The texts that a token stands for, where a question mark and a class stand for a single
character that `takes` allows. -/
def Token.Spells : Token → List Char → Prop
  | .literal c, w => w = [c]
  | .one, w => ∃ c, w = [c] ∧ c ≠ '/' ∧ takes c
  | .many, w => '/' ∉ w
  | .leading, w => w = [] ∨ w.getLast? = some '/'
  | .inner, w => ∃ v, w = '/' :: v ∧ (v = [] ∨ v.getLast? = some '/')
  | .trailing, w => w.head? = some '/'
  | .oneOf negated ranges, w => ∃ c, w = [c] ∧ takes c ∧ InClass negated ranges c
  | .either choices, w =>
      if Token.allVoid choices then w = [] else Token.ChoiceSpells choices w

def Token.ListSpells : List Token → List Char → Prop
  | [], w => w = []
  | t :: ts, w => ∃ u v, w = u ++ v ∧ Token.Spells t u ∧ Token.ListSpells ts v

def Token.ChoiceSpells : List (List Token) → List Char → Prop
  | [], _ => False
  | c :: cs, w => (Token.areVoid c = false ∧ Token.ListSpells c w) ∨ Token.ChoiceSpells cs w

end

/-- The paths that a pattern stands for. A pattern of two stars alone stands for every path. -/
def Pattern.Spells (p : Pattern) (w : List Char) : Prop :=
  match p with
  | [.leading] => True
  | _ => Token.ListSpells takes p w

theorem Pattern.spells_iff {takes : Char → Prop} {p : Pattern} {w : List Char} :
    p.Spells takes w ↔ p = [.leading] ∨ Token.ListSpells takes p w := by
  unfold Pattern.Spells
  split
  · simp
  · rename_i hstars
    exact (or_iff_right hstars).symm

end Spelling

theorem Pattern.matches_iff {p : Pattern} {s : Bytes} :
    p.Matches s ↔ p = [.leading] ∨ [] ∈ Token.listEnds p s := by
  unfold Pattern.Matches
  split
  · simp
  · rename_i hstars
    exact (or_iff_right hstars).symm

/-! ## What single characters are allowed -/

mutual

theorem Token.spells_mono {takes takes' : Char → Prop} (t : Token) {w : List Char}
    (htakes : ∀ c ∈ w, takes c → takes' c) (h : t.Spells takes w) : t.Spells takes' w := by
  cases t with
  | literal c => exact h
  | one =>
    obtain ⟨c, rfl, hc, htake⟩ := h
    exact ⟨c, rfl, hc, htakes c (List.mem_cons_self ..) htake⟩
  | many => exact h
  | leading => exact h
  | inner => exact h
  | trailing => exact h
  | oneOf negated ranges =>
    obtain ⟨c, rfl, htake, hclass⟩ := h
    exact ⟨c, rfl, htakes c (List.mem_cons_self ..) htake, hclass⟩
  | either choices =>
    rw [Token.Spells] at h ⊢
    split
    · rename_i hvoid
      rwa [if_pos hvoid] at h
    · rename_i hvoid
      rw [if_neg hvoid] at h
      exact Token.choiceSpells_mono choices htakes h

theorem Token.listSpells_mono {takes takes' : Char → Prop} (ts : List Token) {w : List Char}
    (htakes : ∀ c ∈ w, takes c → takes' c) (h : Token.ListSpells takes ts w) :
    Token.ListSpells takes' ts w := by
  cases ts with
  | nil => exact h
  | cons t ts =>
    obtain ⟨u, v, rfl, hu, hv⟩ := h
    rw [List.forall_mem_append] at htakes
    exact ⟨u, v, rfl, Token.spells_mono t htakes.1 hu, Token.listSpells_mono ts htakes.2 hv⟩

theorem Token.choiceSpells_mono {takes takes' : Char → Prop} (choices : List (List Token))
    {w : List Char} (htakes : ∀ c ∈ w, takes c → takes' c)
    (h : Token.ChoiceSpells takes choices w) : Token.ChoiceSpells takes' choices w := by
  cases choices with
  | nil => exact h
  | cons ts choices =>
    exact h.imp (And.imp_right (Token.listSpells_mono ts htakes))
      (Token.choiceSpells_mono choices htakes)

end

theorem Pattern.spells_mono {takes takes' : Char → Prop} {p : Pattern} {w : List Char}
    (htakes : ∀ c ∈ w, takes c → takes' c) (h : p.Spells takes w) : p.Spells takes' w :=
  Pattern.spells_iff.2 ((Pattern.spells_iff.1 h).imp_right (Token.listSpells_mono p htakes))

/-! ## Classes -/

section OneByte

variable {c : Char}

theorem toNat_ofNat (hc : c.toNat < 128) : (UInt8.ofNat c.toNat).toNat = c.toNat := by
  rw [UInt8.toNat_ofNat']
  omega

theorem ofNat_le_iff {d : Char} (hc : c.toNat < 128) (hd : d.toNat < 128) :
    UInt8.ofNat c.toNat ≤ UInt8.ofNat d.toNat ↔ c ≤ d := by
  rw [UInt8.le_iff_toNat_le, toNat_ofNat hc, toNat_ofNat hd]
  exact Iff.rfl

theorem lt_of_le_toNat (hc : c.toNat < 128) {b : UInt8} (hb : 128 ≤ b.toNat) :
    UInt8.ofNat c.toNat < b := by
  rw [UInt8.lt_iff_toNat_lt, toNat_ofNat hc]
  omega

theorem ofNat_eq_separator_iff (hc : c.toNat < 128) :
    UInt8.ofNat c.toNat = separator ↔ c = '/' := by
  have hmem := Text.mem_encode_iff (d := '/') (by decide) (c := c)
  rw [Text.encode_of_lt hc, List.mem_singleton] at hmem
  rw [← hmem, eq_comm]
  rfl

theorem getLast_encode_le_iff (hc : c.toNat < 128) {d : Char} {b : UInt8}
    (hb : (String.utf8EncodeChar d).getLast? = some b) : b ≤ UInt8.ofNat c.toNat ↔ d ≤ c := by
  by_cases hd : d.toNat < 128
  · obtain rfl : UInt8.ofNat d.toNat = b := by simpa [Text.encode_of_lt hd] using hb
    exact ofNat_le_iff hd hc
  · have hlow := lt_of_le_toNat hc (Text.le_of_mem_encode (Nat.le_of_not_lt hd)
      (List.mem_of_getLast? hb))
    have hlt : c < d := Nat.lt_of_lt_of_le hc (Nat.le_of_not_lt hd)
    exact iff_of_false (UInt8.not_le.2 hlow) (Char.not_le.2 hlt)

theorem le_head_encode_iff (hc : c.toNat < 128) {d : Char} {b : UInt8} {bs : Bytes}
    (hb : String.utf8EncodeChar d = b :: bs) : UInt8.ofNat c.toNat ≤ b ↔ c ≤ d := by
  by_cases hd : d.toNat < 128
  · obtain ⟨rfl, -⟩ := List.cons.inj ((Text.encode_of_lt hd).symm.trans hb)
    exact ofNat_le_iff hc hd
  · have hlow := lt_of_le_toNat hc (Text.le_of_mem_encode (Nat.le_of_not_lt hd)
      (hb ▸ List.mem_cons_self ..))
    have hlt : c < d := Nat.lt_of_lt_of_le hc (Nat.le_of_not_lt hd)
    exact iff_of_true (UInt8.le_of_lt hlow) (Nat.le_of_lt hlt)

theorem encode_of_mem (hc : c.toNat < 128) {d : Char}
    (h : UInt8.ofNat c.toNat ∈ String.utf8EncodeChar d) :
    String.utf8EncodeChar d = [UInt8.ofNat c.toNat] := by
  rw [(Text.mem_encode_iff hc).1 h, Text.encode_of_lt hc]

theorem exists_mem_byteRanges_iff (hc : c.toNat < 128) (range : Char × Char) :
    (∃ r ∈ byteRanges range, r.1 ≤ UInt8.ofNat c.toNat ∧ UInt8.ofNat c.toNat ≤ r.2) ↔
      range.1 ≤ c ∧ c ≤ range.2 := by
  obtain ⟨low, high⟩ := range
  have hsingle : ∀ bs : Bytes,
      (∃ r ∈ bs.map fun b => (b, b), r.1 ≤ UInt8.ofNat c.toNat ∧ UInt8.ofNat c.toNat ≤ r.2) ↔
        UInt8.ofNat c.toNat ∈ bs := by
    intro bs
    constructor
    · intro h'
      obtain ⟨r, hr, hlow, hhigh⟩ := h'
      obtain ⟨b, hb, rfl⟩ := List.mem_map.1 hr
      rwa [UInt8.le_antisymm hhigh hlow]
    · exact fun hmem => ⟨_, List.mem_map.2 ⟨_, hmem, rfl⟩, UInt8.le_refl _, UInt8.le_refl _⟩
  rw [byteRanges]
  dsimp only
  split
  · rename_i heq
    rw [hsingle, Text.mem_encode_iff hc, ← heq]
    constructor
    · rintro rfl
      exact ⟨Char.le_refl _, Char.le_refl _⟩
    · exact fun h => Char.le_antisymm h.1 h.2
  · have hlow : String.utf8EncodeChar low ≠ [] := by simp
    have hlast := List.getLast?_eq_some_getLast hlow
    obtain ⟨h, tail, hhigh⟩ :=
      List.exists_cons_of_ne_nil (l := String.utf8EncodeChar high) (by simp)
    have hfront : UInt8.ofNat c.toNat ∉ (String.utf8EncodeChar low).dropLast := by
      intro hmem
      rw [encode_of_mem hc (List.dropLast_subset _ hmem)] at hmem
      cases hmem
    have hback : UInt8.ofNat c.toNat ∉ tail := by
      intro hmem
      have hone := encode_of_mem hc (d := high) (hhigh ▸ List.mem_cons_of_mem _ hmem)
      rw [hhigh] at hone
      rw [(List.cons.inj hone).2] at hmem
      cases hmem
    rw [hlast, hhigh]
    simp only [List.mem_append, List.mem_cons, or_and_right, exists_or, hsingle, exists_eq_left,
      hfront, hback, false_or, or_false]
    rw [getLast_encode_le_iff hc hlast, le_head_encode_iff hc hhigh]

end OneByte

theorem classHolds_iff {negated : Bool} {ranges : List (Char × Char)} {c : Char}
    (hc : c.toNat < 128) :
    classHolds negated ranges (UInt8.ofNat c.toNat) = true ↔ InClass negated ranges c := by
  have hany : ((ranges.flatMap byteRanges).any fun r =>
      r.1 ≤ UInt8.ofNat c.toNat && UInt8.ofNat c.toNat ≤ r.2) = true ↔
        ∃ r ∈ ranges, r.1 ≤ c ∧ c ≤ r.2 := by
    simp only [List.any_flatMap, List.any_eq_true, Bool.and_eq_true, decide_eq_true_eq,
      exists_mem_byteRanges_iff hc]
  rw [InClass, ← hany, classHolds]
  cases negated <;> simp

/-! ## What spanning tokens leave -/

theorem mem_behindSeparators_iff {s u : Bytes} :
    u ∈ behindSeparators s ↔ ∃ w, s = w ++ separator :: u := by
  induction s with
  | nil => simp [behindSeparators]
  | cons b rest ih =>
    rw [behindSeparators, List.mem_append, ih]
    constructor
    · intro h'
      rcases h' with h | ⟨w, rfl⟩
      · split at h
        · rename_i hb
          rw [hb, List.mem_singleton.1 h]
          exact ⟨[], rfl⟩
        · cases h
      · exact ⟨b :: w, rfl⟩
    · intro h'
      obtain ⟨w, hcut⟩ := h'
      cases w with
      | nil =>
        obtain ⟨rfl, rfl⟩ := List.cons.inj hcut
        exact .inl (by simp)
      | cons c w => exact .inr ⟨w, (List.cons.inj hcut).2⟩

theorem mem_suffixes_iff {s u : Bytes} : u ∈ suffixes s ↔ ∃ w, s = w ++ u := by
  induction s with
  | nil => simp [suffixes, eq_comm]
  | cons b rest ih =>
    rw [suffixes, List.mem_cons, ih]
    constructor
    · intro h'
      rcases h' with rfl | ⟨w, rfl⟩
      · exact ⟨[], rfl⟩
      · exact ⟨b :: w, rfl⟩
    · intro h'
      obtain ⟨w, hcut⟩ := h'
      cases w with
      | nil => exact .inl hcut.symm
      | cons c w => exact .inr ⟨w, (List.cons.inj hcut).2⟩

theorem mem_leading_iff {s u : Bytes} :
    u ∈ s :: behindSeparators s ↔ s = u ∨ ∃ w, s = w ++ separator :: u := by
  rw [List.mem_cons, mem_behindSeparators_iff, eq_comm]

/-! ## What is read is matched -/

theorem mem_leading_of_spells {w : List Char} (h : w = [] ∨ w.getLast? = some '/')
    (rest : Bytes) :
    rest ∈ (Text.bytes w ++ rest) :: behindSeparators (Text.bytes w ++ rest) := by
  rw [mem_leading_iff]
  rcases h with rfl | h
  · exact .inl rfl
  · obtain ⟨v, rfl⟩ := List.getLast?_eq_some_iff.1 h
    exact .inr ⟨Text.bytes v, by rw [Text.bytes_append, List.append_assoc]; rfl⟩

mutual

theorem Token.mem_ends_of_spells {takes : Char → Prop} (htakes : ∀ c, takes c → c.toNat < 128)
    (t : Token) {w : List Char} (h : t.Spells takes w) (rest : Bytes) :
    rest ∈ t.ends (Text.bytes w ++ rest) := by
  cases t with
  | literal c =>
    rw [Token.Spells] at h
    rw [h, Token.ends, Option.mem_toList, Text.dropPrefix?_eq_some_iff]
    simp
  | one =>
    obtain ⟨c, rfl, hc, htake⟩ := h
    have hsep := mt (ofNat_eq_separator_iff (htakes c htake)).1 hc
    simp [Token.ends, Text.encode_of_lt (htakes c htake), hsep]
  | many =>
    rw [Token.Spells] at h
    exact mem_starEnds_iff.2 ⟨_, rfl, mt (Text.mem_bytes_iff (d := '/') (by decide)).1 h⟩
  | leading => exact mem_leading_of_spells h rest
  | inner =>
    obtain ⟨v, rfl, hv⟩ := h
    exact mem_leading_of_spells hv rest
  | trailing =>
    obtain ⟨v, rfl⟩ := List.head?_eq_some_iff.1 h
    exact mem_suffixes_iff.2 ⟨Text.bytes v, rfl⟩
  | oneOf negated ranges =>
    obtain ⟨c, rfl, htake, hclass⟩ := h
    have hholds := (classHolds_iff (htakes c htake)).2 hclass
    simp [Token.ends, Text.encode_of_lt (htakes c htake), hholds]
  | either choices =>
    rw [Token.Spells] at h
    rw [Token.ends]
    split at h
    · rename_i hvoid
      rw [if_pos hvoid, h]
      simp
    · rename_i hvoid
      rw [if_neg hvoid]
      exact Token.mem_choiceEnds_of_spells htakes choices h rest

theorem Token.mem_listEnds_of_spells {takes : Char → Prop}
    (htakes : ∀ c, takes c → c.toNat < 128) (ts : List Token) {w : List Char}
    (h : Token.ListSpells takes ts w) (rest : Bytes) :
    rest ∈ Token.listEnds ts (Text.bytes w ++ rest) := by
  cases ts with
  | nil =>
    rw [Token.ListSpells] at h
    simp [h, Token.listEnds]
  | cons t ts =>
    rw [Token.ListSpells] at h
    obtain ⟨u, v, rfl, hu, hv⟩ := h
    rw [Text.bytes_append, List.append_assoc, Token.listEnds, List.mem_flatMap]
    exact ⟨_, Token.mem_ends_of_spells htakes t hu _, Token.mem_listEnds_of_spells htakes ts hv rest⟩

theorem Token.mem_choiceEnds_of_spells {takes : Char → Prop}
    (htakes : ∀ c, takes c → c.toNat < 128) (choices : List (List Token)) {w : List Char}
    (h : Token.ChoiceSpells takes choices w) (rest : Bytes) :
    rest ∈ Token.choiceEnds choices (Text.bytes w ++ rest) := by
  cases choices with
  | nil =>
    rw [Token.ChoiceSpells] at h
    exact h.elim
  | cons ts choices =>
    rw [Token.ChoiceSpells] at h
    rw [Token.choiceEnds, List.mem_append]
    rcases h with ⟨hvoid, h⟩ | h
    · rw [hvoid, if_neg Bool.false_ne_true]
      exact .inl (Token.mem_listEnds_of_spells htakes ts h rest)
    · exact .inr (Token.mem_choiceEnds_of_spells htakes choices h rest)

end

theorem Pattern.matches_of_spells {takes : Char → Prop} (htakes : ∀ c, takes c → c.toNat < 128)
    {p : Pattern} {w : List Char} (h : p.Spells takes w) : p.Matches (Text.bytes w) := by
  refine Pattern.matches_iff.2 ((Pattern.spells_iff.1 h).imp_right fun hlist => ?_)
  simpa using Token.mem_listEnds_of_spells htakes p hlist []

/-! ## What is matched is read -/

section Sound

variable {cs : List Char} (hcs : ∀ c ∈ cs, c.toNat < 128)
include hcs

theorem exists_cons_of_bytes {b : UInt8} {u : Bytes} (h : Text.bytes cs = b :: u) :
    ∃ c v, cs = c :: v ∧ b = UInt8.ofNat c.toNat ∧ u = Text.bytes v := by
  cases cs with
  | nil => cases h
  | cons c v =>
    rw [Text.bytes_cons, Text.encode_of_lt (hcs c (List.mem_cons_self ..))] at h
    obtain ⟨hb, hu⟩ := List.cons.inj h
    exact ⟨c, v, rfl, hb.symm, hu.symm⟩

theorem exists_append_of_bytes {x y : Bytes} (h : Text.bytes cs = x ++ y) :
    ∃ w v, cs = w ++ v ∧ Text.bytes w = x ∧ Text.bytes v = y := by
  induction x generalizing cs with
  | nil => exact ⟨[], cs, rfl, rfl, h⟩
  | cons b x ih =>
    obtain ⟨c, v, rfl, rfl, hv⟩ := exists_cons_of_bytes hcs h
    rw [List.forall_mem_cons] at hcs
    obtain ⟨w, v, rfl, rfl, rfl⟩ := ih hcs.2 hv.symm
    exact ⟨c :: w, v, rfl, by simp [Text.encode_of_lt hcs.1], rfl⟩

theorem exists_of_mem_leading {u : Bytes}
    (h : u ∈ Text.bytes cs :: behindSeparators (Text.bytes cs)) :
    ∃ w v, cs = w ++ v ∧ u = Text.bytes v ∧ (w = [] ∨ w.getLast? = some '/') := by
  rcases mem_leading_iff.1 h with h | ⟨x, h⟩
  · exact ⟨[], cs, rfl, h.symm, .inl rfl⟩
  · obtain ⟨w, v, rfl, -, hv⟩ := exists_append_of_bytes hcs h
    rw [List.forall_mem_append] at hcs
    obtain ⟨c, v, rfl, hc, rfl⟩ := exists_cons_of_bytes hcs.2 hv
    obtain rfl := (ofNat_eq_separator_iff (hcs.2 c (List.mem_cons_self ..))).1 hc.symm
    exact ⟨w ++ ['/'], v, by simp, rfl, .inr (by simp)⟩

end Sound

mutual

theorem Token.exists_spells_of_mem_ends {takes : Char → Prop} (htakes : ∀ c, c ≠ '/' → takes c)
    (t : Token) (hsep : t.isConfined = true ∨ takes '/') {cs : List Char}
    (hcs : ∀ c ∈ cs, c.toNat < 128) {u : Bytes} (h : u ∈ t.ends (Text.bytes cs)) :
    ∃ w v, cs = w ++ v ∧ u = Text.bytes v ∧ t.Spells takes w := by
  cases t with
  | literal c =>
    rw [Token.ends, Option.mem_toList, Text.dropPrefix?_eq_some_iff] at h
    obtain ⟨w, v, rfl, hw, rfl⟩ := exists_append_of_bytes hcs h
    have hone : Text.bytes w = Text.bytes [c] := by simpa using hw
    exact ⟨w, v, rfl, rfl, Text.bytes_injective hone⟩
  | one =>
    cases hbytes : Text.bytes cs with
    | nil => simp [Token.ends, hbytes] at h
    | cons b rest =>
      rw [hbytes] at h
      obtain ⟨c, v, rfl, rfl, rfl⟩ := exists_cons_of_bytes hcs hbytes
      have hiff := ofNat_eq_separator_iff (hcs c (List.mem_cons_self ..))
      by_cases hc : c = '/'
      · simp [Token.ends, hiff.2 hc] at h
      · obtain rfl : u = Text.bytes v := by simpa [Token.ends, hiff, hc] using h
        exact ⟨[c], v, rfl, rfl, c, rfl, hc, htakes c hc⟩
  | many =>
    obtain ⟨x, hcut, hx⟩ := mem_starEnds_iff.1 h
    obtain ⟨w, v, rfl, rfl, rfl⟩ := exists_append_of_bytes hcs hcut
    exact ⟨w, v, rfl, rfl, mt (Text.mem_bytes_iff (d := '/') (by decide)).2 hx⟩
  | leading => exact exists_of_mem_leading hcs h
  | inner =>
    cases hbytes : Text.bytes cs with
    | nil => simp [Token.ends, hbytes] at h
    | cons b rest =>
      rw [hbytes] at h
      obtain ⟨c, cs, rfl, rfl, rfl⟩ := exists_cons_of_bytes hcs hbytes
      rw [List.forall_mem_cons] at hcs
      by_cases hc : c = '/'
      · simp only [Token.ends, (ofNat_eq_separator_iff hcs.1).2 hc, if_true] at h
        obtain ⟨w, v, rfl, rfl, hw⟩ := exists_of_mem_leading hcs.2 h
        exact ⟨c :: w, v, rfl, rfl, w, by rw [hc], hw⟩
      · simp [Token.ends, ofNat_eq_separator_iff hcs.1, hc] at h
  | trailing =>
    cases hbytes : Text.bytes cs with
    | nil => simp [Token.ends, hbytes] at h
    | cons b rest =>
      rw [hbytes] at h
      obtain ⟨c, cs, rfl, rfl, rfl⟩ := exists_cons_of_bytes hcs hbytes
      rw [List.forall_mem_cons] at hcs
      by_cases hc : c = '/'
      · simp only [Token.ends, (ofNat_eq_separator_iff hcs.1).2 hc, if_true] at h
        obtain ⟨x, hx⟩ := mem_suffixes_iff.1 h
        obtain ⟨w, v, rfl, -, rfl⟩ := exists_append_of_bytes hcs.2 hx
        exact ⟨c :: w, v, rfl, rfl, by rw [hc]; rfl⟩
      · simp [Token.ends, ofNat_eq_separator_iff hcs.1, hc] at h
  | oneOf negated ranges =>
    cases hbytes : Text.bytes cs with
    | nil => simp [Token.ends, hbytes] at h
    | cons b rest =>
      rw [hbytes] at h
      obtain ⟨c, v, rfl, rfl, rfl⟩ := exists_cons_of_bytes hcs hbytes
      have hascii := hcs c (List.mem_cons_self ..)
      by_cases hholds : classHolds negated ranges (UInt8.ofNat c.toNat) = true
      · obtain rfl : u = Text.bytes v := by simpa [Token.ends, hholds] using h
        have htake : takes c := by
          by_cases hc : c = '/'
          · -- only a class that is not confined holds the separator
            refine hc ▸ hsep.resolve_left fun hconfined => ?_
            rw [(ofNat_eq_separator_iff hascii).2 hc] at hholds
            simp [Token.isConfined, hholds] at hconfined
          · exact htakes c hc
        exact ⟨[c], v, rfl, rfl, c, rfl, htake, (classHolds_iff hascii).1 hholds⟩
      · simp [Token.ends, hholds] at h
  | either choices =>
    rw [Token.ends] at h
    split at h
    · rename_i hvoid
      refine ⟨[], cs, rfl, List.mem_singleton.1 h, ?_⟩
      rw [Token.Spells, if_pos hvoid]
    · rename_i hvoid
      obtain ⟨w, v, hcut, hu, hw⟩ :=
        Token.exists_spells_of_mem_choiceEnds htakes choices hsep hcs h
      exact ⟨w, v, hcut, hu, by rwa [Token.Spells, if_neg hvoid]⟩

theorem Token.exists_spells_of_mem_listEnds {takes : Char → Prop}
    (htakes : ∀ c, c ≠ '/' → takes c) (ts : List Token)
    (hsep : Token.areConfined ts = true ∨ takes '/') {cs : List Char}
    (hcs : ∀ c ∈ cs, c.toNat < 128) {u : Bytes} (h : u ∈ Token.listEnds ts (Text.bytes cs)) :
    ∃ w v, cs = w ++ v ∧ u = Text.bytes v ∧ Token.ListSpells takes ts w := by
  cases ts with
  | nil => exact ⟨[], cs, rfl, List.mem_singleton.1 h, rfl⟩
  | cons t ts =>
    rw [Token.areConfined, Bool.and_eq_true] at hsep
    rw [Token.listEnds, List.mem_flatMap] at h
    obtain ⟨x, hx, hu⟩ := h
    obtain ⟨w, v, rfl, rfl, hw⟩ :=
      Token.exists_spells_of_mem_ends htakes t (hsep.imp_left And.left) hcs hx
    rw [List.forall_mem_append] at hcs
    obtain ⟨w', v', rfl, rfl, hw'⟩ :=
      Token.exists_spells_of_mem_listEnds htakes ts (hsep.imp_left And.right) hcs.2 hu
    exact ⟨w ++ w', v', (List.append_assoc ..).symm, rfl, w, w', rfl, hw, hw'⟩

theorem Token.exists_spells_of_mem_choiceEnds {takes : Char → Prop}
    (htakes : ∀ c, c ≠ '/' → takes c) (choices : List (List Token))
    (hsep : Token.allConfined choices = true ∨ takes '/') {cs : List Char}
    (hcs : ∀ c ∈ cs, c.toNat < 128) {u : Bytes}
    (h : u ∈ Token.choiceEnds choices (Text.bytes cs)) :
    ∃ w v, cs = w ++ v ∧ u = Text.bytes v ∧ Token.ChoiceSpells takes choices w := by
  cases choices with
  | nil => cases h
  | cons ts choices =>
    rw [Token.allConfined, Bool.and_eq_true] at hsep
    rw [Token.choiceEnds, List.mem_append] at h
    rcases h with h | h
    · split at h
      · cases h
      · rename_i hvoid
        obtain ⟨w, v, hcut, hu, hw⟩ :=
          Token.exists_spells_of_mem_listEnds htakes ts (hsep.imp_left And.left) hcs h
        exact ⟨w, v, hcut, hu, .inl ⟨Bool.eq_false_iff.2 hvoid, hw⟩⟩
    · obtain ⟨w, v, hcut, hu, hw⟩ :=
        Token.exists_spells_of_mem_choiceEnds htakes choices (hsep.imp_left And.right) hcs h
      exact ⟨w, v, hcut, hu, .inr hw⟩

end

theorem Pattern.spells_of_matches {takes : Char → Prop} (htakes : ∀ c, c ≠ '/' → takes c)
    {p : Pattern} (hsep : Token.areConfined p = true ∨ takes '/') {cs : List Char}
    (hcs : ∀ c ∈ cs, c.toNat < 128) (h : p.Matches (Text.bytes cs)) : p.Spells takes cs := by
  refine Pattern.spells_iff.2 ((Pattern.matches_iff.1 h).imp_right fun hlist => ?_)
  obtain ⟨w, v, rfl, hv, hw⟩ := Token.exists_spells_of_mem_listEnds htakes p hsep hcs hlist
  obtain rfl : [] = v := Text.bytes_injective hv
  rwa [List.append_nil]

end Lintel.Glob
