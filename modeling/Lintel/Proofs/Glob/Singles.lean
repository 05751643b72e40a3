import Lintel.Proofs.Glob.Characters

/-!
# What an expansion reads by characters

Among the files that a walk reaches, an expansion finds those whose candidates a shell reads the
pattern as, where the candidate is made of one-byte characters and no class can take a separator: no
class holds one, or the depth of the walk leaves none to it. Any other candidate is found at least
if the question marks and classes stand for one-byte characters in it.
-/
namespace Lintel.Glob

/-- What a shell lets a question mark and a class stand for. -/
def InName (c : Char) : Prop := c ≠ '/'

def InNameByte (c : Char) : Prop := c ≠ '/' ∧ c.toNat < 128

/-! ## Separators -/

def Token.separators (t : Token) : Nat := if t.isSlash then 1 else 0

theorem countP_isSlash_cons (t : Token) (ts : List Token) :
    (t :: ts).countP Token.isSlash = t.separators + ts.countP Token.isSlash := by
  rw [List.countP_cons, Nat.add_comm, Token.separators]

theorem count_singleton_of_ne {c : Char} (hc : c ≠ '/') : [c].count '/' = 0 := by
  simp [List.count_eq_zero, hc.symm]

theorem Token.count_of_spells_inName {t : Token} (hplain : t.isPlain = true) {w : List Char}
    (h : t.Spells InName w) : w.count '/' = t.separators := by
  cases t with
  | literal c =>
    rw [Token.Spells] at h
    simp [h, Token.separators, Token.isSlash, List.count_singleton]
  | one =>
    obtain ⟨c, rfl, hc, -⟩ := h
    exact count_singleton_of_ne hc
  | many => exact List.count_eq_zero.2 h
  | oneOf negated ranges =>
    obtain ⟨c, rfl, hc, -⟩ := h
    exact count_singleton_of_ne hc
  | leading => cases hplain
  | inner => cases hplain
  | trailing => cases hplain
  | either choices => cases hplain

theorem Token.spells_inName_of_count {takes : Char → Prop} {t : Token} (hplain : t.isPlain = true)
    {w : List Char} (h : t.Spells takes w) :
    t.separators ≤ w.count '/' ∧ (w.count '/' ≤ t.separators → t.Spells InName w) := by
  have hsame : t.Spells InName w → t.separators ≤ w.count '/' ∧
      (w.count '/' ≤ t.separators → t.Spells InName w) := fun hname =>
    ⟨Nat.le_of_eq (Token.count_of_spells_inName hplain hname).symm, fun _ => hname⟩
  cases t with
  | literal c => exact hsame h
  | one =>
    obtain ⟨c, rfl, hc, -⟩ := h
    exact hsame ⟨c, rfl, hc, hc⟩
  | many => exact hsame h
  -- only a class takes a separator that the pattern does not have
  | oneOf negated ranges =>
    obtain ⟨c, rfl, -, hclass⟩ := h
    refine ⟨Nat.zero_le _, fun hnone => ⟨c, rfl, fun hc => ?_, hclass⟩⟩
    rw [hc] at hnone
    cases hnone
  | leading => cases hplain
  | inner => cases hplain
  | trailing => cases hplain
  | either choices => cases hplain

theorem count_of_listSpells_inName {ts : List Token} (hplain : ∀ t ∈ ts, t.isPlain = true)
    {w : List Char} (h : Token.ListSpells InName ts w) :
    w.count '/' = ts.countP Token.isSlash := by
  induction ts generalizing w with
  | nil =>
    rw [Token.ListSpells] at h
    rw [h]
    rfl
  | cons t ts ih =>
    rw [List.forall_mem_cons] at hplain
    obtain ⟨u, v, rfl, hu, hv⟩ := h
    rw [List.count_append, Token.count_of_spells_inName hplain.1 hu, ih hplain.2 hv,
      countP_isSlash_cons]

theorem listSpells_inName_of_count {takes : Char → Prop} {ts : List Token}
    (hplain : ∀ t ∈ ts, t.isPlain = true) {w : List Char} (h : Token.ListSpells takes ts w) :
    ts.countP Token.isSlash ≤ w.count '/' ∧
      (w.count '/' ≤ ts.countP Token.isSlash → Token.ListSpells InName ts w) := by
  induction ts generalizing w with
  | nil => exact ⟨Nat.zero_le _, fun _ => h⟩
  | cons t ts ih =>
    rw [List.forall_mem_cons] at hplain
    obtain ⟨u, v, rfl, hu, hv⟩ := h
    obtain ⟨hlow, hname⟩ := Token.spells_inName_of_count hplain.1 hu
    obtain ⟨hlows, hnames⟩ := ih hplain.2 hv
    rw [List.count_append, countP_isSlash_cons]
    exact ⟨by omega, fun hle => ⟨u, v, rfl, hname (by omega), hnames (by omega)⟩⟩

/-! ## Plain texts -/

section Plain

variable {text : List Char} {pattern : Pattern} (hbraces : '{' ∉ text)
  (hstars : ¬ ['*', '*'] <:+: text) (hread : Pattern.read text = .ok pattern)
include hbraces hstars hread

theorem listSpells_of_spells {takes : Char → Prop} {cs : List Char}
    (h : pattern.Spells takes cs) : Token.ListSpells takes pattern cs := by
  refine (Pattern.spells_iff.1 h).resolve_left ?_
  rintro rfl
  cases (plain_of_read hbraces hstars hread).1 .leading (List.mem_cons_self ..)

theorem count_le_of_spells {cs : List Char} (h : pattern.Spells InName cs) :
    cs.count '/' ≤ text.count '/' := by
  obtain ⟨htokens, hcount⟩ := plain_of_read hbraces hstars hread
  rwa [count_of_listSpells_inName htokens (listSpells_of_spells hbraces hstars hread h)]

theorem spells_inName_of_count_le {takes : Char → Prop} {cs : List Char}
    (hslashes : text.count '/' ≤ pattern.countP Token.isSlash) (h : pattern.Spells takes cs)
    (hle : cs.count '/' ≤ text.count '/') : pattern.Spells InName cs := by
  have hlist := listSpells_of_spells hbraces hstars hread h
  have hname := (listSpells_inName_of_count (plain_of_read hbraces hstars hread).1 hlist).2
  exact Pattern.spells_iff.2 (.inr (hname (Nat.le_trans hle hslashes)))

end Plain

/-! ## The walk -/

namespace Search

variable {text : List Char} {pattern : Pattern} {dir : Path}

/-- No separator of a path is left to a class: no class holds one, or the search goes no deeper than
its text and none of those of the text is in a class. -/
def KeepsApart (text : List Char) (pattern : Pattern) : Prop :=
  Token.areConfined pattern = true ∨
    '{' ∉ text ∧ ¬ ['*', '*'] <:+: text ∧ text.count '/' ≤ pattern.countP Token.isSlash

theorem length_le_iff {names : Location} {c : Path}
    (hparts : c.parts = (leadingParts text).map Text.bytes ++ names) {cs : List Char}
    (hcs : c.bytes = Text.bytes cs) :
    names.length ≤ (otherParts text).length ↔ cs.count '/' ≤ text.count '/' := by
  have hcandidate := congrArg List.length hparts
  rw [Path.parts, Text.length_pieces, hcs, List.length_append, List.length_map] at hcandidate
  have hbytes : (Text.bytes cs).count Path.separator = cs.count '/' :=
    Text.count_bytes (d := '/') (by decide) cs
  have htext := Text.length_pieces '/' text
  rw [(pieces_eq_leadingParts_append text).1, List.length_append] at htext
  omega

/-- The file of a path is reached by the walk and none of the names to it is passed over. -/
def Offers (text : List Char) (pattern : Pattern) (t : Tree) (dir file : Path) : Prop :=
  ∃ names, (ofText text pattern).Reaches t dir names ∧
    (AsksHidden text ∨ ∀ name ∈ names, name.head? ≠ some Path.dot) ∧
    file = ((ofText text pattern).root dir).extend names

section Reached

variable {names : Location} {c : Path} {cs : List Char} (hcs : c.bytes = Text.bytes cs)
  (hread : Pattern.read text = .ok pattern)
  (hparts : c.parts = (leadingParts text).map Text.bytes ++ names)
include hcs hread hparts

theorem within_depthLimit_of_spells (h : pattern.Spells InName cs) :
    (ofText text pattern).depthLimit.all (names.length ≤ ·) = true := by
  refine depthLimit_all_iff.2 (or_iff_not_imp_left.2 fun hplain => ?_)
  obtain ⟨hstars, hbraces⟩ := not_or.1 hplain
  exact (length_le_iff hparts hcs).2 (count_le_of_spells hbraces hstars hread h)

theorem spells_of_within_depthLimit (hapart : KeepsApart text pattern)
    (hascii : ∀ c ∈ cs, c.toNat < 128)
    (hlimit : (ofText text pattern).depthLimit.all (names.length ≤ ·) = true)
    (h : pattern.Matches c.bytes) : pattern.Spells InName cs := by
  rw [hcs] at h
  rcases hapart with hconfined | ⟨hbraces, hstars, hslashes⟩
  · exact Pattern.spells_of_matches (fun _ hc => hc) (.inl hconfined) hascii h
  · have hany : pattern.Spells (fun _ => True) cs :=
      Pattern.spells_of_matches (fun _ _ => trivial) (.inr trivial) hascii h
    have hdeep := (depthLimit_all_iff.1 hlimit).resolve_left (not_or.2 ⟨hstars, hbraces⟩)
    exact spells_inName_of_count_le hbraces hstars hread hslashes hany
      ((length_le_iff hparts hcs).1 hdeep)

end Reached

end Search

/-- A file that is offered is found if the pattern is read as its candidate with one-byte characters
for the question marks and classes. Where the candidate is made of such characters and no separator
is left to a class, a file is found exactly if it is offered and a shell reads the pattern as its
candidate. -/
theorem mem_expand_iff_spells {t : Tree} (ht : t.WellFormed) {dir : Path} {token : String}
    {text : List Char} (htext : patternText token = .ok text) {pattern : Pattern}
    (hread : Pattern.read text = .ok pattern) {found : List Path}
    (hexpand : expand t dir token = .ok found) {file c : Path}
    (hcandidate : (Search.ofText text pattern).candidate dir file = some c) {cs : List Char}
    (hcs : c.bytes = Text.bytes cs) :
    (Search.Offers text pattern t dir file → pattern.Spells InNameByte cs → file ∈ found) ∧
      ((∀ c ∈ cs, c.toNat < 128) → Search.KeepsApart text pattern →
        (file ∈ found ↔ Search.Offers text pattern t dir file ∧ pattern.Spells InName cs)) := by
  rw [eq_run_of_expand hexpand htext hread]
  have hfound : Search.Offers text pattern t dir file → pattern.Spells InNameByte cs →
      file ∈ (Search.ofText text pattern).run t dir := by
    intro h' h
    obtain ⟨names, hreaches, hshown, rfl⟩ := h'
    have hmatches : pattern.Matches c.bytes := hcs ▸ Pattern.matches_of_spells (fun _ h => h.2) h
    have hname : pattern.Spells InName cs := Pattern.spells_mono (fun _ _ h => h.1) h
    obtain ⟨hne, hnames⟩ := hreaches.isName ht
    have hparts := Search.parts_of_matches hread hnames hne hcandidate hmatches
    have hlimit := Search.within_depthLimit_of_spells hcs hread hparts hname
    exact (Search.mem_run_ofText_iff ht hread hcandidate).2
      ⟨names, hreaches, Search.visits_ofText.2 ⟨hlimit, hshown⟩, hmatches, hparts, rfl⟩
  refine ⟨hfound, fun hascii hapart => ⟨fun h => ?_, fun h => hfound h.1 ?_⟩⟩
  · obtain ⟨names, hreaches, hvisits, hmatches, hparts, hfile⟩ :=
      (Search.mem_run_ofText_iff ht hread hcandidate).1 h
    obtain ⟨hlimit, hshown⟩ := Search.visits_ofText.1 hvisits
    exact ⟨⟨names, hreaches, hshown, hfile⟩,
      Search.spells_of_within_depthLimit hcs hread hparts hapart hascii hlimit hmatches⟩
  · exact Pattern.spells_mono (fun c hc h => ⟨h, hascii c hc⟩) h.2

def shelf : Tree := ⟨[
  ([bytesOf "a"], .directory),
  ([bytesOf "a", bytesOf "c"], .file [] false)]⟩

theorem mem_expand_iff_spells_shelf :
    let text := "?/[!b]".toList
    let top := Path.ofString "/"
    ∃ pattern found, Pattern.read text = .ok pattern ∧ Token.areConfined pattern = false ∧
      Search.KeepsApart text pattern ∧ expand shelf top "?/[!b]" = .ok found ∧
      Path.ofString "/a/c" ∈ found ∧
      Search.Offers text pattern shelf top (.ofString "/a/c") ∧
      pattern.Spells InName "a/c".toList := by
  intro text top
  have hclasses : (Pattern.read text).toOption.any (fun pattern =>
      ! Token.areConfined pattern && text.count '/' ≤ pattern.countP Token.isSlash) = true := by
    decide +kernel
  obtain ⟨pattern, hread, hpattern⟩ := exists_ok_of_any hclasses
  rw [Bool.and_eq_true, Bool.not_eq_true', decide_eq_true_eq] at hpattern
  have hfound : (expand shelf top "?/[!b]").toOption.any (·.contains (Path.ofString "/a/c")) =
      true := by
    decide +kernel
  obtain ⟨found, hexpand, hfile⟩ := exists_ok_of_any hfound
  have hmem : Path.ofString "/a/c" ∈ found := List.contains_iff_mem.1 hfile
  have hcandidate : (Search.ofText text pattern).candidate top (.ofString "/a/c") =
      some (.ofString "a/c") := rfl
  have hcs : (Path.ofString "a/c").bytes = Text.bytes "a/c".toList := by decide +kernel
  have hascii : ∀ c ∈ "a/c".toList, c.toNat < 128 := by simp
  have hapart : Search.KeepsApart text pattern := .inr ⟨by decide, by decide +kernel, hpattern.2⟩
  have hoffered := ((mem_expand_iff_spells (by decide +kernel) (by decide +kernel) hread hexpand
    hcandidate hcs).2 hascii hapart).1 hmem
  exact ⟨pattern, found, hread, hpattern.1, hapart, hexpand, hmem, hoffered.1, hoffered.2⟩

def accented : Tree := ⟨[([bytesOf "é"], .file [] false)]⟩

theorem single_characters_misread :
    let top := Path.ofString "/"
    (∃ p : Pattern, Pattern.read "?".toList = .ok p ∧
      Search.Offers "?".toList p accented top (.ofString "/é") ∧ p.Spells InName "é".toList ∧
      expand accented top "?" = .ok []) ∧
    (∃ p : Pattern, Pattern.read "??".toList = .ok p ∧ ¬ p.Spells InName "é".toList ∧
      expand accented top "??" = .ok [.ofString "/é"]) ∧
    ∃ p : Pattern, Pattern.read "a[/]c".toList = .ok p ∧ ¬ p.Spells InName "a/c".toList ∧
      expand shelf top "a[/]c" = .ok [.ofString "/a/c"] := by
  intro top
  have hexpand : ∀ e ∈ [(accented, "?", []), (accented, "??", [Path.ofString "/é"]),
      (shelf, "a[/]c", [Path.ofString "/a/c"])], (expand e.1 top e.2.1).toOption = some e.2.2 := by
    decide +kernel
  simp only [List.forall_mem_cons, toOption_eq_some_iff] at hexpand
  refine ⟨⟨[.one], by simp [Pattern.read, readFrom, Reading.start, Reading.push], ?_, ?_,
      hexpand.1⟩,
    ⟨[.one, .one], by simp [Pattern.read, readFrom, Reading.start, Reading.push], ?_, hexpand.2.1⟩,
    ?_⟩
  · refine ⟨[bytesOf "é"], ⟨[], .file [] false, rfl, rfl, ?_, ?_⟩, .inr (by decide +kernel), rfl⟩
    · exact Tree.mem_below_iff.2 ⟨by simp, List.mem_cons_self ..⟩
    · decide +kernel
  · have hname : 'é' ≠ '/' := by decide
    exact ⟨['é'], [], rfl, ⟨'é', rfl, hname, hname⟩, rfl⟩
  · intro h'
    obtain ⟨u, v, hcut, ⟨c, rfl, -⟩, u', v', rfl, ⟨d, rfl, -⟩, -⟩ := h'
    simp at hcut
  · have hcount : (Pattern.read "a[/]c".toList).toOption.any
        (fun pattern => pattern.countP Token.isSlash == 0) = true := by
      decide +kernel
    obtain ⟨p, hread, hnone⟩ := exists_ok_of_any hcount
    refine ⟨p, hread, fun h => ?_, hexpand.2.2.1⟩
    have hbraces : '{' ∉ "a[/]c".toList := by decide
    have hstars : ¬ ['*', '*'] <:+: "a[/]c".toList := by decide +kernel
    have hsame := count_of_listSpells_inName (plain_of_read hbraces hstars hread).1
      (listSpells_of_spells hbraces hstars hread h)
    rw [beq_iff_eq.1 hnone] at hsame
    cases hsame

end Lintel.Glob
