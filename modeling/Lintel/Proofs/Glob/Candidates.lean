import Mathlib.Data.List.TakeWhile
import Lintel.Proofs.Glob.Pruned
import Lintel.Proofs.Path.Joined

/-!
# Candidates and the parts of a text

A search walks below its root and holds each file against the pattern as it is spelled from the
working directory. Silent parts of a text and of the working directory may get lost on the way. Of a
file that is accepted none is lost: the parts of its candidate are the leading parts of the text and
then the names that lead to the file from the root.
-/
namespace Lintel.Glob

namespace Search

def Reaches (s : Search) (t : Tree) (dir : Path) (names : Location) : Prop :=
  ∃ l o, t.locate (s.root dir) = .ok l ∧ t.at? l = some .directory ∧ (names, o) ∈ t.below l ∧
    t.isFile ((s.root dir).extend names) = true

theorem mem_run_iff {s : Search} {t : Tree} {dir p : Path} :
    p ∈ s.run t dir ↔ ∃ names, s.Reaches t dir names ∧ s.visits names = true ∧
      s.accepts dir ((s.root dir).extend names) = true ∧ p = (s.root dir).extend names := by
  unfold run
  dsimp only
  constructor
  · intro h
    split at h
    · cases h
    · rename_i l hlocate
      split at h
      · cases h
      · rename_i hdirectory
        obtain ⟨hwalk, hfile⟩ := List.mem_filter.1 h
        obtain ⟨⟨names, o⟩, he, rfl⟩ := List.mem_map.1 hwalk
        obtain ⟨hbelow, hvisits⟩ := List.mem_filter.1 he
        rw [Bool.and_eq_true] at hfile
        exact ⟨names, ⟨l, o, hlocate, not_ne_iff.1 hdirectory, hbelow, hfile.2⟩, hvisits, hfile.1,
          rfl⟩
  · intro h'
    obtain ⟨names, ⟨l, o, hlocate, hdirectory, hbelow, hfile⟩, hvisits, haccepts, rfl⟩ := h'
    rw [hlocate]
    dsimp only
    rw [if_neg (not_ne_iff.2 hdirectory)]
    refine List.mem_filter.2 ⟨List.mem_map.2 ⟨(names, o), List.mem_filter.2 ⟨hbelow, hvisits⟩, rfl⟩,
      ?_⟩
    rw [Bool.and_eq_true]
    exact ⟨haccepts, hfile⟩

theorem Reaches.isName {s : Search} {t : Tree} {dir : Path} {names : Location}
    (ht : t.WellFormed) (h : s.Reaches t dir names) : names ≠ [] ∧ ∀ b ∈ names, Path.IsName b := by
  obtain ⟨l, o, -, -, hbelow, -⟩ := h
  obtain ⟨hne, hmem⟩ := Tree.mem_below_iff.1 hbelow
  exact ⟨hne, fun b hb => ((ht.named _ hmem).2 b (List.mem_append_right _ hb)).1⟩

/-! ## The text that leads to the root -/

variable {text : List Char}

def leadingText (text : List Char) : List Char := ['/'].intercalate (leadingParts text)

theorem no_slash_of_mem_leadingParts {part : List Char} (h : part ∈ leadingParts text) :
    '/' ∉ part := by
  intro hsep
  simpa using Text.no_sep_of_mem_pieces (mem_pieces_of_mem_leadingParts h) _ hsep

theorem eq_leadingText_append (hne : leadingParts text ≠ []) :
    text = leadingText text ++ '/' :: ['/'].intercalate (otherParts text) := by
  obtain ⟨hpieces, hothers⟩ := pieces_eq_leadingParts_append text
  rw [leadingText, ← Text.intercalate_append '/' hne hothers, ← hpieces, Text.intercalate_pieces]

theorem isMark_of_mem_leadingText {c : Char} (h : c ∈ leadingText text) : isMark c = false := by
  rcases Text.mem_intercalate h with rfl | ⟨part, hpart, hin⟩
  · rfl
  · exact isMark_of_isLiteralPart (isLiteralPart_of_mem hpart) hin

theorem parts_leadingText (hne : leadingParts text ≠ []) :
    (⟨Text.bytes (leadingText text)⟩ : Path).parts = (leadingParts text).map Text.bytes := by
  rw [leadingText, bytes_intercalate]
  refine Text.pieces_intercalate (fun b hb hsep => ?_) (by simpa using hne)
  obtain ⟨part, hpart, rfl⟩ := List.mem_map.1 hb
  exact no_slash_of_mem_leadingParts hpart ((Text.mem_bytes_iff (d := '/') (by decide)).1 hsep)

theorem leadingText_ne_nil (hne : leadingParts text ≠ []) (hrooted : isRooted text = false) :
    leadingText text ≠ [] := by
  intro hempty
  have htext := eq_leadingText_append hne
  rw [hempty, List.nil_append] at htext
  rw [htext] at hrooted
  cases hrooted

theorem isAbsolute_bytes {cs : List Char} (h : cs.head? ≠ some '/') :
    (⟨Text.bytes cs⟩ : Path).isAbsolute = false := by
  cases cs with
  | nil => rfl
  | cons c cs =>
    have hc : c ≠ '/' := by simpa using h
    have hsep : Path.separator ∉ String.utf8EncodeChar c := fun hmem =>
      hc ((Text.mem_encode_iff (d := '/') (by decide)).1 hmem)
    obtain ⟨a, rest, hencode⟩ :=
      List.exists_cons_of_ne_nil (l := String.utf8EncodeChar c) (by simp)
    have ha : a ≠ Path.separator := by
      rintro rfl
      exact hsep (hencode ▸ List.mem_cons_self ..)
    simp [Path.isAbsolute, hencode, ha]

theorem isAbsolute_leadingText (hne : leadingParts text ≠ []) (hrooted : isRooted text = false) :
    (⟨Text.bytes (leadingText text)⟩ : Path).isAbsolute = false := by
  refine isAbsolute_bytes fun hhead => ?_
  obtain ⟨more, hmore⟩ := List.head?_eq_some_iff.1 hhead
  rw [eq_leadingText_append hne, hmore] at hrooted
  cases hrooted

theorem leadingParts_of_isRooted (hrooted : isRooted text = true) :
    ∃ parts, leadingParts text = [] :: parts := by
  obtain ⟨rest, rfl⟩ := isRooted_iff.1 hrooted
  exact ⟨_, leadingParts_absolute rest⟩

/-! ## The parts of a candidate -/

/-- The parts of a candidate as they come out of joining and taking off. An empty last part of the
leading ones is lost in the join, silent parts in front where the working directory is taken off. -/
def Trimmed (text : List Char) (names : List Bytes) (c : Path) : Prop :=
  ∃ front, ((leadingParts text).map Text.bytes = front ∨
      (leadingParts text).map Text.bytes = front ++ [[]]) ∧
    (c.parts = front ++ names ∨ c.parts = (front ++ names).dropWhile Path.isSilent)

theorem trimmed_stem (hne : leadingParts text ≠ []) {names : List Bytes} {c : Path}
    (h : c.parts = (⟨Text.bytes (leadingText text)⟩ : Path).stem ++ names ∨
      c.parts =
        ((⟨Text.bytes (leadingText text)⟩ : Path).stem ++ names).dropWhile Path.isSilent) :
    Trimmed text names c := by
  refine ⟨_, ?_, h⟩
  rw [← parts_leadingText hne]
  exact (Path.stem_cases _).imp_left Eq.symm

theorem exists_candidate_rooted (hrooted : isRooted text = true) (pattern : Pattern) (dir : Path)
    {names : List Bytes} (hnames : ∀ b ∈ names, Path.IsName b) (hne : names ≠ []) :
    ∃ c, (ofText text pattern).candidate dir (((ofText text pattern).root dir).extend names) =
      some c ∧ Trimmed text names c := by
  have habs : (ofText text pattern).absolute = true := hrooted
  have hbase : ['/'].intercalate (ofText text pattern).literal = leadingText text := rfl
  obtain ⟨parts, hparts⟩ := leadingParts_of_isRooted hrooted
  rw [candidate, root, hbase, if_pos habs]
  refine ⟨_, rfl, ?_⟩
  by_cases hempty : leadingText text = []
  · have hnil : parts = [] := by
      by_contra hcons
      rw [leadingText, hparts, List.intercalate_cons_of_ne_nil hcons] at hempty
      simp at hempty
    rw [if_pos hempty, if_pos habs]
    refine ⟨[[]], .inl (by rw [hparts, hnil]; rfl), .inl ?_⟩
    rw [Path.parts_extend _ hnames hne]
    rfl
  · rw [if_neg hempty, if_pos habs]
    exact trimmed_stem (by simp [hparts]) (.inl (Path.parts_extend _ hnames hne))

theorem exists_candidate_relative (hrooted : isRooted text = false) (pattern : Pattern)
    (dir : Path) {names : List Bytes} (hnames : ∀ b ∈ names, Path.IsName b) (hne : names ≠ []) :
    ∃ c, (ofText text pattern).candidate dir (((ofText text pattern).root dir).extend names) =
      some c ∧ Trimmed text names c := by
  have habs : ¬ (ofText text pattern).absolute = true := Bool.eq_false_iff.1 hrooted
  have hbase : ['/'].intercalate (ofText text pattern).literal = leadingText text := rfl
  obtain ⟨front, b, hcut⟩ := (List.eq_nil_or_concat names).resolve_left hne
  rw [List.concat_eq_append] at hcut
  have hloud : Path.isSilent b = false := Path.not_isSilent_of_isName (hnames b (by simp [hcut]))
  rw [candidate, root, hbase, if_neg habs]
  by_cases hnone : leadingParts text = []
  · have hempty : leadingText text = [] := by rw [leadingText, hnone]; rfl
    rw [if_pos hempty, if_neg habs]
    obtain ⟨c, hstrip, hc⟩ := Path.exists_stripPrefix (Path.parts_extend dir hnames hne)
      (Path.isAbsolute_extend dir hnames) (by rw [hcut, List.getLast?_concat]) hloud
    exact ⟨c, hstrip, [], .inl (by rw [hnone]; rfl), hc⟩
  · rw [if_neg (leadingText_ne_nil hnone hrooted), if_neg habs]
    have hrelative := isAbsolute_leadingText hnone hrooted
    have hparts := Path.parts_extend (dir.join ⟨Text.bytes (leadingText text)⟩) hnames hne
    rw [Path.stem_join dir hrelative, List.append_assoc] at hparts
    have hroot := (Path.isAbsolute_extend (dir.join ⟨Text.bytes (leadingText text)⟩) hnames).trans
      (Path.isAbsolute_join_relative dir hrelative)
    obtain ⟨c, hstrip, hc⟩ := Path.exists_stripPrefix hparts hroot
      (by rw [hcut, ← List.append_assoc, List.getLast?_concat]) hloud
    exact ⟨c, hstrip, trimmed_stem hnone hc⟩

theorem exists_candidate (text : List Char) (pattern : Pattern) (dir : Path) {names : List Bytes}
    (hnames : ∀ b ∈ names, Path.IsName b) (hne : names ≠ []) :
    ∃ c, (ofText text pattern).candidate dir (((ofText text pattern).root dir).extend names) =
      some c ∧ Trimmed text names c := by
  cases hrooted : isRooted text with
  | true => exact exists_candidate_rooted hrooted pattern dir hnames hne
  | false => exact exists_candidate_relative hrooted pattern dir hnames hne

theorem Trimmed.eq_append {names : List Bytes} {c : Path} (h : Trimmed text names c)
    (hnames : ∀ b ∈ names, Path.IsName b)
    (hstarts : leadingParts text ≠ [] →
      ∃ ps, c.parts = (leadingParts text).map Text.bytes ++ ps) :
    c.parts = (leadingParts text).map Text.bytes ++ names := by
  obtain ⟨front, hfront, hc⟩ := h
  have hkept : c.parts = front ++ names := by
    refine hc.elim id fun hc => hc.trans (List.dropWhile_eq_self_iff.2 fun hpos hsilent => ?_)
    cases front with
    | nil =>
      rw [Path.not_isSilent_of_isName (hnames _ (List.getElem_mem hpos))] at hsilent
      cases hsilent
    | cons b front =>
      -- a silent part in front belongs to the leading ones, and those are all there
      have hb : Path.isSilent b = true := hsilent
      have hhead : c.parts.head? = some b := by
        obtain ⟨ps, hps⟩ := hstarts (fun hnone => by simp [hnone] at hfront)
        rcases hfront with hfront | hfront <;> rw [hps, hfront] <;> rfl
      have hloud := List.head?_dropWhile_not Path.isSilent (b :: front ++ names)
      rw [← hc, hhead] at hloud
      simp [hb] at hloud
  rcases hfront with hfront | hfront
  · rw [hkept, hfront]
  · obtain ⟨ps, hlost⟩ := hstarts (fun hnone => by simp [hnone] at hfront)
    rw [hkept, hfront, List.append_assoc] at hlost
    have hmem : [] ∈ names := by rw [List.append_cancel_left hlost]; exact List.mem_cons_self ..
    exact absurd rfl (hnames _ hmem).1

/-! ## Accepted candidates -/

theorem accepts_iff {pattern : Pattern} {dir file : Path} :
    (ofText text pattern).accepts dir file = true ↔
      ∃ c, (ofText text pattern).candidate dir file = some c ∧ pattern.Matches c.bytes := by
  rw [accepts, Option.any_eq_true]
  exact exists_congr fun c => and_congr_right fun _ => Pattern.accepts_iff

theorem parts_of_matches {pattern : Pattern} (hread : Pattern.read text = .ok pattern) {dir : Path}
    {names : List Bytes} (hnames : ∀ b ∈ names, Path.IsName b) (hne : names ≠ []) {c : Path}
    (hcandidate : (ofText text pattern).candidate dir
      (((ofText text pattern).root dir).extend names) = some c)
    (hmatches : pattern.Matches c.bytes) :
    c.parts = (leadingParts text).map Text.bytes ++ names := by
  obtain ⟨c', hc', htrimmed⟩ := exists_candidate text pattern dir hnames hne
  obtain rfl : c = c' := by simpa [hcandidate] using hc'
  refine htrimmed.eq_append hnames fun hleading => ?_
  rw [eq_leadingText_append hleading] at hread
  obtain ⟨u, hu⟩ := starts_of_matches (fun _ => isMark_of_mem_leadingText) hread hmatches
  refine ⟨Text.pieces (· == separator) u, ?_⟩
  rw [← parts_leadingText hleading, Path.parts, hu]
  exact Text.pieces_append_sep (by rfl) _ _

/-- A search finds a file with a given candidate if its walk goes there and the pattern matches the
candidate, which then has the leading parts of the text and the names of the walk. -/
theorem mem_run_ofText_iff {t : Tree} (ht : t.WellFormed) {pattern : Pattern}
    (hread : Pattern.read text = .ok pattern) {dir file c : Path}
    (hcandidate : (ofText text pattern).candidate dir file = some c) :
    file ∈ (ofText text pattern).run t dir ↔
      ∃ names, (ofText text pattern).Reaches t dir names ∧
        (ofText text pattern).visits names = true ∧ pattern.Matches c.bytes ∧
        c.parts = (leadingParts text).map Text.bytes ++ names ∧
        file = ((ofText text pattern).root dir).extend names := by
  rw [mem_run_iff]
  constructor
  · intro h'
    obtain ⟨names, hreaches, hvisits, haccepts, rfl⟩ := h'
    obtain ⟨c', hc', hmatches⟩ := accepts_iff.1 haccepts
    obtain rfl : c = c' := by simpa [hcandidate] using hc'
    obtain ⟨hne, hnames⟩ := hreaches.isName ht
    exact ⟨names, hreaches, hvisits, hmatches,
      parts_of_matches hread hnames hne hcandidate hmatches, rfl⟩
  · intro h'
    obtain ⟨names, hreaches, hvisits, hmatches, -, rfl⟩ := h'
    exact ⟨names, hreaches, hvisits, accepts_iff.2 ⟨c, hcandidate, hmatches⟩, rfl⟩

end Search

end Lintel.Glob
