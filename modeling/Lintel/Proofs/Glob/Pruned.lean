import Lintel.Proofs.Glob.Depth
import Lintel.Proofs.Glob.Found
import Lintel.Proofs.Path.Nested
import Lintel.Proofs.Tree.WellFormed

/-!
# A pruned search is exact

A search starts where the literal parts of its text lead, goes no deeper than its other parts, and
passes over hidden names unless it asks for them. In a tree without links it finds all the same
every file that the pattern matches and whose names behind the literal ones are not hidden, in
order and once: whatever the pattern matches begins with the literal parts, and without braces and
pairs of stars it has no more names than the text has parts.
-/
namespace Lintel.Glob

namespace Search

/-! ## The parts of a text -/

def isRooted (text : List Char) : Bool := text.head? == some '/'

def unrooted (text : List Char) : List Char := if isRooted text then text.tail else text

def Direct (text : List Char) : Prop :=
  ∀ part ∈ Text.pieces (· == '/') (unrooted text), part ≠ [] ∧ part ≠ ['.'] ∧ part ≠ ['.', '.']

instance (text : List Char) : Decidable (Direct text) :=
  inferInstanceAs (Decidable (∀ part ∈ Text.pieces (· == '/') (unrooted text), _))

def otherParts (text : List Char) : List (List Char) :=
  (Text.pieces (· == '/') text).drop (leadingParts text).length

/-- Some part behind the leading ones asks for a dot in front. -/
def AsksHidden (text : List Char) : Prop :=
  ∃ part ∈ otherParts text, ['.'] <+: part ∨ ['{', '.'] <:+: part ∨ [',', '.'] <:+: part

def leadingNames (text : List Char) : Location := (leadingParts (unrooted text)).map Text.bytes

def origin (text : List Char) (dir : Location) : Location := if isRooted text then [] else dir

variable {text : List Char}

theorem isRooted_iff : isRooted text = true ↔ ∃ rest, text = '/' :: rest := by
  rw [isRooted, beq_iff_eq, List.head?_eq_some_iff]

theorem eq_append_unrooted (text : List Char) :
    text = (if isRooted text then ['/'] else []) ++ unrooted text := by
  by_cases h : isRooted text = true
  · obtain ⟨rest, rfl⟩ := isRooted_iff.1 h
    simp [unrooted, h]
  · simp [unrooted, h]

theorem pieces_eq_leadingParts_append (text : List Char) :
    Text.pieces (· == '/') text = leadingParts text ++ otherParts text ∧ otherParts text ≠ [] := by
  obtain ⟨tail, htail⟩ := List.takeWhile_prefix (p := isLiteralPart)
    (l := (Text.pieces (· == '/') text).dropLast)
  have hpieces : Text.pieces (· == '/') text = leadingParts text ++
      (tail ++ [(Text.pieces (· == '/') text).getLast (Text.pieces_ne_nil _ _)]) := by
    rw [← List.append_assoc, leadingParts, htail, List.dropLast_append_getLast]
  have hothers : otherParts text =
      tail ++ [(Text.pieces (· == '/') text).getLast (Text.pieces_ne_nil _ _)] := by
    rw [otherParts]
    conv_lhs => rw [hpieces]
    rw [List.drop_left]
  rw [hothers]
  exact ⟨hpieces, by simp⟩

theorem leadingParts_eq_append (text : List Char) :
    leadingParts text = (if isRooted text then [[]] else []) ++ leadingParts (unrooted text) := by
  conv_lhs => rw [eq_append_unrooted text]
  split
  · exact leadingParts_absolute _
  · rfl

theorem mem_pieces_of_mem_leadingParts {part : List Char} (h : part ∈ leadingParts text) :
    part ∈ Text.pieces (· == '/') text := by
  rw [(pieces_eq_leadingParts_append text).1]
  exact List.mem_append_left _ h

theorem isLiteralPart_of_mem {part : List Char} (h : part ∈ leadingParts text) :
    isLiteralPart part = true :=
  List.all_eq_true.1 List.all_takeWhile _ h

theorem isMark_of_isLiteralPart {part : List Char} (h : isLiteralPart part = true) {c : Char}
    (hc : c ∈ part) : isMark c = false := by
  have hmeta := List.all_eq_true.1 h c hc
  simp only [metaCharacters, List.contains_cons, List.contains_nil, Bool.or_false, Bool.not_or,
    Bool.and_eq_true, Bool.not_eq_true'] at hmeta
  simp [isMark, hmeta]

theorem showsHidden_ofText (text : List Char) (pattern : Pattern) :
    (ofText text pattern).showsHidden = true ↔ AsksHidden text := by
  have hhead : ∀ part : List Char, (part.head? == some '.') = true ↔ ['.'] <+: part := by
    intro part
    cases part with
    | nil => simp
    | cons c part => simp only [List.head?_cons, List.cons_prefix_cons, List.nil_prefix, and_true,
        beq_iff_eq, Option.some.injEq, eq_comm (a := c)]
  have hparts : (ofText text pattern).parts = otherParts text := rfl
  simp only [showsHidden, AsksHidden, hparts, List.any_eq_true, Bool.or_eq_true, hhead,
    hasPair_iff, or_assoc]

/-! ## Leading names -/

theorem isName_bytes {part : List Char} (hsep : '/' ∉ part)
    (h : part ≠ [] ∧ part ≠ ['.'] ∧ part ≠ ['.', '.']) : Path.IsName (Text.bytes part) := by
  have hne : ∀ other : List Char, part ≠ other → Text.bytes part ≠ Text.bytes other :=
    fun other hother heq => hother (Text.bytes_injective heq)
  exact ⟨hne [] h.1, hne ['.'] h.2.1, hne ['.', '.'] h.2.2,
    fun hmem => hsep ((Text.mem_bytes_iff (d := '/') (by decide)).1 hmem)⟩

theorem bytes_intercalate (parts : List (List Char)) :
    Text.bytes (['/'].intercalate parts) = Path.joinParts (parts.map Text.bytes) := by
  induction parts with
  | nil => rfl
  | cons part parts ih =>
    by_cases hnil : parts = []
    · simp [hnil, Path.joinParts]
    · have hslash : Text.bytes ['/'] = [Path.separator] := rfl
      rw [List.intercalate_cons_of_ne_nil hnil, Text.bytes_append, Text.bytes_append, ih, hslash,
        List.map_cons, Path.joinParts, Path.joinParts,
        List.intercalate_cons_of_ne_nil (by simp [hnil])]

theorem bytes_leadingParts (text : List Char) :
    Text.bytes (['/'].intercalate (leadingParts (unrooted text))) =
      Path.joinParts (leadingNames text) :=
  bytes_intercalate _

theorem isName_of_mem_leadingNames (hdirect : Direct text) :
    ∀ b ∈ leadingNames text, Path.IsName b := by
  intro b hb
  obtain ⟨part, hpart, rfl⟩ := List.mem_map.1 hb
  have hmem := mem_pieces_of_mem_leadingParts hpart
  refine isName_bytes (fun hsep => ?_) (hdirect part hmem)
  simpa using Text.no_sep_of_mem_pieces hmem _ hsep

theorem root_ofText (hdirect : Direct text) (pattern : Pattern) {dir : Location}
    (hdir : ∀ b ∈ dir, Path.IsName b) :
    (ofText text pattern).root (.ofNames true dir) =
      .ofNames true (origin text dir ++ leadingNames text) := by
  have hliteral : (ofText text pattern).literal =
      (if isRooted text then [[]] else []) ++ leadingParts (unrooted text) :=
    leadingParts_eq_append text
  have habs : (ofText text pattern).absolute = isRooted text := rfl
  have hnames := isName_of_mem_leadingNames hdirect
  rw [root, hliteral, habs, origin]
  by_cases hnil : leadingParts (unrooted text) = []
  · have hleading : leadingNames text = [] := by rw [leadingNames, hnil, List.map_nil]
    rw [hnil, hleading]
    cases isRooted text
    · simp
    · rfl
  · have hleading : leadingNames text ≠ [] := by simpa [leadingNames] using hnil
    have hbase : ['/'].intercalate (leadingParts (unrooted text)) ≠ [] := by
      intro hempty
      obtain ⟨c, hlast, -⟩ := Path.getLast?_joinParts hnames hleading
      rw [← bytes_leadingParts, hempty] at hlast
      cases hlast
    cases isRooted text
    · have hjoin := Path.join_ofNames hdir hnames hleading
      simpa [hbase, Path.ofNames, bytes_leadingParts] using hjoin
    · have hslash : Text.bytes ['/'] = [Path.separator] := rfl
      have hrooted : ['/'].intercalate ([] :: leadingParts (unrooted text)) =
          ['/'] ++ ['/'].intercalate (leadingParts (unrooted text)) := by
        rw [List.intercalate_cons_of_ne_nil hnil, List.nil_append]
      simp only [if_true, List.singleton_append, List.nil_append] at hrooted ⊢
      rw [hrooted, if_neg (List.cons_ne_nil _ _), Text.bytes_cons, bytes_leadingParts]
      rfl

theorem exists_names_of_matches {pattern : Pattern} (hdirect : Direct text)
    (hread : Pattern.read text = .ok pattern) {names : Location}
    (hnames : ∀ b ∈ names, Path.IsName b) (hne : names ≠ [])
    (h : pattern.Matches (Path.ofNames (isRooted text) names).bytes) :
    ∃ more, more ≠ [] ∧ names = leadingNames text ++ more := by
  by_cases hnil : leadingParts (unrooted text) = []
  · exact ⟨names, hne, by rw [leadingNames, hnil]; rfl⟩
  · obtain ⟨hpieces, hothers⟩ := pieces_eq_leadingParts_append (unrooted text)
    have hleading : leadingNames text ≠ [] := by simpa [leadingNames] using hnil
    let slash : List Char := if isRooted text then ['/'] else []
    let base := slash ++ ['/'].intercalate (leadingParts (unrooted text))
    have htext : text = base ++ '/' :: ['/'].intercalate (otherParts (unrooted text)) := by
      rw [List.append_assoc, ← Text.intercalate_append '/' hnil hothers, ← hpieces,
        Text.intercalate_pieces]
      exact eq_append_unrooted text
    have hbase : ∀ c ∈ base, isMark c = false := by
      intro c hc
      rcases List.mem_append.1 hc with hslash | hc
      · obtain rfl : c = '/' := by
          by_cases hrooted : isRooted text = true
          · simpa [slash, if_pos hrooted] using hslash
          · simp [slash, if_neg hrooted] at hslash
        rfl
      · rcases Text.mem_intercalate hc with rfl | ⟨part, hpart, hin⟩
        · rfl
        · exact isMark_of_isLiteralPart (isLiteralPart_of_mem hpart) hin
    rw [htext] at hread
    obtain ⟨u, hu⟩ := starts_of_matches hbase hread h
    have hbytes : Text.bytes base =
        (if isRooted text then [Path.separator] else []) ++ Path.joinParts (leadingNames text) := by
      rw [Text.bytes_append, bytes_leadingParts]
      dsimp only [slash]
      split <;> rfl
    rw [hbytes, List.append_assoc] at hu
    have hjoin : Path.joinParts names =
        Path.joinParts (leadingNames text) ++ Path.separator :: u := List.append_cancel_left hu
    refine ⟨Text.pieces (· == Path.separator) u, Text.pieces_ne_nil _ _, ?_⟩
    rw [← Path.pieces_joinParts hnames hne, hjoin, Text.pieces_append_sep (by simp),
      Path.pieces_joinParts (isName_of_mem_leadingNames hdirect) hleading]

/-! ## The limit -/

theorem count_separator_ofNames (rooted : Bool) {names : Location}
    (hnames : ∀ b ∈ names, Path.IsName b) (hne : names ≠ []) :
    (Path.ofNames rooted names).bytes.count separator + 1 =
      (if rooted then 1 else 0) + names.length := by
  have hlength := Text.length_pieces Path.separator (Path.joinParts names)
  rw [Path.pieces_joinParts hnames hne] at hlength
  have hsep : separator = Path.separator := rfl
  rw [Path.ofNames, List.count_append, hsep]
  cases rooted <;> simp <;> omega

theorem not_infix_of_otherParts {w : List Char} (hne : w ≠ []) (hsep : '/' ∉ w)
    (hmeta : ∀ c ∈ w, isMark c = true) (h : ∀ part ∈ otherParts text, ¬ w <:+: part) :
    ¬ w <:+: text := by
  intro hmem
  have hpieces : ∀ c ∈ w, (c == '/') = false := by
    intro c hc
    rw [beq_eq_false_iff_ne]
    rintro rfl
    exact hsep hc
  obtain ⟨part, hpart, hin⟩ := Text.exists_piece_of_infix hpieces hmem
  rw [(pieces_eq_leadingParts_append text).1] at hpart
  rcases List.mem_append.1 hpart with hleading | hother
  · obtain ⟨c, hc⟩ := List.exists_mem_of_ne_nil w hne
    have hplain := isMark_of_isLiteralPart (isLiteralPart_of_mem hleading) (hin.mem hc)
    rw [hmeta c hc] at hplain
    cases hplain
  · exact h part hother hin

theorem depthLimit_all_iff {pattern : Pattern} {n : Nat} :
    (ofText text pattern).depthLimit.all (n ≤ ·) = true ↔
      (['*', '*'] <:+: text ∨ '{' ∈ text) ∨ n ≤ (otherParts text).length := by
  have hparts : (ofText text pattern).parts = otherParts text := rfl
  have hpiece : ∀ part ∈ otherParts text, part <:+: text := fun part hpart =>
    Text.infix_of_mem_pieces (List.mem_of_mem_drop hpart)
  have hlifts : ((otherParts text).any fun part => hasPair '*' '*' part || part.contains '{') =
      true ↔ ['*', '*'] <:+: text ∨ '{' ∈ text := by
    simp only [List.any_eq_true, Bool.or_eq_true, hasPair_iff, List.contains_iff_mem]
    constructor
    · intro h
      obtain ⟨part, hpart, hstars | hbrace⟩ := h
      · exact .inl (hstars.trans (hpiece part hpart))
      · exact .inr ((hpiece part hpart).mem hbrace)
    · intro hor
      by_contra hnone
      simp only [not_exists, not_and, not_or] at hnone
      rcases hor with hstars | hbrace
      · exact not_infix_of_otherParts (by simp) (by decide) (by simp [isMark])
          (fun part hpart => (hnone part hpart).1) hstars
      · obtain ⟨before, after, hcut⟩ := List.append_of_mem hbrace
        have hin : ['{'] <:+: text := ⟨before, after, by simp [hcut]⟩
        exact not_infix_of_otherParts (by simp) (by decide) (by simp [isMark])
          (fun part hpart h => (hnone part hpart).2 (h.mem (List.mem_singleton_self _))) hin
  rw [← hlifts, depthLimit, hparts]
  split
  · rename_i hlifted
    exact iff_of_true rfl (.inl hlifted)
  · rename_i hplain
    rw [or_iff_right hplain, Option.all_some, decide_eq_true_eq]

theorem within_depthLimit {pattern : Pattern} (hread : Pattern.read text = .ok pattern)
    (hconfined : Token.areConfined pattern = true) {more : Location}
    (hnames : ∀ b ∈ leadingNames text ++ more, Path.IsName b) (hne : more ≠ [])
    (h : pattern.Matches (Path.ofNames (isRooted text) (leadingNames text ++ more)).bytes) :
    (ofText text pattern).depthLimit.all (more.length ≤ ·) = true := by
  refine depthLimit_all_iff.2 (or_iff_not_imp_left.2 fun hplain => ?_)
  obtain ⟨hstars, hbraces⟩ := not_or.1 hplain
  have hle := count_le_of_matches hbraces hstars hread hconfined h
  have hcount := count_separator_ofNames (isRooted text) hnames (by simp [hne])
  have hlength := Text.length_pieces '/' text
  have hleading := congrArg List.length (leadingParts_eq_append text)
  rw [(pieces_eq_leadingParts_append text).1, List.length_append, hleading,
    List.length_append] at hlength
  rw [leadingNames, List.length_append, List.length_map, ← leadingNames] at hcount
  have hrooted : (if isRooted text then [[]] else [] : List (List Char)).length =
      if isRooted text then 1 else 0 := by
    split <;> rfl
  omega

/-! ## The walk -/

variable {t : Tree}

def hits (s : Search) (t : Tree) (dir base : Location) : List Location :=
  ((t.below base).filter fun e =>
    (s.accepts (.ofNames true dir) (.ofNames true (base ++ e.1)) &&
      t.isFile (.ofNames true (base ++ e.1))) && s.visits e.1).map fun e => base ++ e.1

theorem mem_hits_iff {s : Search} {dir base l : Location} :
    l ∈ s.hits t dir base ↔ ∃ rest o, l = base ++ rest ∧ (rest, o) ∈ t.below base ∧
      s.accepts (.ofNames true dir) (.ofNames true l) = true ∧
      t.isFile (.ofNames true l) = true ∧ s.visits rest = true := by
  simp only [hits, List.mem_map, List.mem_filter, Bool.and_eq_true]
  constructor
  · intro h'
    obtain ⟨⟨rest, o⟩, ⟨hbelow, ⟨haccepts, hfile⟩, hvisits⟩, rfl⟩ := h'
    exact ⟨rest, o, rfl, hbelow, haccepts, hfile, hvisits⟩
  · intro h'
    obtain ⟨rest, o, rfl, hbelow, haccepts, hfile, hvisits⟩ := h'
    exact ⟨(rest, o), ⟨hbelow, ⟨haccepts, hfile⟩, hvisits⟩, rfl⟩

theorem pairwise_hits (ht : t.WellFormed) (s : Search) (dir base : Location) :
    (s.hits t dir base).Pairwise (· < ·) :=
  List.pairwise_map.2 ((ht.pairwise_below base).filter _)

theorem at?_of_mem_below (ht : t.WellFormed) {base rest : Location} {o : Object}
    (h : (rest, o) ∈ t.below base) : t.at? base = some .directory := by
  obtain ⟨hne, hmem⟩ := Tree.mem_below_iff.1 h
  obtain ⟨b, rest, rfl⟩ := List.exists_cons_of_ne_nil hne
  exact ht.at?_above ((ht.at?_eq_some_iff (by simp)).2 hmem)

theorem hits_eq_nil (ht : t.WellFormed) {base : Location} (h : t.at? base ≠ some .directory)
    (s : Search) (dir : Location) : s.hits t dir base = [] := by
  rw [List.eq_nil_iff_forall_not_mem]
  intro l hl
  obtain ⟨rest, o, -, hbelow, -⟩ := mem_hits_iff.1 hl
  exact h (at?_of_mem_below ht hbelow)

theorem run_eq_map_hits (ht : t.WellFormed) (hlinks : t.Linkless) {s : Search}
    {dir base : Location} (hbase : ∀ b ∈ base, Path.IsName b)
    (hroot : s.root (.ofNames true dir) = .ofNames true base) :
    s.run t (.ofNames true dir) = (s.hits t dir base).map (Path.ofNames true) := by
  rw [run, hroot]
  cases hlocate : t.locate (.ofNames true base) with
  | error f =>
    have hnone : t.at? base ≠ some .directory := by
      intro hdirectory
      rw [(Tree.locate_ofNames_eq_ok_iff ht hlinks hbase).2 ⟨rfl, _, hdirectory⟩] at hlocate
      cases hlocate
    rw [hits_eq_nil ht hnone, List.map_nil]
  | ok l =>
    obtain ⟨rfl, -⟩ := (Tree.locate_ofNames_eq_ok_iff ht hlinks hbase).1 hlocate
    dsimp only
    split
    · rename_i hnone
      rw [hits_eq_nil ht hnone, List.map_nil]
    · have hjoin : ∀ e ∈ (t.below l).filter fun e => s.visits e.1,
          e.1.foldl (fun p name => p.join ⟨name⟩) (Path.ofNames true l) =
            Path.ofNames true (l ++ e.1) := by
        intro e he
        obtain ⟨-, hmem⟩ := Tree.mem_below_iff.1 (List.mem_filter.1 he).1
        refine Path.foldl_join hbase fun b hb => ((ht.named _ hmem).2 b ?_).1
        exact List.mem_append_right _ hb
      rw [List.map_congr_left hjoin, List.filter_map, List.filter_filter, hits, List.map_map]
      rfl

theorem accepts_ofText {pattern : Pattern} {dir names : Location}
    (hdir : ∀ b ∈ dir, Path.IsName b) (hnames : ∀ b ∈ names, Path.IsName b) (hne : names ≠ []) :
    (ofText text pattern).accepts (.ofNames true dir)
        (.ofNames true (origin text dir ++ names)) = true ↔
      pattern.Matches (Path.ofNames (isRooted text) names).bytes := by
  have habs : (ofText text pattern).absolute = isRooted text := rfl
  have hcandidate : (ofText text pattern).candidate (.ofNames true dir)
      (.ofNames true (origin text dir ++ names)) = some (.ofNames (isRooted text) names) := by
    rw [candidate, habs, origin]
    cases isRooted text
    · simpa using Path.stripPrefix_ofNames hdir hnames hne
    · rfl
  rw [accepts, hcandidate]
  exact Pattern.accepts_iff

theorem visits_ofText {pattern : Pattern} {rest : Location} :
    (ofText text pattern).visits rest = true ↔
      (ofText text pattern).depthLimit.all (rest.length ≤ ·) = true ∧
        (AsksHidden text ∨ ∀ name ∈ rest, name.head? ≠ some Path.dot) := by
  rw [visits, Bool.and_eq_true, Bool.or_eq_true, showsHidden_ofText]
  simp [isHidden]

theorem mem_hits_ofText_iff (ht : t.WellFormed) (hlinks : t.Linkless) {pattern : Pattern}
    (hdirect : Direct text) (hread : Pattern.read text = .ok pattern)
    (hconfined : Token.areConfined pattern = true) {dir l : Location}
    (hdir : ∀ b ∈ dir, Path.IsName b) :
    l ∈ (ofText text pattern).hits t dir (origin text dir ++ leadingNames text) ↔
      (∃ data executable, t.at? l = some (.file data executable)) ∧
      ∃ names, names ≠ [] ∧ l = origin text dir ++ names ∧
        pattern.Matches (Path.ofNames (isRooted text) names).bytes ∧
        (AsksHidden text ∨
          ∀ name ∈ names.drop (leadingNames text).length, name.head? ≠ some Path.dot) := by
  rw [mem_hits_iff]
  constructor
  · intro h'
    obtain ⟨rest, o, rfl, hbelow, haccepts, hfile, hvisits⟩ := h'
    obtain ⟨hne, hmem⟩ := Tree.mem_below_iff.1 hbelow
    have hall : ∀ b ∈ origin text dir ++ leadingNames text ++ rest, Path.IsName b := fun b hb =>
      ((ht.named _ hmem).2 b hb).1
    refine ⟨(Tree.isFile_ofNames_iff ht hlinks hall).1 hfile, leadingNames text ++ rest,
      by simp [hne], List.append_assoc .., ?_⟩
    rw [List.append_assoc] at haccepts hall
    have hnames : ∀ b ∈ leadingNames text ++ rest, Path.IsName b := fun b hb =>
      hall b (List.mem_append_right _ hb)
    have hmatches := (accepts_ofText hdir hnames (by simp [hne])).1 haccepts
    rw [List.drop_left]
    exact ⟨hmatches, (visits_ofText.1 hvisits).2⟩
  · intro h'
    obtain ⟨⟨data, executable, hfile⟩, names, hne, rfl, hmatches, hshown⟩ := h'
    have hnames : ∀ b ∈ names, Path.IsName b := fun b hb =>
      (ht.isName_of_at? hfile b (List.mem_append_right _ hb)).1
    obtain ⟨rest, hrest, rfl⟩ := exists_names_of_matches hdirect hread hnames hne hmatches
    have hlimit := within_depthLimit hread hconfined hnames hrest hmatches
    rw [List.drop_left] at hshown
    refine ⟨rest, .file data executable, (List.append_assoc ..).symm, ?_, ?_, ?_, ?_⟩
    · refine Tree.mem_below_iff.2 ⟨hrest, ?_⟩
      rw [List.append_assoc]
      exact Tree.mem_entries_of_at? (by simp [hne]) hfile
    · exact (accepts_ofText hdir hnames hne).2 hmatches
    · refine (Tree.isFile_ofNames_iff ht hlinks fun b hb => ?_).2 ⟨data, executable, hfile⟩
      exact (ht.isName_of_at? hfile b hb).1
    · exact visits_ofText.2 ⟨hlimit, hshown⟩

end Search

/-- In a tree without links a glob expands to exactly the files below the working directory, or
anywhere for a rooted text, whose names its pattern matches and whose names behind the literal ones
are hidden only if it asks for that, each once and in order. -/
theorem expand_exact {t : Tree} (ht : t.WellFormed) (hlinks : t.Linkless) {dir : Location}
    (hdir : ∀ b ∈ dir, Path.IsName b) {token : String} (hglob : isGlob token = true)
    {text : List Char} (htext : patternText token = .ok text) {pattern : Pattern}
    (hread : Pattern.read text = .ok pattern) (hdirect : Search.Direct text)
    (hconfined : Token.areConfined pattern = true) :
    ∃ found : List Location,
      expand t (.ofNames true dir) token = .ok (found.map (Path.ofNames true)) ∧
      found.Pairwise (· < ·) ∧
      ∀ l, l ∈ found ↔ (∃ data executable, t.at? l = some (.file data executable)) ∧
        ∃ names, names ≠ [] ∧ l = Search.origin text dir ++ names ∧
          pattern.Matches (Path.ofNames (Search.isRooted text) names).bytes ∧
          (Search.AsksHidden text ∨ ∀ name ∈ names.drop (Search.leadingNames text).length,
            name.head? ≠ some Path.dot) := by
  let base := Search.origin text dir ++ Search.leadingNames text
  have hbase : ∀ b ∈ base, Path.IsName b := by
    refine List.forall_mem_append.2 ⟨fun b hb => ?_, Search.isName_of_mem_leadingNames hdirect⟩
    rw [Search.origin] at hb
    split at hb
    · cases hb
    · exact hdir b hb
  refine ⟨(Search.ofText text pattern).hits t dir base, ?_, Search.pairwise_hits ht _ _ _,
    fun l => Search.mem_hits_ofText_iff ht hlinks hdirect hread hconfined hdir⟩
  refine expand_eq_ok_iff.2 ⟨Search.ofText text pattern, ?_, ?_⟩
  · exact Search.ofToken_eq_ok_iff.2 ⟨hglob, text, pattern, htext, hread, rfl⟩
  · exact (Search.run_eq_map_hits ht hlinks hbase (Search.root_ofText hdirect pattern hdir)).symm

def sources : Tree := ⟨[
  ([bytesOf "src"], .directory),
  ([bytesOf "src", bytesOf "lib"], .directory),
  ([bytesOf "src", bytesOf "lib", bytesOf ".a.c"], .file [] false),
  ([bytesOf "src", bytesOf "lib", bytesOf "b.c"], .file [] false),
  ([bytesOf "src", bytesOf "lib", bytesOf "d"], .directory),
  ([bytesOf "src", bytesOf "lib", bytesOf "d", bytesOf "e.c"], .file [] false)]⟩

theorem expand_exact_sources :
    let text := "lib/[!/]*.c".toList
    let dir := [bytesOf "src"]
    ∃ pattern, Pattern.read text = .ok pattern ∧ ∃ found : List Location,
      expand sources (.ofNames true dir) "./lib/[!/]*.c" = .ok (found.map (Path.ofNames true)) ∧
      found.Pairwise (· < ·) ∧
      ∀ l, l ∈ found ↔ (∃ data executable, sources.at? l = some (.file data executable)) ∧
        ∃ names, names ≠ [] ∧ l = Search.origin text dir ++ names ∧
          pattern.Matches (Path.ofNames (Search.isRooted text) names).bytes ∧
          (Search.AsksHidden text ∨ ∀ name ∈ names.drop (Search.leadingNames text).length,
            name.head? ≠ some Path.dot) := by
  intro text dir
  have hclasses : (Pattern.read text).toOption.any Token.areConfined = true := by decide +kernel
  obtain ⟨pattern, hread, hconfined⟩ := exists_ok_of_any hclasses
  exact ⟨pattern, hread, expand_exact (by decide +kernel) (by decide +kernel) (by decide)
    (by decide +kernel) (by decide +kernel) hread (by decide +kernel) hconfined⟩

example : (expand sources (.ofNames true [bytesOf "src"]) "./lib/[!/]*.c").toOption =
    some [.ofString "/src/lib/b.c"] := by
  decide +kernel

end Lintel.Glob
