import Lintel.Proofs.Elementwise
import Lintel.Proofs.Glob.Candidates

/-!
# Hidden names and the components that match them

Without braces, pairs of stars and classes that hold the separator, a pattern matches a path
component by component. A hidden name is matched by a component that starts with a dot of its own,
or by one that starts with a star, a question mark or a class. The second happens only where some
part of the text asks for hidden names, but that part need not be the one in the place of the name.
-/
namespace Lintel.Glob

def Pattern.components (p : Pattern) : List (List Token) := Text.pieces Token.isSlash p

def Token.startWithDot : List Token → Bool
  | .literal c :: _ => c == '.'
  | _ => false

def Token.startWild : List Token → Bool
  | .one :: _ | .many :: _ | .oneOf _ _ :: _ => true
  | _ => false

/-! ## Component by component -/

theorem forall₂_components {p : Pattern} {s : Bytes} (hplain : ∀ t ∈ p, t.isPlain = true)
    (hconfined : Token.areConfined p = true) (h : [] ∈ Token.listEnds p s) :
    List.Forall₂ (fun part component => [] ∈ Token.listEnds component part)
      (Text.pieces (· == separator) s) p.components := by
  induction p generalizing s with
  | nil =>
    obtain rfl : [] = s := by simpa [Token.listEnds] using h
    exact .cons (by simp [Token.listEnds]) .nil
  | cons t ts ih =>
    rw [List.forall_mem_cons] at hplain
    rw [Token.areConfined, Bool.and_eq_true] at hconfined
    rw [Token.listEnds, List.mem_flatMap] at h
    obtain ⟨u, hu, hrest⟩ := h
    have hparts := ih hplain.2 hconfined.2 hrest
    cases hslash : t.isSlash with
    | true =>
      rw [Token.eq_cons_of_isSlash hslash hu, Text.pieces_cons_sep (by simp), Pattern.components,
        Text.pieces_cons_sep hslash]
      exact .cons (by simp [Token.listEnds]) hparts
    | false =>
      obtain ⟨w, rfl, hw, htaken⟩ := Token.exists_taken hplain.1 hconfined.1 hslash hu
      obtain ⟨part, parts, hcut⟩ :=
        List.exists_cons_of_ne_nil (Text.pieces_ne_nil (· == separator) u)
      obtain ⟨component, components, hcomponents⟩ :=
        List.exists_cons_of_ne_nil (Text.pieces_ne_nil Token.isSlash ts)
      rw [hcut, Pattern.components, hcomponents, List.forall₂_cons] at hparts
      have hnone : ∀ b ∈ w, (b == separator) = false := by
        intro b hb
        rw [beq_eq_false_iff_ne]
        rintro rfl
        exact hw hb
      rw [Text.pieces_append_of_no_sep hnone, hcut, Pattern.components,
        Text.pieces_cons_of_not_sep hslash, hcomponents]
      refine .cons ?_ hparts.2
      rw [Token.listEnds, List.mem_flatMap]
      exact ⟨part, htaken part, hparts.1⟩

theorem startWithDot_or_startWild {ts : List Token} {name : Bytes}
    (hplain : ∀ t ∈ ts, t.isPlain = true) (hhidden : name.head? = some Path.dot)
    (h : [] ∈ Token.listEnds ts name) :
    Token.startWithDot ts = true ∨ Token.startWild ts = true := by
  obtain ⟨rest, rfl⟩ := List.head?_eq_some_iff.1 hhidden
  cases ts with
  | nil => simp [Token.listEnds] at h
  | cons t ts =>
    cases t with
    | literal c =>
      left
      rw [Token.listEnds, List.mem_flatMap] at h
      obtain ⟨u, hu, -⟩ := h
      rw [Token.ends, Option.mem_toList] at hu
      have hcut := Text.dropPrefix?_eq_some_iff.1 hu
      obtain ⟨b, tail, hencode⟩ :=
        List.exists_cons_of_ne_nil (l := String.utf8EncodeChar c) (by simp)
      rw [hencode] at hcut
      have hmem : Path.dot ∈ String.utf8EncodeChar c := by
        rw [hencode, (List.cons.inj hcut).1]
        exact List.mem_cons_self ..
      obtain rfl : c = '.' := (Text.mem_encode_iff (d := '.') (by decide)).1 hmem
      rfl
    | one => exact .inr rfl
    | many => exact .inr rfl
    | oneOf negated ranges => exact .inr rfl
    | leading => cases hplain .leading (List.mem_cons_self ..)
    | inner => cases hplain .inner (List.mem_cons_self ..)
    | trailing => cases hplain .trailing (List.mem_cons_self ..)
    | either choices => cases hplain (.either choices) (List.mem_cons_self ..)

/-! ## What an expansion shows -/

/-- Whether a component matches a name, and a hidden one only by a dot of its own or, if some part
of the text asks for hidden names, by what stands for any character. -/
def Token.Shows (asks : Prop) (name : Bytes) (component : List Token) : Prop :=
  [] ∈ Token.listEnds component name ∧ (name.head? = some Path.dot →
    Token.startWithDot component = true ∨ asks ∧ Token.startWild component = true)

theorem forall₂_of_accepts {text : List Char} {pattern : Pattern}
    (hread : Pattern.read text = .ok pattern) (hbraces : '{' ∉ text)
    (hstars : ¬ ['*', '*'] <:+: text) (hconfined : Token.areConfined pattern = true) {dir : Path}
    {names : Location} (hnames : ∀ b ∈ names, Path.IsName b) (hne : names ≠ [])
    (haccepts : (Search.ofText text pattern).accepts dir
      (((Search.ofText text pattern).root dir).extend names) = true)
    (hvisits : (Search.ofText text pattern).visits names = true) :
    List.Forall₂ (Token.Shows (Search.AsksHidden text)) names
      (pattern.components.drop (Search.leadingParts text).length) := by
  obtain ⟨c, hcandidate, hmatches⟩ := Search.accepts_iff.1 haccepts
  have hparts := Search.parts_of_matches hread hnames hne hcandidate hmatches
  obtain ⟨hplain, -⟩ := plain_of_read hbraces hstars hread
  have hall := forall₂_components hplain hconfined (mem_listEnds_of_matches hplain hmatches)
  have hcut : Text.pieces (· == separator) c.bytes =
      (Search.leadingParts text).map Text.bytes ++ names := hparts
  have hbehind := List.forall₂_drop (Search.leadingParts text).length hall
  rw [hcut, List.drop_left' (by simp)] at hbehind
  refine forall₂_of_mem hbehind fun name hname component hcomponent hmatch =>
    ⟨hmatch, fun hhidden => ?_⟩
  have htokens : ∀ t ∈ component, t.isPlain = true := fun t ht =>
    hplain t (Text.mem_of_mem_pieces (List.mem_of_mem_drop hcomponent) ht)
  refine (startWithDot_or_startWild htokens hhidden hmatch).imp_right fun hwild => ⟨?_, hwild⟩
  exact (Search.visits_ofText.1 hvisits).2.resolve_right fun hnone => hnone name hname hhidden

/-- Behind the leading parts of a text, each name of a file that its expansion finds is matched by
the component in the same place. If the name is hidden, that component starts with a dot, or it
starts with what stands for any character and some part of the text asks for hidden names. -/
theorem shows_of_mem_expand {t : Tree} (ht : t.WellFormed) {dir : Path} {token : String}
    {text : List Char} (htext : patternText token = .ok text) {pattern : Pattern}
    (hread : Pattern.read text = .ok pattern) (hbraces : '{' ∉ text)
    (hstars : ¬ ['*', '*'] <:+: text) (hconfined : Token.areConfined pattern = true)
    {found : List Path} (hexpand : expand t dir token = .ok found) {file : Path}
    (hfile : file ∈ found) :
    ∃ names, names ≠ [] ∧ (∀ b ∈ names, Path.IsName b) ∧
      file = ((Search.ofText text pattern).root dir).extend names ∧
      List.Forall₂ (Token.Shows (Search.AsksHidden text)) names
        (pattern.components.drop (Search.leadingParts text).length) := by
  rw [eq_run_of_expand hexpand htext hread] at hfile
  obtain ⟨names, hreaches, hvisits, haccepts, rfl⟩ := Search.mem_run_iff.1 hfile
  obtain ⟨hne, hnames⟩ := hreaches.isName ht
  exact ⟨names, hne, hnames, rfl, forall₂_of_accepts hread hbraces hstars hconfined hnames hne
    haccepts hvisits⟩

def dotted : Tree := ⟨[
  ([bytesOf ".x"], .directory),
  ([bytesOf ".x", bytesOf ".y"], .file [] false)]⟩

theorem shows_of_mem_expand_dotted :
    let text := ".*/*".toList
    let top := Path.ofString "/"
    ∃ pattern, Pattern.read text = .ok pattern ∧ ∃ found, expand dotted top ".*/*" = .ok found ∧
      Path.ofString "/.x/.y" ∈ found ∧
      ∃ names, names ≠ [] ∧ (∀ b ∈ names, Path.IsName b) ∧
        Path.ofString "/.x/.y" = ((Search.ofText text pattern).root top).extend names ∧
        List.Forall₂ (Token.Shows (Search.AsksHidden text)) names
          (pattern.components.drop (Search.leadingParts text).length) := by
  intro text top
  have hclasses : (Pattern.read text).toOption.any Token.areConfined = true := by decide +kernel
  obtain ⟨pattern, hread, hconfined⟩ := exists_ok_of_any hclasses
  have hfound : (expand dotted top ".*/*").toOption.any (·.contains (Path.ofString "/.x/.y")) =
      true := by
    decide +kernel
  obtain ⟨found, hexpand, hfile⟩ := exists_ok_of_any hfound
  have hmem : Path.ofString "/.x/.y" ∈ found := List.contains_iff_mem.1 hfile
  exact ⟨pattern, hread, found, hexpand, hmem, shows_of_mem_expand (by decide +kernel)
    (by decide +kernel) hread (by decide) (by decide +kernel) hconfined hexpand hmem⟩

theorem star_shows_hidden :
    ∃ pattern, Pattern.read ".*/*".toList = .ok pattern ∧ Token.areConfined pattern = true ∧
      pattern.components.map Token.startWithDot = [true, false] ∧ dotted.Linkless ∧
      expand dotted (.ofString "/") ".*/*" = .ok [.ofString "/.x/.y"] := by
  -- the first component asks for hidden names, and the second one is matched against them too
  have hpattern : (Pattern.read ".*/*".toList).toOption.any (fun pattern : Pattern =>
      Token.areConfined pattern && pattern.components.map Token.startWithDot == [true, false]) =
        true := by
    decide +kernel
  obtain ⟨pattern, hread, hdots⟩ := exists_ok_of_any hpattern
  rw [Bool.and_eq_true, beq_iff_eq] at hdots
  refine ⟨pattern, hread, hdots.1, hdots.2, by decide +kernel, ?_⟩
  have hfound : (expand dotted (.ofString "/") ".*/*").toOption.any
      (· == [Path.ofString "/.x/.y"]) = true := by
    decide +kernel
  obtain ⟨found, hexpand, heq⟩ := exists_ok_of_any hfound
  rw [hexpand, beq_iff_eq.1 heq]

end Lintel.Glob
