import Lintel.Proofs.Glob.Candidates
import Lintel.Proofs.Glob.Groups
import Lintel.Proofs.Path.Below

/-!
# Searches that leave the working directory

A search walks below the working directory unless its text starts with a separator. Rewriting the
groups of a token keeps the plain characters in front of it, and one `./` is then taken off, so that
a text starts with a separator if the token does, or if a separator stands behind that `./`.
-/
namespace Lintel.Glob

/-- A separator stands at the start of a token or behind the first `./` of it. -/
def StartsRooted (cs : List Char) : Prop := ['/'] <+: cs ∨ ['.', '/', '/'] <+: cs

instance (cs : List Char) : Decidable (StartsRooted cs) :=
  inferInstanceAs (Decidable (['/'] <+: cs ∨ ['.', '/', '/'] <+: cs))

/-! ## The front of a rewritten token -/

theorem head?_of_rewriteFrom {previous : Option Char} {c : Char} {rest text : List Char}
    (h : rewriteFrom previous (c :: rest) = .ok text) :
    text.head? = some c ∨ text.head? = some '{' := by
  by_cases hc : c = '\\'
  · subst hc
    cases rest with
    | nil =>
      rw [rewriteFrom] at h
      exact .inl (by rw [← Except.ok.inj h]; rfl)
    | cons d rest =>
      rw [rewriteFrom_escape] at h
      obtain ⟨out, -, rfl⟩ := map_eq_ok_iff.1 h
      exact .inl rfl
  · cases hgroup : groupAt previous c rest with
    | none =>
      rw [rewriteFrom_of_none hc hgroup] at h
      obtain ⟨out, -, rfl⟩ := map_eq_ok_iff.1 h
      exact .inl rfl
    | some found =>
      rw [rewriteFrom_of_some hc hgroup] at h
      split at h
      · obtain ⟨out, -, rfl⟩ := map_eq_ok_iff.1 h
        exact .inr rfl
      · cases h

theorem prefix_iff_of_rewriteFrom {w cs text : List Char} {previous : Option Char}
    (hplain : ∀ c ∈ w, c ∉ groupOperators ∧ c ≠ '\\' ∧ c ≠ '{')
    (h : rewriteFrom previous cs = .ok text) : w <+: text ↔ w <+: cs := by
  induction w generalizing previous cs text with
  | nil => simp
  | cons c w ih =>
    rw [List.forall_mem_cons] at hplain
    obtain ⟨⟨hop, hback, hbrace⟩, hplain⟩ := hplain
    cases cs with
    | nil =>
      rw [rewriteFrom] at h
      rw [← Except.ok.inj h]
    | cons d rest =>
      by_cases hd : d = c
      · subst hd
        rw [rewriteFrom_plain hop hback] at h
        obtain ⟨out, hout, rfl⟩ := map_eq_ok_iff.1 h
        rw [List.cons_prefix_cons, List.cons_prefix_cons, ih hplain hout]
      · have hhead := head?_of_rewriteFrom h
        refine iff_of_false ?_ (fun hcs => hd (List.cons_prefix_cons.1 hcs).1.symm)
        rintro ⟨more, rfl⟩
        simp [Ne.symm hd, hbrace] at hhead

theorem patternText_cases {token : String} {text : List Char} (h : patternText token = .ok text) :
    ['.', '/'] <+: token.toList ∧ rewriteGroups token.toList = .ok ('.' :: '/' :: text) ∨
      ¬ ['.', '/'] <+: token.toList ∧ rewriteGroups token.toList = .ok text := by
  rw [patternText] at h
  cases hrewrite : rewriteGroups token.toList with
  | error op => simp [hrewrite] at h
  | ok whole =>
    rw [hrewrite] at h
    obtain rfl := Except.ok.inj h
    have hfront : ['.', '/'] <+: whole ↔ ['.', '/'] <+: token.toList :=
      prefix_iff_of_rewriteFrom (by simp [groupOperators]) hrewrite
    cases hdrop : Text.dropPrefix? ['.', '/'] whole with
    | none => exact .inr ⟨mt hfront.2 (Text.dropPrefix?_eq_none_iff.1 hdrop), rfl⟩
    | some rest =>
      obtain rfl := Text.dropPrefix?_eq_some_iff.1 hdrop
      exact .inl ⟨hfront.1 (List.prefix_append ..), rfl⟩

theorem separator_prefix_iff {cs : List Char} : ['/'] <+: cs ↔ Search.isRooted cs = true :=
  (exists_congr fun _ => eq_comm).trans Search.isRooted_iff.symm

theorem isRooted_patternText_iff {token : String} {text : List Char}
    (h : patternText token = .ok text) :
    Search.isRooted text = true ↔ StartsRooted token.toList := by
  rw [← separator_prefix_iff, StartsRooted]
  rcases patternText_cases h with ⟨-, hrewrite⟩ | ⟨hplain, hrewrite⟩
  · have hfirst : ['/'] <+: '.' :: '/' :: text ↔ ['/'] <+: token.toList :=
      prefix_iff_of_rewriteFrom (by simp [groupOperators]) hrewrite
    have hthird : ['.', '/', '/'] <+: '.' :: '/' :: text ↔ ['.', '/', '/'] <+: token.toList :=
      prefix_iff_of_rewriteFrom (by simp [groupOperators]) hrewrite
    rw [← hfirst, ← hthird]
    simp [List.cons_prefix_cons]
  · have hfirst : ['/'] <+: text ↔ ['/'] <+: token.toList :=
      prefix_iff_of_rewriteFrom (by simp [groupOperators]) hrewrite
    have hthird : ¬ ['.', '/', '/'] <+: token.toList := fun hcs =>
      hplain ((List.prefix_append ['.', '/'] ['/']).trans hcs)
    rw [hfirst, or_iff_left hthird]

/-! ## Where a search walks -/

namespace Search

variable {s : Search}

theorem run_of_absolute (h : s.absolute = true) (t : Tree) (dir other : Path) :
    s.run t other = s.run t dir := by
  have hroot : s.root other = s.root dir := by simp [root, h]
  have haccepts : ∀ file, s.accepts other file = s.accepts dir file := fun file => by
    simp [accepts, candidate, h]
  simp only [run, hroot, haccepts]

theorem components_prefix_root {text : List Char} (pattern : Pattern)
    (hrooted : isRooted text = false) {dir : Path} (hdir : dir.isAbsolute = true) :
    dir.components <+: ((ofText text pattern).root dir).components := by
  have habs : ¬ (ofText text pattern).absolute = true := Bool.eq_false_iff.1 hrooted
  have hbase : ['/'].intercalate (ofText text pattern).literal = leadingText text := rfl
  rw [root, hbase]
  by_cases hempty : leadingText text = []
  · simp only [if_pos hempty, if_neg habs, List.prefix_rfl]
  · have hleading : leadingParts text ≠ [] := by
      intro hnone
      rw [leadingText, hnone] at hempty
      exact hempty rfl
    rw [if_neg hempty, if_neg habs,
      Path.components_join hdir (isAbsolute_leadingText hleading hrooted)]
    exact List.prefix_append ..

theorem components_prefix_of_mem_run (h : s.absolute = false) {t : Tree} {dir p : Path}
    (hdir : dir.isAbsolute = true) (hp : p ∈ s.run t dir) : dir.components <+: p.components := by
  obtain ⟨names, -, -, haccepts, rfl⟩ := mem_run_iff.1 hp
  obtain ⟨c, hcandidate, -⟩ := (Option.any_eq_true _ _).1 haccepts
  rw [candidate, if_neg (by simp [h])] at hcandidate
  exact Path.components_prefix_of_stripPrefix hdir hcandidate

end Search

/-- A token that starts with a separator, or with one behind `./`, is expanded from an absolute
base, whatever the working directory. Every other token is expanded by a walk in the working
directory, and every path it expands to continues the working directory component by component. -/
theorem expand_stays_below {dir : Path} (hdir : dir.isAbsolute = true) (t : Tree)
    (token : String) :
    (∀ s, Search.ofToken token = .ok s →
      (s.absolute = true ↔ StartsRooted token.toList) ∧
      (¬ StartsRooted token.toList → dir.components <+: (s.root dir).components)) ∧
    (StartsRooted token.toList → ∀ other : Path, expand t other token = expand t dir token) ∧
    (¬ StartsRooted token.toList → ∀ found, expand t dir token = .ok found →
      ∀ p ∈ found, dir.components <+: p.components) := by
  have hsearch : ∀ s, Search.ofToken token = .ok s →
      (s.absolute = true ↔ StartsRooted token.toList) ∧
      (¬ StartsRooted token.toList → dir.components <+: (s.root dir).components) := by
    intro s hs
    obtain ⟨-, text, pattern, htext, -, rfl⟩ := Search.ofToken_eq_ok_iff.1 hs
    have hrooted := isRooted_patternText_iff htext
    exact ⟨hrooted, fun hnot => Search.components_prefix_root pattern
      (Bool.eq_false_iff.2 (mt hrooted.1 hnot)) hdir⟩
  refine ⟨hsearch, fun hstarts other => ?_, fun hnot found hfound p hp => ?_⟩
  · rw [expand, expand]
    cases hs : Search.ofToken token with
    | error f => rfl
    | ok s => exact congrArg Except.ok (Search.run_of_absolute ((hsearch s hs).1.2 hstarts) ..)
  · obtain ⟨s, hs, rfl⟩ := expand_eq_ok_iff.1 hfound
    exact Search.components_prefix_of_mem_run
      (Bool.eq_false_iff.2 (mt (hsearch s hs).1.1 hnot)) hdir hp

def neighbours : Tree := ⟨[
  ([bytesOf "a.txt"], .file [] false),
  ([bytesOf "w"], .directory),
  ([bytesOf "w", bytesOf "b.txt"], .file [] false)]⟩

theorem expand_stays_below_neighbours :
    let dir := Path.ofString "/w"
    let token := "./../*.@(txt|/w)"
    dir.isAbsolute = true ∧
    expand neighbours dir token = .ok [.ofString "/w/../a.txt"] ∧
    (∀ s, Search.ofToken token = .ok s →
      (s.absolute = true ↔ StartsRooted token.toList) ∧
      (¬ StartsRooted token.toList → dir.components <+: (s.root dir).components)) ∧
    (StartsRooted token.toList →
      ∀ other : Path, expand neighbours other token = expand neighbours dir token) ∧
    (¬ StartsRooted token.toList → ∀ found, expand neighbours dir token = .ok found →
      ∀ p ∈ found, dir.components <+: p.components) := by
  intro dir token
  have hdir : dir.isAbsolute = true := by decide +kernel
  have hfound : (expand neighbours dir token).toOption = some [.ofString "/w/../a.txt"] := by
    decide +kernel
  exact ⟨hdir, toOption_eq_some_iff.1 hfound, expand_stays_below hdir neighbours token⟩

theorem dotted_token_leaves :
    let dir := Path.ofString "/w"
    let token := ".//*.txt"
    ¬ ['/'] <+: token.toList ∧ ∃ found, expand neighbours dir token = .ok found ∧
      ¬ ∀ p ∈ found, dir.components <+: p.components := by
  intro dir token
  have hfound : (expand neighbours dir token).toOption = some [.ofString "/a.txt"] := by
    decide +kernel
  refine ⟨by decide, _, toOption_eq_some_iff.1 hfound, ?_⟩
  decide +kernel

end Lintel.Glob
