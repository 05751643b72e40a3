import Lintel.Glob.Expand
import Lintel.Proofs.Outcome
import Lintel.Proofs.Path.Settled

/-!
# What a search finds

A glob token is searched for when its groups can be rewritten and its pattern read. Whatever the
search finds is a file, and is spelled from the top directory if the working directory is.
-/
namespace Lintel.Glob

theorem Search.ofToken_eq_ok_iff {token : String} {s : Search} :
    Search.ofToken token = .ok s ↔
      isGlob token = true ∧ ∃ text pattern, patternText token = .ok text ∧
        Pattern.read text = .ok pattern ∧ s = Search.ofText text pattern := by
  unfold Search.ofToken
  cases hglob : isGlob token with
  | false => simp
  | true =>
    cases htext : patternText token with
    | error f => simp [bind, Except.bind]
    | ok text =>
      cases hread : Pattern.read text with
      | error cause => simp [bind, Except.bind, hread]
      | ok pattern => simp [bind, Except.bind, hread, eq_comm]

theorem expand_eq_ok_iff {t : Tree} {dir : Path} {token : String} {found : List Path} :
    expand t dir token = .ok found ↔
      ∃ s, Search.ofToken token = .ok s ∧ found = s.run t dir :=
  map_eq_ok_iff

section

variable (t : Tree) {dir : Path} {token : String}

theorem expand_of_not_isGlob (hglob : isGlob token = false) :
    expand t dir token = .error (.notGlob token) := by
  simp [expand, Search.ofToken, hglob, Except.map]

theorem expand_of_patternText_error (hglob : isGlob token = true) {f : Fault}
    (htext : patternText token = .error f) : expand t dir token = .error f := by
  simp [expand, Search.ofToken, hglob, htext, Except.map, bind, Except.bind]

theorem expand_of_patternText (hglob : isGlob token = true) {text : List Char}
    (htext : patternText token = .ok text) :
    expand t dir token = match Pattern.read text with
      | .error cause => .error (.badGlob token (String.ofList text) cause)
      | .ok pattern => .ok ((Search.ofText text pattern).run t dir) := by
  simp only [expand, Search.ofToken, hglob, htext, bind, Except.bind]
  cases Pattern.read text <;> simp [Except.map]

end

theorem eq_run_of_expand {t : Tree} {dir : Path} {token : String} {found : List Path}
    (hexpand : expand t dir token = .ok found) {text : List Char}
    (htext : patternText token = .ok text) {pattern : Pattern}
    (hread : Pattern.read text = .ok pattern) :
    found = (Search.ofText text pattern).run t dir := by
  obtain ⟨s, hs, rfl⟩ := expand_eq_ok_iff.1 hexpand
  obtain ⟨-, text', pattern', htext', hread', rfl⟩ := Search.ofToken_eq_ok_iff.1 hs
  rw [htext] at htext'
  cases htext'
  rw [hread] at hread'
  cases hread'
  rfl

namespace Search

theorem isFile_of_mem_run {s : Search} {t : Tree} {dir p : Path} (h : p ∈ s.run t dir) :
    t.isFile p = true := by
  unfold run at h
  dsimp only at h
  split at h
  · simp at h
  · split at h
    · simp at h
    · obtain ⟨-, haccepts⟩ := List.mem_filter.1 h
      simp only [Bool.and_eq_true] at haccepts
      exact haccepts.2

theorem isAbsolute_foldl_join {start : Path} (h : start.isAbsolute = true) (l : Location) :
    (l.foldl (fun p name => p.join ⟨name⟩) start).isAbsolute = true := by
  induction l generalizing start with
  | nil => exact h
  | cons name l ih => exact ih (Path.isAbsolute_join h _)

def leadingParts (text : List Char) : List (List Char) :=
  (Text.pieces (· == '/') text).dropLast.takeWhile isLiteralPart

theorem literal_ofText (text : List Char) (pattern : Pattern) :
    (ofText text pattern).literal = leadingParts text := rfl

theorem leadingParts_absolute (rest : List Char) :
    leadingParts ('/' :: rest) = [] :: leadingParts rest := by
  have hliteral : isLiteralPart [] = true := rfl
  rw [leadingParts, Text.pieces_cons_sep (by simp), List.dropLast_cons_of_ne_nil
    (Text.pieces_ne_nil _ _), List.takeWhile_cons_of_pos hliteral, leadingParts]

theorem isAbsolute_root {text : List Char} (pattern : Pattern) {dir : Path}
    (hdir : dir.isAbsolute = true) : ((ofText text pattern).root dir).isAbsolute = true := by
  unfold root
  dsimp only
  split
  · split
    · rfl
    · exact hdir
  · rename_i hbase
    split
    · rename_i habs
      obtain ⟨rest, rfl⟩ : ∃ rest, text = '/' :: rest :=
        List.head?_eq_some_iff.1 (by simpa [ofText] using habs)
      rw [literal_ofText, leadingParts_absolute] at hbase ⊢
      cases hlead : leadingParts rest with
      | nil => simp [hlead] at hbase
      | cons part parts => simp [Path.isAbsolute, Text.bytes, String.utf8EncodeChar, Path.separator]
    · exact Path.isAbsolute_join hdir _

theorem isAbsolute_of_mem_run {text : List Char} {pattern : Pattern} {t : Tree} {dir p : Path}
    (hdir : dir.isAbsolute = true) (h : p ∈ (ofText text pattern).run t dir) :
    p.isAbsolute = true := by
  unfold run at h
  dsimp only at h
  split at h
  · simp at h
  · split at h
    · simp at h
    · obtain ⟨hwalk, -⟩ := List.mem_filter.1 h
      obtain ⟨e, -, rfl⟩ := List.mem_map.1 hwalk
      exact isAbsolute_foldl_join (isAbsolute_root pattern hdir) e.1

end Search

end Lintel.Glob
