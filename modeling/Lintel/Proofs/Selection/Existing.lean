import Lintel.Proofs.Glob.Found
import Lintel.Proofs.Selection.Members
import Lintel.Proofs.Tree.Walking

/-!
# Selected paths and files

A selected path names a regular file, links followed. The one exception comes from a glob: the
spelling that the search found names a file, but some `..` in it takes back the name of a link, and
resolving the spelling on its own leads elsewhere. A literal token is looked up after it is
resolved, so it has no such exception.
-/
namespace Lintel

namespace Selection

variable (s : Selection) (t : Tree)

theorem exists_token_of_mem_resolve {dir : Path} {toks : List String} {ignoring : Ignoring}
    {fs : FileSet} (h : (under dir).resolve t toks ignoring = .ok fs) {p : Path}
    (hp : p ∈ fs.files) : ∃ tok ∈ toks, ∃ ps, (under dir).token t tok = .ok ps ∧ p ∈ ps :=
  ((mem_resolve_iff t h p).1 hp).1

theorem isFile_of_mem_token {dir : Path} {tok : String} {ps : List Path}
    (h : (under dir).token t tok = .ok ps) {p : Path} (hp : p ∈ ps) :
    t.isFile p = true ∨ ∃ found q, Glob.expand t (under dir).workingDir tok = .ok found ∧
      q ∈ found ∧ t.isFile q = true ∧ t.ClimbsOverLink q.parts ∧ p = q.normalize := by
  unfold token at h
  split at h
  · obtain ⟨found, hexpand, rfl⟩ := map_eq_ok_iff.1 h
    obtain ⟨q, hq, rfl⟩ := List.mem_map.1 hp
    obtain ⟨search, hsearch, rfl⟩ := Glob.expand_eq_ok_iff.1 hexpand
    obtain ⟨-, text, pattern, -, -, rfl⟩ := Glob.Search.ofToken_eq_ok_iff.1 hsearch
    have habs : q.isAbsolute = true :=
      Glob.Search.isAbsolute_of_mem_run (isAbsolute_workingDir_under dir) hq
    have hfile := Glob.Search.isFile_of_mem_run hq
    have hanchor : (under dir).workingDir.anchor q = q.normalize := by
      rw [Path.anchor, Path.join, if_pos habs]
    rw [hanchor]
    by_cases hclimb : t.ClimbsOverLink q.parts
    · exact .inr ⟨_, q, hexpand, hq, hfile, hclimb, rfl⟩
    · exact .inl (t.isFile_normalize habs hclimb hfile)
  · dsimp only at h
    split at h
    · rename_i hfile
      obtain rfl := Except.ok.inj h
      obtain rfl := List.mem_singleton.1 hp
      exact .inl hfile
    · simp at h

/-- Every selected path names a file, unless a glob found it by climbing over a link; where there
are no links, every one does. -/
theorem isFile_of_mem_resolve {dir : Path} {toks : List String} {ignoring : Ignoring}
    {fs : FileSet} (h : (under dir).resolve t toks ignoring = .ok fs) :
    (∀ p ∈ fs.files, t.isFile p = true ∨ ∃ tok ∈ toks, ∃ found q,
      Glob.expand t (under dir).workingDir tok = .ok found ∧ q ∈ found ∧ t.isFile q = true ∧
        t.ClimbsOverLink q.parts ∧ p = q.normalize) ∧
    (t.Linkless → ∀ p ∈ fs.files, t.isFile p = true) := by
  have hall : ∀ p ∈ fs.files, t.isFile p = true ∨ ∃ tok ∈ toks, ∃ found q,
      Glob.expand t (under dir).workingDir tok = .ok found ∧ q ∈ found ∧ t.isFile q = true ∧
        t.ClimbsOverLink q.parts ∧ p = q.normalize := by
    intro p hp
    obtain ⟨tok, htok, ps, hps, hin⟩ := exists_token_of_mem_resolve t h hp
    rcases isFile_of_mem_token t hps hin with hfile | hclimb
    · exact .inl hfile
    · exact .inr ⟨tok, htok, hclimb⟩
  refine ⟨hall, fun hlinks p hp => ?_⟩
  rcases hall p hp with hfile | hexception
  · exact hfile
  · obtain ⟨-, -, -, q, -, -, -, hclimb, -⟩ := hexception
    exact absurd hclimb (hlinks.not_climbsOverLink q.parts)

def linked : Tree := ⟨[
  ([bytesOf "d"], .directory),
  ([bytesOf "d", bytesOf "f.txt"], .file [] false),
  ([bytesOf "d", bytesOf "sub"], .directory),
  ([bytesOf "link"], .link (.ofString "d/sub"))]⟩

theorem isFile_of_mem_resolve_linked :
    let toks := ["link/../d/f.txt", "d/sub/../*.txt", "link/../*.txt"]
    ∃ fs, (under ⟨[Path.separator]⟩).resolve linked toks .off = .ok fs ∧
      (∀ p ∈ fs.files, linked.isFile p = true ∨ ∃ tok ∈ toks, ∃ found q,
        Glob.expand linked (under ⟨[Path.separator]⟩).workingDir tok = .ok found ∧ q ∈ found ∧
          linked.isFile q = true ∧ linked.ClimbsOverLink q.parts ∧ p = q.normalize) ∧
      (linked.Linkless → ∀ p ∈ fs.files, linked.isFile p = true) := by
  intro toks
  have hfiles : ((under ⟨[Path.separator]⟩).resolve linked toks .off).toOption.any
      (·.files == [.ofString "/d/f.txt", .ofString "/f.txt"]) = true := by
    decide +kernel
  obtain ⟨fs, h, -⟩ := exists_ok_of_any hfiles
  exact ⟨fs, h, isFile_of_mem_resolve linked h⟩

/-- The glob finds `link/../f.txt`, which is `d/f.txt`. Its resolved form `f.txt` is no file. -/
theorem resolve_climbing_link :
    ∃ fs, (under ⟨[Path.separator]⟩).resolve linked ["link/../*.txt"] .off = .ok fs ∧
      ¬ ∀ p ∈ fs.files, linked.isFile p = true := by
  have hfiles : ((under ⟨[Path.separator]⟩).resolve linked ["link/../*.txt"] .off).toOption.any
      (·.files == [.ofString "/f.txt"]) = true := by
    decide +kernel
  have hmissing : linked.isFile (.ofString "/f.txt") = false := by decide +kernel
  obtain ⟨fs, h, hfs⟩ := exists_ok_of_any hfiles
  refine ⟨fs, h, fun hall => ?_⟩
  have hmem : .ofString "/f.txt" ∈ fs.files := by
    rw [beq_iff_eq.1 hfs]
    exact List.mem_singleton_self _
  have hfile := hall _ hmem
  rw [hmissing] at hfile
  cases hfile

end Selection

end Lintel
