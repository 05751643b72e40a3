import Lintel.Proofs.Selection.Existing

/-!
# Selecting the selected files again

A selected path is absolute and in normal form, so that it stands for itself when it is given as a
token. A name with glob syntax is the exception: as a token it is a glob, and stands for the files
that it matches, which need not include the file of that name.
-/
namespace Lintel.Selection

variable (t : Tree) {dir : Path} {toks names : List String} {fs : FileSet}

/-- No file was found by a glob that takes back the name of a link with `..`. -/
def StaysBelow (dir : Path) (toks : List String) : Prop :=
  ∀ tok ∈ toks, ∀ found, Glob.expand t (under dir).workingDir tok = .ok found →
    ∀ q ∈ found, ¬ t.ClimbsOverLink q.parts

theorem staysBelow_of_linkless (hlinks : t.Linkless) : StaysBelow t dir toks :=
  fun _ _ _ _ q _ => hlinks.not_climbsOverLink q.parts

theorem token_of_settled {name : String} (hplain : Glob.isGlob name = false)
    (hsettled : (Path.ofString name).Settled) (hfile : t.isFile (.ofString name) = true) :
    (under dir).token t name = .ok [.ofString name] := by
  rw [token, if_neg (by simp [hplain]), hsettled.anchor]
  exact if_pos hfile

theorem token_of_mem_resolve (h : (under dir).resolve t toks .off = .ok fs)
    (hnames : fs.files = names.map Path.ofString) (hstays : StaysBelow t dir toks) {name : String}
    (hname : name ∈ names) {ps : List Path} :
    (under dir).token t name = .ok ps ↔
      Glob.isGlob name = false ∧ ps = [.ofString name] ∨
      Glob.isGlob name = true ∧ ∃ found, Glob.expand t (under dir).workingDir name = .ok found ∧
        ps = found.map (under dir).workingDir.anchor := by
  cases hsyntax : Glob.isGlob name with
  | true =>
    rw [token, if_pos hsyntax, map_eq_ok_iff]
    simp
  | false =>
    have hmem : .ofString name ∈ fs.files := hnames ▸ List.mem_map_of_mem hname
    have hfile : t.isFile (.ofString name) = true := by
      obtain ⟨tok, htok, qs, hqs, hp⟩ := exists_token_of_mem_resolve t h hmem
      rcases isFile_of_mem_token t hqs hp with hfile | ⟨found, q, hfound, hq, -, hclimb, -⟩
      · exact hfile
      · exact absurd hclimb (hstays tok htok found hfound q hq)
    have hsettled := settled_of_mem_resolve_off t h _ hmem
    rw [token_of_settled t hsyntax hsettled hfile]
    simp [eq_comm]

/-- Selected again by their names, the files are the same ones in the same order unless a name has
glob syntax. Each name without it stands for its file alone, whatever the other names are; each
name with it stands for what it matches, and the second selection fails only on such a name. -/
theorem resolve_again {path : Option Path}
    (h : (under dir).resolve t toks (.ofOptions true path) = .ok fs)
    (hnames : fs.files = names.map Path.ofString) (hstays : StaysBelow t dir toks) :
    ((∀ name ∈ names, Glob.isGlob name = false) →
      (under dir).resolve t names (.ofOptions true path) = .ok fs) ∧
    (∀ name ∈ names, Glob.isGlob name = false →
      ∃ single, (under dir).resolve t [name] (.ofOptions true path) = .ok single ∧
        single.files = [.ofString name]) ∧
    ((∃ again, (under dir).resolve t names (.ofOptions true path) = .ok again) ↔
      ∀ name ∈ names, Glob.isGlob name = true →
        ∃ found, Glob.expand t (under dir).workingDir name = .ok found) ∧
    ∀ again, (under dir).resolve t names (.ofOptions true path) = .ok again →
      ∀ p, p ∈ again.files ↔
        (∃ name ∈ names, Glob.isGlob name = false ∧ p = .ofString name) ∨
        ∃ name ∈ names, Glob.isGlob name = true ∧
          ∃ found, Glob.expand t (under dir).workingDir name = .ok found ∧
            ∃ q ∈ found, p = (under dir).workingDir.anchor q := by
  have htoken : ∀ name ∈ names, ∀ ps, (under dir).token t name = .ok ps ↔
      Glob.isGlob name = false ∧ ps = [.ofString name] ∨
      Glob.isGlob name = true ∧ ∃ found, Glob.expand t (under dir).workingDir name = .ok found ∧
        ps = found.map (under dir).workingDir.anchor :=
    fun name hname ps => token_of_mem_resolve t h hnames hstays hname
  refine ⟨fun hplain => ?_, fun name hname hplain => ?_, ?_, fun again hagain p => ?_⟩
  · refine ((under dir).resolve_off_eq_ok_iff t).2 ⟨names.map fun name => [.ofString name], ?_, ?_⟩
    · exact List.forall₂_map_right_iff.2 (List.forall₂_same.2 fun name hname =>
        (htoken name hname _).2 (.inl ⟨hplain name hname, rfl⟩))
    · rw [← List.flatMap_def, ← List.map_eq_flatMap, ← hnames, Path.firsts_of_pairwise fs.distinct]
  · have hself := (htoken name hname _).2 (.inl ⟨hplain, rfl⟩)
    refine ⟨FileSet.ofList [.ofString name], ?_, rfl⟩
    exact ((under dir).resolve_singleton t name).trans (by rw [hself]; rfl)
  · refine (exists_resolve_off_iff t).trans (forall₂_congr fun name hname => ?_)
    simp only [htoken name hname]
    cases Glob.isGlob name <;> simp
  · rw [mem_resolve_off_iff t hagain]
    constructor
    · rintro ⟨name, hname, ps, hps, hp⟩
      rcases (htoken name hname ps).1 hps with ⟨hplain, rfl⟩ | ⟨hglob, found, hfound, rfl⟩
      · exact .inl ⟨name, hname, hplain, List.mem_singleton.1 hp⟩
      · obtain ⟨q, hq, rfl⟩ := List.mem_map.1 hp
        exact .inr ⟨name, hname, hglob, found, hfound, q, hq, rfl⟩
    · rintro (⟨name, hname, hplain, rfl⟩ | ⟨name, hname, hglob, found, hfound, q, hq, rfl⟩)
      · exact ⟨name, hname, _, (htoken name hname _).2 (.inl ⟨hplain, rfl⟩),
          List.mem_singleton_self _⟩
      · exact ⟨name, hname, _, (htoken name hname _).2 (.inr ⟨hglob, found, hfound, rfl⟩),
          List.mem_map_of_mem hq⟩

def bracketed : Tree := ⟨[
  ([bytesOf "[a].txt"], .file [] false),
  ([bytesOf "a.txt"], .file [] false),
  ([bytesOf "d"], .directory),
  ([bytesOf "d", bytesOf "\x7bb\x7d.sh"], .file [] false)]⟩

theorem resolve_again_bracketed :
    let names := ["/[a].txt", "/a.txt", "/d/\x7bb\x7d.sh"]
    ∃ fs, (under ⟨[Path.separator]⟩).resolve bracketed ["*.txt", "d/../d/*"]
        (.ofOptions true none) = .ok fs ∧
      fs.files = names.map Path.ofString ∧
      StaysBelow bracketed ⟨[Path.separator]⟩ ["*.txt", "d/../d/*"] ∧
      ∃ again, (under ⟨[Path.separator]⟩).resolve bracketed names (.ofOptions true none) =
          .ok again ∧
        again.files = [.ofString "/a.txt", .ofString "/d/\x7bb\x7d.sh"] ∧
        ∀ p, p ∈ again.files ↔
          (∃ name ∈ names, Glob.isGlob name = false ∧ p = .ofString name) ∨
          ∃ name ∈ names, Glob.isGlob name = true ∧
            ∃ found, Glob.expand bracketed (under ⟨[Path.separator]⟩).workingDir name = .ok found ∧
              ∃ q ∈ found, p = (under ⟨[Path.separator]⟩).workingDir.anchor q := by
  intro names
  have hfiles : ((under ⟨[Path.separator]⟩).resolve bracketed ["*.txt", "d/../d/*"]
      (.ofOptions true none)).toOption.any (·.files == names.map Path.ofString) = true := by
    decide +kernel
  obtain ⟨fs, h, hfs⟩ := exists_ok_of_any hfiles
  have hnames := beq_iff_eq.1 hfs
  have hstays : StaysBelow bracketed ⟨[Path.separator]⟩ ["*.txt", "d/../d/*"] :=
    staysBelow_of_linkless bracketed (by decide)
  obtain ⟨-, -, -, hmembers⟩ := resolve_again bracketed h hnames hstays
  have hsecond : ((under ⟨[Path.separator]⟩).resolve bracketed names
      (.ofOptions true none)).toOption.any
      (·.files == [.ofString "/a.txt", .ofString "/d/\x7bb\x7d.sh"]) = true := by
    decide +kernel
  obtain ⟨again, hagain, hsame⟩ := exists_ok_of_any hsecond
  exact ⟨fs, h, hnames, hstays, again, hagain, beq_iff_eq.1 hsame, hmembers again hagain⟩

theorem resolve_replaces_bracketed :
    ∃ fs, (under ⟨[Path.separator]⟩).resolve bracketed ["*].txt"] (.ofOptions true none) =
        .ok fs ∧
      fs.files = [.ofString "/[a].txt"] ∧
      ∃ again, (under ⟨[Path.separator]⟩).resolve bracketed ["/[a].txt"]
          (.ofOptions true none) = .ok again ∧
        again.files = [.ofString "/a.txt"] ∧ again ≠ fs := by
  have hfiles : ((under ⟨[Path.separator]⟩).resolve bracketed ["*].txt"]
      (.ofOptions true none)).toOption.any (·.files == [.ofString "/[a].txt"]) = true := by
    decide +kernel
  have hsecond : ((under ⟨[Path.separator]⟩).resolve bracketed ["/[a].txt"]
      (.ofOptions true none)).toOption.any (·.files == [.ofString "/a.txt"]) = true := by
    decide +kernel
  obtain ⟨fs, h, hfs⟩ := exists_ok_of_any hfiles
  obtain ⟨again, hagain, hsame⟩ := exists_ok_of_any hsecond
  refine ⟨fs, h, beq_iff_eq.1 hfs, again, hagain, beq_iff_eq.1 hsame, ?_⟩
  rintro rfl
  rw [beq_iff_eq.1 hfs] at hsame
  exact absurd hsame (by decide)

end Lintel.Selection
