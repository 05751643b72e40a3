import Lintel.Proofs.Glob.Dotted
import Lintel.Proofs.Path.Stacked
import Lintel.Proofs.Selection.Reference

/-!
# A dot in front of a token

A `./` in front of a token that is no glob does not change which file it names, however many there
are. In front of a glob the first one changes nothing either, but a glob with one more stands for no
file at all.
-/
namespace Lintel.Selection

variable (t : Tree) (dir : Path) {token : String}

theorem isAbsolute_ofString (h : token.toList.head? ≠ some '/') :
    (Path.ofString token).isAbsolute = false :=
  Glob.Search.isAbsolute_bytes h

theorem parts_dotted (token : String) :
    (Path.ofString ("./" ++ token)).parts = [Path.dot] :: (Path.ofString token).parts := by
  have hbytes : (Path.ofString ("./" ++ token)).bytes =
      [Path.dot] ++ Path.separator :: (Path.ofString token).bytes := by
    simp [Path.ofString, bytesOf, String.utf8EncodeChar, Path.dot, Path.separator]
  rw [Path.parts, hbytes]
  exact Text.pieces_append_sep (by rfl) _ _

theorem anchor_dotted {base : Path} (hbase : base.isAbsolute = true)
    (h : token.toList.head? ≠ some '/') :
    base.anchor (.ofString ("./" ++ token)) = base.anchor (.ofString token) := by
  have hdotted : (Path.ofString ("./" ++ token)).isAbsolute = false :=
    isAbsolute_ofString (by simp)
  refine Path.anchor_congr hbase hbase ?_
  rw [Path.stack_relative _ hdotted, Path.stack_relative _ (isAbsolute_ofString h), parts_dotted,
    List.foldl_cons, Path.stackStep_silent rfl]

theorem token_dotted (h : token.toList.head? ≠ some '/') :
    Alike ((under dir).token t ("./" ++ token))
      (((under dir).token t token).map fun ps =>
        if Glob.isGlob token = true ∧ ['.', '/'] <+: token.toList then [] else ps) := by
  have hdir := isAbsolute_workingDir_under dir
  rw [Selection.token, Selection.token, Glob.isGlob_dotted, anchor_dotted hdir h]
  cases Glob.isGlob token with
  | true =>
    have hexpand := (Glob.expand_dotted t hdir token).map
      (·.map (under dir).workingDir.anchor)
    rw [if_pos rfl, if_pos rfl]
    by_cases hfront : ['.', '/'] <+: token.toList
    all_goals
      simp only [hfront, and_true, and_false, if_true, if_false] at hexpand ⊢
      cases hfound : Glob.expand t (under dir).workingDir token <;> rwa [hfound] at hexpand
  | false =>
    rw [if_neg Bool.false_ne_true, if_neg Bool.false_ne_true]
    dsimp only
    split
    · exact .ok _
    · exact .error rfl

/-- With a `./` in front, a token that does not start with a separator is selected as it is, down to
the kind of its fault, unless it is a glob that starts with `./` itself. Such a glob fails as it
does, or stands for no file. -/
theorem resolve_dotted (path : Option Path) (h : token.toList.head? ≠ some '/') :
    (¬ (Glob.isGlob token = true ∧ ['.', '/'] <+: token.toList) →
      Alike ((under dir).resolve t ["./" ++ token] (.ofOptions true path))
        ((under dir).resolve t [token] (.ofOptions true path))) ∧
    (Glob.isGlob token = true → ['.', '/'] <+: token.toList →
      Alike ((under dir).resolve t ["./" ++ token] (.ofOptions true path))
        (((under dir).resolve t [token] (.ofOptions true path)).map fun _ => .ofList [])) := by
  have hoff : Ignoring.ofOptions true path = .off := rfl
  have htoken := (token_dotted t dir h).map FileSet.ofList
  rw [hoff, resolve_singleton, resolve_singleton]
  constructor
  · intro hplain
    simp only [if_neg hplain] at htoken
    cases hone : (under dir).token t token <;> rwa [hone] at htoken
  · intro hglob hfront
    simp only [if_pos (And.intro hglob hfront)] at htoken
    cases hone : (under dir).token t token <;> rwa [hone] at htoken

def oneScript : Tree := ⟨[([bytesOf "a.sh"], .file [] false)]⟩

theorem resolve_dotted_oneScript :
    let dir : Path := ⟨[Path.separator]⟩
    let select := fun token => (under dir).resolve oneScript [token] (.ofOptions true none)
    ("*.sh".toList.head? ≠ some '/' ∧ "./a.sh".toList.head? ≠ some '/' ∧
      "./*.sh".toList.head? ≠ some '/') ∧
    (∀ token ∈ ["*.sh", "./a.sh", "./*.sh"],
      ∃ fs, select token = .ok fs ∧ fs.files = [.ofString "/a.sh"]) ∧
    Alike (select ("./" ++ "*.sh")) (select "*.sh") ∧
    Alike (select ("./" ++ "./a.sh")) (select "./a.sh") ∧
    Alike (select ("./" ++ "./*.sh")) ((select "./*.sh").map fun _ => .ofList []) := by
  intro dir select
  have hfiles : ∀ token ∈ ["*.sh", "./a.sh", "./*.sh"],
      (select token).toOption.any (·.files == [.ofString "/a.sh"]) = true := by
    decide +kernel
  have hglob : "*.sh".toList.head? ≠ some '/' := by decide
  have hliteral : "./a.sh".toList.head? ≠ some '/' := by decide
  have hdotted : "./*.sh".toList.head? ≠ some '/' := by decide
  refine ⟨⟨hglob, hliteral, hdotted⟩, ?_, ?_, ?_, ?_⟩
  · intro token htoken
    obtain ⟨fs, hfs, hfound⟩ := exists_ok_of_any (hfiles token htoken)
    exact ⟨fs, hfs, beq_iff_eq.1 hfound⟩
  · exact (resolve_dotted oneScript dir none hglob).1 (by decide +kernel)
  · exact (resolve_dotted oneScript dir none hliteral).1 (by decide +kernel)
  · exact (resolve_dotted oneScript dir none hdotted).2 (by decide +kernel) (by decide)

theorem resolve_dotted_twice :
    ¬ Alike ((under ⟨[Path.separator]⟩).resolve oneScript ["./" ++ "./*.sh"] (.ofOptions true none))
      ((under ⟨[Path.separator]⟩).resolve oneScript ["./*.sh"] (.ofOptions true none)) := by
  have hnone : ((under ⟨[Path.separator]⟩).resolve oneScript ["./" ++ "./*.sh"]
      (.ofOptions true none)).toOption.any (·.files == []) = true := by
    decide +kernel
  have hone : ((under ⟨[Path.separator]⟩).resolve oneScript ["./*.sh"]
      (.ofOptions true none)).toOption.any (·.files == [.ofString "/a.sh"]) = true := by
    decide +kernel
  obtain ⟨fs, hfs, hfiles⟩ := exists_ok_of_any hnone
  obtain ⟨fs', hfs', hfiles'⟩ := exists_ok_of_any hone
  rw [hfs, hfs']
  rintro ⟨⟩
  rw [beq_iff_eq.1 hfiles] at hfiles'
  cases hfiles'

end Lintel.Selection
