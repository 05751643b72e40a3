import Lintel.Proofs.Linter.Running
import Lintel.Proofs.Outcome

/-!
# Runs that complete

A run over some files completes if each of them passes. Its calls are one per file, and what it
finds is what each file's output holds, one file after the other. Where the shell answers a call
always alike, the files do not depend on each other: a run completes if every file on its own does.
-/
namespace Lintel

namespace Shell

def answers (sh : Shell) (before : List Call) : List Call → List (Except IoFault Output)
  | [] => []
  | c :: calls => sh.answer before c :: answers sh (before ++ [c]) calls

/-- The answer to a call does not depend on the calls before it. -/
def Steady (sh : Shell) : Prop := ∀ before before' c, sh.answer before c = sh.answer before' c

end Shell

namespace Installed

variable {l : Installed} {sh : Shell} {mode : OutputMode} {leading : List Bytes}
  {before after : List Call}

theorem passes_cons_iff {file : Path} {files : List Path} {found : List Finding} :
    l.Passes sh mode leading before (file :: files) found ↔
      ∃ first rest, l.outcome sh mode leading before file = .ok first ∧
        l.Passes sh mode leading (before ++ [l.lintCall leading file]) files rest ∧
        found = first ++ rest := by
  constructor
  · intro h
    cases h with
    | cons hfile hfiles => exact ⟨_, _, hfile, hfiles, rfl⟩
  · rintro ⟨first, rest, hfile, hfiles, rfl⟩
    exact .cons hfile hfiles

theorem lintFiles_startAfter_eq_ok_iff {files : List Path} {found : List Finding} :
    (l.lintFiles sh mode leading files).startAfter before = (.ok found, after) ↔
      l.Passes sh mode leading before files found ∧
        after = before ++ files.map (l.lintCall leading) := by
  induction files generalizing before after found with
  | nil =>
    rw [lintFiles, Traced.startAfter_pure]
    constructor
    · intro h
      cases h
      exact ⟨.nil, by simp⟩
    · rintro ⟨⟨⟩, rfl⟩
      simp
  | cons file files ih =>
    simp only [lintFiles, Traced.startAfter_bind_eq_ok_iff, lintFile_startAfter, ih,
      Traced.startAfter_pure, Prod.mk.injEq, Except.ok.injEq, passes_cons_iff, List.map_cons]
    constructor
    · rintro ⟨first, mid, ⟨hfirst, rfl⟩, rest, last, ⟨hrest, rfl⟩, rfl, rfl⟩
      exact ⟨⟨first, rest, hfirst, hrest, rfl⟩, by simp⟩
    · rintro ⟨⟨first, rest, hfirst, hrest, rfl⟩, rfl⟩
      exact ⟨first, _, ⟨hfirst, rfl⟩, rest, _, ⟨hrest, rfl⟩, rfl, by simp⟩

theorem lint_startAfter_eq_ok_iff {files : FileSet} {options : Option String} {r : Report} :
    (l.lint sh files options).startAfter before = (.ok r, after) ↔
      l.mode = .ok r.mode ∧ ∃ leading, l.leadingArguments options = .ok leading ∧
        l.Passes sh r.mode leading before files.files r.findings ∧
        after = before ++ files.files.map (l.lintCall leading) := by
  simp only [lint, Traced.startAfter_bind_eq_ok_iff, Traced.startAfter_ofExcept,
    lintFiles_startAfter_eq_ok_iff, Traced.startAfter_pure, Prod.mk.injEq, Except.ok.injEq]
  constructor
  · rintro ⟨mode, _, ⟨hmode, rfl⟩, leading, _, ⟨hleading, rfl⟩, found, _, ⟨hpass, rfl⟩, rfl, rfl⟩
    exact ⟨hmode, leading, hleading, hpass, rfl⟩
  · rintro ⟨hmode, leading, hleading, hpass, rfl⟩
    exact ⟨_, _, ⟨hmode, rfl⟩, leading, _, ⟨hleading, rfl⟩, _, _, ⟨hpass, rfl⟩, rfl, rfl⟩

end Installed

end Lintel
