import Lintel.Proofs.Linter.Gates
import Lintel.Proofs.Linter.Running
import Lintel.Session

/-!
# The calls of a session

A session makes no call, or only the version call, or the version call and then one call per file.
Which of the three it is depends on the first step that fails; the calls for the files have the
same arguments in front, follow the order of the files and stop with the first file that fails.
-/
namespace Lintel.Session

/-- Why a request is turned down before any program runs. -/
inductive Barred (r : Request) (c : Catalogue) (sh : Shell) : Fault → Prop
  | noTokens (htokens : r.tokens = []) : Barred r c sh .noTokens
  | unasked {f : Fault} (htokens : r.tokens ≠ []) (hunasked : Installed.Unasked c sh r.linter f) :
      Barred r c sh f

/-- Why a request is given up between the version call and the first file. -/
inductive GivenUp (r : Request) (t : Tree) (dir : Path) (sh : Shell) (spec : LinterSpec)
    (command : Call) : Fault → Prop
  | declined {f : Fault} (hdeclined : Installed.Declined sh r.linter r.range spec command [] f) :
      GivenUp r t dir sh spec command f
  | unresolved {l : Installed} {f : Fault} (htells : Installed.Tells sh r.linter spec command [] l)
      (hrange : Installed.InRange r.range l.version)
      (hfiles : (Selection.under dir).resolve t r.tokens r.ignoring = .error f) :
      GivenUp r t dir sh spec command f
  | unprepared {l : Installed} {files : FileSet} {f : Fault}
      (htells : Installed.Tells sh r.linter spec command [] l)
      (hrange : Installed.InRange r.range l.version)
      (hfiles : (Selection.under dir).resolve t r.tokens r.ignoring = .ok files)
      (hunprepared : l.Unprepared r.options f) : GivenUp r t dir sh spec command f

/-- Everything is settled before the first file: the linter, the files, the mode and the arguments
in front of each file. -/
structure Ready (r : Request) (t : Tree) (dir : Path) (sh : Shell) (spec : LinterSpec)
    (command : Call) (l : Installed) (files : FileSet) (mode : OutputMode)
    (leading : List Bytes) : Prop where
  tells : Installed.Tells sh r.linter spec command [] l
  inRange : Installed.InRange r.range l.version
  resolved : (Selection.under dir).resolve t r.tokens r.ignoring = .ok files
  prepared : l.Prepared r.options mode leading

/-- The three courses a session can take. -/
theorem run_calls (r : Request) (c : Catalogue) (t : Tree) (dir : Path) (sh : Shell) :
    (∃ f, Barred r c sh f ∧ (run r c t dir sh).start = (.error f, [])) ∨
    (∃ spec command f, r.tokens ≠ [] ∧ Installed.Asks c sh r.linter spec command ∧
      GivenUp r t dir sh spec command f ∧ (run r c t dir sh).start = (.error f, [command])) ∨
    ∃ spec command l files mode leading, r.tokens ≠ [] ∧
      Installed.Asks c sh r.linter spec command ∧
      Ready r t dir sh spec command l files mode leading ∧
      ((∃ found, l.Passes sh mode leading [command] files.files found ∧
        (run r c t dir sh).start =
          (.ok ⟨mode, found⟩, command :: files.files.map (l.lintCall leading))) ∨
      ∃ done file rest found f, files.files = done ++ file :: rest ∧
        l.Passes sh mode leading [command] done found ∧
        l.outcome sh mode leading (command :: done.map (l.lintCall leading)) file = .error f ∧
        (run r c t dir sh).start =
          (.error f, command :: (done ++ [file]).map (l.lintCall leading))) := by
  rw [Traced.start_eq]
  by_cases htokens : r.tokens = []
  · exact .inl ⟨_, .noTokens htokens, by rw [run, if_pos htokens, Traced.startAfter_fail]⟩
  rw [run, if_neg htokens]
  rcases Installed.check_startAfter c sh r.linter r.range [] with
    ⟨f, hunasked, hrun⟩ | ⟨spec, command, f, hasks, hdeclined, hrun⟩ |
    ⟨spec, command, l, hasks, htells, hrange, hrun⟩
  · exact .inl ⟨f, .unasked htokens hunasked, Traced.startAfter_bind_of_error hrun _⟩
  · exact .inr (.inl ⟨spec, command, f, htokens, hasks, .declined hdeclined,
      Traced.startAfter_bind_of_error hrun _⟩)
  rw [Traced.startAfter_bind_of_ok hrun]
  cases hfiles : (Selection.under dir).resolve t r.tokens r.ignoring with
  | error f =>
    exact .inr (.inl ⟨spec, command, f, htokens, hasks, .unresolved htells hrange hfiles,
      Traced.startAfter_bind_of_error rfl _⟩)
  | ok files =>
    rw [Traced.startAfter_bind_of_ok (Traced.startAfter_ofExcept _ _)]
    rcases l.lint_startAfter sh files r.options [command] with
      ⟨f, hunprepared, hlint⟩ | ⟨mode, leading, hprepared, hlint⟩
    · exact .inr (.inl ⟨spec, command, f, htokens, hasks,
        .unprepared htells hrange hfiles hunprepared, hlint⟩)
    · refine .inr (.inr ⟨spec, command, l, files, mode, leading, htokens, hasks,
        ⟨htells, hrange, hfiles, hprepared⟩, ?_⟩)
      rw [List.nil_append, hlint]
      rcases l.lintFiles_startAfter sh mode leading files.files [command] with
        ⟨found, hpass, hlast⟩ | ⟨done, file, rest, found, f, hsplit, hpass, hbad, hlast⟩
      · exact .inl ⟨found, hpass, Traced.startAfter_bind_of_ok hlast _⟩
      · exact .inr ⟨done, file, rest, found, f, hsplit, hpass, hbad,
          Traced.startAfter_bind_of_error hlast _⟩

end Lintel.Session
