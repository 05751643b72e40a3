import Lintel.Process.Machine
import Lintel.Proofs.Linter.Records
import Lintel.Proofs.Selection.Members
import Lintel.Session

/-!
# Sessions that complete

A session completes if the linter passes its gates, the files can be selected and the run over them
completes. Every finding of its report is about one of the selected files.
-/
namespace Lintel.Session

variable {r : Request} {c : Catalogue} {t : Tree} {dir : Path} {sh : Shell} {rep : Report}
  {calls : List Call}

theorem run_start_eq_ok_iff :
    (run r c t dir sh).start = (.ok rep, calls) ↔
      r.tokens ≠ [] ∧ ∃ l before files,
        (Installed.check c r.linter r.range sh).start = (.ok l, before) ∧
        (Selection.under dir).resolve t r.tokens r.ignoring = .ok files ∧
        (l.lint sh files r.options).startAfter before = (.ok rep, calls) := by
  rw [Traced.start_eq, run]
  by_cases htokens : r.tokens = []
  · rw [if_pos htokens, Traced.startAfter_fail]
    simp [htokens]
  · rw [if_neg htokens]
    simp only [Traced.startAfter_bind_eq_ok_iff, Traced.startAfter_ofExcept, Prod.mk.injEq]
    constructor
    · rintro ⟨l, before, hcheck, files, _, ⟨hfiles, rfl⟩, hlint⟩
      exact ⟨htokens, l, before, files, hcheck, hfiles, hlint⟩
    · rintro ⟨-, l, before, files, hcheck, hfiles, hlint⟩
      exact ⟨l, before, hcheck, files, _, ⟨hfiles, rfl⟩, hlint⟩

theorem exists_files_of_run (h : (run r c t dir sh).start = (.ok rep, calls)) :
    ∃ files, (Selection.under dir).resolve t r.tokens r.ignoring = .ok files ∧
      ∀ f ∈ rep.findings, f.file ∈ files.files := by
  obtain ⟨-, l, before, files, -, hfiles, hlint⟩ := run_start_eq_ok_iff.1 h
  obtain ⟨-, leading, -, hpass, -⟩ := Installed.lint_startAfter_eq_ok_iff.1 hlint
  refine ⟨files, hfiles, fun f hf => ?_⟩
  obtain ⟨file, hfile, o, fs, hread, hmem⟩ := Installed.exists_readOutput_of_mem hpass hf
  rw [Installed.file_of_mem_readOutput hread hmem]
  exact hfile

def complaining : Machine where
  tree := ⟨[
    ([bytesOf "a.sh"], .file [] false),
    ([bytesOf "b.sh"], .file [] false),
    ([bytesOf "shellcheck"], .file (bytesOf ("#!/bin/sh\n" ++
      "if [ \"$1\" = --version ]; then echo 1.0.0\n" ++
      "else echo '[\x7b\"message\":\"x\",\"level\":\"error\"\x7d]'\n" ++
      "fi\n")) true)]⟩
  workingDir := .ofString "/"
  searchPath := [.ofString "/"]

example :
    (run ⟨"shellcheck", ["*.sh"], none, true, none, none⟩ .builtin complaining.tree
      complaining.workingDir complaining.shell).start.1.toOption.map (·.findings.map (·.file)) =
        some [.ofString "/a.sh", .ofString "/b.sh"] := by
  decide +kernel

end Lintel.Session
