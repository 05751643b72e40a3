import Lintel.Proofs.Report.Blocks
import Lintel.Proofs.Session.Completed

/-!
# One block for each file

No two selected files are the same and each is linted once, so that the findings of a report stand in
groups, one for each file, and its text has one header for each file in which something was found.
-/
namespace Lintel

open Report (Groups)

theorem Installed.exists_groups_of_passes {l : Installed} {sh : Shell} {mode : OutputMode}
    {leading : List Bytes} {before : List Call} {files : List Path} {found : List Finding}
    (h : l.Passes sh mode leading before files found) :
    ∃ groups : Groups, groups.map (·.1) = files ∧ found = groups.flatMap (·.2) ∧
      List.Forall₂ (fun answer g => ∃ o, answer = .ok o ∧ l.readOutput mode g.1 o = .ok g.2)
        (sh.answers before (files.map (l.lintCall leading))) groups := by
  induction h with
  | nil => exact ⟨[], rfl, rfl, .nil⟩
  | @cons before file files first rest hfile _ ih =>
    obtain ⟨o, hanswer, hread⟩ := outcome_eq_ok_iff.1 hfile
    obtain ⟨groups, hfiles, hfound, hgroups⟩ := ih
    refine ⟨(file, first) :: groups, by rw [List.map_cons, hfiles], ?_, ?_⟩
    · rw [List.flatMap_cons, hfound]
    · exact .cons ⟨o, hanswer, hread⟩ hgroups

namespace Session

variable {r : Request} {c : Catalogue} {t : Tree} {dir : Path} {sh : Shell} {rep : Report}
  {calls : List Call}

/-- The text of a report lists the selected files in which something was found, in order: for each
of them an empty line, its name and a row for each finding that its output holds. The findings of
structured output are followed by an empty line and the count of problems. -/
theorem run_text_blocks (h : (run r c t dir sh).start = (.ok rep, calls)) :
    ∃ l before leading files, ∃ groups : Groups,
      (Installed.check c r.linter r.range sh).start = (.ok l, before) ∧
      (Selection.under dir).resolve t r.tokens r.ignoring = .ok files ∧
      calls = before ++ files.files.map (l.lintCall leading) ∧
      groups.map (·.1) = files.files ∧ groups.Separate ∧
      List.Forall₂ (fun answer g => ∃ o, answer = .ok o ∧ l.readOutput rep.mode g.1 o = .ok g.2)
        (sh.answers before (files.files.map (l.lintCall leading))) groups ∧
      rep.findings = groups.flatMap (·.2) ∧
      (rep.text false).toList =
        ((groups.filter (·.2 ≠ [])).flatMap fun g => rep.block g.1 g.2) ++ rep.closing := by
  obtain ⟨-, l, before, files, hcheck, hfiles, hlint⟩ := run_start_eq_ok_iff.1 h
  obtain ⟨-, leading, -, hpass, hcalls⟩ := Installed.lint_startAfter_eq_ok_iff.1 hlint
  obtain ⟨groups, hnames, hfindings, hgroups⟩ := Installed.exists_groups_of_passes hpass
  have hown : ∀ g ∈ groups, ∀ f ∈ g.2, f.file = g.1 := by
    intro g hg f hf
    obtain ⟨answer, -, o, -, hread⟩ := exists_of_mem_forall₂ hgroups hg
    exact Installed.file_of_mem_readOutput hread hf
  have hdistinct : groups.Pairwise fun g h => ¬ g.1.Same h.1 := by
    have hfilesDistinct := files.distinct
    rw [← hnames, List.pairwise_map] at hfilesDistinct
    exact hfilesDistinct
  exact ⟨l, before, leading, files, groups, hcheck, hfiles, hcalls, hnames, ⟨hown, hdistinct⟩,
    hgroups, hfindings, Report.text_groups ⟨hown, hdistinct⟩ hfindings⟩

def sparse : Tree := ⟨[
  ([bytesOf "a.sh"], .file [] false),
  ([bytesOf "b.sh"], .file [] false),
  ([bytesOf "c.sh"], .file [] false)]⟩

def sparseShell : Shell := .scripted ["shellcheck"]
  [⟨some 0, bytesOf "1.0.0", []⟩,
    ⟨some 1, bytesOf "[\x7b\"message\":\"x\",\"line\":3\x7d,\x7b\"message\":\"yy\"\x7d]", []⟩,
    ⟨some 0, bytesOf " ", []⟩,
    ⟨some 1, bytesOf "[\x7b\"message\":\"z\",\"level\":\"error\"\x7d]", []⟩]

def sparseRequest : Request := ⟨"shellcheck", ["*.sh", "a.sh"], none, true, none, none⟩

theorem run_text_blocks_sparse :
    ∃ rep calls, (run sparseRequest .builtin sparse (.ofString "/") sparseShell).start =
        (.ok rep, calls) ∧
      rep.text false = "\n/a.sh\n  3:  other  x   \n   :  other  yy  \n" ++
        "\n/c.sh\n   :  error  z   \n" ++ "\n✗ 1 problem (1 error, 0 warnings)\n" ∧
      ∃ l before leading files, ∃ groups : Groups,
        (Installed.check .builtin sparseRequest.linter sparseRequest.range sparseShell).start =
          (.ok l, before) ∧
        (Selection.under (.ofString "/")).resolve sparse sparseRequest.tokens
          sparseRequest.ignoring = .ok files ∧
        calls = before ++ files.files.map (l.lintCall leading) ∧
        groups.map (·.1) = files.files ∧ groups.Separate ∧
        List.Forall₂ (fun answer g => ∃ o, answer = .ok o ∧ l.readOutput rep.mode g.1 o = .ok g.2)
          (sparseShell.answers before (files.files.map (l.lintCall leading))) groups ∧
        rep.findings = groups.flatMap (·.2) ∧
        (rep.text false).toList =
          ((groups.filter (·.2 ≠ [])).flatMap fun g => rep.block g.1 g.2) ++ rep.closing := by
  have htext : (run sparseRequest .builtin sparse (.ofString "/") sparseShell).start.1.toOption.any
      (fun rep => rep.text false == "\n/a.sh\n  3:  other  x   \n   :  other  yy  \n" ++
        "\n/c.sh\n   :  error  z   \n" ++ "\n✗ 1 problem (1 error, 0 warnings)\n") = true := by
    decide +kernel
  obtain ⟨rep, hrep, hrows⟩ := exists_ok_of_any htext
  have hrun : (run sparseRequest .builtin sparse (.ofString "/") sparseShell).start =
      (.ok rep, (run sparseRequest .builtin sparse (.ofString "/") sparseShell).start.2) :=
    Prod.ext hrep rfl
  exact ⟨rep, _, hrun, beq_iff_eq.1 hrows, run_text_blocks hrun⟩

end Session

end Lintel
