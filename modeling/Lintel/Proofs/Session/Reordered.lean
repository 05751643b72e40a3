import Lintel.Proofs.Session.Completed

/-!
# Tokens in another order

The tokens of a request decide the selected files only as a set. The files stand in an order that
depends on the order of the tokens, but a shell that answers a call always alike lets no file
depend on the ones before it. So the order of the tokens and their repetitions decide nothing but
the order in which the files are reported.
-/
namespace Lintel

theorem Machine.steady_shell (m : Machine) : m.shell.Steady := fun _ _ _ => rfl

theorem FileSet.filter_same_eq_of_perm {fs fs' : FileSet} (h : fs.files.Perm fs'.files)
    (p : Path) : fs.files.filter (·.Same p) = fs'.files.filter (·.Same p) := by
  have hsame : ∀ ps : List Path, ∀ q ∈ ps.filter (·.Same p), q.Same p := by
    intro ps q hq
    exact of_decide_eq_true (List.mem_filter.1 hq).2
  apply (h.filter _).eq_of_pairwise _ (fs.distinct.filter _) (fs'.distinct.filter _)
  intro q q' hq hq' hne
  exact absurd ((hsame _ q hq).trans (hsame _ q' hq').symm) hne

namespace Installed

variable {l : Installed} {sh : Shell} {mode : OutputMode} {leading : List Bytes}

def foundIn (l : Installed) (sh : Shell) (mode : OutputMode) (leading : List Bytes)
    (file : Path) : List Finding :=
  (l.outcome sh mode leading [] file).toOption.getD []

theorem foundIn_eq {file : Path} {fs : List Finding}
    (h : l.outcome sh mode leading [] file = .ok fs) : l.foundIn sh mode leading file = fs := by
  rw [foundIn, h]
  rfl

theorem outcome_of_steady (hsteady : sh.Steady) (before : List Call) (file : Path) :
    l.outcome sh mode leading before file = l.outcome sh mode leading [] file := by
  rw [outcome, outcome, hsteady before []]

theorem passes_iff_of_steady (hsteady : sh.Steady) {before : List Call} {files : List Path}
    {found : List Finding} :
    l.Passes sh mode leading before files found ↔
      (∀ file ∈ files, ∃ fs, l.outcome sh mode leading [] file = .ok fs) ∧
        found = files.flatMap (l.foundIn sh mode leading) := by
  induction files generalizing before found with
  | nil =>
    constructor
    · intro h
      cases h
      simp
    · intro h
      obtain ⟨-, rfl⟩ := h
      exact .nil
  | cons file files ih =>
    simp only [passes_cons_iff, outcome_of_steady hsteady before, ih, List.forall_mem_cons,
      List.flatMap_cons]
    constructor
    · rintro ⟨first, rest, hfirst, ⟨hfiles, rfl⟩, rfl⟩
      exact ⟨⟨⟨first, hfirst⟩, hfiles⟩, by rw [foundIn_eq hfirst]⟩
    · rintro ⟨⟨⟨first, hfirst⟩, hfiles⟩, rfl⟩
      exact ⟨first, _, hfirst, ⟨hfiles, rfl⟩, by rw [foundIn_eq hfirst]⟩

theorem file_of_mem_foundIn {file : Path} {f : Finding}
    (hf : f ∈ l.foundIn sh mode leading file) : f.file = file := by
  cases h : l.outcome sh mode leading [] file with
  | error cause => simp [foundIn, h, Except.toOption] at hf
  | ok fs =>
    rw [foundIn_eq h] at hf
    obtain ⟨o, -, hread⟩ := outcome_eq_ok_iff.1 h
    exact file_of_mem_readOutput hread hf

end Installed

namespace Report

def about (r : Report) (p : Path) : List Finding := r.findings.filter (·.file.Same p)

/-- Two reports that differ at most in the order of their files. -/
structure Agrees (r r' : Report) : Prop where
  mode : r.mode = r'.mode
  tally : r.tally = r'.tally
  passed : r.passed = r'.passed
  about : ∀ p, r.about p = r'.about p

variable {r r' : Report}

theorem agrees_of_perm (hmode : r.mode = r'.mode) (hfindings : r.findings.Perm r'.findings)
    (habout : ∀ p, r.about p = r'.about p) : r.Agrees r' := by
  have htally : r.tally = r'.tally := Tally.ofFindings_eq_of_perm hfindings
  refine ⟨hmode, htally, ?_, habout⟩
  rw [passed, passed, htally]

theorem about_eq_flatMap {files : List Path} {find : Path → List Finding}
    (hfindings : r.findings = files.flatMap find) (hfile : ∀ file, ∀ f ∈ find file, f.file = file)
    (p : Path) : r.about p = (files.filter (·.Same p)).flatMap find := by
  rw [about, hfindings]
  clear hfindings
  induction files with
  | nil => rfl
  | cons file files ih =>
    have hhead : (find file).filter (·.file.Same p) = if file.Same p then find file else [] := by
      split
      · rename_i hsame
        apply List.filter_eq_self.2
        intro f hf
        simp [hfile file f hf, hsame]
      · rename_i hother
        apply List.filter_eq_nil_iff.2
        intro f hf
        simp [hfile file f hf, hother]
    rw [List.flatMap_cons, List.filter_append, ih, hhead, List.filter_cons]
    by_cases hsame : file.Same p <;> simp [hsame]

end Report

namespace Session

variable {r : Request} {c : Catalogue} {t : Tree} {dir : Path} {sh : Shell} {toks : List String}

theorem exists_agrees_of_run (hsteady : sh.Steady) (htoks : ∀ tok, tok ∈ r.tokens ↔ tok ∈ toks)
    {rep : Report} (h : (run r c t dir sh).start.1 = .ok rep) :
    ∃ rep', (run { r with tokens := toks } c t dir sh).start.1 = .ok rep' ∧ rep.Agrees rep' := by
  obtain ⟨hsome, l, before, files, hcheck, hfiles, hlint⟩ :=
    run_start_eq_ok_iff.1 (Prod.ext h rfl)
  obtain ⟨hmode, leading, hleading, hpass, -⟩ := Installed.lint_startAfter_eq_ok_iff.1 hlint
  obtain ⟨hall, hfound⟩ := (Installed.passes_iff_of_steady hsteady).1 hpass
  obtain ⟨files', hfiles', hperm⟩ := Selection.exists_perm_of_mem_iff t htoks hfiles
  let rep' : Report := ⟨rep.mode, files'.files.flatMap (l.foundIn sh rep.mode leading)⟩
  have hsome' : toks ≠ [] := by
    rintro rfl
    exact hsome (List.eq_nil_iff_forall_not_mem.2 fun tok htok => by simpa using (htoks tok).1 htok)
  have hpass' : l.Passes sh rep'.mode leading before files'.files rep'.findings := by
    apply (Installed.passes_iff_of_steady hsteady).2
    exact ⟨fun file hfile => hall file (hperm.mem_iff.2 hfile), rfl⟩
  have hrun : (run { r with tokens := toks } c t dir sh).start = (.ok rep', _) :=
    run_start_eq_ok_iff.2 ⟨hsome', l, before, files', hcheck, hfiles',
      Installed.lint_startAfter_eq_ok_iff.2 ⟨hmode, leading, hleading, hpass', rfl⟩⟩
  refine ⟨rep', by rw [hrun], ?_⟩
  have hmode' : rep.mode = rep'.mode := rfl
  apply Report.agrees_of_perm hmode'
  · rw [hfound]
    exact hperm.flatMap_right _
  · intro p
    rw [Report.about_eq_flatMap hfound (fun _ _ => Installed.file_of_mem_foundIn) p,
      Report.about_eq_flatMap (r := rep') rfl (fun _ _ => Installed.file_of_mem_foundIn) p,
      FileSet.filter_same_eq_of_perm hperm p]

/-- With a shell that answers a call always alike, tokens in another order or given again lead to
a report as the first ones do, and to one that agrees with theirs. -/
theorem run_reordered (c : Catalogue) (t : Tree) (dir : Path) (sh : Shell) (r : Request)
    (toks : List String) (hsteady : sh.Steady) (htoks : ∀ tok, tok ∈ r.tokens ↔ tok ∈ toks) :
    let first := (run r c t dir sh).start.1
    let second := (run { r with tokens := toks } c t dir sh).start.1
    ((∃ rep, first = .ok rep) ↔ ∃ rep', second = .ok rep') ∧
      ∀ rep rep', first = .ok rep → second = .ok rep' → rep.Agrees rep' := by
  refine ⟨⟨fun h => ?_, fun h => ?_⟩, fun rep rep' hfirst hsecond => ?_⟩
  · obtain ⟨rep, hfirst⟩ := h
    obtain ⟨rep', hsecond, -⟩ := exists_agrees_of_run hsteady htoks hfirst
    exact ⟨rep', hsecond⟩
  · obtain ⟨rep', hsecond⟩ := h
    obtain ⟨rep, hfirst, -⟩ := exists_agrees_of_run hsteady (fun tok => (htoks tok).symm)
      hsecond
    exact ⟨rep, hfirst⟩
  · obtain ⟨found, hfound, hagrees⟩ := exists_agrees_of_run hsteady htoks hfirst
    obtain rfl : found = rep' := Except.ok.inj (hfound.symm.trans hsecond)
    exact hagrees

theorem run_reordered_complaining :
    let run' (toks : List String) :=
      (run ⟨"shellcheck", toks, none, true, none, none⟩ .builtin complaining.tree
        complaining.workingDir complaining.shell).start.1
    ∃ rep rep', run' ["b.sh", "*.sh"] = .ok rep ∧ run' ["*.sh", "b.sh", "*.sh"] = .ok rep' ∧
      rep.findings.map (·.file) = [.ofString "/b.sh", .ofString "/a.sh"] ∧
      rep'.findings.map (·.file) = [.ofString "/a.sh", .ofString "/b.sh"] ∧
      rep.Agrees rep' := by
  intro run'
  have hfirst : (run' ["b.sh", "*.sh"]).toOption.any
      (·.findings.map (·.file) == [.ofString "/b.sh", .ofString "/a.sh"]) = true := by
    decide +kernel
  have hsecond : (run' ["*.sh", "b.sh", "*.sh"]).toOption.any
      (·.findings.map (·.file) == [.ofString "/a.sh", .ofString "/b.sh"]) = true := by
    decide +kernel
  obtain ⟨rep, hrep, hfiles⟩ := exists_ok_of_any hfirst
  obtain ⟨rep', hrep', hfiles'⟩ := exists_ok_of_any hsecond
  obtain ⟨-, hagrees⟩ := run_reordered .builtin complaining.tree complaining.workingDir
    complaining.shell ⟨"shellcheck", ["b.sh", "*.sh"], none, true, none, none⟩
    ["*.sh", "b.sh", "*.sh"] complaining.steady_shell (by simp)
  exact ⟨rep, rep', hrep, hrep', beq_iff_eq.1 hfiles, beq_iff_eq.1 hfiles',
    hagrees rep rep' hrep hrep'⟩

end Session

end Lintel
