import Lintel.Program
import Lintel.Proofs.Linter.Records
import Lintel.Proofs.Report.Ending
import Lintel.Proofs.Session.Completed

/-!
# The verdict of a run

In structured mode the tally counts the records that the linter printed, by their levels. The
report fails if one of them is an error, and its text ends in a line that says how many problems
there are, if there are any. In plain mode nothing is counted and no report fails. The program
tells by its exit code whether the report passes, or that there is none.
-/
namespace Lintel

open Linter (Record Holds Counts)
open Report (problemLine problemSpan)
open Session (complaining)

/-- A report in structured mode about the records that were printed. -/
structure Report.Judges (r : Report) (records : List Record) : Prop where
  severities : ∀ f ∈ r.findings, f.severity.isSome = true
  counts : Counts r.tally records
  total : r.tally.error + r.tally.warning + r.tally.info + r.tally.other = r.findings.length
  problems : r.tally.problems = r.tally.error + r.tally.warning
  passed : r.passed = false ↔ ∃ record ∈ records, record.key = some "error"
  line : problemLine r.tally = "✗ " ++ toString r.tally.problems ++
    (if r.tally.problems = 1 then " problem (" else " problems (") ++ toString r.tally.error ++
    (if r.tally.error = 1 then " error, " else " errors, ") ++ toString r.tally.warning ++
    (if r.tally.warning = 1 then " warning)" else " warnings)")
  lastLine : ∀ coloured, Text.EndsInLine (r.text coloured).toList
    (Span.render coloured [problemSpan r.tally]) ↔ 0 < r.tally.problems

/-- A report in plain mode. Its text ends in its last finding. -/
structure Report.Unjudged (r : Report) : Prop where
  tally : r.tally = .zero
  passed : r.passed = true
  lastLine : ∀ coloured fs f, r.findings = fs ++ [f] →
    Text.EndsInLine (r.text coloured).toList (Span.render coloured [⟨.yellow, f.message.toList⟩])
  empty : ∀ coloured, r.findings = [] → r.text coloured = ""

namespace Report

theorem problemLine_eq (t : Tally) :
    problemLine t = "✗ " ++ toString t.problems ++
      (if t.problems = 1 then " problem (" else " problems (") ++ toString t.error ++
      (if t.error = 1 then " error, " else " errors, ") ++ toString t.warning ++
      (if t.warning = 1 then " warning)" else " warnings)") := by
  have hnoun (n : Nat) (noun close : String) : counted n noun ++ close =
      toString n ++ if n = 1 then " " ++ noun ++ close else " " ++ noun ++ "s" ++ close := by
    rw [counted]
    split <;> simp [String.append_assoc]
  calc problemLine t
      = "✗ " ++ (counted t.problems "problem" ++ " (") ++ (counted t.error "error" ++ ", ") ++
          (counted t.warning "warning" ++ ")") := by
        simp only [problemLine, String.append_assoc]
    _ = _ := by
        simp only [hnoun, String.append_assoc]
        rfl

theorem passed_eq_false_iff (r : Report) : r.passed = false ↔ 0 < r.tally.error := by
  simp [passed, Nat.pos_iff_ne_zero]

theorem judges_of_severities {r : Report} {records : List Record} (hmode : r.mode = .structured)
    (h : r.findings.map (·.severity) = records.map fun r => some r.severity) :
    r.Judges records := by
  have hcounts : Counts r.tally records := Linter.counts_ofFindings h
  refine ⟨fun f hf => ?_, hcounts, ?_, rfl, ?_, problemLine_eq r.tally,
    fun coloured => endsInLine_problemSpan_iff coloured hmode⟩
  · have hmem : f.severity ∈ records.map fun r => some r.severity := by
      rw [← h]
      exact List.mem_map_of_mem hf
    obtain ⟨record, -, hrecord⟩ := List.mem_map.1 hmem
    rw [← hrecord]
    rfl
  · have hlength := congrArg List.length h
    have htotal := Tally.total_ofFindings r.findings
    rw [Linter.filterMap_severity h, List.length_map] at htotal
    rw [List.length_map, List.length_map] at hlength
    exact htotal.trans hlength.symm
  · rw [passed_eq_false_iff, hcounts.error, List.countP_pos_iff]
    simp only [decide_eq_true_eq]

theorem unjudged_of_severities {r : Report} (hmode : r.mode = .plainText)
    (h : ∀ f ∈ r.findings, f.severity = none) : r.Unjudged := by
  have hnone : r.findings.filterMap (·.severity) = [] := List.filterMap_eq_nil_iff.2 h
  have htally : r.tally = .zero := by
    rw [tally, Tally.ofFindings, hnone]
    rfl
  refine ⟨htally, ?_, fun coloured fs f hlast => endsInLine_message coloured hmode hlast,
    fun coloured hempty => ?_⟩
  · rw [passed, htally]
    rfl
  · apply String.toList_injective
    rw [text_plainText coloured hmode, hempty]
    rfl

end Report

/-- An exit whose code tells how the session ended. -/
structure Exit.Tells (e : Exit) (ended : Except Fault Report) : Prop where
  passed : e.code = 0 ↔ ∃ r, ended = .ok r ∧ r.passed = true
  failed : e.code = 1 ↔ ∃ r, ended = .ok r ∧ r.passed = false
  broken : e.code = 2 ↔ ∃ f, ended = .error f
  silent : (∃ f, ended = .error f) → e.out = ""

theorem Exit.tells_ofReport (r : Report) (coloured : Bool) (format : ReportFormat) :
    (Exit.ofReport r coloured format).Tells (.ok r) := by
  have hcode : (Exit.ofReport r coloured format).code = if r.passed then 0 else 1 := rfl
  cases h : r.passed <;> constructor <;> simp [hcode, h]

theorem Exit.tells_ofFault (f : Fault) (coloured : Bool) :
    (Exit.ofFault f coloured).Tells (.error f) := by
  constructor <;> simp [Exit.ofFault]

theorem Invocation.tells_run (i : Invocation) (m : Machine) (sh : Shell) (coloured : Bool) :
    (i.run m sh coloured).Tells (i.lint m sh).start.1 := by
  unfold Invocation.run
  cases (i.lint m sh).start.1 with
  | error f => exact Exit.tells_ofFault f coloured
  | ok r => exact Exit.tells_ofReport r coloured i.format

theorem Invocation.exists_lint_of_start {i : Invocation} {m : Machine} {sh : Shell} {r : Report}
    (h : (i.lint m sh).start.1 = .ok r) :
    ∃ (l : Installed) (files : FileSet) (before after : List Call),
      (l.lint sh files i.options).startAfter before = (.ok r, after) := by
  have hstart : (i.lint m sh).startAfter [] = (.ok r, (i.lint m sh).start.2) := Prod.ext h rfl
  obtain ⟨s, calls, hsettings, hrun⟩ := Traced.startAfter_bind_eq_ok_iff.1 hstart
  obtain rfl : [] = calls := congrArg Prod.snd hsettings
  obtain ⟨-, l, before, files, -, -, hlint⟩ := Session.run_start_eq_ok_iff.1 hrun
  exact ⟨l, files, before, _, hlint⟩

/-- A run in structured mode is judged by the records that the linter printed about all files, and
a run in plain mode is not judged. The program prints the report of such a run, and its exit code
tells whether that report passes. -/
theorem lint_verdict :
    (∀ (l : Installed) (sh : Shell) (files : FileSet) (options : Option String)
      (before after : List Call) (r : Report),
      (l.lint sh files options).startAfter before = (.ok r, after) →
        (r.mode = .structured → ∃ leading each,
          after = before ++ files.files.map (l.lintCall leading) ∧
          List.Forall₂ (fun answer records => ∃ o, answer = .ok o ∧ Holds o.out records)
            (sh.answers before (files.files.map (l.lintCall leading))) each ∧
          r.Judges each.flatten) ∧
        (r.mode = .plainText → r.Unjudged)) ∧
    (∀ (i : Invocation) (m : Machine) (sh : Shell) (coloured : Bool),
      (i.run m sh coloured).Tells (i.lint m sh).start.1 ∧
        ∀ r, (i.lint m sh).start.1 = .ok r →
          (i.run m sh coloured).out = r.write coloured i.format ++ "\n" ∧
          ∃ (l : Installed) (files : FileSet) (before after : List Call),
            (l.lint sh files i.options).startAfter before = (.ok r, after)) ∧
    ∀ (m : Machine) (display : Display) (arguments : List Bytes) (i : Invocation),
      Invocation.read arguments = .ok i →
        program m display arguments = i.run m m.shell display.coloured := by
  refine ⟨fun l sh files options before after r h => ?_, fun i m sh coloured => ⟨?_, ?_⟩,
    fun m display arguments i h => ?_⟩
  · obtain ⟨-, leading, -, hpass, hafter⟩ := Installed.lint_startAfter_eq_ok_iff.1 h
    constructor
    · intro hmode
      rw [hmode] at hpass
      obtain ⟨each, heach, hseverities⟩ := Installed.exists_records_of_passes hpass
      exact ⟨leading, each, hafter, heach, Report.judges_of_severities hmode hseverities⟩
    · intro hmode
      rw [hmode] at hpass
      refine Report.unjudged_of_severities hmode fun f hf => ?_
      obtain ⟨file, -, o, fs, hread, hmem⟩ := Installed.exists_readOutput_of_mem hpass hf
      obtain ⟨message, rfl⟩ := Installed.exists_plain_of_mem_readOutput hread hmem
      rfl
  · exact i.tells_run m sh coloured
  · intro r hr
    refine ⟨?_, Invocation.exists_lint_of_start hr⟩
    rw [Invocation.run, hr]
    rfl
  · rw [program, h]

def recording : Installed :=
  ⟨"lint", .withStructured "--version" "--json" "*", .ofString "/lint", ⟨1, 0, 0, []⟩⟩

def listing : Installed := { recording with spec := .plainOnly "--version" }

def recordedText : String :=
  "[\x7b\"message\":\"x\",\"level\":\" Error\"\x7d,\x7b\"message\":\"y\"\x7d]"

def recorded : Shell :=
  .scripted [] [⟨some 1, bytesOf recordedText, []⟩, ⟨some 0, bytesOf "\n", []⟩]

def recordedFiles : FileSet := .ofList [.ofString "/a.sh", .ofString "/b.sh"]

def recordedReport : Report :=
  ⟨.structured, [⟨.ofString "/a.sh", "x", none, none, some .error, some " Error", none⟩,
    ⟨.ofString "/a.sh", "y", none, none, some .other, none, none⟩]⟩

def listedReport : Report := ⟨.plainText, [.plain (.ofString "/a.sh") recordedText]⟩

theorem lint_verdict_recorded :
    (∃ leading each,
      List.Forall₂ (fun answer records => ∃ o, answer = .ok o ∧ Holds o.out records)
        (recorded.answers [] (recordedFiles.files.map (recording.lintCall leading))) each ∧
      recordedReport.Judges each.flatten) ∧
    listedReport.Unjudged ∧
    ∃ i, Invocation.read [bytesOf "shellcheck", bytesOf "*.sh"] = .ok i ∧
      program complaining ⟨false, none, none, none⟩ [bytesOf "shellcheck", bytesOf "*.sh"] =
        i.run complaining complaining.shell false ∧
      (i.run complaining complaining.shell false).Tells (i.lint complaining complaining.shell).start.1 ∧
      (i.run complaining complaining.shell false).code = 1 := by
  obtain ⟨hlint, hrun, hprogram⟩ := lint_verdict
  have hrecorded : (recording.lint recorded recordedFiles none).start.1 = .ok recordedReport := by
    decide +kernel
  have hlisted : (listing.lint recorded recordedFiles none).start.1 = .ok listedReport := by
    decide +kernel
  have hread : (Invocation.read [bytesOf "shellcheck", bytesOf "*.sh"]).toOption.any
      (fun i => (i.run complaining complaining.shell false).code == 1) = true := by
    decide +kernel
  refine ⟨?_, ?_, ?_⟩
  · obtain ⟨hstructured, -⟩ := hlint recording recorded recordedFiles none [] _ _
      (Prod.ext hrecorded rfl)
    obtain ⟨leading, each, -, heach, hjudges⟩ := hstructured rfl
    exact ⟨leading, each, heach, hjudges⟩
  · exact (hlint listing recorded recordedFiles none [] _ _ (Prod.ext hlisted rfl)).2 rfl
  · obtain ⟨i, hi, hcode⟩ := exists_ok_of_any hread
    exact ⟨i, hi, hprogram complaining ⟨false, none, none, none⟩ _ i hi,
      (hrun i complaining complaining.shell false).1, beq_iff_eq.1 hcode⟩

end Lintel
