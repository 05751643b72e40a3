import Lintel.Proofs.Linter.Completed
import Lintel.Proofs.Report.Counting
import Lintel.Proofs.Text.Decoding

/-!
# The records behind the findings

Structured output is a text that reads as a list of records, or it is blank and holds none. A run
in structured mode has one finding per record, of the severity that the level of the record says.
The tally of the findings therefore counts the records by their levels. Plain findings have no
severity.
-/
namespace Lintel

namespace Linter

def Holds (out : Bytes) (records : List Record) : Prop :=
  if out.all Text.isBlankByte then records = []
  else ∃ text, out = bytesOf text ∧
    Json.decode (Json.Reader.list Record.shape.reader) text = .ok records

namespace Record

def key (r : Record) : Option String :=
  r.level.map fun level => String.ofList ((Text.trim level.toList).map Severity.asciiLower)

def severity (r : Record) : Severity := (r.level.map Severity.ofLevel).getD .other

theorem severity_eq (r : Record) :
    r.severity = if r.key = some "error" then .error else if r.key = some "warning" then .warning
      else if r.key = some "info" then .info else .other := by
  cases h : r.level with
  | none => simp [severity, key, h]
  | some level => simp [severity, key, h, Severity.ofLevel]

theorem severity_eq_iff (r : Record) (s : Severity) :
    r.severity = s ↔ match s with
      | .other => r.key ≠ some "error" ∧ r.key ≠ some "warning" ∧ r.key ≠ some "info"
      | s => r.key = some s.name := by
  rw [severity_eq]
  by_cases herror : r.key = some "error"
  · rw [if_pos herror, herror]
    cases s <;> decide
  rw [if_neg herror]
  by_cases hwarning : r.key = some "warning"
  · rw [if_pos hwarning, hwarning]
    cases s <;> decide
  rw [if_neg hwarning]
  by_cases hinfo : r.key = some "info"
  · rw [if_pos hinfo, hinfo]
    cases s <;> decide
  rw [if_neg hinfo]
  cases s <;> simp [herror, hwarning, hinfo, Severity.name]

end Record

theorem structuredFindings_eq_ok_iff {text : String} {file : Path} {codePrefix : Option String}
    {fs : List Finding} :
    structuredFindings text file codePrefix = .ok fs ↔
      ∃ records, Json.decode (Json.Reader.list Record.shape.reader) text = .ok records ∧
        fs = records.map (Record.toFinding file codePrefix) :=
  map_eq_ok_iff (x := Json.decode (Json.Reader.list Record.shape.reader) text)

/-- A tally that counts records by their levels. -/
structure Counts (t : Tally) (records : List Record) : Prop where
  error : t.error = records.countP fun r => r.key = some "error"
  warning : t.warning = records.countP fun r => r.key = some "warning"
  info : t.info = records.countP fun r => r.key = some "info"
  other : t.other = records.countP fun r =>
    r.key ≠ some "error" ∧ r.key ≠ some "warning" ∧ r.key ≠ some "info"

theorem filterMap_severity {fs : List Finding} {records : List Record}
    (h : fs.map (·.severity) = records.map fun r => some r.severity) :
    fs.filterMap (·.severity) = records.map Record.severity := by
  calc fs.filterMap (·.severity)
    _ = (fs.map (·.severity)).filterMap id := by
      rw [List.filterMap_map]
      rfl
    _ = records.filterMap fun r => some r.severity := by
      rw [h, List.filterMap_map]
      rfl
    _ = records.map Record.severity := congrFun List.filterMap_eq_map records

theorem counts_ofFindings {fs : List Finding} {records : List Record}
    (h : fs.map (·.severity) = records.map fun r => some r.severity) :
    Counts (.ofFindings fs) records := by
  have hcount (s : Severity) :
      (Tally.ofFindings fs).count s = records.countP fun r => r.severity = s := by
    rw [Tally.count_ofFindings, filterMap_severity h, List.count_eq_countP, List.countP_map]
    rfl
  have hsame (s : Severity) {p : Record → Prop} [DecidablePred p] (hp : ∀ r, r.severity = s ↔ p r) :
      (Tally.ofFindings fs).count s = records.countP fun r => p r := by
    simp only [hcount, hp]
  exact ⟨hsame .error fun r => r.severity_eq_iff .error,
    hsame .warning fun r => r.severity_eq_iff .warning,
    hsame .info fun r => r.severity_eq_iff .info, hsame .other fun r => r.severity_eq_iff .other⟩

end Linter

namespace Installed

open Linter

variable {l : Installed} {sh : Shell} {mode : OutputMode} {leading : List Bytes}
  {before : List Call} {file : Path} {fs : List Finding}

theorem readOutput_structured {o : Output} (h : l.readOutput .structured file o = .ok fs) :
    ∃ records, Holds o.out records ∧
      fs = records.map (Record.toFinding file l.spec.codePrefix) := by
  unfold readOutput at h
  split at h
  · rename_i hblank
    cases h
    exact ⟨[], by rw [Holds, if_pos hblank], rfl⟩
  · rename_i hloud
    dsimp only at h
    cases hstrict : Text.strict o.out with
    | error f => simp [hstrict] at h
    | ok cs =>
      cases hfound : structuredFindings (String.ofList cs) file l.spec.codePrefix with
      | error f => simp [hstrict, hfound] at h
      | ok found =>
        simp only [hstrict, hfound, Except.ok.injEq] at h
        subst h
        obtain ⟨records, hrecords, rfl⟩ := structuredFindings_eq_ok_iff.1 hfound
        refine ⟨records, ?_, rfl⟩
        rw [Holds, if_neg hloud]
        exact ⟨_, by rw [bytesOf, String.toList_ofList, Text.strict_eq_ok_iff.1 hstrict], hrecords⟩

theorem exists_plain_of_mem_readOutput {o : Output}
    (h : l.readOutput .plainText file o = .ok fs) {f : Finding} (hf : f ∈ fs) :
    ∃ message, f = .plain file message := by
  unfold readOutput at h
  split at h
  · cases h
    cases hf
  · obtain rfl := Except.ok.inj h
    obtain ⟨line, -, rfl⟩ := List.mem_map.1 hf
    exact ⟨_, rfl⟩

theorem file_of_mem_readOutput {o : Output} (h : l.readOutput mode file o = .ok fs) {f : Finding}
    (hf : f ∈ fs) : f.file = file := by
  cases mode with
  | structured =>
    obtain ⟨records, -, rfl⟩ := readOutput_structured h
    obtain ⟨r, -, rfl⟩ := List.mem_map.1 hf
    rfl
  | plainText =>
    obtain ⟨message, rfl⟩ := exists_plain_of_mem_readOutput h hf
    rfl

theorem outcome_eq_ok_iff :
    l.outcome sh mode leading before file = .ok fs ↔
      ∃ o, sh.answer before (l.lintCall leading file) = .ok o ∧
        l.readOutput mode file o = .ok fs := by
  rw [outcome]
  cases sh.answer before (l.lintCall leading file) <;> simp

theorem exists_readOutput_of_mem {files : List Path} {found : List Finding}
    (h : l.Passes sh mode leading before files found) {f : Finding} (hf : f ∈ found) :
    ∃ file ∈ files, ∃ o fs, l.readOutput mode file o = .ok fs ∧ f ∈ fs := by
  induction h with
  | nil => cases hf
  | cons hfile _ ih =>
    rcases List.mem_append.1 hf with hfirst | hrest
    · obtain ⟨o, -, hread⟩ := outcome_eq_ok_iff.1 hfile
      exact ⟨_, List.mem_cons_self .., o, _, hread, hfirst⟩
    · obtain ⟨file, hmem, hread⟩ := ih hrest
      exact ⟨file, List.mem_cons_of_mem _ hmem, hread⟩

theorem exists_records_of_passes {files : List Path} {found : List Finding}
    (h : l.Passes sh .structured leading before files found) :
    ∃ each, List.Forall₂ (fun answer records => ∃ o, answer = .ok o ∧ Holds o.out records)
        (sh.answers before (files.map (l.lintCall leading))) each ∧
      found.map (·.severity) = each.flatten.map fun r => some r.severity := by
  induction h with
  | nil => exact ⟨[], .nil, rfl⟩
  | cons hfile _ ih =>
    obtain ⟨o, hanswer, hread⟩ := outcome_eq_ok_iff.1 hfile
    obtain ⟨records, hholds, rfl⟩ := readOutput_structured hread
    obtain ⟨each, heach, hseverities⟩ := ih
    refine ⟨records :: each, .cons ⟨o, hanswer, hholds⟩ heach, ?_⟩
    rw [List.map_append, List.flatten_cons, List.map_append, hseverities, List.map_map]
    rfl

end Installed

end Lintel
