import Lintel.Proofs.Report.RoundTrip
import Lintel.Proofs.Session.Completed

/-!
# When a report is written as JSON

A report can be written as JSON unless it has a finding about a file whose name is not text. Then
both layouts are the empty text. Such files can be found by their patterns and linted like others.
-/
namespace Lintel

open Json

def Path.IsText (p : Path) : Prop := ∃ name, p = .ofString name

theorem Path.isText_iff (p : Path) : p.IsText ↔ ∃ cs, Text.decode? p.bytes = some cs := by
  simp only [Text.decode?_eq_some_iff]
  constructor
  · intro h
    obtain ⟨name, rfl⟩ := h
    exact ⟨name.toList, rfl⟩
  · intro h
    obtain ⟨cs, hcs⟩ := h
    refine ⟨String.ofList cs, ?_⟩
    rw [ofString, bytesOf, String.toList_ofList, ← hcs]

theorem Finding.exists_toJson_iff (f : Finding) :
    (∃ v, f.toJson? = some v) ↔ f.file.IsText := by
  rw [Path.isText_iff]
  constructor
  · intro h
    obtain ⟨v, hv⟩ := h
    obtain ⟨cs, hcs, -⟩ := Option.bind_eq_some_iff.1 hv
    exact ⟨cs, hcs⟩
  · intro h
    obtain ⟨cs, hcs⟩ := h
    exact ⟨_, Option.bind_eq_some_iff.2 ⟨cs, hcs, rfl⟩⟩

namespace Report

variable {r : Report}

theorem exists_toJson_iff : (∃ v, r.toJson? = some v) ↔ ∀ f ∈ r.findings, f.file.IsText := by
  simp only [← Finding.exists_toJson_iff, ← exists_forall₂_iff, ← mapM_eq_some_iff]
  constructor
  · intro h
    obtain ⟨v, hv⟩ := h
    obtain ⟨results, hresults, -⟩ := Option.bind_eq_some_iff.1 hv
    exact ⟨results, hresults⟩
  · intro h
    obtain ⟨results, hresults⟩ := h
    exact ⟨_, Option.bind_eq_some_iff.2 ⟨results, hresults, rfl⟩⟩

/-- A report of which both layouts are JSON texts of one object, with a result for each finding, in
order, and the tally. -/
structure Written (r : Report) : Prop where
  json_ne : r.json ≠ ""
  jsonPretty_ne : r.jsonPretty ≠ ""
  value : ∃ mode results tally,
    Value.ofText r.json = .ok (.object [("type", mode), ("results", .list results),
      ("summary", tally)]) ∧
    Value.ofText r.jsonPretty = Value.ofText r.json ∧
    RoundTrips OutputMode.reader mode r.mode ∧
    List.Forall₂ (RoundTrips Finding.reader) results r.findings ∧
    RoundTrips Tally.reader tally r.tally

theorem ne_empty_of_ofText {text : String} {v : Value} (h : Value.ofText text = .ok v) :
    text ≠ "" := by
  rintro rfl
  cases h

theorem written_of_isText (htext : ∀ f ∈ r.findings, f.file.IsText)
    (hlength : r.findings.length ≤ countMax) : r.Written := by
  obtain ⟨results, hresults, hwithin, hfindings⟩ := exists_results htext
  have hfits : r.tally.Fits := Tally.fits_ofFindings hlength
  let v : Value := .object [("type", r.mode.toJson), ("results", .list results),
    ("summary", r.tally.toJson)]
  have htoJson : r.toJson? = some v := Option.bind_eq_some_iff.2 ⟨results, hresults, rfl⟩
  have hnested : v.Within 3 :=
    List.forall_mem_cons.2 ⟨trivial, List.forall_mem_cons.2 ⟨hwithin,
      List.forall_mem_singleton.2 (Tally.within hfits)⟩⟩
  obtain ⟨hcompact, hpretty⟩ := hnested.reads.roundTrips (by decide)
  have hjson : r.json = v.toCompact := by simp [json, htoJson]
  have hjsonPretty : r.jsonPretty = v.toPretty := by simp [jsonPretty, htoJson]
  rw [← hjson] at hcompact
  rw [← hjsonPretty] at hpretty
  exact ⟨ne_empty_of_ofText hcompact, ne_empty_of_ofText hpretty, _, results, _, hcompact,
    hpretty.trans hcompact.symm, r.mode.reads.roundTrips (by decide), hfindings,
    (Tally.reads hfits).roundTrips (by decide)⟩

theorem json_eq_empty_of_not_isText {f : Finding} (hf : f ∈ r.findings) (hname : ¬ f.file.IsText) :
    r.json = "" ∧ r.jsonPretty = "" := by
  have hnone : r.toJson? = none := by
    apply Option.eq_none_iff_forall_ne_some.2
    intro v hv
    exact hname (exists_toJson_iff.1 ⟨v, hv⟩ f hf)
  rw [json, jsonPretty, hnone]
  exact ⟨rfl, rfl⟩

end Report

namespace Session

/-- Every file that a report of a session is about is one of those selected. If the names of all of
them are text the report is written in both layouts, and otherwise it is lost in both. -/
theorem run_written_or_lost {r : Request} {c : Catalogue} {t : Tree} {dir : Path} {sh : Shell}
    {rep : Report} (h : (run r c t dir sh).start.1 = .ok rep)
    (hlength : rep.findings.length ≤ countMax) :
    (∃ files, (Selection.under dir).resolve t r.tokens r.ignoring = .ok files ∧
      ∀ f ∈ rep.findings, f.file ∈ files.files) ∧
    ((∀ f ∈ rep.findings, f.file.IsText) ∧ rep.Written ∨
      (∃ f ∈ rep.findings, ¬ f.file.IsText) ∧ rep.json = "" ∧ rep.jsonPretty = "") := by
  refine ⟨exists_files_of_run (Prod.ext h rfl), ?_⟩
  by_cases htext : ∀ f ∈ rep.findings, f.file.IsText
  · exact .inl ⟨htext, Report.written_of_isText htext hlength⟩
  · simp only [not_forall] at htext
    obtain ⟨f, hf, hname⟩ := htext
    exact .inr ⟨⟨f, hf, hname⟩, Report.json_eq_empty_of_not_isText hf hname⟩

def marked (name : Bytes) : Except Fault Report :=
  (run ⟨"lint", ["*.sh"], none, true, none, none⟩ (.ofList [("lint", .plainOnly "--version")])
    ⟨[([name], .file [] false)]⟩ (.ofString "/")
    (.scripted ["lint"] [⟨some 0, bytesOf "lint 1.0", []⟩, ⟨some 1, bytesOf "bad\n", []⟩])).start.1

theorem run_written_or_lost_marked :
    ∃ rep, marked (bytesOf "é.sh") = .ok rep ∧ rep.findings.length = 1 ∧ rep.Written := by
  have hfound : (marked (bytesOf "é.sh")).toOption.any
      (·.findings == [.plain (.ofString "/é.sh") "bad"]) = true := by
    decide +kernel
  obtain ⟨rep, hrep, hfindings⟩ := exists_ok_of_any hfound
  rw [beq_iff_eq] at hfindings
  have hlength : rep.findings.length = 1 := by rw [hfindings]; rfl
  obtain ⟨-, ⟨-, hwritten⟩ | ⟨⟨f, hf, hname⟩, -⟩⟩ :=
    run_written_or_lost hrep (by rw [hlength]; decide)
  · exact ⟨rep, hrep, hlength, hwritten⟩
  · rw [hfindings, List.mem_singleton] at hf
    exact absurd ⟨"/é.sh", by rw [hf]; rfl⟩ hname

theorem exists_json_lost :
    ∃ rep, marked (255 :: bytesOf ".sh") = .ok rep ∧
      rep.findings = [.plain ⟨47 :: 255 :: bytesOf ".sh"⟩ "bad"] ∧
      rep.json = "" ∧ rep.jsonPretty = "" := by
  -- the name begins with a byte that no text holds
  have hfound : (marked (255 :: bytesOf ".sh")).toOption.any (fun rep =>
      rep.findings == [.plain ⟨47 :: 255 :: bytesOf ".sh"⟩ "bad"] && rep.json == "" &&
        rep.jsonPretty == "") = true := by
    decide +kernel
  obtain ⟨rep, hrep, hlost⟩ := exists_ok_of_any hfound
  simp only [Bool.and_eq_true, beq_iff_eq] at hlost
  exact ⟨rep, hrep, hlost.1.1, hlost.1.2, hlost.2⟩

end Session

end Lintel
