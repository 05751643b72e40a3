import Lintel.Proofs.Elementwise
import Lintel.Proofs.Json.Values
import Lintel.Proofs.Report.Counting
import Lintel.Report.Json

/-!
# Reports are read back

Whatever is written as JSON is read back, in both layouts: severities, modes, findings about files
whose names are text, tallies and specifications. Both ways to write a report read as one value, and
its parts read back as those of the report.
-/
namespace Lintel

open Json

theorem toNat_le_wordMax (n : UInt32) : n.toNat ≤ wordMax := by
  have hlt : n.toNat < 2 ^ 32 := n.toNat_lt
  have hmax : wordMax = 2 ^ 32 - 1 := rfl
  omega

theorem wordMax_le_wordLimit : wordMax ≤ Number.wordLimit := by decide

theorem Json.Reads.word (n : UInt32) : Reads Reader.word 0 (.natural n.toNat) n := by
  have hle := toNat_le_wordMax n
  have hread := (Reads.natural "u32" hle (Nat.le_trans hle wordMax_le_wordLimit)).map Nat.toUInt32
  have hself : n.toNat.toUInt32 = n := UInt32.ofNat_toNat
  rw [hself] at hread
  exact hread

theorem Json.Reads.count {n : Nat} (h : n ≤ countMax) : Reads Reader.count 0 (.natural n) n :=
  .natural "usize" h h

theorem Json.Reads.path (s : String) : Reads Reader.path 0 (.text s) (.ofString s) :=
  (Reads.textAs "path string" s).map Path.ofString

def Json.Value.IsPresent (v : Value) : Prop :=
  (∃ s, v = .text s) ∨ (∃ n, v = .natural n) ∨ ∃ ms, v = .object ms

variable {σ α β : Type} {shape : Shape σ α} {need : Nat} {s s' s'' : σ} {key : String}
  {ms : List (String × Option Value)}

theorem Json.Fills.required {v : Value} {f : Field σ}
    (hfind : shape.fields.find? (·.name == key) = some f) (hunset : f.isSet s = false)
    (hread : Reads (f.read s) need v (.ok s'))
    (hrest : Fills shape need s' (ms.filterMap fun (k, v) => v.map (k, ·)) s'') :
    Fills shape need s (((key, some v) :: ms).filterMap fun (k, v) => v.map (k, ·)) s'' :=
  .cons hfind hunset hread hrest

theorem Json.Fills.member (s' : σ) (put : σ → β → σ) {x? : Option β} {toValue : β → Value}
    {f : Field σ} (hfind : shape.fields.find? (·.name == key) = some f)
    (hunset : f.isSet s = false) (hread : ∀ x, Reads (f.read s) need (toValue x) (.ok (put s x)))
    (hstate : s' = x?.elim s (put s))
    (hrest : Fills shape need s' (ms.filterMap fun (k, v) => v.map (k, ·)) s'') :
    Fills shape need s
      (((key, x?.map toValue) :: ms).filterMap fun (k, v) => v.map (k, ·)) s'' := by
  cases x? with
  | none =>
    obtain rfl : s' = s := hstate
    simpa using hrest
  | some x =>
    obtain rfl : s' = put s x := hstate
    exact .cons hfind hunset (hread x) hrest

theorem Json.Fills.optional (s' : σ) {x? : Option β} {toValue : β → Value} {r : Reader β}
    {isSet : σ → Bool} {put : σ → Option β → σ}
    (hfind : shape.fields.find? (·.name == key) = some (.of key isSet (.optional r) put))
    (hunset : isSet s = false) (hread : ∀ x, Reads r need (toValue x) x)
    (hpresent : ∀ x, (toValue x).IsPresent) (hstate : s' = x?.elim s fun x => put s (some x))
    (hrest : Fills shape need s' (ms.filterMap fun (k, v) => v.map (k, ·)) s'') :
    Fills shape need s
      (((key, x?.map toValue) :: ms).filterMap fun (k, v) => v.map (k, ·)) s'' :=
  .member s' (fun s x => put s (some x)) hfind hunset
    (fun x => ((hread x).optional (hpresent x)).field key isSet put s) hstate hrest

theorem Json.Fills.ignored {x? : Option β} {toValue : β → Value}
    (hfind : shape.fields.find? (·.name == key) = none) (hskip : ∀ x, Skipped (toValue x))
    (hrest : Fills shape need s (ms.filterMap fun (k, v) => v.map (k, ·)) s') :
    Fills shape need s
      (((key, x?.map toValue) :: ms).filterMap fun (k, v) => v.map (k, ·)) s' := by
  cases x? with
  | none => simpa using hrest
  | some x => exact .skip hfind (hskip x) hrest

theorem Json.Reads.optional_orNull (s? : Option String) :
    Reads (Reader.optional Reader.text) 0 (orNull s?) s? := by
  cases s? with
  | none => exact .optional_null _ 0
  | some s => exact (Reads.textAs "a string" s).optional (.inl ⟨s, rfl⟩)

/-! ## Choices -/

theorem Severity.reads (s : Severity) : Reads Severity.reader 0 s.toJson s :=
  .choice (by cases s <;> decide)

theorem OutputMode.reads (m : OutputMode) : Reads OutputMode.reader 0 m.toJson m :=
  .choice (by cases m <;> decide)

/-! ## Records -/

namespace Finding

theorem reads {f : Finding} {name : String} (hfile : f.file = .ofString name) :
    ∃ v, f.toJson? = some v ∧ Reads Finding.reader 1 v f := by
  obtain ⟨file, message, line, column, severity, level, code⟩ := f
  obtain rfl : file = .ofString name := hfile
  have hdecode : Text.decode? (Path.ofString name).bytes = some name.toList :=
    Text.decode?_bytes _
  refine ⟨_, by simp only [toJson?, hdecode, bind, Option.bind]; rfl, ?_⟩
  rw [String.ofList_toList, Value.record]
  let start : Draft := { file := some (.ofString name), message := some message }
  let line' : Draft := { start with line := line.map some }
  let column' : Draft := { line' with column := column.map some }
  let severity' : Draft := { column' with severity := severity.map some }
  let level' : Draft := { severity' with level := level.map some }
  let final : Draft := { level' with code := code.map some }
  have hnumber : ∀ n : UInt32, (Value.natural n.toNat).IsPresent := fun n => .inr (.inl ⟨_, rfl⟩)
  have htext : ∀ s, (Value.text s).IsPresent := fun s => .inl ⟨s, rfl⟩
  have hcomplete : shape.complete final = .ok ⟨.ofString name, message, line, column, severity,
      level, code⟩ := by
    have hjoin : ∀ {α : Type} (x? : Option α), (x?.map some).join = x? := by
      intro α x?
      cases x? <;> rfl
    simp [shape, final, level', severity', column', line', start, require, hjoin, bind, Except.bind]
  refine .shape ?_ hcomplete
  refine .required rfl rfl ((Reads.path name).field _ _ _ _) ?_
  refine .required rfl rfl ((Reads.textAs "a string" message).field _ _ _ _) ?_
  refine .optional line' rfl rfl Reads.word hnumber (by cases line <;> rfl) ?_
  refine .optional column' rfl rfl Reads.word hnumber (by cases column <;> rfl) ?_
  refine .optional severity' rfl rfl Severity.reads (fun s => htext s.name)
    (by cases severity <;> rfl) ?_
  refine .optional level' rfl rfl (Reads.textAs "a string") htext (by cases level <;> rfl) ?_
  refine .optional final rfl rfl (Reads.textAs "a string") htext (by cases code <;> rfl) ?_
  exact .nil final

theorem within {f : Finding} {v : Value} (h : f.toJson? = some v) : v.Within 1 := by
  obtain ⟨cs, -, hv⟩ := Option.bind_eq_some_iff.1 h
  obtain rfl := Option.some.inj hv
  intro m hm
  obtain ⟨⟨key, v?⟩, hmem, hsome⟩ := List.mem_filterMap.1 hm
  obtain ⟨v, rfl, rfl⟩ := Option.map_eq_some_iff.1 hsome
  have hnumber : ∀ n? : Option UInt32, (n?.map fun n => Value.natural n.toNat) = some v →
      v.Within 0 := by
    intro n? hv
    obtain ⟨n, -, rfl⟩ := Option.map_eq_some_iff.1 hv
    exact Nat.le_trans (toNat_le_wordMax n) wordMax_le_wordLimit
  have htext : ∀ {α : Type} (x? : Option α) (text : α → String),
      (x?.map fun x => Value.text (text x)) = some v → v.Within 0 := by
    intro α x? text hv
    obtain ⟨x, -, rfl⟩ := Option.map_eq_some_iff.1 hv
    trivial
  simp only [List.mem_cons, Prod.mk.injEq, List.not_mem_nil, or_false] at hmem
  rcases hmem with ⟨-, hv⟩ | ⟨-, hv⟩ | ⟨-, hv⟩ | ⟨-, hv⟩ | ⟨-, hv⟩ | ⟨-, hv⟩ | ⟨-, hv⟩
  · exact htext (some (String.ofList cs)) id hv.symm
  · exact htext (some f.message) id hv.symm
  · exact hnumber f.line hv.symm
  · exact hnumber f.column hv.symm
  · exact htext f.severity Severity.name hv.symm
  · exact htext f.level id hv.symm
  · exact htext f.code id hv.symm

end Finding

namespace Tally

def Fits (t : Tally) : Prop :=
  t.error ≤ countMax ∧ t.warning ≤ countMax ∧ t.info ≤ countMax ∧ t.other ≤ countMax

instance (t : Tally) : Decidable t.Fits := inferInstanceAs (Decidable (_ ∧ _ ∧ _ ∧ _))

theorem reads_counts {t : Tally} (h : t.Fits) : Reads countsShape.reader 1 t.counts t := by
  obtain ⟨herror, hwarning, hinfo, hother⟩ := h
  refine .shape ?_ (s := ⟨some t.error, some t.warning, some t.info, some t.other⟩) rfl
  refine .cons rfl rfl ((Reads.count herror).field _ _ _ _) ?_
  refine .cons rfl rfl ((Reads.count hwarning).field _ _ _ _) ?_
  refine .cons rfl rfl ((Reads.count hinfo).field _ _ _ _) ?_
  refine .cons rfl rfl ((Reads.count hother).field _ _ _ _) ?_
  exact .nil _

theorem reads {t : Tally} (h : t.Fits) : Reads Tally.reader 2 t.toJson t := by
  refine .shape ?_ (s := some t) rfl
  exact .cons rfl rfl ((reads_counts h).field _ _ _ _) (.nil _)

theorem within {t : Tally} (h : t.Fits) : t.toJson.Within 2 := by
  obtain ⟨herror, hwarning, hinfo, hother⟩ := h
  refine List.forall_mem_singleton.2 ?_
  exact List.forall_mem_cons.2 ⟨herror, List.forall_mem_cons.2 ⟨hwarning,
    List.forall_mem_cons.2 ⟨hinfo, List.forall_mem_singleton.2 hother⟩⟩⟩

theorem fits_ofFindings {fs : List Finding} (h : fs.length ≤ countMax) :
    (ofFindings fs).Fits := by
  have htotal := total_ofFindings fs
  have hlength : (fs.filterMap (·.severity)).length ≤ fs.length := List.length_filterMap_le _ _
  rw [total] at htotal
  refine ⟨?_, ?_, ?_, ?_⟩ <;> omega

end Tally

theorem StructuredOutput.reads (o : StructuredOutput) :
    Reads StructuredOutput.shape.reader 1 o.toJson o := by
  obtain ⟨flag, since⟩ := o
  refine .shape ?_ (s := ⟨some flag, some since⟩) rfl
  refine .cons rfl rfl ((Reads.textAs "a string" flag).field _ _ _ _) ?_
  exact .cons rfl rfl ((Reads.optional_orNull since).field _ _ _ _) (.nil _)

theorem LinterSpec.reads (s : LinterSpec) : Reads LinterSpec.reader 2 s.toJson s := by
  obtain ⟨versionFlag, structured, codePrefix⟩ := s
  have hstructured : Reads (Reader.optional StructuredOutput.shape.reader) 1
      ((structured.map StructuredOutput.toJson).getD .null) structured := by
    cases structured with
    | none => exact .optional_null _ 1
    | some o => exact o.reads.optional (.inr (.inr ⟨_, rfl⟩))
  refine .shape ?_ (s := ⟨some versionFlag, some structured, some codePrefix⟩) rfl
  have hversion := (Reads.textAs "a string" versionFlag).mono (Nat.zero_le 1)
  refine .cons rfl rfl (hversion.field _ _ _ _) ?_
  refine .cons rfl rfl (hstructured.field _ _ _ _) ?_
  exact .cons rfl rfl (((Reads.optional_orNull codePrefix).mono (Nat.zero_le 1)).field _ _ _ _)
    (.nil _)

/-! ## Whole reports -/

theorem exists_results {fs : List Finding} (h : ∀ f ∈ fs, ∃ name, f.file = .ofString name) :
    ∃ results, fs.mapM Finding.toJson? = some results ∧ (∀ v ∈ results, v.Within 1) ∧
      List.Forall₂ (RoundTrips Finding.reader) results fs := by
  have hall : ∀ f ∈ fs, ∃ v, f.toJson? = some v ∧ RoundTrips Finding.reader v f := by
    intro f hf
    obtain ⟨name, hname⟩ := h f hf
    obtain ⟨v, hv, hread⟩ := Finding.reads hname
    exact ⟨v, hv, hread.roundTrips (by decide)⟩
  obtain ⟨results, hresults⟩ := exists_forall₂_iff.2 hall
  have hvalues : List.Forall₂ (fun f v => f.toJson? = some v) fs results :=
    hresults.imp fun f v h => h.1
  refine ⟨results, mapM_eq_some_iff.2 hvalues, fun v hv => ?_,
    (hresults.imp fun f v h => h.2).flip⟩
  obtain ⟨f, -, hf⟩ := exists_of_mem_forall₂ hvalues hv
  exact Finding.within hf

/-- Both ways to write a report about files whose names are text read as one value, with the mode,
the findings one by one and the tally; and whatever else has a JSON form is read back from it. No
report has more findings than a word counts. -/
theorem json_round_trip :
    (∀ r : Report, (∀ f ∈ r.findings, ∃ name, f.file = .ofString name) →
      r.findings.length ≤ countMax → ∃ mode results tally,
        Value.ofText r.json = .ok (.object [("type", mode), ("results", .list results),
          ("summary", tally)]) ∧
        Value.ofText r.jsonPretty = Value.ofText r.json ∧
        RoundTrips OutputMode.reader mode r.mode ∧
        List.Forall₂ (RoundTrips Finding.reader) results r.findings ∧
        RoundTrips Tally.reader tally r.tally) ∧
    (∀ (f : Finding) (name : String), f.file = .ofString name →
      ∃ v, f.toJson? = some v ∧ RoundTrips Finding.reader v f) ∧
    (∀ s : Severity, RoundTrips Severity.reader s.toJson s) ∧
    (∀ m : OutputMode, RoundTrips OutputMode.reader m.toJson m) ∧
    (∀ t : Tally, t.Fits → RoundTrips Tally.reader t.toJson t) ∧
    ∀ s : LinterSpec, RoundTrips LinterSpec.reader s.toJson s := by
  have hmode : ∀ m : OutputMode, RoundTrips OutputMode.reader m.toJson m := fun m =>
    m.reads.roundTrips (by decide)
  have htally : ∀ t : Tally, t.Fits → RoundTrips Tally.reader t.toJson t := fun t h =>
    (Tally.reads h).roundTrips (by decide)
  refine ⟨fun r hfiles hlength => ?_, fun f name hname => ?_,
    fun s => s.reads.roundTrips (by decide), hmode, htally, fun s => s.reads.roundTrips (by decide)⟩
  · obtain ⟨results, hresults, hwithin, hfindings⟩ := exists_results hfiles
    have hfits : r.tally.Fits := Tally.fits_ofFindings hlength
    let v : Value := .object [("type", r.mode.toJson), ("results", .list results),
      ("summary", r.tally.toJson)]
    have htoJson : r.toJson? = some v := by simp [Report.toJson?, hresults, v]
    have hnested : v.Within 3 := List.forall_mem_cons.2 ⟨trivial, List.forall_mem_cons.2 ⟨hwithin,
      List.forall_mem_singleton.2 (Tally.within hfits)⟩⟩
    obtain ⟨hcompact, hpretty⟩ := hnested.reads.roundTrips (by decide)
    refine ⟨_, results, _, ?_, ?_, hmode r.mode, hfindings, htally _ hfits⟩
    · rw [Report.json, htoJson]
      exact hcompact
    · rw [Report.json, Report.jsonPretty, htoJson]
      exact hpretty.trans hcompact.symm
  · obtain ⟨v, hv, hread⟩ := Finding.reads hname
    exact ⟨v, hv, hread.roundTrips (by decide)⟩

def quotedReport : Report :=
  ⟨.structured, [⟨.ofString "a \"é\".sh", "tab\tand \x01\\", some 4294967295, none, some .other,
    some "style", none⟩]⟩

theorem json_round_trip_quoted :
    (∃ mode results tally,
      Value.ofText quotedReport.json = .ok (.object [("type", mode), ("results", .list results),
        ("summary", tally)]) ∧
      Value.ofText quotedReport.jsonPretty = Value.ofText quotedReport.json ∧
      RoundTrips OutputMode.reader mode quotedReport.mode ∧
      List.Forall₂ (RoundTrips Finding.reader) results quotedReport.findings ∧
      RoundTrips Tally.reader tally quotedReport.tally) ∧
    (∃ v, (Finding.plain (.ofString "é") "").toJson? = some v ∧
      RoundTrips Finding.reader v (Finding.plain (.ofString "é") "")) ∧
    RoundTrips Tally.reader (Tally.toJson ⟨1, 0, countMax, 0⟩) ⟨1, 0, countMax, 0⟩ := by
  obtain ⟨hreport, hfinding, -, -, htally, -⟩ := json_round_trip
  refine ⟨hreport quotedReport ?_ (by decide), hfinding _ "é" rfl, htally _ (by decide)⟩
  exact List.forall_mem_singleton.2 ⟨_, rfl⟩

end Lintel
