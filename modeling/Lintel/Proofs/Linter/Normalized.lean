import Lintel.Proofs.Linter.Records
import Lintel.Proofs.Report.RoundTrip

/-!
# Findings are normalised records

The findings of structured output can be read as structured output themselves: the reader of records
passes over the members that only findings have, and there is nothing left to normalise. A severity
comes from the level again, and a code in front of which a prefix was put is no bare number any more,
unless the prefix itself is one.
-/
namespace Lintel.Linter

open Json

/-- A code with the prefix in front is not taken for a bare number. -/
def MarksCodes (codePrefix : Option String) : Prop :=
  ∀ p, codePrefix = some p → p = "" ∨ ∃ c ∈ p.toList, Text.isAsciiDigit c = false

theorem normalizeCode_idempotent {codePrefix : Option String} (h : MarksCodes codePrefix)
    (code : String) :
    normalizeCode codePrefix (normalizeCode codePrefix code) = normalizeCode codePrefix code := by
  cases codePrefix with
  | none => rfl
  | some p =>
    by_cases hbare : code ≠ "" ∧ code.toList.all Text.isAsciiDigit
    · have hfirst : normalizeCode (some p) code = p ++ code := by rw [normalizeCode, if_pos hbare]
      rw [hfirst]
      rcases h p rfl with rfl | ⟨c, hc, hdigit⟩
      · rw [String.empty_append, hfirst, String.empty_append]
      · have hmarked : (p ++ code).toList.all Text.isAsciiDigit = false := by
          rw [String.toList_append, List.all_append, List.all_eq_false.2 ⟨c, hc, by simp [hdigit]⟩,
            Bool.false_and]
        rw [normalizeCode, if_neg fun hall => Bool.false_ne_true (hmarked.symm.trans hall.2)]
    · have hkept : normalizeCode (some p) code = code := by rw [normalizeCode, if_neg hbare]
      rw [hkept, hkept]

def recordOf (f : Finding) : Record := ⟨f.message, f.line, f.column, f.level, f.code⟩

theorem toFinding_recordOf {file : Path} {codePrefix : Option String} (h : MarksCodes codePrefix)
    (r : Record) :
    (recordOf (r.toFinding file codePrefix)).toFinding file codePrefix =
      r.toFinding file codePrefix := by
  have hcode : (r.code.map (normalizeCode codePrefix)).map (normalizeCode codePrefix) =
      r.code.map (normalizeCode codePrefix) := by
    rw [Option.map_map]
    exact congrArg (Option.map · r.code) (funext (normalizeCode_idempotent h))
  simp only [recordOf, Record.toFinding, hcode]

def codeOutcome (d : Record.Draft) : Option Value → Outcome Record.Draft
  | none => .ok { d with code := some none }
  | some v =>
      match Record.codeText? v with
      | some s => .ok { d with code := some (some s) }
      | none => .error "data did not match any variant of untagged enum RawCode"

theorem readCode_eq_map (d : Record.Draft) (depth : Nat) (c : Cursor) :
    Record.readCode d depth c =
      (Reader.optional Value.reader depth c).map fun (v?, c) => (codeOutcome d v?, c) := by
  rw [Record.readCode]
  cases Reader.optional Value.reader depth c with
  | error f => rfl
  | ok found =>
    obtain ⟨v?, c⟩ := found
    cases v? with
    | none => rfl
    | some v =>
      simp only [bind, Except.bind, Except.map, codeOutcome]
      cases Record.codeText? v <;> rfl

theorem reads_code (d : Record.Draft) (s : String) :
    Reads (Record.readCode d) 0 (.text s) (.ok { d with code := some (some s) }) := by
  have hread := ((Value.reads_text 0 s).optional (.inl ⟨s, rfl⟩)).map (codeOutcome d)
  have hcode : Record.readCode d = fun depth c =>
      (Reader.optional Value.reader depth c).map fun (v?, c) => (codeOutcome d v?, c) :=
    funext fun depth => funext fun c => readCode_eq_map d depth c
  rw [hcode]
  exact hread

theorem reads_recordOf {f : Finding} {v : Value} (h : f.toJson? = some v) :
    Reads Record.shape.reader 1 v (recordOf f) := by
  obtain ⟨file, -, hv⟩ := Option.bind_eq_some_iff.1 h
  obtain rfl := Option.some.inj hv
  obtain ⟨_, message, line, column, severity, level, code⟩ := f
  rw [Value.record]
  let start : Record.Draft := { message := some message }
  let line' : Record.Draft := { start with line := line.map some }
  let column' : Record.Draft := { line' with column := column.map some }
  let level' : Record.Draft := { column' with level := level.map some }
  let final : Record.Draft := { level' with code := code.map some }
  have hcomplete : Record.shape.complete final = .ok ⟨message, line, column, level, code⟩ := by
    have hjoin : ∀ {α : Type} (x? : Option α), (x?.map some).join = x? := by
      intro α x?
      cases x? <;> rfl
    simp [Record.shape, final, level', column', line', start, require, hjoin, bind, Except.bind]
  have hword : ∀ n : UInt32, Reads (Reader.optional Reader.word) 0 (.natural n.toNat) (some n) :=
    fun n => (Reads.word n).optional (.inr (.inl ⟨_, rfl⟩))
  have htext : ∀ s, Reads (Reader.optional Reader.text) 0 (.text s) (some s) :=
    fun s => (Reads.textAs "a string" s).optional (.inl ⟨s, rfl⟩)
  refine .shape ?_ hcomplete
  refine .skip rfl (skipped_text _) ?_
  refine .required rfl rfl ((Reads.textAs "a string" message).field _ _ _ _) ?_
  refine .member line' (fun d n => { d with line := some (some n) }) rfl rfl
    (fun n => (hword n).field "line" (·.line.isSome) (fun d x => { d with line := some x }) start)
    (by cases line <;> rfl) ?_
  refine .member column' (fun d n => { d with column := some (some n) }) rfl rfl
    (fun n => (hword n).field "column" (·.column.isSome) (fun d x => { d with column := some x })
      line') (by cases column <;> rfl) ?_
  refine .ignored rfl (fun s => skipped_text s.name) ?_
  refine .member level' (fun d s => { d with level := some (some s) }) rfl rfl
    (fun s => (htext s).field "level" (·.level.isSome) (fun d x => { d with level := some x })
      column') (by cases level <;> rfl) ?_
  refine .member final (fun d s => { d with code := some (some s) }) rfl rfl
    (fun s => reads_code level' s) (by cases code <;> rfl) ?_
  exact .nil final

/-- Reading structured output normalises it: written out as the results of a report, in either
layout, the findings of a file are read as the same findings again. -/
theorem structuredFindings_again {text name : String} {codePrefix : Option String}
    (hmarks : MarksCodes codePrefix) {fs : List Finding}
    (hread : structuredFindings text (.ofString name) codePrefix = .ok fs) (mode : OutputMode) :
    ∃ results : List Value,
      (Report.mk mode fs).toJson? = some (.object [("type", mode.toJson),
        ("results", .list results), ("summary", (Report.mk mode fs).tally.toJson)]) ∧
      structuredFindings (Value.list results).toCompact (.ofString name) codePrefix = .ok fs ∧
      structuredFindings (Value.list results).toPretty (.ofString name) codePrefix = .ok fs := by
  obtain ⟨records, -, hrecords⟩ := structuredFindings_eq_ok_iff.1 hread
  have hfinding : ∀ f ∈ fs, f.file = .ofString name ∧
      (recordOf f).toFinding (.ofString name) codePrefix = f := by
    intro f hf
    rw [hrecords] at hf
    obtain ⟨r, -, rfl⟩ := List.mem_map.1 hf
    exact ⟨rfl, toFinding_recordOf hmarks r⟩
  have hvalue : ∀ f ∈ fs, ∃ v, f.toJson? = some v ∧ Reads Record.shape.reader 1 v (recordOf f) := by
    intro f hf
    obtain ⟨v, hv, -⟩ := Finding.reads (hfinding f hf).1
    exact ⟨v, hv, reads_recordOf hv⟩
  obtain ⟨results, hresults⟩ := exists_forall₂_iff.2 hvalue
  have hwritten : fs.mapM Finding.toJson? = some results :=
    mapM_eq_some_iff.2 (hresults.imp fun f v h => h.1)
  have hlist : Reads (Reader.list Record.shape.reader) 2 (.list results) (fs.map recordOf) :=
    .list (List.forall₂_map_right_iff.2 (hresults.imp fun f v h => h.2).flip)
  obtain ⟨hcompact, hpretty⟩ := hlist.roundTrips (by decide)
  have hback : fs = (fs.map recordOf).map (Record.toFinding (.ofString name) codePrefix) := by
    rw [List.map_map]
    exact (List.map_id fs).symm.trans (List.map_congr_left fun f hf => (hfinding f hf).2.symm)
  refine ⟨results, by simp [Report.toJson?, hwritten], ?_, ?_⟩
  · exact structuredFindings_eq_ok_iff.2 ⟨_, hcompact, hback⟩
  · exact structuredFindings_eq_ok_iff.2 ⟨_, hpretty, hback⟩

def mixedOutput : String :=
  "[\x7b\"line\": 1, \"column\": null, \"code\": 2034, \"level\": \"Style\", " ++
    "\"message\": \"a \\\"q\\\"\"\x7d,\n" ++
  " \x7b\"fix\": \x7b\"at\": [1, []]\x7d, \"message\": \"b\", \"code\": \"SC1\", " ++
    "\"level\": \" Error\"\x7d]"

def mixedFindings : List Finding :=
  [⟨.ofString "a.sh", "a \"q\"", some 1, none, some .other, some "Style", some "SC2034"⟩,
    ⟨.ofString "a.sh", "b", none, none, some .error, some " Error", some "SC1"⟩]

theorem structuredFindings_again_mixed :
    MarksCodes (some "SC") ∧
    structuredFindings mixedOutput (.ofString "a.sh") (some "SC") = .ok mixedFindings ∧
    ∃ results : List Value,
      (Report.mk .structured mixedFindings).toJson? = some (.object [
        ("type", OutputMode.structured.toJson), ("results", .list results),
        ("summary", (Report.mk .structured mixedFindings).tally.toJson)]) ∧
      structuredFindings (Value.list results).toCompact (.ofString "a.sh") (some "SC") =
        .ok mixedFindings ∧
      structuredFindings (Value.list results).toPretty (.ofString "a.sh") (some "SC") =
        .ok mixedFindings := by
  have hmarks : MarksCodes (some "SC") := by
    rintro p ⟨⟩
    exact .inr ⟨'S', by decide, by decide⟩
  have hread : structuredFindings mixedOutput (.ofString "a.sh") (some "SC") =
      .ok mixedFindings := by decide +kernel
  exact ⟨hmarks, hread, structuredFindings_again hmarks hread .structured⟩

end Lintel.Linter
