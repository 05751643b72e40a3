import Lintel.Proofs.Linter.Gates

/-!
# The order of the gates

Each gate is described on its own: what makes it fail, and which fault that is, whether or not the
gates before it are passed. A check then reports the fault of the first gate that fails, and it
succeeds if none does. The kinds of the faults tell the gates apart. The version command is run if
and only if the gates in front of it are passed, and nothing depends on how it exits.
-/
namespace Lintel

def Shell.recoded (sh : Shell) (code : List Call → Call → Option Int) : Shell :=
  { sh with
    answer := fun before c => (sh.answer before c).map fun o => { o with code := code before c } }

namespace Installed

inductive Gate
  | known
  | found
  | splittable
  | runs
  | versioned
  | readable
  | satisfied
  deriving DecidableEq, Repr

namespace Gate

def order : List Gate := [known, found, splittable, runs, versioned, readable, satisfied]

def earlier (g : Gate) : List Gate := order.takeWhile (· ≠ g)

def kind : Gate → Fault.Kind
  | known => .unsupported
  | found => .notInstalled
  | splittable => .configuration
  | runs => .io
  | versioned => .noVersion
  | readable => .badRange
  | satisfied => .versionMismatch

theorem eq_of_kind {g g' : Gate} (h : g.kind = g'.kind) : g = g' := by
  cases g <;> cases g' <;> first | rfl | cases h

theorem eq_or_earlier (g g' : Gate) : g = g' ∨ g ∈ g'.earlier ∨ g' ∈ g.earlier := by
  cases g <;> cases g' <;> decide

/-- The fault with which a gate turns a linter down, when the version command is run after the
calls `before`. -/
inductive Fails (c : Catalogue) (sh : Shell) (name : String) (range : Option String)
    (before : List Call) : Gate → Fault → Prop
  | known (hknown : c.get? name = none) : Fails c sh name range before known (.unsupported name)
  | found (hfound : sh.find name = none) : Fails c sh name range before found (.notInstalled name)
  | splittable {spec : LinterSpec} {cause : Words.Fault} (hknown : c.get? name = some spec)
      (hsplit : Words.split spec.versionFlag = .error cause) :
      Fails c sh name range before splittable (.badVersionFlag name spec.versionFlag cause)
  | runs {spec : LinterSpec} {command : Call} {cause : IoFault}
      (hasks : Asks c sh name spec command) (hcall : sh.answer before command = .error cause) :
      Fails c sh name range before runs (.io cause)
  | versioned {spec : LinterSpec} {command : Call} {o : Output}
      (hasks : Asks c sh name spec command) (hcall : sh.answer before command = .ok o)
      (hversion : Version.coerce? (printed o) = none) :
      Fails c sh name range before versioned (.noVersion name spec.versionFlag)
  | readable {text : String} (hrange : range = some text) (hparse : Range.parse? text = none) :
      Fails c sh name range before readable (.badRange text)
  | satisfied {spec : LinterSpec} {command : Call} {l : Installed} {text : String} {g : Range}
      (hasks : Asks c sh name spec command) (htells : Tells sh name spec command before l)
      (hrange : range = some text) (hparse : Range.parse? text = some g)
      (hout : g.admits l.version = false) :
      Fails c sh name range before satisfied (.versionMismatch name l.version text)

section

variable (c : Catalogue) (sh : Shell) (name : String) (range : Option String) (before : List Call)

def Passed (g : Gate) : Prop := ∀ f, ¬ g.Fails c sh name range before f

structure FailsFirst (g : Gate) (f : Fault) : Prop where
  fails : g.Fails c sh name range before f
  passed : ∀ g' ∈ g.earlier, g'.Passed c sh name range before

end

end Gate

variable {c : Catalogue} {sh : Shell} {name : String} {range : Option String} {before : List Call}
  {spec spec' : LinterSpec} {command command' : Call} {l l' : Installed} {f f' : Fault}
  {g g' : Gate}

theorem Asks.unique (h : Asks c sh name spec command) (h' : Asks c sh name spec' command') :
    spec = spec' ∧ command = command' := by
  obtain rfl : spec = spec' := Option.some.inj (h.known.symm.trans h'.known)
  have hprogram := Option.some.inj (h.found.symm.trans h'.found)
  have harguments := Except.ok.inj (h.split.symm.trans h'.split)
  obtain ⟨program, arguments⟩ := command
  obtain ⟨program', arguments'⟩ := command'
  exact ⟨rfl, by rw [Call.mk.injEq]; exact ⟨hprogram, harguments⟩⟩

theorem Tells.unique (h : Tells sh name spec command before l)
    (h' : Tells sh name spec command before l') : l = l' := by
  obtain ⟨o, hcall, hversion⟩ := h.version
  obtain ⟨o', hcall', hversion'⟩ := h'.version
  obtain rfl : o = o' := Except.ok.inj (hcall.symm.trans hcall')
  have hsame := Option.some.inj (hversion.symm.trans hversion')
  obtain ⟨n, s, e, v⟩ := l
  obtain ⟨n', s', e', v'⟩ := l'
  rw [Installed.mk.injEq]
  exact ⟨h.name.trans h'.name.symm, h.spec.trans h'.spec.symm,
    h.executable.trans h'.executable.symm, hsame⟩

namespace Gate

theorem Fails.kind_eq (h : g.Fails c sh name range before f) : f.kind = g.kind := by
  cases h <;> rfl

theorem Fails.unique (h : g.Fails c sh name range before f)
    (h' : g.Fails c sh name range before f') : f = f' := by
  cases h with
  | known => cases h'; rfl
  | found => cases h'; rfl
  | splittable hknown hsplit =>
    cases h' with
    | splittable hknown' hsplit' =>
      obtain rfl := Option.some.inj (hknown.symm.trans hknown')
      rw [Except.error.inj (hsplit.symm.trans hsplit')]
  | runs hasks hcall =>
    cases h' with
    | runs hasks' hcall' =>
      obtain ⟨rfl, rfl⟩ := hasks.unique hasks'
      rw [Except.error.inj (hcall.symm.trans hcall')]
  | versioned hasks =>
    cases h' with
    | versioned hasks' => rw [(hasks.unique hasks').1]
  | readable hrange =>
    cases h' with
    | readable hrange' => rw [Option.some.inj (hrange.symm.trans hrange')]
  | satisfied hasks htells hrange =>
    cases h' with
    | satisfied hasks' htells' hrange' =>
      obtain ⟨rfl, rfl⟩ := hasks.unique hasks'
      rw [htells.unique htells', Option.some.inj (hrange.symm.trans hrange')]

theorem FailsFirst.unique (h : g.FailsFirst c sh name range before f)
    (h' : g'.FailsFirst c sh name range before f') : g = g' ∧ f = f' := by
  rcases eq_or_earlier g g' with rfl | hearlier | hlater
  · exact ⟨rfl, h.fails.unique h'.fails⟩
  · exact absurd h.fails (h'.passed g hearlier f)
  · exact absurd h'.fails (h.passed g' hlater f')

theorem passed_known (hknown : c.get? name = some spec) : known.Passed c sh name range before := by
  intro f hfails
  cases hfails with
  | known hnone =>
    rw [hknown] at hnone
    cases hnone

theorem passed_found {executable : Path} (hfound : sh.find name = some executable) :
    found.Passed c sh name range before := by
  intro f hfails
  cases hfails with
  | found hnone =>
    rw [hfound] at hnone
    cases hnone

theorem passed_splittable (hasks : Asks c sh name spec command) :
    splittable.Passed c sh name range before := by
  intro f hfails
  cases hfails with
  | splittable hknown hsplit =>
    have hok := hasks.split
    obtain rfl := Option.some.inj (hasks.known.symm.trans hknown)
    rw [hsplit] at hok
    cases hok

theorem passed_of_asks (hasks : Asks c sh name spec command) :
    ∀ g ∈ runs.earlier, g.Passed c sh name range before := by
  have hearlier : runs.earlier = [known, found, splittable] := rfl
  simp only [hearlier, List.forall_mem_cons]
  exact ⟨passed_known hasks.known, passed_found hasks.found, passed_splittable hasks, by simp⟩

theorem passed_runs {o : Output} (hasks : Asks c sh name spec command)
    (hcall : sh.answer before command = .ok o) : runs.Passed c sh name range before := by
  intro f hfails
  cases hfails with
  | runs hasks' hrefused =>
    obtain ⟨rfl, rfl⟩ := hasks.unique hasks'
    rw [hcall] at hrefused
    cases hrefused

theorem passed_versioned (hasks : Asks c sh name spec command)
    (htells : Tells sh name spec command before l) : versioned.Passed c sh name range before := by
  intro f hfails
  cases hfails with
  | versioned hasks' hcall' hnone =>
    obtain ⟨rfl, rfl⟩ := hasks.unique hasks'
    obtain ⟨o, hcall, hversion⟩ := htells.version
    obtain rfl := Except.ok.inj (hcall.symm.trans hcall')
    rw [hversion] at hnone
    cases hnone

theorem passed_of_tells (hasks : Asks c sh name spec command)
    (htells : Tells sh name spec command before l) :
    ∀ g ∈ readable.earlier, g.Passed c sh name range before := by
  have hearlier : readable.earlier = runs.earlier ++ [runs, versioned] := rfl
  obtain ⟨o, hcall, -⟩ := htells.version
  simp only [hearlier, List.forall_mem_append, List.forall_mem_cons]
  exact ⟨passed_of_asks hasks, passed_runs hasks hcall, passed_versioned hasks htells, by simp⟩

theorem passed_readable {text : String} {r : Range} (hrange : range = some text)
    (hparse : Range.parse? text = some r) : readable.Passed c sh name range before := by
  intro f hfails
  cases hfails with
  | readable hrange' hnone =>
    obtain rfl := Option.some.inj (hrange.symm.trans hrange')
    rw [hparse] at hnone
    cases hnone

theorem failsFirst_of_unasked (h : Unasked c sh name f) :
    ∃ g ∈ runs.earlier, g.FailsFirst c sh name range before f := by
  cases h with
  | unknown hknown =>
    have hearlier : known.earlier = [] := rfl
    exact ⟨known, by decide, .known hknown, by simp [hearlier]⟩
  | missing hknown hfound =>
    have hearlier : found.earlier = [known] := rfl
    refine ⟨found, by decide, .found hfound, ?_⟩
    simp only [hearlier, List.forall_mem_singleton]
    exact passed_known hknown
  | badFlag hknown hfound hsplit =>
    have hearlier : splittable.earlier = [known, found] := rfl
    refine ⟨splittable, by decide, .splittable hknown hsplit, ?_⟩
    simp only [hearlier, List.forall_mem_cons]
    exact ⟨passed_known hknown, passed_found hfound, by simp⟩

theorem failsFirst_of_declined (hasks : Asks c sh name spec command)
    (h : Declined sh name range spec command before f) :
    ∃ g : Gate, g.FailsFirst c sh name range before f := by
  cases h with
  | refused hcall => exact ⟨runs, .runs hasks hcall, passed_of_asks hasks⟩
  | unversioned hcall hversion =>
    have hearlier : versioned.earlier = runs.earlier ++ [runs] := rfl
    refine ⟨versioned, .versioned hasks hcall hversion, ?_⟩
    simp only [hearlier, List.forall_mem_append, List.forall_mem_singleton]
    exact ⟨passed_of_asks hasks, passed_runs hasks hcall⟩
  | badRange htells hrange hparse =>
    exact ⟨readable, .readable hrange hparse, passed_of_tells hasks htells⟩
  | outOfRange htells hrange hparse hout =>
    have hearlier : satisfied.earlier = readable.earlier ++ [readable] := rfl
    refine ⟨satisfied, .satisfied hasks htells hrange hparse hout, ?_⟩
    simp only [hearlier, List.forall_mem_append, List.forall_mem_singleton]
    exact ⟨passed_of_tells hasks htells, passed_readable hrange hparse⟩

theorem passed_of_inRange (hasks : Asks c sh name spec command)
    (htells : Tells sh name spec command before l) (hrange : InRange range l.version) (g : Gate) :
    g.Passed c sh name range before := by
  by_cases hg : g ∈ readable.earlier
  · exact passed_of_tells hasks htells g hg
  -- Only the last two gates look at the range.
  intro f hfails
  cases hfails with
  | readable htext hparse =>
    obtain ⟨r, hr, -⟩ := hrange _ htext
    rw [hparse] at hr
    cases hr
  | satisfied hasks' htells' htext hparse hout =>
    obtain ⟨rfl, rfl⟩ := hasks.unique hasks'
    obtain rfl := htells.unique htells'
    obtain ⟨r, hr, hadmits⟩ := hrange _ htext
    obtain rfl := Option.some.inj (hr.symm.trans hparse)
    rw [hadmits] at hout
    cases hout
  | _ => exact absurd (by decide) hg

end Gate

section Recoded

variable (code : List Call → Call → Option Int)

theorem detectVersion_recoded (executable : Path) :
    detectVersion name spec executable (sh.recoded code) =
      detectVersion name spec executable sh := by
  rw [detectVersion, detectVersion]
  cases Words.split spec.versionFlag with
  | error cause => rfl
  | ok words =>
    funext before
    have hrun := Traced.startAfter_run before sh ⟨executable, words.map bytesOf⟩
    have hrecoded := Traced.startAfter_run before (sh.recoded code) ⟨executable, words.map bytesOf⟩
    change Traced.startAfter before (Bind.bind _ _) = Traced.startAfter before (Bind.bind _ _)
    simp only [Shell.recoded] at hrecoded ⊢
    cases hcall : sh.answer before ⟨executable, words.map bytesOf⟩ with
    | error cause =>
      rw [hcall] at hrun hrecoded
      rw [Traced.startAfter_bind_of_error hrun, Traced.startAfter_bind_of_error hrecoded]
    | ok o =>
      rw [hcall] at hrun hrecoded
      rw [Traced.startAfter_bind_of_ok hrun, Traced.startAfter_bind_of_ok hrecoded]
      -- What was printed does not hold the exit code.
      rfl

theorem check_recoded : check c name range (sh.recoded code) = check c name range sh := by
  simp only [check, detectVersion_recoded]
  rfl

end Recoded

section Structured

variable {o : StructuredOutput}

theorem supportsStructured_eq_error_iff (h : l.spec.structured = some o) :
    (∃ f, l.supportsStructured = .error f ∧ f.kind = .configuration) ↔
      o.since = none ∨ ∃ since, o.since = some since ∧ Range.parse? since = none := by
  simp only [supportsStructured, h]
  cases hsince : o.since with
  | none => simp [Fault.kind]
  | some since => cases hparse : Range.parse? since <;> simp [hparse, Fault.kind]

theorem supportsStructured_of_since {since : String} {r : Range} (h : l.spec.structured = some o)
    (hsince : o.since = some since) (hparse : Range.parse? since = some r) :
    l.supportsStructured = .ok (r.admits l.version) := by
  simp only [supportsStructured, h, hsince, hparse]

theorem structuredArguments_of_unsupported (h : l.supportsStructured = .ok false) :
    l.structuredArguments = .ok [] := by
  rw [structuredArguments, h]
  rfl

end Structured

section Verdict

variable (c sh name range before)

theorem check_verdict :
    (∃ g ∈ Gate.runs.earlier, ∃ f, g.FailsFirst c sh name range before f ∧
      (check c name range sh).startAfter before = (.error f, before)) ∨
    (∃ spec command, Asks c sh name spec command ∧
      ∃ (g : Gate) (f : Fault), g.FailsFirst c sh name range before f ∧
        (check c name range sh).startAfter before = (.error f, before ++ [command])) ∨
    ∃ spec command l, Asks c sh name spec command ∧ Tells sh name spec command before l ∧
      (∀ g : Gate, g.Passed c sh name range before) ∧
      (check c name range sh).startAfter before = (.ok l, before ++ [command]) := by
  rcases check_startAfter c sh name range before with
    ⟨f, hunasked, hrun⟩ | ⟨spec, command, f, hasks, hdeclined, hrun⟩ |
    ⟨spec, command, l, hasks, htells, hrange, hrun⟩
  · obtain ⟨g, hg, hfirst⟩ := Gate.failsFirst_of_unasked hunasked
    exact .inl ⟨g, hg, f, hfirst, hrun⟩
  · obtain ⟨g, hfirst⟩ := Gate.failsFirst_of_declined hasks hdeclined
    exact .inr (.inl ⟨spec, command, hasks, g, f, hfirst, hrun⟩)
  · exact .inr (.inr ⟨spec, command, l, hasks, htells,
      Gate.passed_of_inRange hasks htells hrange, hrun⟩)

theorem check_outcome :
    (∃ (g : Gate) (f : Fault), g.FailsFirst c sh name range before f ∧
      ((check c name range sh).startAfter before).1 = .error f) ∨
    ∃ l, (∀ g : Gate, g.Passed c sh name range before) ∧
      ((check c name range sh).startAfter before).1 = .ok l ∧
      ∃ command, Asks c sh name l.spec command ∧ Tells sh name l.spec command before l := by
  rcases check_verdict c sh name range before with
    ⟨g, -, f, hfirst, hrun⟩ | ⟨spec, command, -, g, f, hfirst, hrun⟩ |
    ⟨spec, command, l, hasks, htells, hpassed, hrun⟩
  · exact .inl ⟨g, f, hfirst, by rw [hrun]⟩
  · exact .inl ⟨g, f, hfirst, by rw [hrun]⟩
  · obtain rfl := htells.spec
    exact .inr ⟨l, hpassed, by rw [hrun], command, hasks, htells⟩

theorem check_eq_error_iff (f : Fault) :
    ((check c name range sh).startAfter before).1 = .error f ↔
      ∃ g : Gate, g.FailsFirst c sh name range before f := by
  rcases check_outcome c sh name range before with ⟨g, f', hfirst, hrun⟩ | ⟨l, hpassed, hrun, -⟩
  · rw [hrun]
    constructor
    · intro h
      cases h
      exact ⟨g, hfirst⟩
    · intro h
      obtain ⟨g', hfirst'⟩ := h
      rw [(hfirst.unique hfirst').2]
  · rw [hrun]
    constructor
    · intro h
      cases h
    · intro h
      obtain ⟨g, hfirst⟩ := h
      exact absurd hfirst.fails (hpassed g f)

theorem exists_check_eq_ok_iff :
    (∃ l, ((check c name range sh).startAfter before).1 = .ok l) ↔
      ∀ g : Gate, g.Passed c sh name range before := by
  rcases check_outcome c sh name range before with ⟨g, f, hfirst, hrun⟩ | ⟨l, hpassed, hrun, -⟩
  · rw [hrun]
    constructor
    · intro h
      obtain ⟨l, h⟩ := h
      cases h
    · intro hpassed
      exact absurd hfirst.fails (hpassed g f)
  · exact ⟨fun _ => hpassed, fun _ => ⟨l, hrun⟩⟩

theorem calls_of_check :
    (∃ g ∈ Gate.runs.earlier, ¬ g.Passed c sh name range before) ∧
        ((check c name range sh).startAfter before).2 = before ∨
      (∀ g ∈ Gate.runs.earlier, g.Passed c sh name range before) ∧
        ∃ spec command, Asks c sh name spec command ∧
          ((check c name range sh).startAfter before).2 = before ++ [command] := by
  rcases check_verdict c sh name range before with
    ⟨g, hg, f, hfirst, hrun⟩ | ⟨spec, command, hasks, g, f, -, hrun⟩ |
    ⟨spec, command, l, hasks, -, -, hrun⟩
  · exact .inl ⟨⟨g, hg, fun hpassed => hpassed f hfirst.fails⟩, by rw [hrun]⟩
  · exact .inr ⟨Gate.passed_of_asks hasks, spec, command, hasks, by rw [hrun]⟩
  · exact .inr ⟨Gate.passed_of_asks hasks, spec, command, hasks, by rw [hrun]⟩

/-- A check reports the first gate that fails, which the kind of the fault tells, and runs the
version command once if it comes to it. Structured output hangs on the version that was told. -/
theorem check_gated :
    (∀ f, ((check c name range sh).startAfter before).1 = .error f ↔
      ∃ g : Gate, g.FailsFirst c sh name range before f) ∧
    (∀ f, ((check c name range sh).startAfter before).1 = .error f →
      ∀ g : Gate, f.kind = g.kind ↔ g.FailsFirst c sh name range before f) ∧
    ((∃ l, ((check c name range sh).startAfter before).1 = .ok l) ↔
      ∀ g : Gate, g.Passed c sh name range before) ∧
    ((∃ g ∈ Gate.runs.earlier, ¬ g.Passed c sh name range before) ∧
        ((check c name range sh).startAfter before).2 = before ∨
      (∀ g ∈ Gate.runs.earlier, g.Passed c sh name range before) ∧
        ∃ spec command, Asks c sh name spec command ∧
          ((check c name range sh).startAfter before).2 = before ++ [command]) ∧
    (∀ code, check c name range (sh.recoded code) = check c name range sh) ∧
    ∀ l, ((check c name range sh).startAfter before).1 = .ok l →
      (∃ command, Asks c sh name l.spec command ∧ Tells sh name l.spec command before l) ∧
      ∀ o, l.spec.structured = some o →
        ((∃ f, l.supportsStructured = .error f ∧ f.kind = .configuration) ↔
          o.since = none ∨ ∃ since, o.since = some since ∧ Range.parse? since = none) ∧
        (∀ since r, o.since = some since → Range.parse? since = some r →
          l.supportsStructured = .ok (r.admits l.version)) ∧
        (l.supportsStructured = .ok false → l.structuredArguments = .ok []) := by
  refine ⟨check_eq_error_iff c sh name range before, ?_,
    exists_check_eq_ok_iff c sh name range before, calls_of_check c sh name range before,
    check_recoded, ?_⟩
  · intro f hf g
    constructor
    · intro hkind
      obtain ⟨g', hfirst⟩ := (check_eq_error_iff c sh name range before f).1 hf
      rwa [Gate.eq_of_kind (hkind.symm.trans hfirst.fails.kind_eq)]
    · exact fun hfirst => hfirst.fails.kind_eq
  · intro l hl
    refine ⟨?_, fun o ho => ⟨supportsStructured_eq_error_iff ho,
      fun since r => supportsStructured_of_since ho, structuredArguments_of_unsupported⟩⟩
    rcases check_outcome c sh name range before with ⟨g, f, -, hrun⟩ | ⟨l', -, hrun, htold⟩
    · rw [hrun] at hl
      cases hl
    · rw [hrun] at hl
      cases hl
      exact htold

end Verdict

section Sample

def sampleSpec : LinterSpec := .withStructured "--version" "--json" ">=1.5"

def sampleCatalogue : Catalogue := ⟨[("lint", sampleSpec)]⟩

def sampleCommand : Call :=
  ⟨Shell.programDir.join (Path.ofString "lint"), [bytesOf "--version"]⟩

theorem sample_asks (answers : List Output) :
    Asks sampleCatalogue (.scripted ["lint"] answers) "lint" sampleSpec sampleCommand :=
  ⟨by decide, by rfl, by rfl⟩

theorem check_gated_old_or_silent :
    (∃ l, ((check sampleCatalogue "lint" (some "^1")
        (.scripted ["lint"] [⟨some 1, bytesOf "lint 1.4", []⟩])).startAfter []).1 = .ok l ∧
      l.supportsStructured = .ok false ∧ l.structuredArguments = .ok []) ∧
    ¬ Gate.readable.Passed sampleCatalogue (.scripted ["lint"] []) "lint" (some "one") [] ∧
    ((check sampleCatalogue "lint" (some "one") (.scripted ["lint"] [])).startAfter []).1 =
      .error (.noVersion "lint" "--version") := by
  refine ⟨?_, ?_, ?_⟩
  · have hrun : ((check sampleCatalogue "lint" (some "^1")
        (.scripted ["lint"] [⟨some 1, bytesOf "lint 1.4", []⟩])).startAfter []).1 =
        .ok ⟨"lint", sampleSpec, sampleCommand.program, ⟨1, 4, 0, []⟩⟩ := by
      rfl
    have hold : (Range.parse? ">=1.5").any (fun r => !r.admits ⟨1, 4, 0, []⟩) = true := by
      decide +kernel
    obtain ⟨r, hparse, hadmits⟩ := (Option.any_eq_true _ _).1 hold
    obtain ⟨-, -, -, -, -, hok⟩ := check_gated sampleCatalogue
      (.scripted ["lint"] [⟨some 1, bytesOf "lint 1.4", []⟩]) "lint" (some "^1") []
    obtain ⟨-, hsupports, harguments⟩ := (hok _ hrun).2 _ rfl
    have hfalse := hsupports _ r rfl hparse
    rw [Bool.not_eq_true'] at hadmits
    rw [hadmits] at hfalse
    exact ⟨_, hrun, hfalse, harguments hfalse⟩
  · intro hpassed
    exact hpassed _ (.readable rfl (by decide +kernel))
  · have hdeclined : Declined (.scripted ["lint"] []) "lint" (some "one") sampleSpec sampleCommand
        [] (.noVersion "lint" "--version") := .unversioned (o := Shell.silence) rfl (by decide)
    obtain ⟨g, hfirst⟩ := Gate.failsFirst_of_declined (sample_asks []) hdeclined
    exact ((check_gated _ _ _ _ _).1 _).2 ⟨g, hfirst⟩

end Sample

end Installed

end Lintel
