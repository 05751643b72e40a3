import Lintel.Linter.Installed

/-!
# The gates a linter passes

A linter that is asked for must be known, be installed and have a version command that can be
split; only then is that command run, once. What it prints must hold a version, and the version
must lie in the range. Each gate is looked at only when all gates before it are passed.
-/
namespace Lintel.Installed

/-- The linter is known and installed, and `command` asks it for its version. -/
structure Asks (c : Catalogue) (sh : Shell) (name : String) (spec : LinterSpec)
    (command : Call) : Prop where
  known : c.get? name = some spec
  found : sh.find name = some command.program
  split : (Words.split spec.versionFlag).map (·.map bytesOf) = .ok command.arguments

inductive Unasked (c : Catalogue) (sh : Shell) (name : String) : Fault → Prop
  | unknown (hknown : c.get? name = none) : Unasked c sh name (.unsupported name)
  | missing {spec : LinterSpec} (hknown : c.get? name = some spec) (hfound : sh.find name = none) :
      Unasked c sh name (.notInstalled name)
  | badFlag {spec : LinterSpec} {executable : Path} {cause : Words.Fault}
      (hknown : c.get? name = some spec) (hfound : sh.find name = some executable)
      (hsplit : Words.split spec.versionFlag = .error cause) :
      Unasked c sh name (.badVersionFlag name spec.versionFlag cause)

/-- The version command, run after the calls `before`, makes `l` known. -/
structure Tells (sh : Shell) (name : String) (spec : LinterSpec) (command : Call)
    (before : List Call) (l : Installed) : Prop where
  name : l.name = name
  spec : l.spec = spec
  executable : l.executable = command.program
  version : ∃ o, sh.answer before command = .ok o ∧ Version.coerce? (printed o) = some l.version

def InRange (range : Option String) (v : Version) : Prop :=
  ∀ text, range = some text → ∃ g, Range.parse? text = some g ∧ g.admits v = true

inductive Declined (sh : Shell) (name : String) (range : Option String) (spec : LinterSpec)
    (command : Call) (before : List Call) : Fault → Prop
  | refused {cause : IoFault} (hcall : sh.answer before command = .error cause) :
      Declined sh name range spec command before (.io cause)
  | unversioned {o : Output} (hcall : sh.answer before command = .ok o)
      (hversion : Version.coerce? (printed o) = none) :
      Declined sh name range spec command before (.noVersion name spec.versionFlag)
  | badRange {l : Installed} {text : String} (htells : Tells sh name spec command before l)
      (hrange : range = some text) (hparse : Range.parse? text = none) :
      Declined sh name range spec command before (.badRange text)
  | outOfRange {l : Installed} {text : String} {g : Range}
      (htells : Tells sh name spec command before l) (hrange : range = some text)
      (hparse : Range.parse? text = some g) (hout : g.admits l.version = false) :
      Declined sh name range spec command before (.versionMismatch name l.version text)

variable (c : Catalogue) (sh : Shell) (name : String) (range : Option String)

theorem checkRange_cases (version : Version) :
    (checkRange name version range = .ok () ∧ InRange range version) ∨
    (∃ text, range = some text ∧ Range.parse? text = none ∧
      checkRange name version range = .error (.badRange text)) ∨
    ∃ text g, range = some text ∧ Range.parse? text = some g ∧ g.admits version = false ∧
      checkRange name version range = .error (.versionMismatch name version text) := by
  cases range with
  | none => exact .inl ⟨rfl, by simp [InRange]⟩
  | some text =>
    cases hparse : Range.parse? text with
    | none => exact .inr (.inl ⟨text, rfl, hparse, by simp [checkRange, hparse]⟩)
    | some g =>
      cases hadmits : g.admits version with
      | true =>
        refine .inl ⟨by simp [checkRange, hparse, hadmits], ?_⟩
        rintro _ ⟨⟩
        exact ⟨g, hparse, hadmits⟩
      | false =>
        exact .inr (.inr ⟨text, g, rfl, hparse, hadmits, by simp [checkRange, hparse, hadmits]⟩)

theorem detectVersion_startAfter {spec : LinterSpec} {executable : Path} {words : List String}
    (hsplit : Words.split spec.versionFlag = .ok words) (before : List Call) :
    let command : Call := ⟨executable, words.map bytesOf⟩
    (∃ f, Declined sh name range spec command before f ∧
      (detectVersion name spec executable sh).startAfter before = (.error f, before ++ [command])) ∨
    ∃ version, Tells sh name spec command before ⟨name, spec, executable, version⟩ ∧
      (detectVersion name spec executable sh).startAfter before =
        (.ok version, before ++ [command]) := by
  intro command
  have hrun := Traced.startAfter_run before sh command
  rw [detectVersion, hsplit]
  cases hcall : sh.answer before command with
  | error cause =>
    rw [hcall] at hrun
    exact .inl ⟨_, .refused hcall, Traced.startAfter_bind_of_error hrun _⟩
  | ok o =>
    rw [hcall] at hrun
    cases hversion : Version.coerce? (printed o) with
    | none =>
      refine .inl ⟨_, .unversioned hcall hversion,
        (Traced.startAfter_bind_of_ok hrun _).trans ?_⟩
      simp only [hversion, Traced.startAfter_fail]
    | some version =>
      refine .inr ⟨version, ⟨rfl, rfl, rfl, o, hcall, hversion⟩,
        (Traced.startAfter_bind_of_ok hrun _).trans ?_⟩
      simp only [hversion, Traced.startAfter_pure]

theorem check_startAfter (before : List Call) :
    (∃ f, Unasked c sh name f ∧ (check c name range sh).startAfter before = (.error f, before)) ∨
    (∃ spec command f, Asks c sh name spec command ∧
      Declined sh name range spec command before f ∧
      (check c name range sh).startAfter before = (.error f, before ++ [command])) ∨
    ∃ spec command l, Asks c sh name spec command ∧ Tells sh name spec command before l ∧
      InRange range l.version ∧
      (check c name range sh).startAfter before = (.ok l, before ++ [command]) := by
  cases hknown : c.get? name with
  | none => exact .inl ⟨_, .unknown hknown, by simp [check, hknown]⟩
  | some spec =>
    cases hfound : sh.find name with
    | none => exact .inl ⟨_, .missing hknown hfound, by simp [check, hknown, hfound]⟩
    | some executable =>
      have hcheck : check c name range sh = detectVersion name spec executable sh >>= fun version =>
          Traced.ofExcept (checkRange name version range) >>= fun _ =>
            pure ⟨name, spec, executable, version⟩ := by
        simp only [check, hknown, hfound]
      cases hsplit : Words.split spec.versionFlag with
      | error cause =>
        refine .inl ⟨_, .badFlag hknown hfound hsplit, ?_⟩
        have hfail : (detectVersion name spec executable sh).startAfter before =
            (.error (.badVersionFlag name spec.versionFlag cause), before) := by
          simp [detectVersion, hsplit]
        rw [hcheck, Traced.startAfter_bind_of_error hfail]
      | ok words =>
        apply Or.inr
        have hasks : Asks c sh name spec ⟨executable, words.map bytesOf⟩ :=
          ⟨hknown, hfound, by rw [hsplit]; rfl⟩
        rcases detectVersion_startAfter sh name range hsplit before with
          ⟨f, hdeclined, hrun⟩ | ⟨version, htells, hrun⟩
        · exact .inl ⟨spec, _, f, hasks, hdeclined,
            by rw [hcheck, Traced.startAfter_bind_of_error hrun]⟩
        · rw [hcheck, Traced.startAfter_bind_of_ok hrun]
          rcases checkRange_cases name range version with
            ⟨hok, hin⟩ | ⟨text, rfl, hparse, herr⟩ | ⟨text, g, rfl, hparse, hout, herr⟩
          · exact .inr ⟨spec, _, _, hasks, htells, hin, by
              rw [Traced.startAfter_bind_of_ok (by rw [hok, Traced.startAfter_ofExcept])]; rfl⟩
          · exact .inl ⟨spec, _, _, hasks, .badRange htells rfl hparse, by
              rw [Traced.startAfter_bind_of_error (by rw [herr, Traced.startAfter_ofExcept])]⟩
          · exact .inl ⟨spec, _, _, hasks, .outOfRange htells rfl hparse hout, by
              rw [Traced.startAfter_bind_of_error (by rw [herr, Traced.startAfter_ofExcept])]⟩

end Lintel.Installed
