import Lintel.Linter.Run

/-!
# Linting one file after the other

The output mode and the arguments in front of each file are settled before the first file. Then
the linter is called once per file. A run over a list of files either passes every file, and makes
one call for each of them, or it stops at the first file whose call fails or whose output cannot be
read, and makes no call after that one.
-/
namespace Lintel.Installed

def lintCall (l : Installed) (leading : List Bytes) (file : Path) : Call :=
  ⟨l.executable, leading ++ [file.bytes]⟩

def outcome (l : Installed) (sh : Shell) (mode : OutputMode) (leading : List Bytes)
    (before : List Call) (file : Path) : Except Fault (List Finding) :=
  match sh.answer before (l.lintCall leading file) with
  | .error cause => .error (.io cause)
  | .ok o => l.readOutput mode file o

/-- Every file passes, each after the calls for the files in front of it. -/
inductive Passes (l : Installed) (sh : Shell) (mode : OutputMode) (leading : List Bytes) :
    List Call → List Path → List Finding → Prop
  | nil {before : List Call} : Passes l sh mode leading before [] []
  | cons {before : List Call} {file : Path} {files : List Path} {found rest : List Finding} :
      l.outcome sh mode leading before file = .ok found →
      Passes l sh mode leading (before ++ [l.lintCall leading file]) files rest →
      Passes l sh mode leading before (file :: files) (found ++ rest)

variable (l : Installed) (sh : Shell) (mode : OutputMode) (leading : List Bytes)

theorem lintFile_startAfter (before : List Call) (file : Path) :
    (l.lintFile sh mode leading file).startAfter before =
      (l.outcome sh mode leading before file, before ++ [l.lintCall leading file]) := by
  have hrun := Traced.startAfter_run before sh (l.lintCall leading file)
  cases h : sh.answer before (l.lintCall leading file) with
  | error cause =>
    rw [h] at hrun
    rw [outcome, h]
    exact Traced.startAfter_bind_of_error hrun _
  | ok o =>
    rw [h] at hrun
    rw [outcome, h]
    exact Traced.startAfter_bind_of_ok hrun _

theorem lintFiles_startAfter (files : List Path) (before : List Call) :
    (∃ found, l.Passes sh mode leading before files found ∧
      (l.lintFiles sh mode leading files).startAfter before =
        (.ok found, before ++ files.map (l.lintCall leading))) ∨
    ∃ done file rest found f, files = done ++ file :: rest ∧
      l.Passes sh mode leading before done found ∧
      l.outcome sh mode leading (before ++ done.map (l.lintCall leading)) file = .error f ∧
      (l.lintFiles sh mode leading files).startAfter before =
        (.error f, before ++ (done ++ [file]).map (l.lintCall leading)) := by
  induction files generalizing before with
  | nil => exact .inl ⟨[], .nil, by simp [lintFiles]⟩
  | cons file files ih =>
    have hfile := l.lintFile_startAfter sh mode leading before file
    cases h : l.outcome sh mode leading before file with
    | error f =>
      rw [h] at hfile
      refine .inr ⟨[], file, files, [], f, rfl, .nil, by simpa using h, ?_⟩
      exact Traced.startAfter_bind_of_error hfile _
    | ok found =>
      rw [h] at hfile
      have hstep : (l.lintFiles sh mode leading (file :: files)).startAfter before =
          Traced.startAfter (before ++ [l.lintCall leading file])
            (l.lintFiles sh mode leading files >>= fun rest => pure (found ++ rest)) :=
        Traced.startAfter_bind_of_ok hfile _
      rcases ih (before ++ [l.lintCall leading file]) with
        ⟨rest, hpass, hrun⟩ | ⟨done, bad, rest, rfound, f, rfl, hpass, hbad, hrun⟩
      · refine .inl ⟨found ++ rest, .cons h hpass, ?_⟩
        rw [hstep, Traced.startAfter_bind_of_ok hrun]
        simp
      · refine .inr ⟨file :: done, bad, rest, found ++ rfound, f, rfl, .cons h hpass, ?_, ?_⟩
        · simpa using hbad
        · rw [hstep, Traced.startAfter_bind_of_error hrun]
          simp

def FlagArguments (l : Installed) : OutputMode → List String → Prop
  | .structured, flag => ∃ o, l.spec.structured = some o ∧ Words.split o.flag = .ok flag
  | .plainText, flag => flag = []

def OptionArguments : Option String → List String → Prop
  | none, extra => extra = []
  | some text, extra => Words.split text = .ok extra

structure Prepared (l : Installed) (options : Option String) (mode : OutputMode)
    (leading : List Bytes) : Prop where
  capable : l.supportsStructured = .ok (mode == .structured)
  leading : ∃ flag extra, l.FlagArguments mode flag ∧ OptionArguments options extra ∧
    leading = (flag ++ extra).map bytesOf

inductive Unprepared (l : Installed) (options : Option String) : Fault → Prop
  | incapable {f : Fault} (hcapable : l.supportsStructured = .error f) : Unprepared l options f
  | badFlag {o : StructuredOutput} {cause : Words.Fault}
      (hcapable : l.supportsStructured = .ok true) (hstructured : l.spec.structured = some o)
      (hsplit : Words.split o.flag = .error cause) :
      Unprepared l options (.badStructuredFlag l.name o.flag cause)
  | badOptions {mode : OutputMode} {flag : List String} {text : String} {cause : Words.Fault}
      (hcapable : l.supportsStructured = .ok (mode == .structured))
      (hflag : l.FlagArguments mode flag) (hoptions : options = some text)
      (hsplit : Words.split text = .error cause) : Unprepared l options (.badOptions text cause)

variable {l}

theorem structured_of_supports (h : l.supportsStructured = .ok true) :
    ∃ o, l.spec.structured = some o := by
  cases hspec : l.spec.structured with
  | none => simp [supportsStructured, hspec] at h
  | some o => exact ⟨o, rfl⟩

theorem structuredArguments_cases {b : Bool} (h : l.supportsStructured = .ok b) :
    (∃ flag, l.FlagArguments (if b then .structured else .plainText) flag ∧
      l.structuredArguments = .ok flag) ∨
    ∃ o cause, b = true ∧ l.spec.structured = some o ∧ Words.split o.flag = .error cause ∧
      l.structuredArguments = .error (.badStructuredFlag l.name o.flag cause) := by
  cases b with
  | false => exact .inl ⟨[], rfl, by simp [structuredArguments, h, bind, Except.bind]⟩
  | true =>
    obtain ⟨o, hspec⟩ := structured_of_supports h
    cases hsplit : Words.split o.flag with
    | ok flag =>
      exact .inl ⟨flag, ⟨o, hspec, hsplit⟩, by
        simp [structuredArguments, h, hspec, hsplit, bind, Except.bind]⟩
    | error cause =>
      exact .inr ⟨o, cause, rfl, hspec, hsplit, by
        simp [structuredArguments, h, hspec, hsplit, bind, Except.bind]⟩

theorem extraArguments_cases (options : Option String) :
    (∃ extra, OptionArguments options extra ∧ extraArguments options = .ok extra) ∨
    ∃ text cause, options = some text ∧ Words.split text = .error cause ∧
      extraArguments options = .error (.badOptions text cause) := by
  cases options with
  | none => exact .inl ⟨[], rfl, rfl⟩
  | some text =>
    cases hsplit : Words.split text with
    | ok extra => exact .inl ⟨extra, hsplit, by simp [extraArguments, hsplit]⟩
    | error cause => exact .inr ⟨text, cause, rfl, hsplit, by simp [extraArguments, hsplit]⟩

variable (l)

theorem lint_startAfter (files : FileSet) (options : Option String) (before : List Call) :
    (∃ f, l.Unprepared options f ∧
      (l.lint sh files options).startAfter before = (.error f, before)) ∨
    ∃ mode leading, l.Prepared options mode leading ∧
      (l.lint sh files options).startAfter before =
        (l.lintFiles sh mode leading files.files >>= fun found =>
          pure (Report.mk mode found)).startAfter before := by
  cases hcapable : l.supportsStructured with
  | error f =>
    refine .inl ⟨f, .incapable hcapable, ?_⟩
    rw [lint, Traced.startAfter_bind_of_error (by rw [mode, hcapable]; rfl)]
  | ok b =>
    have hmode : (Traced.ofExcept l.mode).startAfter before =
        (.ok (if b then .structured else .plainText), before) := by rw [mode, hcapable]; rfl
    have hb : ((if b then OutputMode.structured else .plainText) == .structured) = b := by
      cases b <;> rfl
    rw [lint, Traced.startAfter_bind_of_ok hmode]
    rcases structuredArguments_cases hcapable with
      ⟨flag, hflag, hasked⟩ | ⟨o, cause, rfl, hspec, hsplit, hasked⟩
    · rcases extraArguments_cases options with
        ⟨extra, hextra, hargs⟩ | ⟨text, cause, hoptions, hsplit, hargs⟩
      · refine .inr ⟨_, (flag ++ extra).map bytesOf,
          ⟨by rw [hb, hcapable], flag, extra, hflag, hextra, rfl⟩, ?_⟩
        rw [Traced.startAfter_bind_of_ok (by rw [leadingArguments, hasked, hargs]; rfl)]
      · refine .inl ⟨_, .badOptions (by rw [hb, hcapable]) hflag hoptions hsplit, ?_⟩
        rw [Traced.startAfter_bind_of_error (by rw [leadingArguments, hasked, hargs]; rfl)]
    · refine .inl ⟨_, .badFlag hcapable hspec hsplit, ?_⟩
      rw [Traced.startAfter_bind_of_error (by rw [leadingArguments, hasked]; rfl)]

end Lintel.Installed
