import Lintel.Report.Basic
import Lintel.Report.Style

/-!
# The text of a report

Findings are listed in order, with a header in front of each run of findings of one file. Plain
findings are single lines. Structured ones are rows of position, level, message and rule code with
aligned columns, and a last line counts the problems if there are any.
-/
namespace Lintel.Report

def numberText (n : Option UInt32) : List Char :=
  match n with
  | some n => Nat.toDigits 10 n.toNat
  | none => []

def levelText (f : Finding) : List Char := (f.level.getD "other").toList

structure Widths where
  line : Nat
  column : Nat
  level : Nat
  message : Nat
  deriving DecidableEq, Repr

/-- Levels are measured in bytes, the other columns in characters. -/
def Widths.measure (fs : List Finding) : Widths :=
  fs.foldl
    (fun w f =>
      ⟨max w.line (numberText f.line).length, max w.column (numberText f.column).length,
        max w.level (Text.bytes (levelText f)).length, max w.message f.message.toList.length⟩)
    ⟨0, 0, 0, 0⟩

def padRight (width : Nat) (cs : List Char) : List Char :=
  cs ++ List.replicate (width - cs.length) ' '

def padLeft (width : Nat) (cs : List Char) : List Char :=
  List.replicate (width - cs.length) ' ' ++ cs

def header (file : Path) : List Span :=
  [.normal ['\n'], ⟨.underline, file.display.toList⟩, .normal ['\n']]

def rows (row : Finding → List Span) : Option Path → List Finding → List Span
  | _, [] => []
  | current, f :: fs =>
      (if current.any (·.Same f.file) then [] else header f.file) ++ row f ++
        rows row (some f.file) fs

def plainRow (f : Finding) : List Span := [⟨.yellow, f.message.toList⟩, .normal ['\n']]

def levelStyle (severity : Option Severity) : Style :=
  match severity with
  | some .error => .red
  | some .info => .white
  | _ => .yellow

def gap : Span := .normal [' ', ' ']

def positionText (w : Widths) (f : Finding) : List Char :=
  padLeft w.line (numberText f.line) ++ ':' :: padRight w.column (numberText f.column)

def structuredRow (w : Widths) (f : Finding) : List Span :=
  [gap, ⟨.dimmed, positionText w f⟩,
    gap, ⟨levelStyle f.severity, padRight w.level (levelText f)⟩,
    gap, .normal (padRight w.message f.message.toList),
    gap, ⟨.dimmed, (f.code.getD "").toList⟩, .normal ['\n']]

def counted (n : Nat) (noun : String) : String :=
  toString n ++ " " ++ noun ++ if n = 1 then "" else "s"

def problemLine (t : Tally) : String :=
  "✗ " ++ counted t.problems "problem" ++ " (" ++ counted t.error "error" ++ ", "
    ++ counted t.warning "warning" ++ ")"

def trailer (t : Tally) : List Span :=
  if t.problems = 0 then []
  else [⟨if t.error = 0 then .boldYellow else .boldRed, (problemLine t).toList⟩, .normal ['\n']]

def spans (r : Report) : List Span :=
  match r.mode with
  | .plainText => rows plainRow none r.findings
  | .structured =>
      rows (structuredRow (Widths.measure r.findings)) none r.findings ++
        .normal ['\n'] :: trailer r.tally

def text (r : Report) (coloured : Bool) : String := String.ofList (Span.render coloured r.spans)

end Lintel.Report
