/-!
# Styled text

Text is a list of spans. On a terminal a span with a style stands between an escape sequence that
switches the style on and the one that switches all styles off. Where the text itself switches
styles off, the style of the span is switched on again.
-/
namespace Lintel

inductive Style
  | normal
  | underline
  | dimmed
  | red
  | yellow
  | white
  | boldRed
  | boldYellow
  deriving DecidableEq, Repr

namespace Style

def codes : Style → Option String
  | .normal => none
  | .underline => some "4"
  | .dimmed => some "2"
  | .red => some "31"
  | .yellow => some "33"
  | .white => some "37"
  | .boldRed => some "1;31"
  | .boldYellow => some "1;33"

def escape : Char := '\x1b'

def sequence (code : String) : List Char := escape :: '[' :: code.toList ++ ['m']

def reset : List Char := sequence "0"

def resume (on : List Char) : List Char → List Char
  | '\x1b' :: '[' :: '0' :: 'm' :: rest => '\x1b' :: '[' :: '0' :: 'm' :: on ++ resume on rest
  | c :: rest => c :: resume on rest
  | [] => []

def apply (s : Style) (text : List Char) : List Char :=
  match s.codes with
  | none => text
  | some code => sequence code ++ resume (sequence code) text ++ reset

end Style

structure Span where
  style : Style
  text : List Char
  deriving DecidableEq, Repr

namespace Span

def normal (text : List Char) : Span := ⟨.normal, text⟩

def render (coloured : Bool) (spans : List Span) : List Char :=
  spans.flatMap fun s => if coloured then s.style.apply s.text else s.text

end Span

end Lintel
