import Lintel.Text.Digit
import Lintel.Text.Pieces

/-!
# What scripts print

`echo` joins its arguments by blanks and replaces escapes in them. `printf` replaces escapes in its
format and uses the format again while arguments are left; a conversion without an argument gets
the empty one. An octal escape has up to three digits; in an argument it may have a zero in front.
-/
namespace Lintel.Script

def isOctalDigit (c : Char) : Bool := '0' ≤ c && c ≤ '7'

def octalChar (digits : List Char) : Char :=
  Char.ofNat (digits.foldl (fun n c => n * 8 + Text.digitValue c) 0 % 256)

def splitOctal (cs : List Char) : List Char × List Char :=
  let digits := (cs.take 3).takeWhile isOctalDigit
  (digits, cs.drop digits.length)

def controlEscape? : Char → Option Char
  | 'a' => some '\x07'
  | 'b' => some '\x08'
  | 'f' => some '\x0c'
  | 'n' => some '\n'
  | 'r' => some '\r'
  | 't' => some '\t'
  | 'v' => some '\x0b'
  | '\\' => some '\\'
  | _ => none

def printedEscape (zeroFirst : Bool) : List Char → List Char × List Char
  | [] => (['\\'], [])
  | c :: rest =>
      if c = '0' ∧ zeroFirst then
        let (digits, after) := splitOctal rest
        ([octalChar digits], after)
      else if isOctalDigit c then
        let (digits, after) := splitOctal (c :: rest)
        ([octalChar digits], after)
      else match controlEscape? c with
        | some d => ([d], rest)
        | none => (['\\', c], rest)

/-- Replaces the escapes in an argument. One of them ends all output; the flag tells whether it was
met. -/
def unescapeFrom : Nat → List Char → List Char × Bool
  | 0, _ => ([], false)
  | _, [] => ([], false)
  | _, '\\' :: 'c' :: _ => ([], true)
  | n + 1, '\\' :: rest =>
      let (cs, after) := printedEscape true rest
      let (more, ended) := unescapeFrom n after
      (cs ++ more, ended)
  | n + 1, c :: rest =>
      let (more, ended) := unescapeFrom n rest
      (c :: more, ended)

def unescape (cs : List Char) : List Char × Bool := unescapeFrom cs.length cs

def echoed (arguments : List (List Char)) : List Char :=
  let (arguments, lineEnd) := match arguments with
    | ['-', 'n'] :: rest => (rest, [])
    | arguments => (arguments, ['\n'])
  let (cs, ended) := unescape ([' '].intercalate arguments)
  if ended then cs else cs ++ lineEnd

inductive Piece
  | plain (cs : List Char)
  | conversion (kind : Char)
  deriving DecidableEq, Repr

def isFormatFlag (c : Char) : Bool :=
  c == '#' || c == '-' || c == '+' || c == ' ' || c == '.' || Text.isAsciiDigit c

def piecesFrom : Nat → List Char → List Piece
  | 0, _ => []
  | _, [] => []
  | n + 1, '\\' :: rest =>
      let (cs, after) := printedEscape false rest
      .plain cs :: piecesFrom n after
  | n + 1, '%' :: '%' :: rest => .plain ['%'] :: piecesFrom n rest
  | n + 1, '%' :: rest =>
      match rest.dropWhile isFormatFlag with
      | [] => []
      | kind :: after => .conversion kind :: piecesFrom n after
  | n + 1, c :: rest => .plain [c] :: piecesFrom n rest

def integerText (cs : List Char) : List Char :=
  let (sign, digits) := match cs with
    | '-' :: ds => (['-'], ds)
    | ds => ([], ds)
  let n := Text.decimal (digits.takeWhile Text.isAsciiDigit)
  if n = 0 then ['0'] else sign ++ (toString n).toList

def converted (kind : Char) (argument : List Char) : List Char :=
  match kind with
  | 'd' | 'i' | 'u' => integerText argument
  | 'c' => argument.take 1
  | 'b' => (unescape argument).1
  | _ => argument

def formatOnce : List Piece → List (List Char) → List Char × List (List Char)
  | [], arguments => ([], arguments)
  | .plain cs :: ps, arguments =>
      let (more, rest) := formatOnce ps arguments
      (cs ++ more, rest)
  | .conversion kind :: ps, arguments =>
      let (more, rest) := formatOnce ps arguments.tail
      (converted kind (arguments.headD []) ++ more, rest)

def formatFrom (pieces : List Piece) : Nat → List (List Char) → List Char
  | 0, _ => []
  | n + 1, arguments =>
      let (cs, rest) := formatOnce pieces arguments
      if rest = [] ∨ rest.length = arguments.length then cs else cs ++ formatFrom pieces n rest

def formatted (format : List Char) (arguments : List (List Char)) : List Char :=
  formatFrom (piecesFrom format.length format) (arguments.length + 1) arguments

end Lintel.Script
