import Lintel.Text.Pieces

/-!
# Quoted text in settings

A basic string has double quotes and replaces escapes; a literal string has single quotes and keeps
every character. With its quotes written three times a string may run over several lines: a line
end right behind the opening quotes is dropped, each other one counts as a line feed, and up to two
quotes may stand right before the closing ones.
-/
namespace Lintel.Toml

def isPlain (c : Char) : Bool := c == '\t' || (' ' ≤ c && c != '\x7f')

def isGap (c : Char) : Bool := c == ' ' || c == '\t'

def hexValue? (c : Char) : Option Nat :=
  if '0' ≤ c ∧ c ≤ '9' then some (c.toNat - 48)
  else if 'a' ≤ c ∧ c ≤ 'f' then some (c.toNat - 87)
  else if 'A' ≤ c ∧ c ≤ 'F' then some (c.toNat - 55)
  else none

def codePoint? (digits : List Char) : Option Char := do
  let n := (← digits.mapM hexValue?).foldl (· * 16 + ·) 0
  if n.isValidChar then some (Char.ofNat n) else none

def simpleEscape? : Char → Option Char
  | 'b' => some '\x08'
  | 't' => some '\t'
  | 'n' => some '\n'
  | 'f' => some '\x0c'
  | 'r' => some '\r'
  | '"' => some '"'
  | '\\' => some '\\'
  | _ => none

def escape? : List Char → Option (Char × List Char)
  | 'u' :: a :: b :: c :: d :: rest => (codePoint? [a, b, c, d]).map (·, rest)
  | 'U' :: a :: b :: c :: d :: e :: f :: g :: h :: rest =>
      (codePoint? [a, b, c, d, e, f, g, h]).map (·, rest)
  | e :: rest => (simpleEscape? e).map (·, rest)
  | [] => none

theorem length_lt_of_escape? {cs rest : List Char} {c : Char} (h : escape? cs = some (c, rest)) :
    rest.length < cs.length := by
  unfold escape? at h
  split at h
  · obtain ⟨_, _, he⟩ := Option.map_eq_some_iff.1 h
    cases he
    simp only [List.length_cons]
    omega
  · obtain ⟨_, _, he⟩ := Option.map_eq_some_iff.1 h
    cases he
    simp only [List.length_cons]
    omega
  · obtain ⟨_, _, he⟩ := Option.map_eq_some_iff.1 h
    cases he
    simp
  · simp at h

def basicBody (cs : List Char) : Option (List Char × List Char) :=
  match cs with
  | [] => none
  | '"' :: rest => some ([], rest)
  | '\\' :: after =>
      match _h : escape? after with
      | none => none
      | some (c, rest) => (basicBody rest).map fun (s, r) => (c :: s, r)
  | c :: rest => if isPlain c then (basicBody rest).map fun (s, r) => (c :: s, r) else none
termination_by cs.length
decreasing_by
  · have := length_lt_of_escape? _h
    simp only [List.length_cons]
    omega
  · simp

def endsLine (cs : List Char) : Bool :=
  match cs.dropWhile isGap with
  | '\n' :: _ | '\r' :: '\n' :: _ => true
  | _ => false

/-- Reads a basic string of several lines behind its opening quotes. A backslash at the end of a
line starts skipping: line ends and blanks are dropped up to the next other character. -/
def longBasicBody (skipping : Bool) (cs : List Char) : Option (List Char × List Char) :=
  match cs with
  | [] => none
  | '"' :: '"' :: '"' :: '"' :: '"' :: rest => some (['"', '"'], rest)
  | '"' :: '"' :: '"' :: '"' :: rest => some (['"'], rest)
  | '"' :: '"' :: '"' :: rest => some ([], rest)
  | '\r' :: '\n' :: rest =>
      if skipping then longBasicBody true rest
      else (longBasicBody false rest).map fun (s, r) => ('\n' :: s, r)
  | '\n' :: rest =>
      if skipping then longBasicBody true rest
      else (longBasicBody false rest).map fun (s, r) => ('\n' :: s, r)
  | '\\' :: after =>
      if endsLine after then longBasicBody true after
      else match _h : escape? after with
        | none => none
        | some (c, rest) => (longBasicBody false rest).map fun (s, r) => (c :: s, r)
  | c :: rest =>
      if skipping && isGap c then longBasicBody true rest
      else if isPlain c then (longBasicBody false rest).map fun (s, r) => (c :: s, r)
      else none
termination_by cs.length
decreasing_by
  all_goals simp only [List.length_cons]
  all_goals first
    | omega
    | (have hlt := length_lt_of_escape? _h
       omega)

def literalBody : List Char → Option (List Char × List Char)
  | [] => none
  | '\'' :: rest => some ([], rest)
  | c :: rest => if isPlain c then (literalBody rest).map fun (s, r) => (c :: s, r) else none

def longLiteralBody : List Char → Option (List Char × List Char)
  | [] => none
  | '\'' :: '\'' :: '\'' :: '\'' :: '\'' :: rest => some (['\'', '\''], rest)
  | '\'' :: '\'' :: '\'' :: '\'' :: rest => some (['\''], rest)
  | '\'' :: '\'' :: '\'' :: rest => some ([], rest)
  | '\r' :: '\n' :: rest => (longLiteralBody rest).map fun (s, r) => ('\n' :: s, r)
  | '\n' :: rest => (longLiteralBody rest).map fun (s, r) => ('\n' :: s, r)
  | c :: rest => if isPlain c then (longLiteralBody rest).map fun (s, r) => (c :: s, r) else none

def dropLineEnd : List Char → List Char
  | '\n' :: rest => rest
  | '\r' :: '\n' :: rest => rest
  | cs => cs

def shortString? : List Char → Option (String × List Char)
  | '"' :: rest => (basicBody rest).map fun (s, r) => (String.ofList s, r)
  | '\'' :: rest => (literalBody rest).map fun (s, r) => (String.ofList s, r)
  | _ => none

def string? : List Char → Option (String × List Char)
  | '"' :: '"' :: '"' :: rest =>
      (longBasicBody false (dropLineEnd rest)).map fun (s, r) => (String.ofList s, r)
  | '\'' :: '\'' :: '\'' :: rest =>
      (longLiteralBody (dropLineEnd rest)).map fun (s, r) => (String.ofList s, r)
  | cs => shortString? cs

end Lintel.Toml
