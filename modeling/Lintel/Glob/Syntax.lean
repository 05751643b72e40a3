/-!
# Glob syntax in a token

A command-line token is a glob or the name of a file. It is a glob when it holds a wildcard, a
non-empty bracket, a brace with a top-level comma or an extended group. A backslash and the
character after it are read together and open nothing. Delimiters nest, and one that never closes
is plain text.
-/
namespace Lintel.Glob

/-- The text up to the delimiter that closes the open one, and the text behind that delimiter.
`depth` counts the delimiters opened since. -/
def enclosed (opener closer : Char) : Nat → List Char → Option (List Char × List Char)
  | _, [] => none
  | _, ['\\'] => none
  | depth, '\\' :: c :: rest =>
      (enclosed opener closer depth rest).map fun (body, after) => ('\\' :: c :: body, after)
  | depth, c :: rest =>
      if c = opener then
        (enclosed opener closer (depth + 1) rest).map fun (body, after) => (c :: body, after)
      else if c = closer then
        match depth with
        | 0 => some ([], rest)
        | d + 1 => (enclosed opener closer d rest).map fun (body, after) => (c :: body, after)
      else
        (enclosed opener closer depth rest).map fun (body, after) => (c :: body, after)

theorem enclosed_eq_append {opener closer : Char} {depth : Nat} {cs body after : List Char}
    (h : enclosed opener closer depth cs = some (body, after)) :
    cs = body ++ closer :: after := by
  fun_induction enclosed opener closer depth cs generalizing body after with
  | case1 => simp at h
  | case2 => simp at h
  | case3 depth c rest ih =>
    obtain ⟨⟨b, a⟩, hb, he⟩ := Option.map_eq_some_iff.1 h
    simp only [Prod.mk.injEq] at he
    obtain ⟨rfl, rfl⟩ := he
    simp [ih hb]
  | case4 depth rest _ _ ih =>
    obtain ⟨⟨b, a⟩, hb, he⟩ := Option.map_eq_some_iff.1 h
    simp only [Prod.mk.injEq] at he
    obtain ⟨rfl, rfl⟩ := he
    simp [ih hb]
  | case5 rest _ _ _ =>
    simp only [Option.some.injEq, Prod.mk.injEq] at h
    obtain ⟨rfl, rfl⟩ := h
    simp_all
  | case6 rest d _ _ _ ih =>
    obtain ⟨⟨b, a⟩, hb, he⟩ := Option.map_eq_some_iff.1 h
    simp only [Prod.mk.injEq] at he
    obtain ⟨rfl, rfl⟩ := he
    simp [ih hb]
  | case7 depth c rest _ _ _ _ ih =>
    obtain ⟨⟨b, a⟩, hb, he⟩ := Option.map_eq_some_iff.1 h
    simp only [Prod.mk.injEq] at he
    obtain ⟨rfl, rfl⟩ := he
    simp [ih hb]

theorem length_lt_of_enclosed {opener closer : Char} {depth : Nat} {cs body after : List Char}
    (h : enclosed opener closer depth cs = some (body, after)) : after.length < cs.length := by
  rw [enclosed_eq_append h]
  simp
  omega

def hasTopLevel (needle : Char) : Nat → List Char → Bool
  | _, [] => false
  | _, ['\\'] => false
  | depth, '\\' :: _ :: rest => hasTopLevel needle depth rest
  | depth, c :: rest =>
      if c = '{' then hasTopLevel needle (depth + 1) rest
      else if c = '}' then hasTopLevel needle (depth - 1) rest
      else (c == needle && depth == 0) || hasTopLevel needle depth rest

def groupOperators : List Char := ['@', '!', '+', '*', '?']

/-- Whether a parenthesis opens an extended group, by the characters before it, nearest first. -/
def opensGroup : List Char → Bool
  | [] => false
  | [op] => op ∈ groupOperators
  | op :: c :: _ => op ∈ groupOperators && c != '\\'

def startsGlob (before : List Char) (c : Char) (rest : List Char) : Bool :=
  match c with
  | '*' | '?' => true
  | '[' => match enclosed '[' ']' 0 rest with
      | some (body, _) => body != []
      | none => false
  | '{' => match enclosed '{' '}' 0 rest with
      | some (body, _) => hasTopLevel ',' 0 body
      | none => false
  | '(' => opensGroup before && (enclosed '(' ')' 0 rest).isSome
  | _ => false

def isGlobFrom (before : List Char) : List Char → Bool
  | [] => false
  | ['\\'] => false
  | '\\' :: c :: rest => isGlobFrom (c :: '\\' :: before) rest
  | c :: rest => startsGlob before c rest || isGlobFrom (c :: before) rest

def isGlob (token : String) : Bool := isGlobFrom [] token.toList

end Lintel.Glob
