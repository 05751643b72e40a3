/-!
# Compiled globs

A pattern is a list of tokens. Two stars that fill a component become one token that spans
directories; elsewhere each star stays within its component. Braces hold alternatives and nest.
Reading a pattern fails on the first character that cannot be placed.
-/
namespace Lintel.Glob

inductive Token
  | literal (c : Char)
  | one
  | many
  | leading
  | inner
  | trailing
  | oneOf (negated : Bool) (ranges : List (Char × Char))
  | either (choices : List (List Token))

abbrev Pattern := List Token

inductive PatternFault
  | unclosedClass
  | invalidRange (low high : Char)
  | unopenedAlternates
  | unclosedAlternates
  | danglingEscape
  deriving DecidableEq, Repr

def PatternFault.message : PatternFault → String
  | .unclosedClass => "unclosed character class; missing ']'"
  | .invalidRange low high =>
      "invalid range; '" ++ String.singleton low ++ "' > '" ++ String.singleton high ++ "'"
  | .unopenedAlternates =>
      "unopened alternate group; missing '\x7b' (maybe escape '\x7d' with '[\x7d]'?)"
  | .unclosedAlternates =>
      "unclosed alternate group; missing '\x7d' (maybe escape '\x7b' with '[\x7b]'?)"
  | .danglingEscape => "dangling '\\'"

def extendRange (high : Char) : List (Char × Char) → Except PatternFault (List (Char × Char))
  | [] => .ok [(high, high)]
  | (low, _) :: rest => if high < low then .error (.invalidRange low high)
      else .ok ((low, high) :: rest)

/-- Reads a class up to its bracket: the ranges and the text behind them. A bracket or a dash in
first place stands for itself. The answer is `none` if the class does not close. -/
def classFrom (first inRange : Bool) (ranges : List (Char × Char)) :
    List Char → Except PatternFault (Option (List (Char × Char) × List Char))
  | [] => .ok none
  | c :: rest =>
      if c = ']' ∧ first = false then
        .ok (some ((if inRange then ('-', '-') :: ranges else ranges).reverse, rest))
      else if c = '-' ∧ first = false ∧ inRange = false then classFrom false true ranges rest
      else if inRange then do classFrom false false (← extendRange c ranges) rest
      else classFrom false false ((c, c) :: ranges) rest

theorem length_lt_of_classFrom {first inRange : Bool} {ranges : List (Char × Char)}
    {cs : List Char} {found : List (Char × Char)} {after : List Char}
    (h : classFrom first inRange ranges cs = .ok (some (found, after))) :
    after.length < cs.length := by
  induction cs generalizing first inRange ranges with
  | nil => simp [classFrom] at h
  | cons c rest ih =>
    simp only [classFrom] at h
    split at h
    · simp only [Except.ok.injEq, Option.some.injEq, Prod.mk.injEq] at h
      simp [← h.2]
    · split at h
      · exact Nat.lt_succ_of_lt (ih h)
      · split at h
        · cases he : extendRange c ranges with
          | error e => simp [he, bind, Except.bind] at h
          | ok r => exact Nat.lt_succ_of_lt (ih (by simpa [he, bind, Except.bind] using h))
        · exact Nat.lt_succ_of_lt (ih h)

def readClass (cs : List Char) : Except PatternFault (Option (Token × List Char)) :=
  match cs with
  | '!' :: rest => tokenOf true (classFrom true false [] rest)
  | '^' :: rest => tokenOf true (classFrom true false [] rest)
  | rest => tokenOf false (classFrom true false [] rest)
where
  tokenOf (negated : Bool) :
      Except PatternFault (Option (List (Char × Char) × List Char)) → Except PatternFault (Option (Token × List Char))
    | .error e => .error e
    | .ok none => .ok none
    | .ok (some (ranges, after)) => .ok (some (.oneOf negated ranges, after))

theorem length_lt_of_tokenOf {negated : Bool} {cs : List Char} {t : Token} {after : List Char}
    (h : readClass.tokenOf negated (classFrom true false [] cs) = .ok (some (t, after))) :
    after.length < cs.length := by
  unfold readClass.tokenOf at h
  split at h
  · simp at h
  · simp at h
  · rename_i ranges a hc
    simp only [Except.ok.injEq, Option.some.injEq, Prod.mk.injEq] at h
    exact h.2 ▸ length_lt_of_classFrom hc

theorem length_lt_of_readClass {cs : List Char} {t : Token} {after : List Char}
    (h : readClass cs = .ok (some (t, after))) : after.length < cs.length := by
  unfold readClass at h
  split at h
  · exact Nat.lt_succ_of_lt (length_lt_of_tokenOf h)
  · exact Nat.lt_succ_of_lt (length_lt_of_tokenOf h)
  · exact length_lt_of_tokenOf h

/-- A group of alternatives that is still open: the tokens in front of it and the alternatives
that are complete, both last first. -/
structure OpenGroup where
  before : List Token
  choices : List (List Token)

/-- The state of a reading: the character just read, the tokens of the current alternative, last
first, and the open groups, innermost first. `bracketIsText` is set when a bracket turned out not
to close. -/
structure Reading where
  previous : Option Char
  current : List Token
  groups : List OpenGroup
  bracketIsText : Bool

def Reading.start : Reading := ⟨none, [], [], false⟩

def Reading.push (r : Reading) (c : Char) (ts : List Token) : Reading :=
  { r with previous := some c, current := ts.reverse ++ r.current }

def spanning (atEnd : Bool) : List Token → List Token
  | [] => [if atEnd then .trailing else .inner]
  | .leading :: ts => .leading :: ts
  | .trailing :: ts => .trailing :: ts
  | _ :: ts => (if atEnd then .trailing else .inner) :: ts

/-- Two stars were read. They span directories if they fill a component; the separator behind
them then belongs to them. -/
def Reading.pushStars (r : Reading) (rest : List Char) : Reading × List Char :=
  let plain := (r.push '*' [.many, .many], rest)
  if r.current.isEmpty then
    match rest with
    | [] => (r.push '*' [.leading], [])
    | '/' :: after => (r.push '/' [.leading], after)
    | _ => plain
  else if r.previous ≠ some '/' ∧
      (r.groups.isEmpty ∨ (r.previous ≠ some ',' ∧ r.previous ≠ some '{')) then plain
  else match rest with
    | [] => ({ r with previous := some '*', current := spanning true r.current }, [])
    | '/' :: after => ({ r with previous := some '/', current := spanning false r.current }, after)
    | c :: _ =>
        if (c = ',' ∨ c = '}') ∧ ! r.groups.isEmpty then
          ({ r with previous := some '*', current := spanning true r.current }, rest)
        else plain

theorem length_pushStars_le (r : Reading) (rest : List Char) :
    (r.pushStars rest).2.length ≤ rest.length := by
  unfold Reading.pushStars
  simp only
  repeat' split
  all_goals simp_all

/-- Reads a pattern. With `lenient`, a bracket that does not close is an ordinary character. -/
def readFrom (lenient : Bool) (r : Reading) (cs : List Char) : Except PatternFault Pattern :=
  match cs with
  | [] => if r.groups.isEmpty then .ok r.current.reverse else .error .unclosedAlternates
  | '?' :: rest => readFrom lenient (r.push '?' [.one]) rest
  | '*' :: '*' :: rest => readFrom lenient (r.pushStars rest).1 (r.pushStars rest).2
  | '*' :: rest => readFrom lenient (r.push '*' [.many]) rest
  | ['\\'] => .error .danglingEscape
  | '\\' :: c :: rest => readFrom lenient (r.push c [.literal c]) rest
  | '[' :: rest =>
      if r.bracketIsText then readFrom lenient (r.push '[' [.literal '[']) rest
      else match _h : readClass rest with
        | .error e => .error e
        | .ok (some (t, after)) => readFrom lenient (r.push ']' [t]) after
        | .ok none =>
            if lenient then
              readFrom lenient { r.push '[' [.literal '['] with bracketIsText := true } rest
            else .error .unclosedClass
  | '{' :: rest =>
      readFrom lenient { r with previous := some '{', current := [],
                                groups := ⟨r.current, []⟩ :: r.groups } rest
  | '}' :: rest =>
      match r.groups with
      | [] => .error .unopenedAlternates
      | g :: outer =>
          readFrom lenient { r with previous := some '}', groups := outer,
                                    current := .either (r.current.reverse :: g.choices).reverse
                                      :: g.before } rest
  | ',' :: rest =>
      match r.groups with
      | [] => readFrom lenient (r.push ',' [.literal ',']) rest
      | g :: outer =>
          readFrom lenient { r with previous := some ',', current := [],
                                    groups := ⟨g.before, r.current.reverse :: g.choices⟩
                                      :: outer } rest
  | c :: rest => readFrom lenient (r.push c [.literal c]) rest
termination_by cs.length
decreasing_by
  all_goals simp_wf
  all_goals try (have hlt := length_pushStars_le r rest)
  all_goals try (have hlt := length_lt_of_readClass _h)
  all_goals omega

def Pattern.read (cs : List Char) : Except PatternFault Pattern := readFrom false .start cs

def Pattern.readLenient (cs : List Char) : Except PatternFault Pattern := readFrom true .start cs

end Lintel.Glob
