import Lintel.Glob.Expand
import Lintel.Proofs.Glob.Groups
import Lintel.Proofs.Glob.Indexed

/-!
# Scans without missteps

The test for glob syntax, the rewriting of groups and the cut behind the literal parts, written as
scans by position, pass every check on every text, end within as many rounds as the text has
characters and one more, and give the answers of the scans of lists.
-/
namespace Lintel.Glob

theorem isGlobFrom_cons {c : Char} (hc : c ≠ '\\') (before rest : List Char) :
    isGlobFrom before (c :: rest) =
      (startsGlob before c rest || isGlobFrom (c :: before) rest) := by
  rw [isGlobFrom]
  · exact fun h _ => hc h
  · exact fun _ _ h _ => hc h

namespace Indexed

/-! ## Glob syntax -/

def startsAt (cs : List Char) (i : Nat) (c : Char) : Checked Bool :=
  match c with
  | '*' | '?' => .ok true
  | '[' => do
      match ← findClosing '[' ']' cs i with
      | some close => .ok (decide (i + 1 < close))
      | none => .ok false
  | '{' => do
      match ← findClosing '{' '}' cs i with
      | some close => topLevel ',' 0 false (← slice cs (i + 1) close)
      | none => .ok false
  | '(' => do
      if ← opensAt cs i then .ok (← findClosing '(' ')' cs i).isSome else .ok false
  | _ => .ok false

theorem startsAt_append (before : List Char) (c : Char) (rest : List Char) :
    startsAt (before ++ c :: rest) before.length c = .ok (startsGlob before.reverse c rest) := by
  unfold startsAt startsGlob
  split
  · rfl
  · rfl
  · rw [findClosing_append brackets_delimit, ok_bind]
    cases enclosed '[' ']' 0 rest with
    | none => rfl
    | some found =>
      cases hbody : found.1 <;> simp [closerAt, hbody]
  · rw [findClosing_append braces_delimit, ok_bind]
    cases hfound : enclosed '{' '}' 0 rest with
    | none => rfl
    | some found =>
      simp only [closerAt, Option.map_some, slice_enclosed hfound before, ok_bind,
        topLevel_of_enclosed hfound ',']
  · rw [opensAt_append, ok_bind, findClosing_append parens_delimit, ok_bind]
    cases opensGroup before.reverse with
    | false => rfl
    | true => cases enclosed '(' ')' 0 rest <;> rfl
  · simp_all

def globRound (cs : List Char) (i : Nat) : Checked (Round Nat Bool) :=
  if i < cs.length then do
    let c ← itemAt cs i
    if c = '\\' then .ok (.again (i + 2))
    else if ← startsAt cs i c then .ok (.done true)
    else .ok (.again (i + 1))
  else .ok (.done false)

def isGlob (cs : List Char) : Checked Bool := loop (globRound cs) (cs.length + 1) 0

inductive Looks (cs : List Char) : Nat → Bool → Prop
  | inside {i : Nat} (before rest : List Char) {a : Bool} (hcs : cs = before ++ rest)
      (hi : before.length = i) (ha : isGlobFrom before.reverse rest = a) : Looks cs i a
  | past {i : Nat} (hi : cs.length ≤ i) : Looks cs i false

theorem globRound_past {cs : List Char} {i : Nat} (h : cs.length ≤ i) :
    globRound cs i = .ok (.done false) := by
  rw [globRound, if_neg (Nat.not_lt_of_le h)]

theorem globRound_append (before : List Char) (c : Char) (rest : List Char) :
    globRound (before ++ c :: rest) before.length =
      if c = '\\' then .ok (.again (before.length + 2))
      else if startsGlob before.reverse c rest then .ok (.done true)
      else .ok (.again (before.length + 1)) := by
  simp only [globRound, itemAt_append, ok_bind, startsAt_append]
  rw [if_pos (by simp)]

theorem globRound_advances (cs : List Char) :
    Advances (globRound cs) (Looks cs) fun i => cs.length - i := by
  intro i a h
  cases h with
  | inside before rest hcs hi ha =>
    subst hcs hi
    rcases rest with _ | ⟨c, rest⟩
    · rw [isGlobFrom] at ha
      subst ha
      exact .inl (globRound_past (by simp))
    · have hlength : (before ++ c :: rest).length = before.length + (rest.length + 1) :=
        List.length_append
      rw [globRound_append]
      by_cases hescape : c = '\\'
      · rw [if_pos hescape]
        refine .inr ⟨_, rfl, ?_, by dsimp only; omega⟩
        subst hescape
        rcases rest with _ | ⟨d, rest⟩
        · rw [isGlobFrom] at ha
          subst ha
          exact .past (by simp)
        · rw [isGlobFrom] at ha
          exact .inside (before ++ ['\\', d]) rest (by simp) (by simp) (by simpa using ha)
      · rw [if_neg hescape]
        rw [isGlobFrom_cons hescape] at ha
        cases hstarts : startsGlob before.reverse c rest with
        | true =>
          rw [hstarts, Bool.true_or] at ha
          subst ha
          exact .inl rfl
        | false =>
          rw [hstarts, Bool.false_or] at ha
          refine .inr ⟨_, rfl, ?_, by dsimp only; omega⟩
          exact .inside (before ++ [c]) rest (by simp) (by simp) (by simpa using ha)
  | past hi => exact .inl (globRound_past hi)

theorem isGlob_eq (cs : List Char) : isGlob cs = .ok (isGlobFrom [] cs) := by
  apply loop_eq_ok (globRound_advances cs) (.inside [] cs rfl rfl rfl)
  omega

/-! ## Groups -/

/-- The text written so far, the position reached, and the position of the character that the last
round copied, if it copied one alone. -/
structure Copy where
  out : List Char
  position : Nat
  copied : Option Nat

def Copy.takeBack (s : Copy) (op : Char) : Checked (List Char) :=
  if s.copied = some (s.position - 1) ∧ s.out.getLast? = some op then .ok s.out.dropLast
  else .error .notPushed

def groupClosing (cs : List Char) (i : Nat) (c : Char) : Checked (Option Nat) :=
  if c = '(' then do
    if ← opensAt cs i then findClosing '(' ')' cs i else .ok none
  else .ok none

def copyRound (cs : List Char) (s : Copy) : Checked (Round Copy (Except Char (List Char))) :=
  let i := s.position
  if i < cs.length then do
    let c ← itemAt cs i
    if c = '\\' then do
      let pair ← slice cs i (min (i + 2) cs.length)
      .ok (.again ⟨s.out ++ pair, i + 2, none⟩)
    else do
      match ← groupClosing cs i c with
      | some close => do
          let op ← itemAt cs (← minus i 1)
          if op = '@' then do
            let front ← s.takeBack '@'
            let body ← slice cs (i + 1) close
            .ok (.again ⟨front ++ '{' :: barsToCommas 0 body ++ ['}'], close + 1, none⟩)
          else .ok (.done (.error op))
      | none => .ok (.again ⟨s.out ++ [c], i + 1, some i⟩)
  else .ok (.done (.ok s.out))

def rewrite (cs : List Char) : Checked (Except Char (List Char)) :=
  loop (copyRound cs) (cs.length + 1) ⟨[], 0, none⟩

/-- The states of the rewriting: in the text where no group opens, at the parenthesis of a group
whose operator the last round copied, and behind the text. -/
inductive Copies (cs : List Char) : Copy → Except Char (List Char) → Prop
  | inside {i : Nat} (before rest : List Char) {out : List Char} {copied : Option Nat}
      {a : Except Char (List Char)} (hcs : cs = before ++ rest) (hi : before.length = i)
      (hclosed : ∀ inner, rest = '(' :: inner → opensGroup before.reverse = true →
        enclosed '(' ')' 0 inner = none)
      (ha : (rewriteFrom before.getLast? rest).map (out ++ ·) = a) : Copies cs ⟨out, i, copied⟩ a
  | group (before : List Char) (op : Char) (rest : List Char) {out body after : List Char}
      {a : Except Char (List Char)} (hcs : cs = before ++ op :: rest)
      (hgroup : groupAt before.getLast? op rest = some (body, after))
      (ha : (if op = '@' then
          (rewriteFrom (some ')') after).map fun text =>
            out ++ ('{' :: barsToCommas 0 body ++ '}' :: text)
        else .error op) = a) :
      Copies cs ⟨out ++ [op], before.length + 1, some before.length⟩ a
  | past {i : Nat} {out : List Char} {copied : Option Nat} (hi : cs.length ≤ i) :
      Copies cs ⟨out, i, copied⟩ (.ok out)

theorem groupAt_paren (previous : Option Char) (op : Char) (inner : List Char) :
    groupAt previous op ('(' :: inner) =
      if op ∈ groupOperators ∧ previous ≠ some '\\' then enclosed '(' ')' 0 inner else none := by
  rw [groupAt]
  by_cases hop : op ∈ groupOperators ∧ previous ≠ some '\\'
  · rw [if_pos hop, if_pos (by simpa using hop)]
  · rw [if_neg hop, if_neg (by simpa using hop)]

theorem groupClosing_append (before : List Char) (c : Char) (rest : List Char) :
    groupClosing (before ++ c :: rest) before.length c =
      .ok (if c = '(' ∧ opensGroup before.reverse = true then
        closerAt (before.length + 1) (enclosed '(' ')' 0 rest) else none) := by
  by_cases hparen : c = '('
  · subst hparen
    rw [groupClosing, if_pos rfl, opensAt_append, ok_bind, findClosing_append parens_delimit]
    cases opensGroup before.reverse <;> rfl
  · rw [groupClosing, if_neg hparen, if_neg fun h => hparen h.1]

theorem copyRound_past {cs : List Char} {s : Copy} (h : cs.length ≤ s.position) :
    copyRound cs s = .ok (.done (.ok s.out)) := by
  rw [copyRound, if_neg (Nat.not_lt_of_le h)]

theorem copyRound_escape (before rest out : List Char) (copied : Option Nat) :
    copyRound (before ++ '\\' :: rest) ⟨out, before.length, copied⟩ =
      .ok (.again ⟨out ++ '\\' :: rest.take 1, before.length + 2, none⟩) := by
  have hpair : slice (before ++ '\\' :: rest) before.length
      (min (before.length + 2) (before ++ '\\' :: rest).length) = .ok ('\\' :: rest.take 1) := by
    cases rest with
    | nil =>
      have hslice := slice_append before ['\\'] []
      simpa using hslice
    | cons d rest =>
      have hslice := slice_append before ['\\', d] rest
      simpa [Nat.min_eq_left] using hslice
  simp only [copyRound, itemAt_append, ok_bind]
  rw [if_pos (by simp), if_true, hpair, ok_bind]

theorem copyRound_plain {c : Char} (hescape : c ≠ '\\') {before rest : List Char}
    (hclosed : ∀ inner, c :: rest = '(' :: inner → opensGroup before.reverse = true →
      enclosed '(' ')' 0 inner = none) (out : List Char) (copied : Option Nat) :
    copyRound (before ++ c :: rest) ⟨out, before.length, copied⟩ =
      .ok (.again ⟨out ++ [c], before.length + 1, some before.length⟩) := by
  have hnone : (if c = '(' ∧ opensGroup before.reverse = true then
      closerAt (before.length + 1) (enclosed '(' ')' 0 rest) else none) = none := by
    split
    · rename_i hparen
      rw [hclosed rest (by rw [hparen.1]) hparen.2]
      rfl
    · rfl
  simp only [copyRound, itemAt_append, ok_bind, groupClosing_append, hnone]
  rw [if_pos (by simp), if_neg hescape]

theorem takeBack_copied (out : List Char) (op : Char) (i : Nat) :
    Copy.takeBack ⟨out ++ [op], i + 1, some i⟩ op = .ok out := by
  simp [Copy.takeBack]

theorem copyRound_group {before rest out body after : List Char} {op : Char}
    (hgroup : groupAt before.getLast? op rest = some (body, after)) :
    copyRound (before ++ op :: rest) ⟨out ++ [op], before.length + 1, some before.length⟩ =
      if op = '@' then
        .ok (.again ⟨out ++ '{' :: barsToCommas 0 body ++ ['}'], before.length + 3 + body.length,
          none⟩)
      else .ok (.done (.error op)) := by
  obtain ⟨-, rfl⟩ := eq_of_groupAt hgroup
  rw [groupAt_paren] at hgroup
  have hop : op ∈ groupOperators ∧ before.getLast? ≠ some '\\' := by
    by_contra hno
    rw [if_neg hno] at hgroup
    cases hgroup
  rw [if_pos hop] at hgroup
  generalize body ++ ')' :: after = inner at hgroup ⊢
  have hcs : before ++ op :: '(' :: inner = (before ++ [op]) ++ '(' :: inner := by simp
  have hi : before.length + 1 = (before ++ [op]).length := by simp
  have hparen : itemAt (before ++ op :: '(' :: inner) (before.length + 1) = .ok '(' := by
    rw [hcs, hi]
    exact itemAt_append _ _ _
  have hclosing : groupClosing (before ++ op :: '(' :: inner) (before.length + 1) '(' =
      .ok (some (before.length + 2 + body.length)) := by
    rw [hcs, hi, groupClosing_append, if_pos ⟨rfl, (opensGroup_concat before op).2 hop⟩, hgroup]
    simp [closerAt, Nat.add_assoc]
  have hbody : slice (before ++ op :: '(' :: inner) (before.length + 2)
      (before.length + 2 + body.length) = .ok body := by
    have hslice := slice_enclosed hgroup (before ++ [op])
    rwa [← hcs, ← hi] at hslice
  -- the operator is the last character pushed, so it can be taken back
  have hoperator : itemAt (before ++ op :: '(' :: inner) before.length = .ok op :=
    itemAt_append before op ('(' :: inner)
  simp only [copyRound, hparen, ok_bind, hclosing, minus_add, hoperator]
  rw [if_pos (by simp), if_neg (by decide)]
  by_cases hat : op = '@'
  · subst hat
    have hnext : before.length + 2 + body.length + 1 = before.length + 3 + body.length := by omega
    rw [if_pos rfl, if_pos rfl, takeBack_copied, ok_bind, hbody, ok_bind, hnext]
  · rw [if_neg hat, if_neg hat]

theorem Copies.step {before rest out : List Char} {copied : Option Nat}
    {a : Except Char (List Char)} (front : List Char)
    (hclosed : ∀ inner, rest = '(' :: inner → opensGroup (before ++ front).reverse = true →
      enclosed '(' ')' 0 inner = none)
    (ha : ((rewriteFrom (before ++ front).getLast? rest).map (front ++ ·)).map (out ++ ·) = a) :
    Copies (before ++ (front ++ rest)) ⟨out ++ front, before.length + front.length, copied⟩ a := by
  refine .inside (before ++ front) rest (List.append_assoc ..).symm List.length_append hclosed ?_
  rw [← ha]
  cases rewriteFrom (before ++ front).getLast? rest <;> simp [Except.map]

theorem opensGroup_escaped (before : List Char) (d : Char) :
    opensGroup (before ++ ['\\', d]).reverse = false := by
  simp [opensGroup]

theorem opensGroup_closed (before : List Char) : opensGroup (before ++ [')']).reverse = false := by
  rw [← Bool.not_eq_true, opensGroup_concat]
  exact fun h => absurd h.1 (by decide)

theorem Copies.escape {before rest out : List Char} {a : Except Char (List Char)}
    (ha : (rewriteFrom before.getLast? ('\\' :: rest)).map (out ++ ·) = a) :
    Copies (before ++ '\\' :: rest) ⟨out ++ '\\' :: rest.take 1, before.length + 2, none⟩ a := by
  cases rest with
  | nil =>
    rw [rewriteFrom] at ha
    subst ha
    exact .past (by simp)
  | cons d rest =>
    rw [rewriteFrom_escape] at ha
    refine .step ['\\', d] (fun inner _ hopens => ?_) (by simpa using ha)
    rw [opensGroup_escaped] at hopens
    cases hopens

theorem Copies.plain {before rest out : List Char} {c : Char} {a : Except Char (List Char)}
    (hescape : c ≠ '\\') (ha : (rewriteFrom before.getLast? (c :: rest)).map (out ++ ·) = a) :
    Copies (before ++ c :: rest) ⟨out ++ [c], before.length + 1, some before.length⟩ a := by
  cases hgroup : groupAt before.getLast? c rest with
  | some found =>
    rw [rewriteFrom_of_some hescape hgroup] at ha
    refine .group before c rest rfl hgroup ?_
    rw [← ha]
    split
    · cases rewriteFrom (some ')') found.2 <;> rfl
    · rfl
  | none =>
    rw [rewriteFrom_of_none hescape hgroup] at ha
    refine .step [c] (fun inner hinner hopens => ?_) (by simpa using ha)
    rw [opensGroup_concat] at hopens
    rw [hinner, groupAt_paren, if_pos hopens] at hgroup
    exact hgroup

theorem Copies.behind {before body after out : List Char} {a : Except Char (List Char)}
    (ha : (rewriteFrom (some ')') after).map
      (fun text => out ++ ('{' :: barsToCommas 0 body ++ '}' :: text)) = a) :
    Copies (before ++ '@' :: '(' :: (body ++ ')' :: after))
      ⟨out ++ '{' :: barsToCommas 0 body ++ ['}'], before.length + 3 + body.length, none⟩ a := by
  refine .inside (before ++ '@' :: '(' :: body ++ [')']) after (by simp) ?_
    (fun inner _ hopens => ?_) ?_
  · simp only [List.length_append, List.length_cons, List.length_nil]
    omega
  · rw [opensGroup_closed] at hopens
    cases hopens
  · rw [List.getLast?_concat, ← ha]
    cases rewriteFrom (some ')') after <;> simp [Except.map]

theorem copyRound_advances (cs : List Char) :
    Advances (copyRound cs) (Copies cs) fun s => cs.length - s.position := by
  intro s a h
  cases h with
  | @inside i before rest out copied _ hcs hi hclosed ha =>
    subst hcs hi
    rcases rest with _ | ⟨c, rest⟩
    · rw [rewriteFrom] at ha
      subst ha
      rw [copyRound_past (by simp)]
      simp [Except.map]
    · have hlength : (before ++ c :: rest).length = before.length + (rest.length + 1) :=
        List.length_append
      by_cases hescape : c = '\\'
      · subst hescape
        rw [copyRound_escape]
        exact .inr ⟨_, rfl, .escape ha, by dsimp only; omega⟩
      · rw [copyRound_plain hescape hclosed]
        exact .inr ⟨_, rfl, .plain hescape ha, by dsimp only; omega⟩
  | @group before op rest out body after _ hcs hgroup ha =>
    subst hcs
    rw [copyRound_group hgroup]
    by_cases hat : op = '@'
    · subst hat
      rw [if_pos rfl] at ha ⊢
      obtain ⟨-, rfl⟩ := eq_of_groupAt hgroup
      refine .inr ⟨_, rfl, .behind ha, ?_⟩
      simp only [List.length_append, List.length_cons]
      omega
    · rw [if_neg hat] at ha ⊢
      subst ha
      exact .inl rfl
  | past hi => exact .inl (copyRound_past hi)

theorem rewrite_eq (cs : List Char) : rewrite cs = .ok (rewriteGroups cs) := by
  have hstart : Copies cs ⟨[], 0, none⟩ (rewriteGroups cs) := by
    refine .inside [] cs rfl rfl (fun _ _ hopens => ?_) ?_
    · cases hopens
    · rw [rewriteGroups, List.getLast?_nil]
      cases rewriteFrom none cs <;> rfl
  apply loop_eq_ok (copyRound_advances cs) hstart
  dsimp only
  omega

/-! ## Literal parts -/

def splitBase (text : List Char) : Checked (Option (List Char) × List (List Char)) := do
  let parts := Text.pieces (· == '/') text
  let front ← slice parts 0 (← minus parts.length 1)
  let literal := (front.takeWhile isLiteralPart).length
  let base := ['/'].intercalate (← slice parts 0 literal)
  let rest ← slice parts literal parts.length
  if base ≠ [] then .ok (some base, rest)
  else if text.head? = some '/' then .ok (some ['/'], rest)
  else .ok (none, rest)

def rootAt (absolute : Bool) (dir : Path) : Option (List Char) → Path
  | some base => if absolute then ⟨Text.bytes base⟩ else dir.join ⟨Text.bytes base⟩
  | none => dir

theorem splitBase_eq (text : List Char) (pattern : Pattern) (dir : Path) :
    ∃ base, splitBase text = .ok (base, (Search.ofText text pattern).parts) ∧
      (Search.ofText text pattern).root dir =
        rootAt (Search.ofText text pattern).absolute dir base := by
  generalize hs : Search.ofText text pattern = s
  have hparts : s.parts = (Text.pieces (· == '/') text).drop s.literal.length := by rw [← hs]; rfl
  have habsolute : s.absolute = (text.head? == some '/') := by rw [← hs]; rfl
  have hliteral : (Text.pieces (· == '/') text).dropLast.takeWhile isLiteralPart = s.literal := by
    rw [← hs]
    rfl
  have hprefix : s.literal <+: Text.pieces (· == '/') text := by
    rw [← hliteral]
    exact (List.takeWhile_prefix _).trans (List.dropLast_prefix _)
  have hone : minus (Text.pieces (· == '/') text).length 1 =
      .ok ((Text.pieces (· == '/') text).length - 1) :=
    if_pos (List.length_pos_iff.2 (Text.pieces_ne_nil _ _))
  simp only [splitBase, hone, ok_bind, slice_zero (Nat.sub_le _ 1), ← List.dropLast_eq_take,
    hliteral, slice_zero hprefix.length_le, ← List.prefix_iff_eq_take.1 hprefix,
    slice_length hprefix.length_le, ← hparts]
  rw [Search.root]
  by_cases hbase : ['/'].intercalate s.literal = []
  · rw [if_neg (not_not_intro hbase), if_pos hbase]
    by_cases hrooted : text.head? = some '/'
    · have htrue : s.absolute = true := by simpa [habsolute] using hrooted
      refine ⟨some ['/'], if_pos hrooted, ?_⟩
      rw [if_pos htrue, rootAt, if_pos htrue]
      rfl
    · have hfalse : ¬ s.absolute = true := by simpa [habsolute] using hrooted
      exact ⟨none, if_neg hrooted, if_neg hfalse⟩
  · exact ⟨_, if_pos hbase, by rw [if_neg hbase, rootAt]⟩

/-! ## Scans of a token -/

/-- No scan of a token makes a misstep, whatever characters it is made of: the search for a closer
at any opener, the look at the operator at any position, the look for a comma between the braces
that were found, and the three scans that use them. -/
theorem scans_without_misstep (token : String) :
    (∀ opener closer, Delimiters opener closer → ∀ before rest,
      token.toList = before ++ opener :: rest →
        findClosing opener closer token.toList before.length =
          .ok (closerAt (before.length + 1) (enclosed opener closer 0 rest))) ∧
    (∀ before rest, token.toList = before ++ rest →
      opensAt token.toList before.length = .ok (opensGroup before.reverse)) ∧
    (∀ before rest close, token.toList = before ++ '{' :: rest →
      findClosing '{' '}' token.toList before.length = .ok (some close) →
        ∃ body, slice token.toList (before.length + 1) close = .ok body ∧
          topLevel ',' 0 false body = .ok (hasTopLevel ',' 0 body)) ∧
    isGlob token.toList = .ok (Glob.isGlob token) ∧
    rewrite token.toList = .ok (rewriteGroups token.toList) ∧
    ∀ pattern dir, ∃ base,
      splitBase token.toList = .ok (base, (Search.ofText token.toList pattern).parts) ∧
      (Search.ofText token.toList pattern).root dir =
        rootAt (Search.ofText token.toList pattern).absolute dir base := by
  refine ⟨fun opener closer hd before rest htoken => ?_, fun before rest htoken => ?_,
    fun before rest close htoken hclose => ?_, isGlob_eq _, rewrite_eq _, splitBase_eq _⟩
  · rw [htoken]
    exact findClosing_append hd before rest
  · rw [htoken]
    exact opensAt_append before rest
  · rw [htoken, findClosing_append braces_delimit, Except.ok.injEq, closerAt,
      Option.map_eq_some_iff] at hclose
    obtain ⟨⟨body, after⟩, hfound, rfl⟩ := hclose
    rw [htoken]
    exact ⟨body, slice_enclosed hfound before, topLevel_of_enclosed hfound ','⟩

def raggedToken : String := "!(a\x7bb,c\x7d\\"

theorem scans_without_misstep_ragged :
    raggedToken.toList = ['!', '(', 'a'] ++ '{' :: ['b', ',', 'c', '}', '\\'] ∧
    findClosing '{' '}' raggedToken.toList 3 = .ok (some 7) ∧
    (∃ body, slice raggedToken.toList 4 7 = .ok body ∧
      topLevel ',' 0 false body = .ok (hasTopLevel ',' 0 body)) ∧
    raggedToken.toList = ['!'] ++ '(' :: ['a', '{', 'b', ',', 'c', '}', '\\'] ∧
    opensAt raggedToken.toList 1 = .ok true ∧
    findClosing '(' ')' raggedToken.toList 1 = .ok none ∧
    isGlob raggedToken.toList = .ok true ∧
    rewrite raggedToken.toList = .ok (rewriteGroups raggedToken.toList) := by
  obtain ⟨hclosing, hopens, hbody, hglob, hrewrite, -⟩ := scans_without_misstep raggedToken
  have hbrace : raggedToken.toList =
      ['!', '(', 'a'] ++ '{' :: ['b', ',', 'c', '}', '\\'] := by decide
  have hparen : raggedToken.toList =
      ['!'] ++ '(' :: ['a', '{', 'b', ',', 'c', '}', '\\'] := by decide
  have hfound := hclosing '{' '}' braces_delimit _ _ hbrace
  exact ⟨hbrace, hfound, hbody _ _ 7 hbrace hfound, hparen, hopens _ _ hparen,
    hclosing '(' ')' parens_delimit _ _ hparen, hglob, hrewrite⟩

end Indexed

end Lintel.Glob
