import Lintel.Version.Coerce
import Lintel.Proofs.Text.Expression
import Lintel.Proofs.Version.Readers

/-!
# The version that a text announces

A version in free text is what a regular expression finds there: a digit run of bounded length with
no digit on either side, and up to two more runs behind dots. The scan for the first run and the
dots behind it comes to the same, since the expression has no choice: a run has to be taken whole,
or a digit would be left at its end.
-/
namespace Lintel.Version

open Text (isDigit isAsciiDigit Stops decimal)
open Text.Expression (Declines ends groupsAt declines_both_option flatMap_ends_group)

/-! ## The scan as a search -/

def digits (n : Nat) : Text.Expression := .group n (.times (.one isDigit) 1 runLimit)

def dotted (n : Nat) : Text.Expression := .option (.both (.one (· == '.')) (digits n))

def close : Text.Expression := .either .finish (.one fun c => !isDigit c)

def continued : Text.Expression := .both (dotted 2) (.both (dotted 3) close)

/-- `(?:^|[^\d])(\d{1,16})(?:\.(\d{1,16}))?(?:\.(\d{1,16}))?(?:$|[^\d])` -/
def expression : Text.Expression :=
  .both (.either .start (.one fun c => !isDigit c)) (.both (digits 1) continued)

def groupNumber? (groups : List (Nat × List Char)) (n : Nat) : Option Nat :=
  match groups.lookup n with
  | none => some 0
  | some run => Text.word64? run

def ofGroups? (groups : List (Nat × List Char)) : Option Version := do
  return ⟨← groupNumber? groups 1, ← groupNumber? groups 2, ← groupNumber? groups 3, []⟩

theorem ofGroups?_one (major : List Char) :
    ofGroups? [(1, major)] = (Text.word64? major).bind fun m => some ⟨m, 0, 0, []⟩ := by
  simp [ofGroups?, groupNumber?, List.lookup_cons]

theorem ofGroups?_two (major minor : List Char) :
    ofGroups? [(2, minor), (1, major)] =
      (Text.word64? major).bind fun m => (Text.word64? minor).bind fun n =>
        some ⟨m, n, 0, []⟩ := by
  simp [ofGroups?, groupNumber?, List.lookup_cons]

theorem ofGroups?_three (major minor patch : List Char) :
    ofGroups? [(3, patch), (2, minor), (1, major)] =
      (Text.word64? major).bind fun m => (Text.word64? minor).bind fun n =>
        (Text.word64? patch).bind fun p => some ⟨m, n, p, []⟩ := by
  simp [ofGroups?, groupNumber?, List.lookup_cons]

def continuedGroups (rest : List Char) (groups : List (Nat × List Char)) :
    List (Nat × List Char) :=
  match dottedRun rest with
  | none => groups
  | some (minor, rest) =>
      match dottedRun rest with
      | none => (2, minor) :: groups
      | some (patch, _) => (3, patch) :: (2, minor) :: groups

def announcedGroups (found : List Char × List Char) : List (Nat × List Char) :=
  continuedGroups found.2 [(1, found.1)]

theorem coerce?_eq_bind (text : List Char) :
    coerce? text = (firstRun false text).bind fun found => ofGroups? (announcedGroups found) := by
  rw [coerce?]
  cases firstRun false text with
  | none => rfl
  | some found =>
    obtain ⟨major, rest⟩ := found
    simp only [announcedGroups, continuedGroups, Option.bind_eq_bind, Option.bind_some]
    cases dottedRun rest with
    | none => simp [ofGroups?_one]
    | some second =>
      obtain ⟨minor, rest⟩ := second
      dsimp only
      cases dottedRun rest with
      | none => simp [ofGroups?_two]
      | some third => simp [ofGroups?_three]

theorem declines_close : Declines isDigit close.ends := by
  intro s hs
  obtain ⟨c, hhead, hc⟩ := (Option.any_eq_true isDigit _).1 hs
  have hrest : s.rest ≠ [] := by
    intro hnil
    simp [hnil] at hhead
  simp [close, ends, hrest, hhead, hc]

theorem declines_dotted (n : Nat) {e : Text.Expression} (he : Declines isDigit e.ends) :
    Declines isDigit (ends (.both (dotted n) e)) := by
  have hdot : ∀ c, isDigit c = true → (c == '.') = false := by
    intro c hc
    by_contra hne
    have hdot : c = '.' := by simpa using hne
    rw [hdot] at hc
    exact absurd hc (by decide)
  exact declines_both_option hdot he

theorem declines_continued : Declines isDigit continued.ends :=
  declines_dotted 2 (declines_dotted 3 declines_close)

theorem groupsAt_close {s : Text.Place} (hs : Stops isDigit s.rest) :
    close.groupsAt s = some s.groups := by
  cases hrest : s.rest with
  | nil => simp [groupsAt, close, ends, hrest]
  | cons c cs =>
    have hc : isDigit c = false := Text.stops_cons.1 (hrest ▸ hs)
    simp [groupsAt, close, ends, hrest, hc]

def headRun (cs : List Char) : Option (List Char × List Char) :=
  if 1 ≤ (cs.takeWhile isDigit).length ∧ (cs.takeWhile isDigit).length ≤ runLimit then
    some (cs.takeWhile isDigit, cs.dropWhile isDigit)
  else none

theorem dottedRun_dot (cs : List Char) : dottedRun ('.' :: cs) = headRun cs := by
  have hlength : cs.takeWhile isDigit = [] ∨ runLimit < (cs.takeWhile isDigit).length ↔
      ¬ (1 ≤ (cs.takeWhile isDigit).length ∧ (cs.takeWhile isDigit).length ≤ runLimit) := by
    rw [← List.length_eq_zero_iff]
    omega
  simp only [dottedRun, headRun, hlength, ite_not]

theorem dottedRun_of_ne_dot {c : Char} (hc : c ≠ '.') (cs : List Char) :
    dottedRun (c :: cs) = none := by
  rw [dottedRun]
  simpa using hc

theorem stops_of_headRun {cs run after : List Char} (h : headRun cs = some (run, after)) :
    Stops isDigit after := by
  rw [headRun, Option.ite_none_right_eq_some, Option.some.injEq, Prod.mk.injEq] at h
  exact h.2.2 ▸ Text.stops_dropWhile cs

theorem stops_of_dottedRun {cs run rest : List Char} (h : dottedRun cs = some (run, rest)) :
    Stops isDigit rest := by
  cases cs with
  | nil => cases h
  | cons c cs =>
    by_cases hc : c = '.'
    · rw [hc, dottedRun_dot] at h
      exact stops_of_headRun h
    · rw [dottedRun_of_ne_dot hc] at h
      cases h

theorem groupsAt_digits (n : Nat) {e : Text.Expression} (he : Declines isDigit e.ends)
    (s : Text.Place) :
    groupsAt (.both (digits n) e) s = (headRun s.rest).bind fun found =>
      e.groupsAt ⟨s.position + found.1.length, found.2, (n, found.1) :: s.groups⟩ := by
  rw [groupsAt, ends, digits, flatMap_ends_group he, headRun]
  split <;> rfl

theorem groupsAt_dotted (n : Nat) {e : Text.Expression} (he : Declines isDigit e.ends)
    (s : Text.Place) :
    groupsAt (.both (dotted n) e) s =
      ((dottedRun s.rest).bind fun found =>
        e.groupsAt ⟨s.position + 1 + found.1.length, found.2, (n, found.1) :: s.groups⟩).or
      (e.groupsAt s) := by
  rw [groupsAt, ends, dotted, ends, List.flatMap_append, List.flatMap_singleton, ends,
    List.flatMap_assoc, List.head?_append, Option.map_or]
  congr 1
  cases hrest : s.rest with
  | nil => simp [ends, hrest, dottedRun]
  | cons c cs =>
    by_cases hc : c = '.'
    · have hnext : ends (.one (· == '.')) s = [s.skip 1] := by simp [ends, hrest, hc]
      have hbehind : (s.skip 1).rest = cs := by simp [hrest]
      rw [hnext, List.flatMap_singleton, hc, dottedRun_dot, ← hbehind]
      exact groupsAt_digits n he (s.skip 1)
    · have hnext : ends (.one (· == '.')) s = [] := by simp [ends, hrest, hc]
      rw [hnext, dottedRun_of_ne_dot hc]
      rfl

theorem groupsAt_continued {s : Text.Place} (hs : Stops isDigit s.rest) :
    continued.groupsAt s = some (continuedGroups s.rest s.groups) := by
  rw [continued, groupsAt_dotted 2 (declines_dotted 3 declines_close), continuedGroups]
  cases hsecond : dottedRun s.rest with
  | none =>
    rw [Option.bind_none, Option.none_or, groupsAt_dotted 3 declines_close, hsecond,
      groupsAt_close hs]
    rfl
  | some second =>
    obtain ⟨minor, rest⟩ := second
    have hstops := stops_of_dottedRun hsecond
    rw [Option.bind_some, groupsAt_dotted 3 declines_close]
    cases hthird : dottedRun rest with
    | none => simp [groupsAt_close, hstops, hthird]
    | some third =>
      obtain ⟨patch, rest⟩ := third
      simp [groupsAt_close, stops_of_dottedRun hthird, hthird]

theorem headRun_cons_of_not_digit {c : Char} (hc : isDigit c = false) (cs : List Char) :
    headRun (c :: cs) = none := by
  simp [headRun, hc]

theorem headRun_cons_of_digit {c : Char} (hc : isDigit c = true) (cs : List Char) :
    headRun (c :: cs) =
      if runLimit < ((c :: cs).takeWhile isDigit).length then none
      else some ((c :: cs).takeWhile isDigit, (c :: cs).dropWhile isDigit) := by
  have hrun : 1 ≤ ((c :: cs).takeWhile isDigit).length := by simp [hc]
  rw [headRun]
  by_cases hlong : runLimit < ((c :: cs).takeWhile isDigit).length
  · rw [if_neg (by omega), if_pos hlong]
  · rw [if_pos ⟨hrun, by omega⟩, if_neg hlong]

theorem firstRun_cons (inRun : Bool) (c : Char) (cs : List Char) :
    firstRun inRun (c :: cs) =
      (if inRun then none else headRun (c :: cs)).or (firstRun (isDigit c) cs) := by
  rw [firstRun]
  cases hc : isDigit c with
  | false => cases inRun <;> simp [headRun_cons_of_not_digit hc]
  | true =>
    rw [headRun_cons_of_digit hc]
    cases inRun with
    | true => simp
    | false => by_cases hlong : runLimit < ((c :: cs).takeWhile isDigit).length <;> simp [hlong]

theorem firstRun_false (cs : List Char) :
    firstRun false cs = (headRun cs).or (firstRun true cs) := by
  cases cs with
  | nil => rfl
  | cons c cs => simp [firstRun_cons]

theorem groupsAt_digits_continued (s : Text.Place) :
    groupsAt (.both (digits 1) continued) s =
      (headRun s.rest).map fun found => continuedGroups found.2 ((1, found.1) :: s.groups) := by
  rw [groupsAt_digits 1 declines_continued]
  cases hhead : headRun s.rest with
  | none => rfl
  | some found => exact groupsAt_continued (stops_of_headRun hhead)

theorem groupsAt_expression (position : Nat) (cs : List Char) :
    expression.groupsAt ⟨position, cs, []⟩ =
      ((if position = 0 then headRun cs else none).or
        (if cs.head?.any fun c => !isDigit c then headRun cs.tail else none)).map
        announcedGroups := by
  rw [expression, groupsAt, ends, ends, List.flatMap_append, List.head?_append, Option.map_or,
    Option.map_or]
  congr 1
  · by_cases hzero : position = 0
    · simp only [ends, hzero, if_true, List.flatMap_singleton]
      exact groupsAt_digits_continued ⟨0, cs, []⟩
    · simp [ends, hzero]
  · cases hfront : cs.head?.any fun c => !isDigit c with
    | false => simp [ends, hfront]
    | true =>
      simp only [ends, hfront, if_true, List.flatMap_singleton, ← List.drop_one]
      exact groupsAt_digits_continued (Text.Place.skip ⟨position, cs, []⟩ 1)

theorem searchFrom_succ (position : Nat) (cs : List Char) :
    expression.searchFrom (position + 1) cs = (firstRun true cs).map announcedGroups := by
  induction cs generalizing position with
  | nil => exact groupsAt_expression (position + 1) []
  | cons c cs ih =>
    rw [Text.Expression.searchFrom, groupsAt_expression, ih, firstRun_cons]
    cases hc : isDigit c with
    | true => simp [hc]
    | false => simp [hc, firstRun_false, Option.map_or]

theorem find_expression (text : List Char) :
    expression.find text = (firstRun false text).map announcedGroups := by
  cases text with
  | nil => exact groupsAt_expression 0 []
  | cons c cs =>
    rw [Text.Expression.find, Text.Expression.searchFrom, groupsAt_expression, searchFrom_succ,
      firstRun_cons, ← Option.map_or]
    cases hc : isDigit c with
    | true => simp [hc]
    | false => simp [hc, firstRun_false, Option.or_assoc]

theorem coerce?_eq_find (text : List Char) :
    coerce? text = (expression.find text).bind ofGroups? := by
  rw [coerce?_eq_bind, find_expression, Option.bind_map]
  rfl

end Lintel.Version
