import Lintel.Proofs.Version.Readers

/-!
# Comparators with commas between them

No part of a comparator can hold a comma, so a reader that meets one stops there whatever comes
after. A requirement that joins texts without commas is read by reading each of the texts alone.
-/
namespace Lintel.Version

def withTail {α : Type} (t : List Char) (x : α × List Char) : α × List Char :=
  (x.1, x.2 ++ ',' :: t)

section Commas

variable (cs t : List Char)

theorem number?_append_comma : number? (cs ++ ',' :: t) = (number? cs).map (withTail t) := by
  have hdigit : number?.isDigit ',' = false := by decide
  simp only [number?, Text.takeWhile_append_cons hdigit, Text.dropWhile_append_cons hdigit]
  split
  · rfl
  · rw [Option.map_map]
    rfl

theorem spanSuffix_append_comma : spanSuffix (cs ++ ',' :: t) = withTail t (spanSuffix cs) := by
  simp only [spanSuffix, List.span_eq_takeWhile_dropWhile]
  rw [Text.takeWhile_append_cons, Text.dropWhile_append_cons]
  · rfl
  all_goals decide

theorem tag?_append_comma : tag? (cs ++ ',' :: t) = (tag? cs).map (withTail t) := by
  simp only [tag?, spanSuffix_append_comma, withTail]
  cases (Text.pieces (· == '.') (spanSuffix cs).1).mapM Identifier.ofText? <;> rfl

theorem optionalTag?_append_comma :
    optionalTag? (cs ++ ',' :: t) = (optionalTag? cs).map (withTail t) := by
  cases cs with
  | nil => rfl
  | cons c cs =>
    by_cases hc : c = '-'
    · subst hc
      exact tag?_append_comma cs t
    · simp [optionalTag?, hc, withTail]

theorem skipBuild?_append_comma :
    skipBuild? (cs ++ ',' :: t) = (skipBuild? cs).map (· ++ ',' :: t) := by
  simp only [skipBuild?, spanSuffix_append_comma, withTail]
  split <;> rfl

theorem skipOptionalBuild?_append_comma :
    skipOptionalBuild? (cs ++ ',' :: t) = (skipOptionalBuild? cs).map (· ++ ',' :: t) := by
  cases cs with
  | nil => rfl
  | cons c cs =>
    by_cases hc : c = '+'
    · subst hc
      exact skipBuild?_append_comma cs t
    · simp [skipOptionalBuild?, hc]

namespace Comparator

theorem skipSpaces_append_comma : skipSpaces (cs ++ ',' :: t) = skipSpaces cs ++ ',' :: t :=
  Text.dropWhile_append_cons (by decide) cs t

theorem readRelation_append_comma :
    readRelation (cs ++ ',' :: t) = withTail t (readRelation cs) := by
  fun_cases readRelation cs with
  | case1 rest => rfl
  | case2 rest => rfl
  | case3 rest hne =>
    cases rest with
    | nil => rfl
    | cons d ds =>
      have hd : d ≠ '=' := fun h => hne ds (by rw [h])
      simp [readRelation, hd, withTail]
  | case4 rest => rfl
  | case5 rest hne =>
    cases rest with
    | nil => rfl
    | cons d ds =>
      have hd : d ≠ '=' := fun h => hne ds (by rw [h])
      simp [readRelation, hd, withTail]
  | case6 rest => rfl
  | case7 rest => rfl
  | case8 h₁ h₂ h₃ h₄ h₅ h₆ h₇ =>
    cases cs with
    | nil => rfl
    | cons c cs =>
      simp only [List.cons.injEq] at *
      simp_all [readRelation, withTail]

theorem part?_append_comma : part? (cs ++ ',' :: t) = (part? cs).map (withTail t) := by
  fun_cases part? cs with
  | case1 c rest hc => simp [part?, hc, withTail]
  | case2 c rest hc =>
    have h := number?_append_comma (c :: rest) t
    rw [List.cons_append] at h
    simp only [List.cons_append, part?, hc, h, Option.map_map]
    rfl
  | case3 => rfl
  | case4 _ h₁ h₂ =>
    cases cs with
    | nil => rfl
    | cons c cs =>
      have hc : c ≠ '.' := by
        intro h'
        subst h'
        cases cs with
        | nil => exact h₂ rfl
        | cons d ds => exact h₁ d ds rfl
      simp [part?, hc, withTail]

theorem read?_append_comma : read? (cs ++ ',' :: t) = (read? cs).map (withTail t) := by
  simp only [read?, readRelation_append_comma, withTail, skipSpaces_append_comma,
    number?_append_comma]
  cases number? (skipSpaces (readRelation cs).2) with
  | none => rfl
  | some major =>
    simp only [Option.map_some, Option.bind_eq_bind, Option.bind_some, part?_append_comma, withTail]
    cases part? major.2 with
    | none => rfl
    | some minor =>
      simp only [Option.map_some, Option.bind_some, part?_append_comma, withTail]
      cases part? minor.2 with
      | none => rfl
      | some patch =>
        obtain ⟨m, afterMinor⟩ := minor
        obtain ⟨p, afterPatch⟩ := patch
        simp only [Option.map_some, Option.bind_some, withTail]
        cases m <;> cases p
        case given.given m p =>
          simp only [optionalTag?_append_comma]
          cases optionalTag? afterPatch with
          | none => rfl
          | some tag =>
            simp only [Option.map_some, Option.bind_some, withTail, skipOptionalBuild?_append_comma]
            cases skipOptionalBuild? tag.2 with
            | none => rfl
            | some rest => simp [skipSpaces_append_comma, withTail]
        all_goals simp [skipSpaces_append_comma, withTail]

end Comparator

end Commas

namespace Comparator

def ofText? (cs : List Char) : Option Comparator :=
  match read? cs with
  | some (c, []) => some c
  | _ => none

theorem ofText?_eq_some_iff {cs : List Char} {c : Comparator} :
    ofText? cs = some c ↔ read? cs = some (c, []) := by
  unfold ofText?
  split
  · next d h => simp [h]
  · next h =>
    constructor
    · intro hc
      cases hc
    · intro hc
      exact absurd hc (h c)

end Comparator

namespace Requirement

open Comparator

def Item (cs : List Char) : Prop :=
  ',' ∉ cs ∧ ∃ c rest, cs = c :: rest ∧ Range.isOperatorChar c = true

theorem item_append {o cs : List Char} (hne : o ≠ [])
    (ho : ∀ d ∈ o, Range.isOperatorChar d = true) (hcs : ',' ∉ cs) : Item (o ++ cs) := by
  obtain ⟨d, ds, rfl⟩ := List.exists_cons_of_ne_nil hne
  refine ⟨?_, d, ds ++ cs, rfl, ho d (List.mem_cons_self ..)⟩
  rw [List.mem_append, not_or]
  exact ⟨fun hmem => absurd (ho _ hmem) (by decide), hcs⟩

theorem skipSpaces_operator {c : Char} (hc : Range.isOperatorChar c = true) (cs : List Char) :
    skipSpaces (c :: cs) = c :: cs := by
  apply List.dropWhile_cons_of_neg
  intro h
  rw [eq_of_beq h] at hc
  revert hc
  decide

theorem isWildcard_of_isOperatorChar {c : Char} (hc : Range.isOperatorChar c = true) :
    isWildcard c = false := by
  by_contra h
  rw [isOperatorChar_of_isVersionChar (isVersionChar_of_isWildcard (by simpa using h))] at hc
  cases hc

theorem comma_notMem_of_read? {cs rest : List Char} {c : Comparator} (hcs : ',' ∉ cs)
    (h : read? cs = some (c, rest)) : ',' ∉ rest := by
  obtain ⟨v, rfl, -⟩ := spelled_of_read? h
  exact fun hmem => hcs (List.mem_append_right _ hmem)

theorem readFrom_item {n : Nat} {cs : List Char} (hcs : ',' ∉ cs) :
    readFrom (n + 1) cs = (ofText? cs).map ([·]) := by
  rw [readFrom, ofText?]
  cases hread : read? cs with
  | none => rfl
  | some x =>
    obtain ⟨c, rest⟩ := x
    have hrest := comma_notMem_of_read? hcs hread
    cases rest with
    | nil => rfl
    | cons d rest =>
      have hd : d ≠ ',' := fun h => hrest (h ▸ List.mem_cons_self ..)
      simp [hd]

theorem readFrom_item_comma {n : Nat} {cs : List Char} (hcs : ',' ∉ cs) (t : List Char) :
    readFrom (n + 1) (cs ++ ',' :: t) =
      (ofText? cs).bind fun c => (readFrom n (skipSpaces t)).map (c :: ·) := by
  rw [readFrom, ofText?, read?_append_comma]
  cases hread : read? cs with
  | none => rfl
  | some x =>
    obtain ⟨c, rest⟩ := x
    have hrest := comma_notMem_of_read? hcs hread
    cases rest with
    | nil => rfl
    | cons d rest =>
      have hd : d ≠ ',' := fun h => hrest (h ▸ List.mem_cons_self ..)
      simp [withTail, hd]

theorem head_intercalate {cs : List Char} (hcs : Item cs) (items : List (List Char)) :
    ∃ c rest, [',', ' '].intercalate (cs :: items) = c :: rest ∧
      Range.isOperatorChar c = true := by
  obtain ⟨-, c, rest, rfl, hc⟩ := hcs
  cases items with
  | nil => exact ⟨c, rest, by simp, hc⟩
  | cons d ds => exact ⟨c, _, by rw [List.intercalate_cons_cons]; rfl, hc⟩

theorem readFrom_intercalate {n : Nat} {items : List (List Char)} (hne : items ≠ [])
    (hitems : ∀ cs ∈ items, Item cs) :
    readFrom n ([',', ' '].intercalate items) =
      if items.length ≤ n then items.mapM ofText? else none := by
  induction items generalizing n with
  | nil => exact absurd rfl hne
  | cons cs items ih =>
    rw [List.forall_mem_cons] at hitems
    cases n with
    | zero => rfl
    | succ n =>
      cases items with
      | nil =>
        rw [List.intercalate_singleton, readFrom_item hitems.1.1]
        cases hc : ofText? cs <;> simp [hc]
      | cons ds items =>
        have hjoin : [',', ' '].intercalate (cs :: ds :: items) =
            cs ++ ',' :: (' ' :: [',', ' '].intercalate (ds :: items)) := by
          simp
        have hspace : skipSpaces (' ' :: [',', ' '].intercalate (ds :: items)) =
            [',', ' '].intercalate (ds :: items) := by
          obtain ⟨c, rest, hhead, hc⟩ :=
            head_intercalate (hitems.2 ds (List.mem_cons_self ..)) items
          rw [hhead]
          exact skipSpaces_operator hc rest
        have hlen : (cs :: ds :: items).length ≤ n + 1 ↔ (ds :: items).length ≤ n := by
          simp
        rw [hjoin, readFrom_item_comma hitems.1.1, hspace, ih (by simp) hitems.2]
        simp only [hlen, List.mapM_cons (l := ds :: items)]
        split
        · cases ofText? cs with
          | none => rfl
          | some c => cases (ds :: items).mapM ofText? <;> rfl
        · cases ofText? cs <;> rfl

theorem parse?_intercalate {items : List (List Char)} (hne : items ≠ [])
    (hitems : ∀ cs ∈ items, Item cs) :
    parse? ([',', ' '].intercalate items) =
      if items.length ≤ limit then items.mapM ofText? else none := by
  rw [← readFrom_intercalate hne hitems]
  obtain ⟨cs, items, rfl⟩ := List.exists_cons_of_ne_nil hne
  obtain ⟨c, rest, hhead, hc⟩ := head_intercalate (hitems cs (List.mem_cons_self ..)) items
  rw [hhead, parse?, skipSpaces_operator hc]
  simp [isWildcard_of_isOperatorChar hc]

end Requirement

end Lintel.Version
