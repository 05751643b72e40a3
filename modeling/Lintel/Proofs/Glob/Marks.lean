import Lintel.Glob.Token
import Lintel.Proofs.Glob.Balance

/-!
# What the characters of a pattern stand for

A pattern is a text of marks. An escape and the character it covers are one mark, and so is a whole
class. Which of the other characters are brackets and separators depends on the bracket they stand
in: a comma divides the alternatives of braces, and a bar those of a group. Inside a group further
parentheses are text that has to balance, and a bar between them divides nothing. An operator opens
a group where its parenthesis closes again. Without groups the same reading tells the marks of a
plain glob.
-/
namespace Lintel.Glob

inductive Mark
  | plain (c : Char)
  | escaped (c : Char)
  | one
  | star
  | bracket (t : Token)
  | opening (isGroup : Bool)
  | dividing
  | closing

def Mark.braced : Mark → Mark
  | .opening _ => .opening false
  | m => m

def Mark.endsAlternative : Mark → Bool
  | .dividing | .closing => true
  | _ => false

/-- A bracket that is open: braces, or a group with the parentheses that are open in it. -/
inductive Bracket
  | brace
  | group (parens : Nat)

abbrev openBraces (n : Nat) : List Bracket := List.replicate n .brace

namespace Bracket

def nest : List Bracket → List Bracket
  | [] => []
  | .brace :: outer => .brace :: nest outer
  | .group parens :: outer => .group (parens + 1) :: outer

def unnest : List Bracket → List Bracket
  | [] => []
  | .brace :: outer => .brace :: unnest outer
  | .group parens :: outer => .group (parens - 1) :: outer

end Bracket

/-- The mark of a character that starts no escape, class or group, and the brackets open behind it.
Braces that were never opened do not close. -/
def markOf (opened : List Bracket) (c : Char) : Option (Mark × List Bracket) :=
  match c, opened with
  | '?', _ => some (.one, opened)
  | '*', _ => some (.star, opened)
  | '{', _ => some (.opening false, .brace :: opened)
  | '}', .brace :: outer => some (.closing, outer)
  | '}', _ => none
  | ',', .brace :: _ => some (.dividing, opened)
  | '|', .group 0 :: _ => some (.dividing, opened)
  | ')', .group 0 :: outer => some (.closing, outer)
  | ')', _ => some (.plain ')', Bracket.unnest opened)
  | '(', _ => some (.plain '(', Bracket.nest opened)
  | _, _ => some (.plain c, opened)

def closes (parens : Nat) (cs : List Char) : Bool :=
  match cs with
  | [] => false
  | ['\\'] => false
  | '\\' :: _ :: rest => closes parens rest
  | '[' :: rest =>
      match _h : readClass rest with
      | .ok (some (_, after)) => closes parens after
      | _ => false
  | '(' :: rest => closes (parens + 1) rest
  | ')' :: rest =>
      match parens with
      | 0 => true
      | n + 1 => closes n rest
  | _ :: rest => closes parens rest
termination_by cs.length
decreasing_by
  all_goals simp_wf
  all_goals try (have hlt := length_lt_of_readClass _h)
  all_goals omega

def isOperatorAt (c : Char) (rest : List Char) : Bool :=
  c ∈ groupOperators && rest.head? == some '('

def opensAt (c : Char) (rest : List Char) : Bool := isOperatorAt c rest && closes 0 rest.tail

/-- The marks of a text behind open brackets, with groups read as such if `extended`. There are none
if an escape or a class is not complete, or if a group has an operator other than the at sign. -/
def marks (extended : Bool) (opened : List Bracket) (cs : List Char) : Option (List Mark) :=
  match cs with
  | [] => some []
  | ['\\'] => none
  | '\\' :: c :: rest => (marks extended opened rest).map (.escaped c :: ·)
  | '[' :: rest =>
      match _h : readClass rest with
      | .ok (some (t, after)) => (marks extended opened after).map (.bracket t :: ·)
      | _ => none
  | c :: rest =>
      if extended && opensAt c rest then
        if c = '@' then
          (marks extended (.group 0 :: opened) rest.tail).map (.opening true :: ·)
        else none
      else match markOf opened c with
        | some (m, inner) => (marks extended inner rest).map (m :: ·)
        | none => none
termination_by cs.length
decreasing_by
  all_goals simp_wf
  all_goals try (have hlt := length_lt_of_readClass _h)
  all_goals omega

/-! ## Where a group opens -/

theorem isOperatorAt_of_not_mem {c : Char} (h : c ∉ groupOperators) (rest : List Char) :
    isOperatorAt c rest = false := by
  simp [isOperatorAt, h]

theorem opensAt_of_not_mem {c : Char} (h : c ∉ groupOperators) (rest : List Char) :
    opensAt c rest = false := by
  rw [opensAt, isOperatorAt_of_not_mem h, Bool.false_and]

theorem isOperatorAt_append {c d : Char} {rest : List Char} (h : isOperatorAt c rest = false)
    (hd : d ≠ '(') (after : List Char) : isOperatorAt c (rest ++ d :: after) = false := by
  cases rest with
  | nil => simp [isOperatorAt, hd]
  | cons e rest => exact h

theorem opensAt_append {c : Char} {rest : List Char} (h : isOperatorAt c rest = false)
    (after : List Char) : opensAt c (rest ++ ')' :: after) = false := by
  rw [opensAt, isOperatorAt_append h (by decide), Bool.false_and]

theorem closes_cons {c : Char} (hunit : c ∉ ['\\', '[']) (hopen : c ≠ '(') (hclose : c ≠ ')')
    (parens : Nat) (rest : List Char) : closes parens (c :: rest) = closes parens rest := by
  simp only [List.mem_cons, List.not_mem_nil, or_false, not_or] at hunit
  rw [closes]
  · exact fun h _ => hunit.1 h
  · exact fun _ _ h _ => hunit.1 h
  · exact hunit.2
  · exact hopen
  · exact hclose

theorem closes_bracket {rest after : List Char} {t : Token} (parens : Nat)
    (h : readClass rest = .ok (some (t, after))) :
    closes parens ('[' :: rest) = closes parens after := by
  rw [closes]
  split
  · rename_i heq
    rw [h] at heq
    simp only [Except.ok.injEq, Option.some.injEq, Prod.mk.injEq] at heq
    rw [heq.2]
  · rename_i hne
    exact absurd h (hne t after)

/-! ## Reading off single marks -/

theorem marks_cons {extended : Bool} {opened : List Bracket} {c : Char} {rest : List Char}
    (hescape : c ≠ '\\') (hclass : c ≠ '[') (hgroup : (extended && opensAt c rest) = false) :
    marks extended opened (c :: rest) =
      (markOf opened c).bind fun (m, inner) => (marks extended inner rest).map (m :: ·) := by
  rw [marks, hgroup]
  · cases markOf opened c <;> rfl
  · exact fun h _ => hescape h
  · exact fun _ _ h _ => hescape h
  · exact hclass

theorem marks_of_markOf {extended : Bool} {opened inner : List Bracket} {c : Char}
    {rest : List Char} {m : Mark} (hescape : c ≠ '\\') (hclass : c ≠ '[')
    (hgroup : (extended && opensAt c rest) = false) (hmark : markOf opened c = some (m, inner)) :
    marks extended opened (c :: rest) = (marks extended inner rest).map (m :: ·) := by
  rw [marks_cons hescape hclass hgroup, hmark]
  rfl

theorem marks_escaped (extended : Bool) (opened : List Bracket) (c : Char) (rest : List Char) :
    marks extended opened ('\\' :: c :: rest) =
      (marks extended opened rest).map (.escaped c :: ·) := by
  rw [marks]

theorem marks_bracket {rest after : List Char} {t : Token} (extended : Bool)
    (opened : List Bracket) (h : readClass rest = .ok (some (t, after))) :
    marks extended opened ('[' :: rest) = (marks extended opened after).map (.bracket t :: ·) := by
  rw [marks]
  split
  · rename_i heq
    rw [h] at heq
    simp only [Except.ok.injEq, Option.some.injEq, Prod.mk.injEq] at heq
    rw [heq.1, heq.2]
  · rename_i hne
    exact absurd h (hne t after)

theorem marks_group {rest : List Char} (opened : List Bracket) (h : opensAt '@' rest = true) :
    marks true opened ('@' :: rest) =
      (marks true (.group 0 :: opened) rest.tail).map (.opening true :: ·) := by
  rw [marks]
  · simp [h]
  all_goals simp

theorem markOf_slash (opened : List Bracket) :
    markOf opened '/' = some (.plain '/', opened) := by
  simp [markOf]

theorem eq_slash_of_markOf {opened inner : List Bracket} {c : Char}
    (h : markOf opened c = some (.plain '/', inner)) : c = '/' := by
  unfold markOf at h
  split at h <;> simp_all

theorem eq_star_of_markOf {opened inner : List Bracket} {c : Char}
    (h : markOf opened c = some (.star, inner)) : c = '*' := by
  unfold markOf at h
  split at h <;> simp_all

theorem markOf_endsAlternative {n : Nat} {c : Char} {m : Mark} {inner : List Bracket}
    (h : markOf (openBraces n) c = some (m, inner)) :
    m.endsAlternative = true ↔ (c = ',' ∨ c = '}') ∧ n ≠ 0 := by
  unfold markOf at h
  split at h <;> simp only [Option.some.injEq, Prod.mk.injEq, reduceCtorEq] at h
  all_goals obtain ⟨rfl, -⟩ := h
  all_goals cases n <;> simp_all [Mark.endsAlternative, List.replicate_succ]

theorem markOf_text {c : Char} (hc : c ∉ ['(', ')', '{', '}', '|', ',']) :
    ∃ m : Mark, m.braced = m ∧ ∀ opened, markOf opened c = some (m, opened) := by
  simp only [List.mem_cons, List.not_mem_nil, or_false, not_or] at hc
  by_cases hone : c = '?'
  · exact ⟨.one, rfl, fun opened => by simp [markOf, hone]⟩
  · by_cases hstar : c = '*'
    · exact ⟨.star, rfl, fun opened => by simp [markOf, hstar]⟩
    · refine ⟨.plain c, rfl, fun opened => ?_⟩
      unfold markOf
      split <;> simp_all

@[simp] theorem Bracket.nest_openBraces (n : Nat) : Bracket.nest (openBraces n) = openBraces n := by
  induction n with
  | zero => rfl
  | succ n ih => rw [openBraces, List.replicate_succ, Bracket.nest, ih]

@[simp] theorem Bracket.unnest_openBraces (n : Nat) :
    Bracket.unnest (openBraces n) = openBraces n := by
  induction n with
  | zero => rfl
  | succ n ih => rw [openBraces, List.replicate_succ, Bracket.unnest, ih]

theorem head_of_marks {n : Nat} {c : Char} {rest : List Char} {ms : List Mark}
    (h : marks false (openBraces n) (c :: rest) = some ms) :
    ∃ m ms', ms = m :: ms' ∧ (m = .plain '/' → c = '/') ∧ (m = .star → c = '*') ∧
      (m.endsAlternative = true ↔ (c = ',' ∨ c = '}') ∧ n ≠ 0) := by
  by_cases hescape : c = '\\'
  · subst hescape
    cases rest with
    | nil => simp [marks] at h
    | cons d rest =>
      rw [marks_escaped, Option.map_eq_some_iff] at h
      obtain ⟨ms', -, rfl⟩ := h
      exact ⟨_, ms', rfl, by simp [Mark.endsAlternative]⟩
  · by_cases hclass : c = '['
    · subst hclass
      rw [marks] at h
      split at h
      · rename_i t after _
        obtain ⟨ms', -, rfl⟩ := Option.map_eq_some_iff.1 h
        exact ⟨_, ms', rfl, by simp [Mark.endsAlternative]⟩
      · cases h
    · rw [marks_cons hescape hclass rfl, Option.bind_eq_some_iff] at h
      obtain ⟨⟨m, inner⟩, hmark, h⟩ := h
      obtain ⟨ms', -, rfl⟩ := Option.map_eq_some_iff.1 h
      exact ⟨m, ms', rfl, fun hm => eq_slash_of_markOf (hm ▸ hmark),
        fun hm => eq_star_of_markOf (hm ▸ hmark), markOf_endsAlternative hmark⟩

end Lintel.Glob
