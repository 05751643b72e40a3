import Lintel.Glob.Group
import Lintel.Proofs.Glob.Classes
import Lintel.Proofs.Glob.Spelled

/-!
# Copied group bodies

The body of a group is copied between braces, and its bars outside parentheses become commas. The
copy has the marks of the body where the body has no group of its own, where its parentheses and
braces are balanced apart from classes and escapes, and where a comma stands only inside braces and
a bar only where it divides or inside parentheses.
-/
namespace Lintel.Glob

def classText (rest after : List Char) : List Char := rest.take (rest.length - (after.length + 1))

@[simp] theorem classText_append (inner after : List Char) :
    classText (inner ++ ']' :: after) after = inner :=
  List.take_left' (by simp)

def isCounted (parens : Nat) (c : Char) : Bool :=
  c == '(' || c == ')' || (c == '|' && parens == 0)

/-- Whether a group body means the same in braces when its bars outside parentheses are made commas.
`parens` and `braces` are open in front of it. -/
def copiesBody (parens braces : Nat) (cs : List Char) : Bool :=
  match cs with
  | [] => parens == 0 && braces == 0
  | ['\\'] => false
  | '\\' :: c :: rest => ! isCounted parens c && copiesBody parens braces rest
  | '[' :: rest =>
      match _h : readClass rest with
      | .ok (some (_, after)) =>
          (classText rest after).all (! isCounted parens ·) && copiesBody parens braces after
      | _ => false
  | '(' :: rest => copiesBody (parens + 1) braces rest
  | ')' :: rest => parens != 0 && copiesBody (parens - 1) braces rest
  | '{' :: rest => copiesBody parens (braces + 1) rest
  | '}' :: rest => braces != 0 && copiesBody parens (braces - 1) rest
  | ',' :: rest => braces != 0 && copiesBody parens braces rest
  | '|' :: rest => (parens != 0 || braces == 0) && copiesBody parens braces rest
  | c :: rest => ! isOperatorAt c rest && copiesBody parens braces rest
termination_by cs.length
decreasing_by
  all_goals simp_wf
  all_goals try (have hlt := length_lt_of_readClass _h)
  all_goals omega

/-! ## The marks of a copy -/

def SameMarks (found found' : Option (List Mark)) : Prop :=
  found.map (·.map Mark.braced) = found'

theorem SameMarks.cons {found found' : Option (List Mark)} (h : SameMarks found found')
    {m m' : Mark} (hm : m.braced = m') :
    SameMarks (found.map (m :: ·)) (found'.map (m' :: ·)) := by
  rw [SameMarks] at h ⊢
  rw [← h, ← hm, Option.map_map, Option.map_map]
  rfl

theorem SameMarks.step {opened opened' inner inner' : List Bracket} {c c' : Char}
    {rest rest' : List Char} {m m' : Mark}
    (h : SameMarks (marks true inner rest) (marks false inner' rest'))
    (hc : c ∉ ['\\', '[']) (hc' : c' ∉ ['\\', '[']) (hgroup : opensAt c rest = false)
    (hmark : markOf opened c = some (m, inner)) (hmark' : markOf opened' c' = some (m', inner'))
    (hm : m.braced = m') :
    SameMarks (marks true opened (c :: rest)) (marks false opened' (c' :: rest')) := by
  simp only [List.mem_cons, List.not_mem_nil, or_false, not_or] at hc hc'
  rw [marks_of_markOf hc.1 hc.2 (by rw [Bool.true_and, hgroup]) hmark,
    marks_of_markOf hc'.1 hc'.2 rfl hmark']
  exact h.cons hm

theorem barsToCommas_cons {parens : Nat} {c : Char} (h : isCounted parens c = false)
    (rest : List Char) : barsToCommas parens (c :: rest) = c :: barsToCommas parens rest := by
  simp only [isCounted, Bool.or_eq_false_iff, Bool.and_eq_false_iff, beq_eq_false_iff_ne] at h
  obtain ⟨⟨hopen, hclose⟩, hbar⟩ := h
  by_cases hc : c = '|'
  · have hparens : parens ≠ 0 := hbar.resolve_left (not_not_intro hc)
    rw [hc, barsToCommas, if_neg hparens]
  · rw [barsToCommas]
    · exact hopen
    · exact hclose
    · exact hc

theorem barsToCommas_append {parens : Nat} {cs : List Char}
    (h : cs.all (! isCounted parens ·) = true) (rest : List Char) :
    barsToCommas parens (cs ++ rest) = cs ++ barsToCommas parens rest := by
  induction cs with
  | nil => rfl
  | cons c cs ih =>
    rw [List.all_cons, Bool.and_eq_true, Bool.not_eq_true'] at h
    rw [List.cons_append, barsToCommas_cons h.1, ih h.2, List.cons_append]

@[simp] theorem Bracket.nest_group (braces parens : Nat) (outer : List Bracket) :
    Bracket.nest (openBraces braces ++ .group parens :: outer) =
      openBraces braces ++ .group (parens + 1) :: outer := by
  induction braces with
  | zero => rfl
  | succ braces ih => exact congrArg (.brace :: ·) ih

@[simp] theorem Bracket.unnest_group (braces parens : Nat) (outer : List Bracket) :
    Bracket.unnest (openBraces braces ++ .group parens :: outer) =
      openBraces braces ++ .group (parens - 1) :: outer := by
  induction braces with
  | zero => rfl
  | succ braces ih => exact congrArg (.brace :: ·) ih

theorem openBraces_append (braces n : Nat) :
    openBraces braces ++ .brace :: openBraces n = openBraces (braces + (n + 1)) := by
  rw [openBraces, openBraces, openBraces, ← List.replicate_append_replicate, List.replicate_succ]

theorem sameMarks_body {parens braces n : Nat} {body after out : List Char}
    (hbody : copiesBody parens braces body = true)
    (hout : SameMarks (marks true (openBraces n) after) (marks false (openBraces n) out)) :
    SameMarks
      (marks true (openBraces braces ++ .group parens :: openBraces n) (body ++ ')' :: after))
      (marks false (openBraces braces ++ .brace :: openBraces n)
        (barsToCommas parens body ++ '}' :: out)) := by
  fun_induction copiesBody parens braces body with
  | case1 parens braces =>
    simp only [Bool.and_eq_true, beq_iff_eq] at hbody
    obtain ⟨rfl, rfl⟩ := hbody
    exact hout.step (by decide) (by decide) (opensAt_of_not_mem (by decide) _) rfl rfl rfl
  | case2 => cases hbody
  | case3 parens braces c rest ih =>
    rw [Bool.and_eq_true, Bool.not_eq_true'] at hbody
    have hback : isCounted parens '\\' = false := rfl
    rw [barsToCommas_cons hback, barsToCommas_cons hbody.1]
    simp only [List.cons_append, marks_escaped]
    exact (ih hbody.2).cons rfl
  | case4 parens braces rest t after' hclass ih =>
    rw [Bool.and_eq_true] at hbody
    obtain ⟨-, inner, rfl, hinner⟩ := class_of_readClass hclass
    rw [classText_append] at hbody
    rw [barsToCommas_cons rfl, barsToCommas_append hbody.1, barsToCommas_cons rfl]
    simp only [List.cons_append, List.append_assoc]
    rw [marks_bracket _ _ (hinner _), marks_bracket _ _ (hinner _)]
    exact (ih hbody.2).cons rfl
  | case5 => cases hbody
  | case6 parens braces rest ih =>
    rw [barsToCommas]
    refine (ih hbody).step (m := .plain '(') (by decide) (by decide)
      (opensAt_of_not_mem (by decide) _) ?_ ?_ rfl
    · simp [markOf]
    · rw [openBraces_append]
      exact markOf_literal rfl (by simp)
  | case7 parens braces rest ih =>
    rw [Bool.and_eq_true, bne_iff_ne] at hbody
    obtain ⟨k, rfl⟩ := Nat.exists_eq_succ_of_ne_zero hbody.1
    rw [barsToCommas]
    refine (ih hbody.2).step (m := .plain ')') (by decide) (by decide)
      (opensAt_of_not_mem (by decide) _) ?_ ?_ rfl
    · cases braces <;> simp [markOf, List.replicate_succ, Bracket.unnest]
    · rw [openBraces_append]
      exact markOf_literal rfl (by simp)
  | case8 parens braces rest ih =>
    rw [barsToCommas_cons rfl]
    exact (ih hbody).step (m := .opening false) (by decide) (by decide)
      (opensAt_of_not_mem (by decide) _) rfl rfl rfl
  | case9 parens braces rest ih =>
    rw [Bool.and_eq_true, bne_iff_ne] at hbody
    obtain ⟨k, rfl⟩ := Nat.exists_eq_succ_of_ne_zero hbody.1
    rw [barsToCommas_cons rfl]
    exact (ih hbody.2).step (m := .closing) (by decide) (by decide)
      (opensAt_of_not_mem (by decide) _) rfl rfl rfl
  | case10 parens braces rest ih =>
    rw [Bool.and_eq_true, bne_iff_ne] at hbody
    obtain ⟨k, rfl⟩ := Nat.exists_eq_succ_of_ne_zero hbody.1
    rw [barsToCommas_cons rfl]
    exact (ih hbody.2).step (m := .dividing) (by decide) (by decide)
      (opensAt_of_not_mem (by decide) _) rfl rfl rfl
  | case11 parens braces rest ih =>
    rw [Bool.and_eq_true, Bool.or_eq_true, bne_iff_ne, beq_iff_eq] at hbody
    rw [barsToCommas]
    by_cases hparens : parens = 0
    · obtain rfl : braces = 0 := hbody.1.resolve_left (not_not_intro hparens)
      subst hparens
      exact (ih hbody.2).step (m := .dividing) (by decide) (by decide)
        (opensAt_of_not_mem (by decide) _) rfl rfl rfl
    · rw [if_neg hparens]
      refine (ih hbody.2).step (m := .plain '|') (by decide) (by decide)
        (opensAt_of_not_mem (by decide) _) ?_ ?_ rfl
      · cases braces <;> simp [markOf, List.replicate_succ, hparens]
      · rw [openBraces_append]
        exact markOf_literal rfl (by simp)
  | case12 parens braces c rest hback hescape hclass hopen hclose hbrace hbrace' hcomma hbar ih =>
    rw [Bool.and_eq_true, Bool.not_eq_true'] at hbody
    have htext : c ∉ ['(', ')', '{', '}', '|', ','] := by
      simp only [List.mem_cons, List.not_mem_nil, or_false, not_or]
      exact ⟨hopen, hclose, hbrace, hbrace', hbar, hcomma⟩
    have hcounted : isCounted parens c = false := by
      simp only [isCounted, Bool.or_eq_false_iff, Bool.and_eq_false_iff, beq_eq_false_iff_ne]
      exact ⟨⟨hopen, hclose⟩, .inl hbar⟩
    have hunit : c ∉ ['\\', '['] := by
      simp only [List.mem_cons, List.not_mem_nil, or_false, not_or]
      exact ⟨ne_escape hback hescape, hclass⟩
    obtain ⟨m, hm, hmark⟩ := markOf_text htext
    rw [barsToCommas_cons hcounted]
    exact (ih hbody.2).step hunit hunit (opensAt_append hbody.1 after) (hmark _) (hmark _) hm

/-! ## Where a body ends -/

theorem closes_of_copiesBody {parens braces : Nat} {body : List Char}
    (h : copiesBody parens braces body = true) (after : List Char) :
    closes parens (body ++ ')' :: after) = true := by
  fun_induction copiesBody parens braces body with
  | case1 parens braces =>
    rw [Bool.and_eq_true, beq_iff_eq] at h
    rw [h.1, List.nil_append, closes]
  | case2 => cases h
  | case3 parens braces c rest ih =>
    rw [Bool.and_eq_true] at h
    rw [List.cons_append, List.cons_append, closes, ih h.2]
  | case4 parens braces rest t after' hclass ih =>
    rw [Bool.and_eq_true] at h
    obtain ⟨-, inner, rfl, hinner⟩ := class_of_readClass hclass
    rw [List.cons_append, List.append_assoc, List.cons_append, closes_bracket parens (hinner _),
      ih h.2]
  | case5 => cases h
  | case6 parens braces rest ih => rw [List.cons_append, closes, ih h]
  | case7 parens braces rest ih =>
    rw [Bool.and_eq_true, bne_iff_ne] at h
    obtain ⟨k, rfl⟩ := Nat.exists_eq_succ_of_ne_zero h.1
    rw [List.cons_append, closes]
    exact ih h.2
  | case8 parens braces rest ih =>
    rw [List.cons_append, closes_cons (by decide) (by decide) (by decide), ih h]
  | case9 parens braces rest ih | case10 parens braces rest ih | case11 parens braces rest ih =>
    rw [Bool.and_eq_true] at h
    rw [List.cons_append, closes_cons (by decide) (by decide) (by decide), ih h.2]
  | case12 parens braces c rest hback hescape hclass hopen hclose _ _ _ _ ih =>
    rw [Bool.and_eq_true] at h
    have hunit : c ∉ ['\\', '['] := by
      simp only [List.mem_cons, List.not_mem_nil, or_false, not_or]
      exact ⟨ne_escape hback hescape, hclass⟩
    rw [List.cons_append, closes_cons hunit hopen hclose, ih h.2]

end Lintel.Glob
