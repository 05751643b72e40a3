import Lintel.Glob.Expand
import Lintel.Proofs.Glob.Detected
import Lintel.Proofs.Glob.Groups

/-!
# Refused operators

Rewriting the groups of a token refuses it where a group with an operator other than the at sign
starts outside escaped pairs, unless a backslash stands in front of the operator, be it escaped
itself, or the place is in the body of a group with an at sign, which is copied as it is. The main
statement says that this is exactly when a token is refused, and that its expansion then fails.
-/
namespace Lintel.Glob

def refusedOperators : List Char := ['!', '+', '*', '?']

def HasRefused (cs : List Char) : Prop :=
  ∃ before rest, cs = before ++ rest ∧ isWhole before = true ∧ StartsGroup refusedOperators rest

def lastOf (previous : Option Char) (before : List Char) : Option Char := before.getLast?.or previous

/-- The place between the two texts is in the body of a group with an at sign. -/
def InBody (previous : Option Char) (before rest : List Char) : Prop :=
  ∃ pre front back after, before = pre ++ '@' :: '(' :: front ∧ rest = back ++ ')' :: after ∧
    Balanced '(' ')' (front ++ back) ∧ lastOf previous pre ≠ some '\\'

/-- The place between the two texts is one at which a token is refused. -/
structure RefusedAt (previous : Option Char) (before rest : List Char) : Prop where
  whole : isWhole before = true
  group : StartsGroup refusedOperators rest
  unescaped : lastOf previous before ≠ some '\\'
  exposed : ¬ InBody previous before rest

@[simp] theorem lastOf_nil (previous : Option Char) : lastOf previous [] = previous := rfl

@[simp] theorem lastOf_cons (previous : Option Char) (c : Char) (before : List Char) :
    lastOf previous (c :: before) = lastOf (some c) before := by
  cases before <;> simp [lastOf, List.getLast?_cons]

theorem lastOf_append_cons (previous : Option Char) (before : List Char) (c : Char)
    (more : List Char) : lastOf previous (before ++ c :: more) = lastOf (some c) more := by
  induction before generalizing previous with
  | nil => exact lastOf_cons previous c more
  | cons b before ih => rw [List.cons_append, lastOf_cons, ih]

theorem groupAt_eq_some_iff {previous : Option Char} {op : Char} {rest body after : List Char} :
    groupAt previous op rest = some (body, after) ↔ op ∈ groupOperators ∧ previous ≠ some '\\' ∧
      rest = '(' :: (body ++ ')' :: after) ∧ Balanced '(' ')' body := by
  constructor
  · intro h
    unfold groupAt at h
    split at h
    · split at h
      · rename_i hop
        rw [Bool.and_eq_true, decide_eq_true_eq, bne_iff_ne] at hop
        obtain ⟨rfl, hbody⟩ := (enclosed_eq_some_iff parens_delimit).1 h
        exact ⟨hop.1, hop.2, rfl, hbody⟩
      · cases h
    · cases h
  · intro h'
    obtain ⟨hop, hprevious, rfl, hbody⟩ := h'
    have hopens : (decide (op ∈ groupOperators) && previous != some '\\') = true := by
      simp [hop, hprevious]
    simp only [groupAt, if_pos hopens]
    exact (enclosed_eq_some_iff parens_delimit).2 ⟨rfl, hbody⟩

/-! ## Places behind a piece of the token -/

theorem inBody_escaped_iff {previous : Option Char} {c : Char} {before rest : List Char} :
    InBody previous ('\\' :: c :: before) rest ↔ InBody (some c) before rest := by
  constructor
  · intro h'
    obtain ⟨pre, front, back, after, hbefore, rfl, hbody, hlast⟩ := h'
    rcases pre with _ | ⟨p, _ | ⟨q, pre⟩⟩
    · cases (List.cons.inj hbefore).1
    · obtain ⟨rfl, -⟩ := List.cons.inj hbefore
      exact absurd rfl hlast
    · obtain ⟨rfl, htail⟩ := List.cons.inj hbefore
      obtain ⟨rfl, rfl⟩ := List.cons.inj htail
      exact ⟨pre, front, back, after, rfl, rfl, hbody, by simpa using hlast⟩
  · intro h'
    obtain ⟨pre, front, back, after, rfl, rfl, hbody, hlast⟩ := h'
    exact ⟨'\\' :: c :: pre, front, back, after, rfl, rfl, hbody, by simpa using hlast⟩

theorem inBody_cons_iff {previous : Option Char} {c : Char} {before rest : List Char}
    (hgroup : groupAt previous c (before ++ rest) = none) :
    InBody previous (c :: before) rest ↔ InBody (some c) before rest := by
  constructor
  · intro h'
    obtain ⟨pre, front, back, after, hbefore, rfl, hbody, hlast⟩ := h'
    rcases pre with _ | ⟨p, pre⟩
    · obtain ⟨rfl, rfl⟩ := List.cons.inj hbefore
      have hsome : groupAt previous '@' ('(' :: front ++ (back ++ ')' :: after)) =
          some (front ++ back, after) :=
        groupAt_eq_some_iff.2 ⟨by decide, hlast, by simp, hbody⟩
      rw [hsome] at hgroup
      cases hgroup
    · obtain ⟨rfl, rfl⟩ := List.cons.inj hbefore
      exact ⟨pre, front, back, after, rfl, rfl, hbody, by simpa using hlast⟩
  · intro h'
    obtain ⟨pre, front, back, after, rfl, rfl, hbody, hlast⟩ := h'
    exact ⟨c :: pre, front, back, after, rfl, rfl, hbody, by simpa using hlast⟩

theorem inBody_group_iff {previous : Option Char} {body before rest : List Char}
    (hbody : Balanced '(' ')' body) :
    InBody previous ('@' :: '(' :: (body ++ ')' :: before)) rest ↔
      InBody (some ')') before rest := by
  let piece := '@' :: '(' :: (body ++ [')'])
  have hpiece : Balanced '(' ')' piece := .plain (by decide) (.nested hbody .nil)
  have hcut : '@' :: '(' :: (body ++ ')' :: before) = piece ++ before := by simp [piece]
  have hlastOf : ∀ pre, lastOf previous (piece ++ pre) = lastOf (some ')') pre := by
    intro pre
    rw [show piece ++ pre = '@' :: '(' :: body ++ ')' :: pre by simp [piece], lastOf_append_cons]
  rw [hcut]
  constructor
  · intro h'
    obtain ⟨pre, front, back, after, hbefore, rfl, hinner, hlast⟩ := h'
    rcases List.append_eq_append_iff.1 hbefore with ⟨more, rfl, hmore⟩ | ⟨more, hin, hmore⟩
    · exact ⟨more, front, back, after, hmore, rfl, hinner, by rwa [hlastOf] at hlast⟩
    · rcases more with _ | ⟨m, _ | ⟨n, more⟩⟩
      · obtain rfl : piece = pre := by simpa using hin
        exact ⟨[], front, back, after, hmore.symm, rfl, hinner, by simp⟩
      · have hend := congrArg List.getLast? hin
        rw [← (List.cons.inj hmore).1] at hend
        simp [piece, List.getLast?_cons] at hend
      · -- the other group would start in this one and close in it
        obtain ⟨rfl, htail⟩ := List.cons.inj hmore
        obtain ⟨rfl, rfl⟩ := List.cons.inj htail
        have hopens : Balanced '(' ')' ((pre ++ ['@']) ++ '(' :: more) := by
          rwa [List.append_assoc, List.singleton_append, ← hin]
        have hwhole : isWhole (pre ++ ['@']) = true := isWhole_of_getLast? (by simp)
        obtain ⟨inner, rest', rfl, hclosed⟩ := hopens.closing_of_append parens_delimit hwhole
        have hlong : (inner ++ ')' :: rest').append before ++ back =
            inner ++ ')' :: (rest' ++ before ++ back) := by
          simp
        rw [hlong] at hinner
        exact absurd hinner (hclosed.not_append_closer parens_delimit _)
  · intro h'
    obtain ⟨pre, front, back, after, rfl, rfl, hinner, hlast⟩ := h'
    exact ⟨piece ++ pre, front, back, after, (List.append_assoc ..).symm, rfl, hinner,
      by rwa [hlastOf]⟩

variable {previous previous' : Option Char} {c : Char} {cs before before' rest : List Char}

theorem refusedAt_congr (hwhole : isWhole before = isWhole before')
    (hlast : lastOf previous before = lastOf previous' before')
    (hbody : InBody previous before rest ↔ InBody previous' before' rest) :
    RefusedAt previous before rest ↔ RefusedAt previous' before' rest :=
  ⟨fun h => ⟨hwhole ▸ h.whole, h.group, hlast ▸ h.unescaped, fun hin => h.exposed (hbody.2 hin)⟩,
    fun h => ⟨hwhole ▸ h.whole, h.group, hlast ▸ h.unescaped, fun hin => h.exposed (hbody.1 hin)⟩⟩

theorem refusedAt_escaped_iff :
    RefusedAt previous ('\\' :: c :: before) rest ↔ RefusedAt (some c) before rest :=
  refusedAt_congr (isWhole_escaped c before) (by simp) inBody_escaped_iff

theorem refusedAt_cons_iff (hc : c ≠ '\\') (hgroup : groupAt previous c (before ++ rest) = none) :
    RefusedAt previous (c :: before) rest ↔ RefusedAt (some c) before rest :=
  refusedAt_congr (isWhole_cons hc before) (lastOf_cons ..) (inBody_cons_iff hgroup)

theorem refusedAt_group_iff {body : List Char} (hbody : Balanced '(' ')' body) :
    RefusedAt previous ('@' :: '(' :: (body ++ ')' :: before)) rest ↔
      RefusedAt (some ')') before rest := by
  refine refusedAt_congr ?_ ?_ (inBody_group_iff hbody)
  · rw [isWhole_cons (by decide), isWhole_cons (by decide),
      isWhole_append (hbody.isWhole parens_delimit), isWhole_cons (by decide)]
  · exact lastOf_append_cons previous ('@' :: '(' :: body) ')' before

/-! ## Refused tokens -/

theorem mem_refusedOperators_iff {op : Char} :
    op ∈ refusedOperators ↔ op ∈ groupOperators ∧ op ≠ '@' := by
  simp only [refusedOperators, groupOperators, List.mem_cons, List.not_mem_nil, or_false]
  constructor
  · rintro (rfl | rfl | rfl | rfl) <;> decide
  · intro h'
    obtain ⟨hop, hat⟩ := h'
    exact hop.resolve_left hat

theorem exists_refusedAt_of_error {op : Char} (h : rewriteFrom previous cs = .error op) :
    op ∈ refusedOperators ∧ ∃ before rest, cs = before ++ rest ∧ RefusedAt previous before rest := by
  fun_induction rewriteFrom previous cs with
  | case1 => cases h
  | case2 => cases h
  | case3 previous c rest ih =>
    obtain ⟨hop, before, after, rfl, hat⟩ := ih (map_eq_error_iff.1 h)
    exact ⟨hop, '\\' :: c :: before, after, rfl, refusedAt_escaped_iff.2 hat⟩
  | case4 previous rest body after hlast hpair hgroup ih =>
    obtain ⟨-, -, rfl, hbody⟩ := groupAt_eq_some_iff.1 hgroup
    obtain ⟨hop, before, more, rfl, hat⟩ := ih (map_eq_error_iff.1 h)
    exact ⟨hop, '@' :: '(' :: (body ++ ')' :: before), more, by simp,
      (refusedAt_group_iff hbody).2 hat⟩
  | case5 previous c rest hlast hpair body after hgroup hat =>
    obtain rfl := Except.error.inj h
    obtain ⟨hop, hprevious, rfl, hbody⟩ := groupAt_eq_some_iff.1 hgroup
    have hrefused : c ∈ refusedOperators := mem_refusedOperators_iff.2 ⟨hop, hat⟩
    refine ⟨hrefused, [], _, rfl, rfl, ⟨c, hrefused, body, after, rfl, hbody⟩, hprevious, ?_⟩
    intro h'
    obtain ⟨pre, front, -, -, hpre, -⟩ := h'
    simp at hpre
  | case6 previous c rest hlast hpair hgroup ih =>
    obtain ⟨hop, before, after, rfl, hat⟩ := ih (map_eq_error_iff.1 h)
    exact ⟨hop, c :: before, after, rfl,
      (refusedAt_cons_iff (ne_escape hlast hpair) hgroup).2 hat⟩

theorem eq_nil_or_exists_behind {op : Char} {tail body after : List Char} (hopen : op ≠ '(')
    (hclose : op ≠ ')') (hexposed : ¬ InBody previous before (op :: tail))
    (hprevious : previous ≠ some '\\') (hbody : Balanced '(' ')' body)
    (hcs : before ++ op :: tail = '@' :: '(' :: (body ++ ')' :: after)) :
    before = [] ∨ ∃ behind, before = '@' :: '(' :: (body ++ ')' :: behind) := by
  rcases before with _ | ⟨b, _ | ⟨d, before⟩⟩
  · exact .inl rfl
  · exact absurd (List.cons.inj (List.cons.inj hcs).2).1 hopen
  · obtain ⟨rfl, htail⟩ := List.cons.inj hcs
    obtain ⟨rfl, hcut⟩ := List.cons.inj htail
    rcases List.append_eq_append_iff.1 hcut with ⟨back, rfl, hback⟩ | ⟨behind, rfl, hbehind⟩
    · rcases back with _ | ⟨e, back⟩
      · exact absurd (List.cons.inj hback).1 hclose
      · exact absurd ⟨[], before, e :: back, after, rfl, hback, hbody, hprevious⟩ hexposed
    · rcases behind with _ | ⟨e, behind⟩
      · exact absurd (List.cons.inj hbehind).1.symm hclose
      · obtain ⟨rfl, -⟩ := List.cons.inj hbehind
        exact .inr ⟨behind, rfl⟩

theorem RefusedAt.exists_behind (hat : RefusedAt previous before rest)
    (hprevious : previous ≠ some '\\') {body after : List Char} (hbody : Balanced '(' ')' body)
    (hcs : before ++ rest = '@' :: '(' :: (body ++ ')' :: after)) :
    ∃ behind, before = '@' :: '(' :: (body ++ ')' :: behind) := by
  obtain ⟨op, hop, inner, more, rfl, -⟩ := hat.group
  have hne : op ≠ '@' ∧ op ≠ '(' ∧ op ≠ ')' := by
    simp only [refusedOperators, List.mem_cons, List.not_mem_nil, or_false] at hop
    rcases hop with rfl | rfl | rfl | rfl <;> decide
  refine (eq_nil_or_exists_behind hne.2.1 hne.2.2 hat.exposed hprevious hbody hcs).resolve_left ?_
  rintro rfl
  exact hne.1 (List.cons.inj hcs).1

theorem exists_error_of_refusedAt (hat : RefusedAt previous before rest) :
    ∃ op, rewriteFrom previous (before ++ rest) = .error op := by
  generalize hcs : before ++ rest = cs
  fun_induction rewriteFrom previous cs generalizing before with
  | case1 previous =>
    obtain ⟨op, -, body, after, rfl, -⟩ := hat.group
    simp at hcs
  | case2 previous =>
    obtain ⟨op, -, body, after, rfl, -⟩ := hat.group
    have hlength := congrArg List.length hcs
    simp at hlength
    omega
  | case3 previous c tail ih =>
    rcases before with _ | ⟨b, _ | ⟨d, before⟩⟩
    · obtain ⟨op, hop, body, after, rfl, -⟩ := hat.group
      rw [(List.cons.inj hcs).1] at hop
      exact absurd hop (by decide)
    · obtain ⟨rfl, -⟩ := List.cons.inj hcs
      cases hat.whole
    · obtain ⟨rfl, htail⟩ := List.cons.inj hcs
      obtain ⟨rfl, rfl⟩ := List.cons.inj htail
      obtain ⟨op, hop⟩ := ih (refusedAt_escaped_iff.1 hat) rfl
      exact ⟨op, map_eq_error_iff.2 hop⟩
  | case4 previous tail body after hlast hpair hgroup ih =>
    obtain ⟨-, hprevious, rfl, hbody⟩ := groupAt_eq_some_iff.1 hgroup
    obtain ⟨before, rfl⟩ := hat.exists_behind hprevious hbody hcs
    have hrest : before ++ rest = after := by simpa using hcs
    obtain ⟨op, hop⟩ := ih ((refusedAt_group_iff hbody).1 hat) hrest
    exact ⟨op, map_eq_error_iff.2 hop⟩
  | case5 previous c tail hlast hpair body after hgroup hne => exact ⟨c, rfl⟩
  | case6 previous c tail hlast hpair hgroup ih =>
    rcases before with _ | ⟨b, before⟩
    · obtain ⟨op, hop, body, after, rfl, hbody⟩ := hat.group
      obtain ⟨rfl, rfl⟩ := List.cons.inj hcs
      have hsome : groupAt previous op ('(' :: (body ++ ')' :: after)) = some (body, after) :=
        groupAt_eq_some_iff.2 ⟨(mem_refusedOperators_iff.1 hop).1, hat.unescaped, rfl, hbody⟩
      rw [hsome] at hgroup
      cases hgroup
    · obtain ⟨rfl, rfl⟩ := List.cons.inj hcs
      obtain ⟨op, hop⟩ :=
        ih ((refusedAt_cons_iff (ne_escape hlast hpair) hgroup).1 hat) rfl
      exact ⟨op, map_eq_error_iff.2 hop⟩

theorem isGlob_of_refusedAt {token : String} (hcs : token.toList = before ++ rest)
    (hat : RefusedAt none before rest) : isGlob token = true := by
  obtain ⟨op, hop, body, after, rfl, hbody⟩ := hat.group
  refine (isGlob_iff token).2 ⟨before, _, hcs, hat.whole, ?_⟩
  by_cases hwild : op = '*' ∨ op = '?'
  · exact .inl (.wildcard _ hwild)
  · have hgroup : op ∈ ['@', '!', '+'] := by
      simp only [refusedOperators, List.mem_cons, List.not_mem_nil, or_false] at hop ⊢
      tauto
    exact .inr ⟨⟨op, hgroup, body, after, rfl, hbody⟩, by simpa [lastOf] using hat.unescaped⟩

theorem expand_eq_groupOperator_iff {t : Tree} {dir : Path} {token : String} {op : Char} :
    expand t dir token = .error (.groupOperator token op) ↔
      isGlob token = true ∧ rewriteGroups token.toList = .error op := by
  rw [expand, map_eq_error_iff, Search.ofToken]
  cases hglob : isGlob token with
  | false => simp
  | true =>
    cases hrewrite : rewriteGroups token.toList with
    | error op' => simp [patternText, hrewrite, bind, Except.bind]
    | ok text =>
      cases hread : Pattern.read ((Text.dropPrefix? ['.', '/'] text).getD text) <;>
        simp [patternText, hrewrite, hread, bind, Except.bind]

/-- A token is rewritten exactly if it has no place at which it is refused, and it has one exactly if
its expansion fails with an operator that cannot be rewritten. -/
theorem refused_iff (t : Tree) (dir : Path) (token : String) :
    ((∃ text, rewriteGroups token.toList = .ok text) ↔
      ¬ ∃ before rest, token.toList = before ++ rest ∧ RefusedAt none before rest) ∧
    ((∃ op ∈ refusedOperators, expand t dir token = .error (.groupOperator token op)) ↔
      ∃ before rest, token.toList = before ++ rest ∧ RefusedAt none before rest) := by
  have herror : (∃ op, rewriteGroups token.toList = .error op) ↔
      ∃ before rest, token.toList = before ++ rest ∧ RefusedAt none before rest := by
    constructor
    · intro h'
      obtain ⟨op, hop⟩ := h'
      exact (exists_refusedAt_of_error hop).2
    · intro h'
      obtain ⟨before, rest, hcs, hat⟩ := h'
      rw [hcs]
      exact exists_error_of_refusedAt hat
  constructor
  · rw [← herror]
    cases rewriteGroups token.toList <;> simp
  · constructor
    · intro h'
      obtain ⟨op, -, hop⟩ := h'
      exact herror.1 ⟨op, (expand_eq_groupOperator_iff.1 hop).2⟩
    · intro h'
      obtain ⟨before, rest, hcs, hat⟩ := h'
      obtain ⟨op, hop⟩ := herror.2 ⟨before, rest, hcs, hat⟩
      exact ⟨op, (exists_refusedAt_of_error hop).1,
        expand_eq_groupOperator_iff.2 ⟨isGlob_of_refusedAt hcs hat, hop⟩⟩

def PassesRefused (t : Tree) (token : String) : Prop :=
  '[' ∉ token.toList ∧ HasRefused token.toList ∧
    (∃ text, rewriteGroups token.toList = .ok text) ∧
    expand t ⟨[Path.separator]⟩ token = .ok []

theorem passesRefused_of_any {t : Tree} {token : String} (hclasses : '[' ∉ token.toList)
    (hrefused : HasRefused token.toList)
    (hrewrite : (rewriteGroups token.toList).toOption.any (fun _ => true) = true)
    (hexpand : (expand t ⟨[Path.separator]⟩ token).toOption = some []) :
    PassesRefused t token := by
  obtain ⟨text, htext, -⟩ := exists_ok_of_any hrewrite
  exact ⟨hclasses, hrefused, ⟨text, htext⟩, toOption_eq_some_iff.1 hexpand⟩

theorem passes_refused_operators :
    let t : Tree := ⟨[([bytesOf "b"], .file [] false)]⟩
    PassesRefused t "@(a|!(b))" ∧ PassesRefused t "\\\\!(a)*" := by
  intro t
  -- one operator is in the body of another group, the other one behind an escaped backslash
  have hnested : HasRefused "@(a|!(b))".toList :=
    ⟨"@(a|".toList, "!(b))".toList, rfl, rfl, '!', by decide, ['b'], [')'], rfl,
      .plain (by decide) .nil⟩
  have hescaped : HasRefused "\\\\!(a)*".toList :=
    ⟨"\\\\".toList, "!(a)*".toList, rfl, rfl, '!', by decide, ['a'], ['*'], rfl,
      .plain (by decide) .nil⟩
  exact ⟨passesRefused_of_any (by decide) hnested (by decide +kernel) (by decide +kernel),
    passesRefused_of_any (by decide) hescaped (by decide +kernel) (by decide +kernel)⟩

end Lintel.Glob
