import Mathlib.Tactic.Tauto
import Lintel.Proofs.Glob.Balance

/-!
# Tokens that are globs

A token is a glob if a wildcard, a class, braces that divide or a group starts somewhere in it
outside escaped pairs. `isGlob` decides exactly this, with one reservation about groups: it takes
any backslash in front of an operator for an escape, even one that is escaped itself.
-/
namespace Lintel.Glob

theorem brackets_delimit : Delimiters '[' ']' := ⟨by decide, by decide, by decide⟩

theorem braces_delimit : Delimiters '{' '}' := ⟨by decide, by decide, by decide⟩

theorem parens_delimit : Delimiters '(' ')' := ⟨by decide, by decide, by decide⟩

/-- A wildcard, a class or braces that divide, in front of any text. -/
inductive StartsWild : List Char → Prop
  | wildcard {c : Char} (rest : List Char) (hc : c = '*' ∨ c = '?') : StartsWild (c :: rest)
  | bracket {body : List Char} (after : List Char) (hbody : Balanced '[' ']' body)
      (hne : body ≠ []) : StartsWild ('[' :: (body ++ ']' :: after))
  | braces {front back : List Char} (after : List Char) (hfront : Balanced '{' '}' front)
      (hback : Balanced '{' '}' back) : StartsWild ('{' :: (front ++ ',' :: back ++ '}' :: after))

def StartsGroup (operators cs : List Char) : Prop :=
  ∃ op ∈ operators, ∃ body after, cs = op :: '(' :: (body ++ ')' :: after) ∧ Balanced '(' ')' body

/-- Glob syntax starts outside the escaped pairs of the text. -/
def HasGlob (cs : List Char) : Prop :=
  ∃ before rest, cs = before ++ rest ∧ isWhole before = true ∧
    (StartsWild rest ∨ StartsGroup ['@', '!', '+'] rest)

/-! ## One place -/

theorem opensGroup_concat (front : List Char) (op : Char) :
    opensGroup (front ++ [op]).reverse = true ↔
      op ∈ groupOperators ∧ front.getLast? ≠ some '\\' := by
  rcases List.eq_nil_or_concat front with rfl | ⟨more, c, rfl⟩
  · simp [opensGroup]
  · simp [opensGroup]

theorem opensGroup_iff {before : List Char} :
    opensGroup before.reverse = true ↔ ∃ front op, before = front ++ [op] ∧ op ∈ groupOperators ∧
      front.getLast? ≠ some '\\' := by
  constructor
  · intro h
    rcases List.eq_nil_or_concat before with rfl | ⟨front, op, rfl⟩
    · cases h
    · rw [List.concat_eq_append] at h ⊢
      exact ⟨front, op, rfl, (opensGroup_concat front op).1 h⟩
  · intro h'
    obtain ⟨front, op, rfl, h⟩ := h'
    exact (opensGroup_concat front op).2 h

theorem startsGlob_of_wildcard {c : Char} (hc : c = '*' ∨ c = '?') (before rest : List Char) :
    startsGlob before c rest = true := by
  rcases hc with rfl | rfl <;> rfl

theorem startsGlob_bracket_iff {before rest : List Char} :
    startsGlob before '[' rest = true ↔
      ∃ body after, rest = body ++ ']' :: after ∧ Balanced '[' ']' body ∧ body ≠ [] := by
  simp only [startsGlob, ← and_assoc, ← enclosed_eq_some_iff brackets_delimit]
  cases enclosed '[' ']' 0 rest with
  | none => simp
  | some found => simp [Prod.ext_iff]

theorem startsGlob_braces_iff {before rest : List Char} :
    startsGlob before '{' rest = true ↔ ∃ front back after,
      rest = front ++ ',' :: back ++ '}' :: after ∧ Balanced '{' '}' front ∧
        Balanced '{' '}' back := by
  have hcomma : ',' ∉ ['\\', '{', '}'] := by decide
  constructor
  · intro h
    simp only [startsGlob] at h
    split at h
    · rename_i body after henclosed
      obtain ⟨rfl, hbody⟩ := (enclosed_eq_some_iff braces_delimit).1 henclosed
      obtain ⟨front, back, rfl, hfront, hback⟩ := (hasTopLevel_iff hcomma hbody).1 h
      exact ⟨front, back, after, rfl, hfront, hback⟩
    · cases h
  · intro h'
    obtain ⟨front, back, after, rfl, hfront, hback⟩ := h'
    have hbody : Balanced '{' '}' (front ++ ',' :: back) := hfront.append (.plain hcomma hback)
    simp only [startsGlob, (enclosed_eq_some_iff braces_delimit).2 ⟨rfl, hbody⟩]
    exact (hasTopLevel_iff hcomma hbody).2 ⟨front, back, rfl, hfront, hback⟩

theorem startsGlob_paren_iff {before rest : List Char} :
    startsGlob before.reverse '(' rest = true ↔ ∃ front op, before = front ++ [op] ∧
      op ∈ groupOperators ∧ front.getLast? ≠ some '\\' ∧
      ∃ body after, rest = body ++ ')' :: after ∧ Balanced '(' ')' body := by
  have hclosed : (enclosed '(' ')' 0 rest).isSome = true ↔
      ∃ body after, rest = body ++ ')' :: after ∧ Balanced '(' ')' body := by
    rw [Option.isSome_iff_exists, Prod.exists]
    simp only [enclosed_eq_some_iff parens_delimit]
  simp only [startsGlob, Bool.and_eq_true, opensGroup_iff, hclosed]
  constructor
  · intro h'
    obtain ⟨⟨front, op, rfl, hop, hescape⟩, hrest⟩ := h'
    exact ⟨front, op, rfl, hop, hescape, hrest⟩
  · intro h'
    obtain ⟨front, op, rfl, hop, hescape, hrest⟩ := h'
    exact ⟨⟨front, op, rfl, hop, hescape⟩, hrest⟩

theorem eq_of_startsGlob {before rest : List Char} {c : Char}
    (h : startsGlob before c rest = true) : c ∈ ['*', '?', '[', '{', '('] := by
  unfold startsGlob at h
  split at h <;> simp_all

theorem startsGlob_iff_startsWild {rest : List Char} {c : Char} (hc : c ≠ '(')
    (before : List Char) : startsGlob before c rest = true ↔ StartsWild (c :: rest) := by
  constructor
  · intro h
    have hmark := eq_of_startsGlob h
    simp only [List.mem_cons, List.not_mem_nil, or_false, hc] at hmark
    rcases hmark with rfl | rfl | rfl | rfl
    · exact .wildcard rest (.inl rfl)
    · exact .wildcard rest (.inr rfl)
    · obtain ⟨body, after, rfl, hbody, hne⟩ := startsGlob_bracket_iff.1 h
      exact .bracket after hbody hne
    · obtain ⟨front, back, after, rfl, hfront, hback⟩ := startsGlob_braces_iff.1 h
      exact .braces after hfront hback
  · intro h
    cases h with
    | wildcard _ hwild => exact startsGlob_of_wildcard hwild before rest
    | bracket after hbody hne => exact startsGlob_bracket_iff.2 ⟨_, after, rfl, hbody, hne⟩
    | braces after hfront hback => exact startsGlob_braces_iff.2 ⟨_, _, after, rfl, hfront, hback⟩

/-! ## The whole token -/

theorem isGlobFrom_iff {before cs : List Char} :
    isGlobFrom before cs = true ↔ ∃ mid c rest, cs = mid ++ c :: rest ∧ isWhole mid = true ∧
      c ≠ '\\' ∧ startsGlob (mid.reverse ++ before) c rest = true := by
  fun_induction isGlobFrom before cs with
  | case1 => simp
  | case2 before =>
    simp only [Bool.false_eq_true, false_iff]
    intro h'
    obtain ⟨mid, c, rest, hcs, -, hc, -⟩ := h'
    rcases List.append_eq_singleton_iff.1 hcs.symm with ⟨-, heq⟩ | ⟨-, heq⟩
    · exact hc (List.cons.inj heq).1
    · cases heq
  | case3 before d rest ih =>
    rw [ih]
    constructor
    · intro h'
      obtain ⟨mid, c, after, rfl, hmid, hc, hstarts⟩ := h'
      exact ⟨'\\' :: d :: mid, c, after, rfl, by rwa [isWhole_escaped], hc, by simpa using hstarts⟩
    · intro h'
      obtain ⟨mid, c, after, hcs, hmid, hc, hstarts⟩ := h'
      rcases mid with _ | ⟨b, _ | ⟨e, mid⟩⟩
      · exact absurd (List.cons.inj hcs).1.symm hc
      · obtain ⟨rfl, -⟩ := List.cons.inj hcs
        cases hmid
      · obtain ⟨rfl, htail⟩ := List.cons.inj hcs
        obtain ⟨rfl, rfl⟩ := List.cons.inj htail
        exact ⟨mid, c, after, rfl, by rwa [isWhole_escaped] at hmid, hc, by simpa using hstarts⟩
  | case4 before d rest hlast hpair ih =>
    have hd : d ≠ '\\' := ne_escape hlast hpair
    rw [Bool.or_eq_true, ih]
    constructor
    · intro h'
      rcases h' with hstarts | ⟨mid, c, after, rfl, hmid, hc, hstarts⟩
      · exact ⟨[], d, rest, rfl, rfl, hd, hstarts⟩
      · exact ⟨d :: mid, c, after, rfl, by rwa [isWhole_cons hd], hc, by simpa using hstarts⟩
    · intro h'
      obtain ⟨mid, c, after, hcs, hmid, hc, hstarts⟩ := h'
      rcases mid with _ | ⟨b, mid⟩
      · obtain ⟨rfl, rfl⟩ := List.cons.inj hcs
        exact .inl hstarts
      · obtain ⟨rfl, rfl⟩ := List.cons.inj hcs
        exact .inr ⟨mid, c, after, rfl, by rwa [isWhole_cons hd] at hmid, hc,
          by simpa using hstarts⟩

theorem ne_backslash_of_startsWild {c : Char} {rest : List Char} (h : StartsWild (c :: rest)) :
    c ≠ '\\' ∧ c ≠ '(' := by
  cases h with
  | wildcard _ hc => rcases hc with rfl | rfl <;> decide
  | bracket => decide
  | braces => decide

/-- A token is a glob exactly if glob syntax starts outside its escaped pairs, where no backslash
may stand in front of a group. -/
theorem isGlob_iff (token : String) :
    isGlob token = true ↔ ∃ before rest, token.toList = before ++ rest ∧ isWhole before = true ∧
      (StartsWild rest ∨
        StartsGroup ['@', '!', '+'] rest ∧ before.getLast? ≠ some '\\') := by
  rw [isGlob, isGlobFrom_iff]
  simp only [List.append_nil]
  constructor
  · intro h'
    obtain ⟨mid, c, rest, hcs, hmid, -, hstarts⟩ := h'
    by_cases hparen : c = '('
    · -- the place of a group is that of its operator, one character earlier
      subst hparen
      obtain ⟨front, op, rfl, hop, hescape, body, after, rfl, hbody⟩ :=
        startsGlob_paren_iff.1 hstarts
      refine ⟨front, op :: '(' :: (body ++ ')' :: after), by simpa using hcs,
        isWhole_of_getLast? hescape, ?_⟩
      by_cases hwild : op = '*' ∨ op = '?'
      · exact .inl (.wildcard _ hwild)
      · have hgroup : op ∈ ['@', '!', '+'] := by
          simp only [groupOperators, List.mem_cons, List.not_mem_nil, or_false] at hop ⊢
          tauto
        exact .inr ⟨⟨op, hgroup, body, after, rfl, hbody⟩, hescape⟩
    · exact ⟨mid, c :: rest, hcs, hmid, .inl ((startsGlob_iff_startsWild hparen _).1 hstarts)⟩
  · intro h'
    obtain ⟨before, rest, hcs, hwhole, hwild | ⟨⟨op, hop, body, after, rfl, hbody⟩, hescape⟩⟩ := h'
    · obtain ⟨c, rest, rfl⟩ : ∃ c tail, rest = c :: tail := by
        cases hwild <;> exact ⟨_, _, rfl⟩
      obtain ⟨hback, hparen⟩ := ne_backslash_of_startsWild hwild
      exact ⟨before, c, rest, hcs, hwhole, hback, (startsGlob_iff_startsWild hparen _).2 hwild⟩
    · have hop' : op ∈ groupOperators ∧ op ≠ '\\' := by
        simp only [List.mem_cons, List.not_mem_nil, or_false] at hop
        rcases hop with rfl | rfl | rfl <;> decide
      have hwhole' : isWhole (before ++ [op]) = true := by
        rw [isWhole_append hwhole, isWhole_cons hop'.2]
        rfl
      exact ⟨before ++ [op], '(', body ++ ')' :: after, by simpa using hcs, hwhole', by decide,
        startsGlob_paren_iff.2 ⟨before, op, rfl, hop'.1, hescape, body, after, rfl, hbody⟩⟩

theorem isGlob_escaped_backslash :
    HasGlob "\\\\@(a|b)".toList ∧ isGlob "\\\\@(a|b)" = false := by
  have hbody : Balanced '(' ')' "a|b".toList :=
    .plain (by decide) (.plain (by decide) (.plain (by decide) .nil))
  refine ⟨⟨['\\', '\\'], "@(a|b)".toList, rfl, rfl, .inr ?_⟩, by decide⟩
  exact ⟨'@', by decide, "a|b".toList, [], rfl, hbody⟩

end Lintel.Glob
