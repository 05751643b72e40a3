import Lintel.Glob.Table
import Lintel.Proofs.Glob.Bodies
import Lintel.Proofs.Outcome
import Mathlib.Data.List.Induction

/-!
# Rewritten groups

A token whose groups are rewritten means what it meant before if the groups that are rewritten are
those that are meant, which takes the escapes that cover an operator and the classes it stands in to
be regarded, if their bodies may be copied, and if braces do not pass over one of their alternatives
because it is void.
-/
namespace Lintel.Glob

def lacksOperators : List Char → Bool
  | [] => true
  | c :: rest => ! isOperatorAt c rest && lacksOperators rest

/-- Whether the groups that are rewritten are those that are meant, with bodies that may be copied.
`previous` is the character in front of the text. -/
def copies (previous : Option Char) (cs : List Char) : Bool :=
  match cs with
  | [] => true
  | ['\\'] => true
  | '\\' :: c :: rest => copies (some c) rest
  | '[' :: rest =>
      match _h : readClass rest with
      | .ok (some (_, after)) => lacksOperators (classText rest after) && copies (some ']') after
      | _ => false
  | c :: rest =>
      match _h : groupAt previous c rest with
      | some (body, after) => copiesBody 0 0 body && copies (some ')') after
      | none => ! opensAt c rest && copies (some c) rest
termination_by cs.length
decreasing_by
  all_goals simp_wf
  all_goals try (have hlt := length_lt_of_readClass _h)
  all_goals try (have hlt := length_lt_of_groupAt _h)
  all_goals omega

/-! ## Rewritten texts -/

theorem rewriteFrom_of_none {previous : Option Char} {c : Char} {rest : List Char} (hc : c ≠ '\\')
    (h : groupAt previous c rest = none) :
    rewriteFrom previous (c :: rest) = (rewriteFrom (some c) rest).map (c :: ·) := by
  rw [rewriteFrom]
  · split
    · rename_i heq
      rw [h] at heq
      cases heq
    · rfl
  · exact fun h _ => hc h
  · exact fun _ _ h _ => hc h

theorem rewriteFrom_of_some {previous : Option Char} {c : Char} {rest body after : List Char}
    (hc : c ≠ '\\') (h : groupAt previous c rest = some (body, after)) :
    rewriteFrom previous (c :: rest) =
      if c = '@' then
        (rewriteFrom (some ')') after).map fun out => '{' :: barsToCommas 0 body ++ '}' :: out
      else .error c := by
  rw [rewriteFrom]
  · split
    · rename_i heq
      rw [h] at heq
      obtain ⟨rfl, rfl⟩ := Prod.mk.inj (Option.some.inj heq)
      rfl
    · rename_i heq
      rw [h] at heq
      cases heq
  · exact fun h _ => hc h
  · exact fun _ _ h _ => hc h

theorem groupAt_eq_none {c : Char} {rest : List Char} (h : isOperatorAt c rest = false)
    (previous : Option Char) : groupAt previous c rest = none := by
  unfold groupAt
  split
  · simp_all [isOperatorAt]
  · rfl

theorem rewriteFrom_escape (previous : Option Char) (c : Char) (rest : List Char) :
    rewriteFrom previous ('\\' :: c :: rest) =
      (rewriteFrom (some c) rest).map ('\\' :: c :: ·) := by
  rw [rewriteFrom]

theorem rewriteFrom_plain {c : Char} (hop : c ∉ groupOperators) (hc : c ≠ '\\')
    (previous : Option Char) (rest : List Char) :
    rewriteFrom previous (c :: rest) = (rewriteFrom (some c) rest).map (c :: ·) :=
  rewriteFrom_of_none hc (groupAt_eq_none (isOperatorAt_of_not_mem hop _) _)

theorem rewriteFrom_bracket (previous : Option Char) (after : List Char) :
    rewriteFrom previous (']' :: after) = (rewriteFrom (some ']') after).map (']' :: ·) :=
  rewriteFrom_plain (by decide) (by decide) previous after

theorem rewriteFrom_class {inner : List Char} (h : lacksOperators inner = true)
    (previous : Option Char) (after : List Char) :
    rewriteFrom previous (inner ++ ']' :: after) =
      (rewriteFrom (some ']') after).map (inner ++ ']' :: ·) := by
  induction inner using List.twoStepInduction generalizing previous with
  | nil => exact rewriteFrom_bracket previous after
  | singleton c =>
    rw [lacksOperators, Bool.and_eq_true, Bool.not_eq_true'] at h
    rw [List.cons_append, List.nil_append]
    by_cases hc : c = '\\'
    · rw [hc, rewriteFrom_escape]
      rfl
    · have hnone : groupAt previous c (']' :: after) = none :=
        groupAt_eq_none (isOperatorAt_append h.1 (by decide) after) previous
      rw [rewriteFrom_of_none hc hnone, rewriteFrom_bracket]
      cases rewriteFrom (some ']') after <;> rfl
  | cons_cons c d inner ih ih' =>
    rw [lacksOperators, Bool.and_eq_true, Bool.not_eq_true'] at h
    rw [List.cons_append]
    by_cases hc : c = '\\'
    · -- the escaped character is copied along, so that it opens nothing
      have hinner := h.2
      rw [lacksOperators, Bool.and_eq_true] at hinner
      rw [hc, List.cons_append, rewriteFrom_escape, ih hinner.2]
      cases rewriteFrom (some ']') after <;> rfl
    · rw [rewriteFrom_of_none hc
        (groupAt_eq_none (isOperatorAt_append h.1 (by decide) after) previous), ih' d h.2]
      cases rewriteFrom (some ']') after <;> rfl

theorem eq_of_groupAt {previous : Option Char} {c : Char} {rest body after : List Char}
    (h : groupAt previous c rest = some (body, after)) :
    isOperatorAt c rest = true ∧ rest = '(' :: (body ++ ')' :: after) := by
  unfold groupAt at h
  split at h
  · split at h
    · rename_i inner hop
      rw [Bool.and_eq_true] at hop
      exact ⟨by rw [isOperatorAt, hop.1]; rfl, by rw [enclosed_eq_append h]⟩
    · cases h
  · cases h

theorem markOf_openBraces (n : Nat) (c : Char) :
    markOf (openBraces n) c = none ∨
      ∃ m k, markOf (openBraces n) c = some (m, openBraces k) ∧ m.braced = m := by
  by_cases hc : c ∈ ['(', ')', '{', '}', '|', ',']
  · simp only [List.mem_cons, List.not_mem_nil, or_false] at hc
    rcases hc with rfl | rfl | rfl | rfl | rfl | rfl
    · exact .inr ⟨.plain '(', n, markOf_literal rfl (by simp), rfl⟩
    · exact .inr ⟨.plain ')', n, markOf_literal rfl (by simp), rfl⟩
    · exact .inr ⟨.opening false, n + 1, rfl, rfl⟩
    · cases n with
      | zero => exact .inl rfl
      | succ n => exact .inr ⟨.closing, n, rfl, rfl⟩
    · exact .inr ⟨.plain '|', n, markOf_literal rfl (by simp), rfl⟩
    · cases n with
      | zero => exact .inr ⟨.plain ',', 0, rfl, rfl⟩
      | succ n => exact .inr ⟨.dividing, n + 1, rfl, rfl⟩
  · obtain ⟨m, hm, hmark⟩ := markOf_text hc
    exact .inr ⟨m, n, hmark _, hm⟩

theorem sameMarks_of_copies {previous : Option Char} {cs text : List Char} (n : Nat)
    (hcopies : copies previous cs = true) (hrewrite : rewriteFrom previous cs = .ok text) :
    SameMarks (marks true (openBraces n) cs) (marks false (openBraces n) text) := by
  fun_induction copies previous cs generalizing text n with
  | case1 previous =>
    rw [rewriteFrom] at hrewrite
    rw [← Except.ok.inj hrewrite, marks, marks]
    rfl
  | case2 previous =>
    rw [rewriteFrom] at hrewrite
    rw [← Except.ok.inj hrewrite, marks, marks]
    rfl
  | case3 previous c rest ih =>
    rw [rewriteFrom_escape] at hrewrite
    obtain ⟨out, hout, rfl⟩ := map_eq_ok_iff.1 hrewrite
    rw [marks_escaped, marks_escaped]
    exact (ih n hcopies hout).cons rfl
  | case4 previous rest t after hclass ih =>
    rw [Bool.and_eq_true] at hcopies
    obtain ⟨-, inner, rfl, hinner⟩ := class_of_readClass hclass
    rw [classText_append] at hcopies
    rw [rewriteFrom_of_none (by decide) (groupAt_eq_none (isOperatorAt_of_not_mem (by decide) _) _),
      rewriteFrom_class hcopies.1] at hrewrite
    obtain ⟨copied, hcopied, rfl⟩ := map_eq_ok_iff.1 hrewrite
    obtain ⟨out, hout, rfl⟩ := map_eq_ok_iff.1 hcopied
    rw [marks_bracket _ _ hclass, marks_bracket _ _ (hinner out)]
    exact (ih n hcopies.2 hout).cons rfl
  | case5 => cases hcopies
  | case6 previous c rest hback hescape hclass body after hgroup ih =>
    rw [Bool.and_eq_true] at hcopies
    obtain ⟨hop, rfl⟩ := eq_of_groupAt hgroup
    rw [rewriteFrom_of_some (ne_escape hback hescape) hgroup] at hrewrite
    split at hrewrite
    · rename_i hat
      subst hat
      obtain ⟨out, hout, rfl⟩ := map_eq_ok_iff.1 hrewrite
      have hopens : opensAt '@' ('(' :: (body ++ ')' :: after)) = true := by
        rw [opensAt, hop, List.tail_cons, closes_of_copiesBody hcopies.1, Bool.true_and]
      rw [marks_group _ hopens, List.cons_append, marks_of_markOf (by decide) (by decide) rfl rfl]
      have hbody : SameMarks (marks true (openBraces 0 ++ .group 0 :: openBraces n) _)
          (marks false (openBraces 0 ++ .brace :: openBraces n) _) :=
        sameMarks_body hcopies.1 (ih n hcopies.2 hout)
      exact hbody.cons rfl
    · cases hrewrite
  | case7 previous c rest hback hescape hclass hgroup ih =>
    rw [Bool.and_eq_true, Bool.not_eq_true'] at hcopies
    have hc : c ≠ '\\' := ne_escape hback hescape
    rw [rewriteFrom_of_none hc hgroup] at hrewrite
    obtain ⟨out, hout, rfl⟩ := map_eq_ok_iff.1 hrewrite
    rw [marks_cons hc hclass (by rw [hcopies.1, Bool.and_false]), marks_cons hc hclass rfl]
    rcases markOf_openBraces n c with hnone | ⟨m, k, hmark, hm⟩
    · rw [hnone]
      rfl
    · rw [hmark]
      exact (ih k hcopies.2 hout).cons hm

/-! ## The meaning of a rewritten token -/

/-- Whether rewriting the groups of a token keeps its meaning: the groups may be copied, and no
alternative of one is void. -/
def keepsMeaning (cs : List Char) : Bool :=
  copies none cs && (readExtended cs).all Part.areFilled

/-- If rewriting may copy the groups of a token, the pattern that is read from the rewritten text
matches the paths that the token means and no others. -/
theorem matches_iff_matchesExtended {cs text : List Char} {p : Pattern}
    (hrewrite : rewriteGroups cs = .ok text) (hread : Pattern.read text = .ok p)
    (hkeeps : keepsMeaning cs = true) (path : Bytes) :
    p.Matches path ↔ MatchesExtended cs path := by
  rw [keepsMeaning, Bool.and_eq_true] at hkeeps
  have hreads : Reads .start text p := reads_of_read hread
  obtain ⟨ms', hms'⟩ := hreads.exists_marks
  have hsame : SameMarks (marks true [] cs) (some ms') := by
    rw [← hms']
    exact sameMarks_of_copies 0 hkeeps.1 hrewrite
  obtain ⟨ms, hms, rfl⟩ := Option.map_eq_some_iff.1 hsame
  obtain ⟨ps, hps, rfl⟩ := hreads.spelled Draft.spells_start hms'
  have hextended : readExtended cs = some ps := by rw [readExtended, hms, Option.bind_some, hps]
  have hfilled : Part.areFilled ps = true := by simpa [hextended] using hkeeps.2
  rw [Part.matches_spelled hfilled, MatchesExtended, hextended]
  simp

theorem matches_iff_matchesExtended_nested_body :
    let cs := "{src,[(@]}/@(a|b(c|d)|{e,f}[!,])/*.@(sh|c)".toList
    let text := "{src,[(@]}/{a,b(c|d),{e,f}[!,]}/*.{sh,c}".toList
    ∃ p, rewriteGroups cs = .ok text ∧ Pattern.read text = .ok p ∧
      ∀ path, p.Matches path ↔ MatchesExtended cs path := by
  intro cs text
  have hrewrite : (rewriteGroups cs).toOption = some text := by decide +kernel
  have hread : (Pattern.read text).toOption.any (fun _ => true) = true := by decide +kernel
  obtain ⟨p, hp, -⟩ := exists_ok_of_any hread
  exact ⟨p, toOption_eq_some_iff.1 hrewrite, hp,
    matches_iff_matchesExtended (toOption_eq_some_iff.1 hrewrite) hp (by decide +kernel)⟩

def Misses (token path : String) : Prop :=
  MatchesExtended token.toList (bytesOf path) ∧
    ∃ text p, rewriteGroups token.toList = .ok text ∧ Pattern.read text = .ok p ∧
      ¬ p.Matches (bytesOf path)

theorem misses_of_any {token path : String} (h : MatchesExtended token.toList (bytesOf path))
    (hany : (rewriteGroups token.toList).toOption.any (fun text =>
      (Pattern.read text).toOption.any fun p => ! p.accepts (bytesOf path)) = true) :
    Misses token path := by
  obtain ⟨text, hrewrite, hread⟩ := exists_ok_of_any hany
  obtain ⟨p, hp, hrejects⟩ := exists_ok_of_any hread
  refine ⟨h, text, p, hrewrite, hp, fun hmatches => ?_⟩
  rw [Pattern.accepts_iff.2 hmatches] at hrejects
  cases hrejects

/-- A comma in a group, a group in a group, an escaped bar, an escaped parenthesis, an operator
behind an escaped backslash, a group in a class, and a void alternative. -/
theorem rewriting_misses_paths :
    Misses "@(a,b)" "a,b" ∧ Misses "@(a|@(b|c))" "b" ∧ Misses "@(a\\|b)" "a|b" ∧
      Misses "@(a\\(|b)" "a(" ∧ Misses "\\\\@(a|b)*" "\\a" ∧ Misses "[@(a|b)]x" "(x" ∧
      Misses "x@(a|)" "x" := by
  refine ⟨?_, ?_, ?_, ?_, ?_, ?_, ?_⟩
  all_goals exact misses_of_any (by decide +kernel) (by decide +kernel)

end Lintel.Glob
