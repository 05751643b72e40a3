import Lintel.Proofs.Glob.Faults
import Lintel.Proofs.Glob.Rooted

/-!
# A dot in front of a glob

A `./` in front of a token leaves its glob syntax and its groups as they are. It is taken off the
text once, so that a second one stays in the pattern. What is left of a file below the working
directory never starts with `./`, so that such a pattern matches nothing.
-/
namespace Lintel

/-- Two results are the same, or they are faults of the same kind. -/
inductive Alike {α : Type} : Except Fault α → Except Fault α → Prop
  | ok (a : α) : Alike (.ok a) (.ok a)
  | error {f g : Fault} (hkind : f.kind = g.kind) : Alike (.error f) (.error g)

theorem Alike.map {α β : Type} {x y : Except Fault α} (h : Alike x y) (f : α → β) :
    Alike (x.map f) (y.map f) := by
  cases h with
  | ok a => exact .ok (f a)
  | error hkind => exact .error hkind

namespace Glob

/-! ## Syntax behind a dot -/

theorem opensGroup_append (before : List Char) :
    opensGroup (before ++ ['/', '.']) = opensGroup before := by
  rcases before with _ | ⟨op, _ | ⟨c, before⟩⟩
  · rfl
  · simp [opensGroup]
  · rfl

theorem startsGlob_append (before : List Char) (c : Char) (rest : List Char) :
    startsGlob (before ++ ['/', '.']) c rest = startsGlob before c rest := by
  simp only [startsGlob, opensGroup_append]

theorem isGlobFrom_append (before cs : List Char) :
    isGlobFrom (before ++ ['/', '.']) cs = isGlobFrom before cs := by
  fun_induction isGlobFrom before cs with
  | case1 => rfl
  | case2 => rfl
  | case3 before c rest ih => rw [← ih, isGlobFrom, List.cons_append, List.cons_append]
  | case4 before c rest hlast hpair ih =>
    rw [← ih, isGlobFrom, startsGlob_append, List.cons_append]
    · exact hlast
    · exact hpair

theorem toList_dotted (token : String) :
    ("./" ++ token).toList = '.' :: '/' :: token.toList := by
  simp

theorem isGlob_dotted (token : String) : isGlob ("./" ++ token) = isGlob token := by
  rw [isGlob, isGlob, toList_dotted, isGlobFrom, isGlobFrom, ← isGlobFrom_append [] token.toList]
  all_goals simp [startsGlob]

theorem rewriteFrom_congr {previous previous' : Option Char} (h : previous ≠ some '\\')
    (h' : previous' ≠ some '\\') (cs : List Char) :
    rewriteFrom previous cs = rewriteFrom previous' cs := by
  cases cs with
  | nil => rw [rewriteFrom, rewriteFrom]
  | cons c rest =>
    by_cases hc : c = '\\'
    · subst hc
      cases rest with
      | nil => rw [rewriteFrom, rewriteFrom]
      | cons d rest => rw [rewriteFrom_escape, rewriteFrom_escape]
    · have hgroup : groupAt previous c rest = groupAt previous' c rest := by
        simp [groupAt, h, h']
      cases hfound : groupAt previous' c rest with
      | none =>
        rw [rewriteFrom_of_none hc hfound, rewriteFrom_of_none hc (hgroup.trans hfound)]
      | some found =>
        rw [rewriteFrom_of_some hc hfound, rewriteFrom_of_some hc (hgroup.trans hfound)]

theorem rewriteGroups_dotted (cs : List Char) :
    rewriteGroups ('.' :: '/' :: cs) = (rewriteGroups cs).map ('.' :: '/' :: ·) := by
  have hslash : rewriteFrom (some '/') cs = rewriteGroups cs :=
    rewriteFrom_congr (by decide) (by decide) cs
  rw [rewriteGroups, rewriteFrom_plain (by decide) (by decide),
    rewriteFrom_plain (by decide) (by decide), hslash]
  cases rewriteGroups cs <;> rfl

theorem patternText_dotted {token : String} {text : List Char} (h : patternText token = .ok text) :
    patternText ("./" ++ token) =
      .ok (if ['.', '/'] <+: token.toList then '.' :: '/' :: text else text) := by
  rw [patternText, toList_dotted, rewriteGroups_dotted]
  rcases patternText_cases h with ⟨hfront, hrewrite⟩ | ⟨hplain, hrewrite⟩
  · rw [hrewrite, if_pos hfront]
    rfl
  · rw [hrewrite, if_neg hplain]
    rfl

theorem patternText_dotted_eq_error {token : String} {f : Fault}
    (h : patternText token = .error f) :
    ∃ g, patternText ("./" ++ token) = .error g ∧ g.kind = f.kind := by
  rw [patternText, toList_dotted, rewriteGroups_dotted]
  rw [patternText] at h
  cases hrewrite : rewriteGroups token.toList with
  | error op =>
    rw [hrewrite] at h
    obtain rfl := Except.error.inj h
    exact ⟨_, rfl, rfl⟩
  | ok whole => simp [hrewrite] at h

/-! ## Expanding behind a dot -/

section

variable (t : Tree) {dir : Path}

theorem Search.run_dotted (hdir : dir.isAbsolute = true) {rest : List Char} {pattern : Pattern}
    (hread : Pattern.read ('.' :: '/' :: rest) = .ok pattern) :
    (Search.ofText ('.' :: '/' :: rest) pattern).run t dir = [] := by
  refine List.eq_nil_iff_forall_not_mem.2 fun p hp => ?_
  obtain ⟨names, -, -, haccepts, -⟩ := Search.mem_run_iff.1 hp
  obtain ⟨c, hcandidate, hmatches⟩ := Search.accepts_iff.1 haccepts
  have hstarts : ∃ u, c.bytes = Text.bytes ['.'] ++ separator :: u :=
    starts_of_matches (by simp [isMark]) hread hmatches
  obtain ⟨u, hu⟩ := hstarts
  rw [Search.candidate, if_neg (by simp [Search.ofText])] at hcandidate
  exact Path.bytes_ne_of_stripPrefix hdir hcandidate u hu

theorem expand_dotted (hdir : dir.isAbsolute = true) (token : String) :
    Alike (expand t dir ("./" ++ token))
      ((expand t dir token).map fun found =>
        if ['.', '/'] <+: token.toList then [] else found) := by
  cases hglob : isGlob token with
  | false =>
    have hglob' : isGlob ("./" ++ token) = false := (isGlob_dotted token).trans hglob
    rw [expand_of_not_isGlob t hglob, expand_of_not_isGlob t hglob']
    exact .error rfl
  | true =>
    have hglob' : isGlob ("./" ++ token) = true := (isGlob_dotted token).trans hglob
    cases htext : patternText token with
    | error f =>
      obtain ⟨g, htext', hkind⟩ := patternText_dotted_eq_error htext
      rw [expand_of_patternText_error t hglob htext, expand_of_patternText_error t hglob' htext']
      exact .error hkind
    | ok text =>
      have htext' := patternText_dotted htext
      have hfault : ∀ cause, Pattern.read ('.' :: '/' :: text) = .error cause ↔
          Pattern.read text = .error cause :=
        fun cause => read_append_eq_error_iff (w := ['.', '/']) (by simp)
      rw [expand_of_patternText t hglob htext, expand_of_patternText t hglob' htext']
      by_cases hfront : ['.', '/'] <+: token.toList
      · simp only [if_pos hfront]
        cases hread : Pattern.read text with
        | error cause =>
          rw [(hfault cause).2 hread]
          exact .error rfl
        | ok pattern =>
          cases hread' : Pattern.read ('.' :: '/' :: text) with
          | error cause => simp [(hfault cause).1 hread'] at hread
          | ok pattern' =>
            dsimp only
            rw [Search.run_dotted t hdir hread']
            exact .ok []
      · simp only [if_neg hfront]
        cases Pattern.read text with
        | error cause => exact .error rfl
        | ok pattern => exact .ok _

end

end Glob

end Lintel
