import Mathlib.Data.List.Forall2
import Lintel.Proofs.Glob.Refused

/-!
# Replaced groups

A token that is rewritten falls into segments. Text is kept as it is; a group with an at sign gets
braces for its operator and its parentheses, and its body is copied, with commas for some of its
bars. The main statement says that the groups among the segments are the outermost groups of the
token, each in its place. A token without any is all that rewriting leaves unchanged, and with each
group it becomes one character shorter.
-/
namespace Lintel.Glob

/-- A group with an at sign whose parenthesis stands outside escaped pairs and earlier groups.
`previous` is the character in front of the text. -/
structure OutermostGroup (previous : Option Char) (cs before body after : List Char) : Prop where
  text : cs = before ++ '@' :: '(' :: (body ++ ')' :: after)
  closed : Balanced '(' ')' body
  whole : isWhole (before ++ ['@']) = true
  unescaped : lastOf previous before ≠ some '\\'
  exposed : ¬ InBody previous before ('@' :: '(' :: (body ++ ')' :: after))

/-- The copy differs from the body only in commas for some of its bars. -/
def CopiesBars (body copy : List Char) : Prop :=
  List.Forall₂ (fun c d => d = c ∨ c = '|' ∧ d = ',') body copy

theorem copiesBars_barsToCommas (depth : Nat) (body : List Char) :
    CopiesBars body (barsToCommas depth body) := by
  fun_induction barsToCommas depth body with
  | case1 => exact .nil
  | case2 depth rest ih => exact .cons (.inl rfl) ih
  | case3 depth rest ih => exact .cons (.inl rfl) ih
  | case4 depth rest ih =>
    refine .cons ?_ ih
    split
    · exact .inr ⟨rfl, rfl⟩
    · exact .inl rfl
  | case5 depth c rest _ _ _ ih => exact .cons (.inl rfl) ih

inductive Segment
  | kept (text : List Char)
  | group (body copy : List Char) (hcopy : CopiesBars body copy)

namespace Segment

def source : Segment → List Char
  | kept text => text
  | group body _ _ => '@' :: '(' :: (body ++ [')'])

def image : Segment → List Char
  | kept text => text
  | group _ copy _ => '{' :: (copy ++ ['}'])

def isGroup : Segment → Bool
  | kept _ => false
  | group .. => true

theorem length_image (s : Segment) :
    s.image.length + (if s.isGroup then 1 else 0) = s.source.length := by
  cases s with
  | kept text => rfl
  | group body copy hcopy =>
    have hlength := hcopy.length_eq
    simp only [image, source, isGroup, List.length_cons, List.length_append, List.length_nil,
      if_true]
    omega

theorem length_flatMap_image (segments : List Segment) :
    (segments.flatMap image).length + segments.countP isGroup =
      (segments.flatMap source).length := by
  induction segments with
  | nil => rfl
  | cons s segments ih =>
    have hs := s.length_image
    simp only [List.flatMap_cons, List.length_append, List.countP_cons]
    omega

end Segment

/-- The segments make up a text and its rewriting, and their groups are the outermost ones. -/
structure Segments (previous : Option Char) (cs out : List Char) (segments : List Segment) :
    Prop where
  source : cs = segments.flatMap Segment.source
  image : out = segments.flatMap Segment.image
  groups : ∀ before body after, OutermostGroup previous cs before body after ↔
    ∃ front copy hcopy back, segments = front ++ .group body copy hcopy :: back ∧
      before = front.flatMap Segment.source ∧ after = back.flatMap Segment.source

variable {previous previous' : Option Char} {c : Char} {cs out before body after piece : List Char}
  {segments : List Segment}

/-! ## Groups behind a piece of the token -/

theorem outermostGroup_append_iff
    (hwhole : isWhole (piece ++ (before ++ ['@'])) = isWhole (before ++ ['@']))
    (hlast : lastOf previous (piece ++ before) = lastOf previous' before)
    (hbody : ∀ rest, before ++ rest = cs →
      (InBody previous (piece ++ before) rest ↔ InBody previous' before rest)) :
    OutermostGroup previous (piece ++ cs) (piece ++ before) body after ↔
      OutermostGroup previous' cs before body after := by
  constructor
  · intro h
    have htext : cs = before ++ '@' :: '(' :: (body ++ ')' :: after) := by
      have hcut := h.text
      rwa [List.append_assoc, List.append_cancel_left_eq] at hcut
    refine ⟨htext, h.closed, ?_, hlast ▸ h.unescaped, fun hin => h.exposed ?_⟩
    · rw [← hwhole, ← List.append_assoc]
      exact h.whole
    · exact (hbody _ htext.symm).2 hin
  · intro h
    refine ⟨by rw [h.text, List.append_assoc], h.closed, ?_, hlast ▸ h.unescaped,
      fun hin => h.exposed ?_⟩
    · rw [List.append_assoc, hwhole]
      exact h.whole
    · exact (hbody _ h.text.symm).1 hin

theorem outermostGroup_escaped_iff :
    OutermostGroup previous ('\\' :: c :: cs) before body after ↔
      ∃ behind, before = ['\\', c] ++ behind ∧ OutermostGroup (some c) cs behind body after := by
  have hshift (behind : List Char) :
      OutermostGroup previous (['\\', c] ++ cs) (['\\', c] ++ behind) body after ↔
        OutermostGroup (some c) cs behind body after :=
    outermostGroup_append_iff (isWhole_escaped c _) (by simp) fun _ _ => inBody_escaped_iff
  constructor
  · intro h
    have htext := h.text
    rcases before with _ | ⟨b, _ | ⟨d, before⟩⟩
    · cases (List.cons.inj htext).1
    · obtain ⟨rfl, -⟩ := List.cons.inj htext
      exact absurd rfl h.unescaped
    · obtain ⟨rfl, htail⟩ := List.cons.inj htext
      obtain ⟨rfl, -⟩ := List.cons.inj htail
      exact ⟨before, rfl, (hshift before).1 h⟩
  · intro h'
    obtain ⟨behind, rfl, h⟩ := h'
    exact (hshift behind).2 h

theorem outermostGroup_cons_iff (hc : c ≠ '\\') (hgroup : groupAt previous c cs = none) :
    OutermostGroup previous (c :: cs) before body after ↔
      ∃ behind, before = [c] ++ behind ∧ OutermostGroup (some c) cs behind body after := by
  have hshift (behind : List Char) :
      OutermostGroup previous ([c] ++ cs) ([c] ++ behind) body after ↔
        OutermostGroup (some c) cs behind body after := by
    refine outermostGroup_append_iff (isWhole_cons hc _) (by simp) fun rest hrest => ?_
    subst hrest
    exact inBody_cons_iff hgroup
  constructor
  · intro h
    have htext := h.text
    rcases before with _ | ⟨b, before⟩
    · obtain ⟨rfl, rfl⟩ := List.cons.inj htext
      have hsome : groupAt previous '@' ('(' :: (body ++ ')' :: after)) = some (body, after) :=
        groupAt_eq_some_iff.2 ⟨by decide, h.unescaped, rfl, h.closed⟩
      rw [hsome] at hgroup
      cases hgroup
    · obtain ⟨rfl, -⟩ := List.cons.inj htext
      exact ⟨before, rfl, (hshift before).1 h⟩
  · intro h'
    obtain ⟨behind, rfl, h⟩ := h'
    exact (hshift behind).2 h

theorem outermostGroup_group_iff {first : List Char} (hprevious : previous ≠ some '\\')
    (hfirst : Balanced '(' ')' first) :
    OutermostGroup previous ('@' :: '(' :: (first ++ [')']) ++ cs) before body after ↔
      (before = [] ∧ body = first ∧ after = cs) ∨
      ∃ behind, before = '@' :: '(' :: (first ++ [')']) ++ behind ∧
        OutermostGroup (some ')') cs behind body after := by
  have hpiece (ds : List Char) :
      '@' :: '(' :: (first ++ [')']) ++ ds = '@' :: '(' :: (first ++ ')' :: ds) := by simp
  have hshift (behind : List Char) :
      OutermostGroup previous ('@' :: '(' :: (first ++ [')']) ++ cs)
          ('@' :: '(' :: (first ++ [')']) ++ behind) body after ↔
        OutermostGroup (some ')') cs behind body after := by
    refine outermostGroup_append_iff ?_ ?_ fun rest _ => ?_
    · rw [hpiece, isWhole_cons (by decide), isWhole_cons (by decide),
        isWhole_append (hfirst.isWhole parens_delimit), isWhole_cons (by decide)]
    · rw [hpiece]
      exact lastOf_append_cons previous ('@' :: '(' :: first) ')' behind
    · rw [hpiece]
      exact inBody_group_iff hfirst
  constructor
  · intro h
    have htext := h.text
    rw [hpiece] at htext
    rcases eq_nil_or_exists_behind (by decide) (by decide) h.exposed hprevious hfirst htext.symm
      with rfl | ⟨behind, rfl⟩
    · have hinner := (List.cons.inj (List.cons.inj htext).2).2
      have hcut := (enclosed_eq_some_iff parens_delimit).2 ⟨hinner, h.closed⟩
      rw [(enclosed_eq_some_iff parens_delimit).2 ⟨rfl, hfirst⟩, Option.some.injEq,
        Prod.mk.injEq] at hcut
      exact .inl ⟨rfl, hcut.1.symm, hcut.2.symm⟩
    · rw [← hpiece behind] at h
      exact .inr ⟨behind, (hpiece behind).symm, (hshift behind).1 h⟩
  · rintro (⟨rfl, rfl, rfl⟩ | ⟨behind, rfl, h⟩)
    · refine ⟨hpiece after, hfirst, rfl, hprevious, ?_⟩
      intro h'
      obtain ⟨pre, front, -, -, hpre, -⟩ := h'
      simp at hpre
    · exact (hshift behind).2 h

/-! ## Segments of a token -/

theorem Segments.nil (h : ∀ before body after, ¬ OutermostGroup previous cs before body after) :
    Segments previous cs cs [.kept cs] := by
  refine ⟨by simp [Segment.source], by simp [Segment.image], fun before body after => ?_⟩
  refine iff_of_false (h before body after) ?_
  rintro ⟨front, copy, hcopy, back, hsegments, -⟩
  rcases List.append_eq_singleton_iff.1 hsegments.symm with ⟨-, heq⟩ | ⟨-, heq⟩
  · cases heq
  · cases heq

theorem Segments.kept (piece : List Char) (h : Segments previous' cs out segments)
    (hgroups : ∀ before body after, OutermostGroup previous (piece ++ cs) before body after ↔
      ∃ behind, before = piece ++ behind ∧ OutermostGroup previous' cs behind body after) :
    Segments previous (piece ++ cs) (piece ++ out) (.kept piece :: segments) := by
  refine ⟨?_, ?_, fun before body after => ?_⟩
  · rw [List.flatMap_cons, ← h.source]
    rfl
  · rw [List.flatMap_cons, ← h.image]
    rfl
  rw [hgroups]
  simp only [h.groups]
  constructor
  · rintro ⟨behind, rfl, front, copy, hcopy, back, rfl, rfl, hafter⟩
    exact ⟨.kept piece :: front, copy, hcopy, back, rfl, rfl, hafter⟩
  · rintro ⟨front, copy, hcopy, back, hsegments, rfl, hafter⟩
    rcases front with _ | ⟨s, front⟩
    · cases (List.cons.inj hsegments).1
    · obtain ⟨rfl, rfl⟩ := List.cons.inj hsegments
      exact ⟨_, rfl, front, copy, hcopy, back, rfl, rfl, hafter⟩

theorem Segments.group (h : Segments (some ')') cs out segments) (hprevious : previous ≠ some '\\')
    (hbody : Balanced '(' ')' body) {copy : List Char} (hcopy : CopiesBars body copy) :
    Segments previous ('@' :: '(' :: (body ++ [')']) ++ cs) ('{' :: (copy ++ ['}']) ++ out)
      (.group body copy hcopy :: segments) := by
  refine ⟨?_, ?_, fun before inner after => ?_⟩
  · rw [List.flatMap_cons, ← h.source]
    rfl
  · rw [List.flatMap_cons, ← h.image]
    rfl
  rw [outermostGroup_group_iff hprevious hbody]
  simp only [h.groups]
  constructor
  · rintro (⟨rfl, rfl, rfl⟩ | ⟨behind, rfl, front, copy', hcopy', back, rfl, rfl, hafter⟩)
    · exact ⟨[], copy, hcopy, segments, rfl, rfl, h.source⟩
    · exact ⟨.group body copy hcopy :: front, copy', hcopy', back, rfl, rfl, hafter⟩
  · rintro ⟨front, copy', hcopy', back, hsegments, rfl, hafter⟩
    rcases front with _ | ⟨s, front⟩
    · obtain ⟨heq, rfl⟩ := List.cons.inj hsegments
      obtain ⟨rfl, -⟩ := Segment.group.inj heq
      exact .inl ⟨rfl, rfl, hafter.trans h.source.symm⟩
    · obtain ⟨rfl, rfl⟩ := List.cons.inj hsegments
      exact .inr ⟨_, rfl, front, copy', hcopy', back, rfl, rfl, hafter⟩

theorem not_outermostGroup_of_length (h : cs.length < 3) :
    ¬ OutermostGroup previous cs before body after := by
  intro hgroup
  have hlength := congrArg List.length hgroup.text
  simp only [List.length_append, List.length_cons] at hlength
  omega

theorem exists_segments (h : rewriteFrom previous cs = .ok out) :
    ∃ segments, Segments previous cs out segments := by
  fun_induction rewriteFrom previous cs generalizing out with
  | case1 previous =>
    obtain rfl := Except.ok.inj h
    exact ⟨_, .nil fun _ _ _ => not_outermostGroup_of_length (by decide)⟩
  | case2 previous =>
    obtain rfl := Except.ok.inj h
    exact ⟨_, .nil fun _ _ _ => not_outermostGroup_of_length (by decide)⟩
  | case3 previous c rest ih =>
    obtain ⟨out, hout, rfl⟩ := map_eq_ok_iff.1 h
    obtain ⟨segments, hsegments⟩ := ih hout
    exact ⟨_, hsegments.kept ['\\', c] fun _ _ _ => outermostGroup_escaped_iff⟩
  | case4 previous rest body after hlast hpair hgroup ih =>
    obtain ⟨-, hprevious, rfl, hbody⟩ := groupAt_eq_some_iff.1 hgroup
    obtain ⟨out, hout, rfl⟩ := map_eq_ok_iff.1 h
    obtain ⟨segments, hsegments⟩ := ih hout
    have hjoined := hsegments.group hprevious hbody (copiesBars_barsToCommas 0 body)
    exact ⟨_, by simpa using hjoined⟩
  | case5 => cases h
  | case6 previous c rest hlast hpair hgroup ih =>
    obtain ⟨out, hout, rfl⟩ := map_eq_ok_iff.1 h
    obtain ⟨segments, hsegments⟩ := ih hout
    have hc : c ≠ '\\' := ne_escape hlast hpair
    exact ⟨_, hsegments.kept [c] fun _ _ _ => outermostGroup_cons_iff hc hgroup⟩

theorem Segments.length_eq (h : Segments previous cs out segments) :
    out.length + segments.countP Segment.isGroup = cs.length := by
  rw [h.source, h.image, Segment.length_flatMap_image]

theorem Segments.countP_eq_zero_iff (h : Segments previous cs out segments) :
    segments.countP Segment.isGroup = 0 ↔
      ∀ before body after, ¬ OutermostGroup previous cs before body after := by
  rw [List.countP_eq_zero]
  constructor
  · intro hnone before body after hgroup
    obtain ⟨front, copy, hcopy, back, rfl, -⟩ := (h.groups before body after).1 hgroup
    exact hnone (.group body copy hcopy) (by simp) rfl
  · intro hnone s hs hgroup
    obtain ⟨front, back, rfl⟩ := List.append_of_mem hs
    cases s with
    | kept => cases hgroup
    | group body copy hcopy =>
      exact hnone _ body _ ((h.groups _ _ _).2 ⟨front, copy, hcopy, back, rfl, rfl, rfl⟩)

theorem Segments.eq_of_countP (h : Segments previous cs out segments)
    (hnone : segments.countP Segment.isGroup = 0) : out = cs := by
  rw [h.source, h.image, List.flatMap_def, List.flatMap_def]
  refine congrArg List.flatten (List.map_congr_left fun s hs => ?_)
  cases s with
  | kept => rfl
  | group => exact absurd rfl (List.countP_eq_zero.1 hnone _ hs)

/-- Rewriting replaces the outermost groups of a token, each by braces around a copy of its body,
and keeps everything else in its place. -/
theorem rewriteGroups_replaces (h : rewriteGroups cs = .ok out) :
    (∃ segments, Segments none cs out segments ∧
      out.length + segments.countP Segment.isGroup = cs.length) ∧
    (out = cs ↔ ∀ before body after, ¬ OutermostGroup none cs before body after) := by
  obtain ⟨segments, hsegments⟩ := exists_segments h
  refine ⟨⟨segments, hsegments, hsegments.length_eq⟩, ?_⟩
  rw [← hsegments.countP_eq_zero_iff]
  constructor
  · rintro rfl
    have hlength := hsegments.length_eq
    omega
  · exact hsegments.eq_of_countP

theorem rewriteGroups_replaces_adjacent :
    let cs := "x\\@(a)@(b|(c|d)\\))@(e|f)@(g\\".toList
    let out := "x\\@(a)\x7bb,(c|d)\\)\x7d\x7be,f\x7d@(g\\".toList
    let escaped := "esc\\@(a|b)".toList
    (rewriteGroups cs = .ok out ∧
      ∃ segments, Segments none cs out segments ∧ segments.countP Segment.isGroup = 2) ∧
    rewriteGroups escaped = .ok escaped ∧
      ∀ before body after, ¬ OutermostGroup none escaped before body after := by
  intro cs out escaped
  have hcs : (rewriteGroups cs).toOption = some out := by decide +kernel
  have hescaped : (rewriteGroups escaped).toOption = some escaped := by decide +kernel
  have hcut : cs.length = out.length + 2 := by decide
  rw [toOption_eq_some_iff] at hcs hescaped
  obtain ⟨segments, hsegments, hlength⟩ := (rewriteGroups_replaces hcs).1
  exact ⟨⟨hcs, segments, hsegments, by omega⟩, hescaped,
    (rewriteGroups_replaces hescaped).2.1 rfl⟩

end Lintel.Glob
