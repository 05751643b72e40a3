import Lintel.Proofs.Glob.Parts
import Lintel.Proofs.Glob.Reading

/-!
# Groups spelled with braces

Where a glob is read to a pattern, its marks are read to parts that spell this pattern, also when
some of its braces are meant as groups. The two readings go side by side, mark by mark: what a draft
holds spells what the reading of the text holds.
-/
namespace Lintel.Glob

def OpenPart.spelled (b : OpenPart) : OpenGroup :=
  ⟨Part.areSpelled b.before, Part.allSpelled b.choices⟩

def Reading.atBoundary (r : Reading) : Bool := r.previous.any (isBoundary (! r.groups.isEmpty))

structure Draft.Spells (d : Draft) (r : Reading) : Prop where
  current : Part.areSpelled d.current = r.current
  groups : d.brackets.map OpenPart.spelled = r.groups
  boundary : d.atBoundary = r.atBoundary

theorem Draft.spells_start : Draft.start.Spells .start where
  current := rfl
  groups := rfl
  boundary := rfl

@[simp] theorem Part.areSpelled_append (ps qs : List Part) :
    Part.areSpelled (ps ++ qs) = Part.areSpelled ps ++ Part.areSpelled qs := by
  simp [Part.areSpelled_eq_map]

@[simp] theorem Part.areSpelled_reverse (ps : List Part) :
    Part.areSpelled ps.reverse = (Part.areSpelled ps).reverse := by
  simp [Part.areSpelled_eq_map]

@[simp] theorem Part.areSpelled_take (n : Nat) (ps : List Part) :
    Part.areSpelled (ps.take n) = (Part.areSpelled ps).take n := by
  simp [Part.areSpelled_eq_map, List.map_take]

@[simp] theorem Part.areSpelled_drop (n : Nat) (ps : List Part) :
    Part.areSpelled (ps.drop n) = (Part.areSpelled ps).drop n := by
  simp [Part.areSpelled_eq_map, List.map_drop]

@[simp] theorem Part.areSpelled_tokens (ts : List Token) :
    Part.areSpelled (ts.map .token) = ts := by
  simp [Part.areSpelled_eq_map, Function.comp_def, Part.spelled]

@[simp] theorem Part.allSpelled_reverse (choices : List (List Part)) :
    Part.allSpelled choices.reverse = (Part.allSpelled choices).reverse := by
  simp [Part.allSpelled_eq_map]

theorem spanning_take (atEnd : Bool) (ts : List Token) (h : ts ≠ []) :
    spanning atEnd (ts.take 1) ++ ts.drop 1 = spanning atEnd ts := by
  cases ts with
  | nil => exact absurd rfl h
  | cons t ts => cases t <;> rfl

/-! ## Two stars -/

theorem Draft.stars_nil (d : Draft) :
    d.stars [] =
      if d.current.isEmpty then (d.push false [.leading], [])
      else if d.atBoundary then (d.span true false, [])
      else (d.push false [.many, .many], []) := by
  unfold Draft.stars
  rfl

theorem Draft.stars_slash (d : Draft) (ms : List Mark) :
    d.stars (.plain '/' :: ms) =
      if d.current.isEmpty then (d.push true [.leading], ms)
      else if d.atBoundary then (d.span false true, ms)
      else (d.push false [.many, .many], .plain '/' :: ms) := by
  unfold Draft.stars
  rfl

theorem Draft.stars_cons (d : Draft) {m : Mark} (hm : m ≠ .plain '/') (ms : List Mark) :
    d.stars (m :: ms) =
      if ! d.current.isEmpty && d.atBoundary && m.endsAlternative then (d.span true false, m :: ms)
      else (d.push false [.many, .many], m :: ms) := by
  unfold Draft.stars
  split
  · simp_all
  · split <;> simp_all

theorem Reading.not_atBoundary_iff (r : Reading) :
    r.atBoundary = false ↔ r.previous ≠ some '/' ∧
      (r.groups.isEmpty ∨ (r.previous ≠ some ',' ∧ r.previous ≠ some '{')) := by
  unfold Reading.atBoundary isBoundary
  cases r.previous with
  | none => simp
  | some c => cases r.groups <;> simp

theorem Reading.pushStars_nil (r : Reading) :
    r.pushStars [] =
      if r.current.isEmpty then (r.push '*' [.leading], [])
      else if r.atBoundary then
        ({ r with previous := some '*', current := spanning true r.current }, [])
      else (r.push '*' [.many, .many], []) := by
  unfold Reading.pushStars
  simp only [← Reading.not_atBoundary_iff]
  cases r.atBoundary <;> rfl

theorem Reading.pushStars_slash (r : Reading) (rest : List Char) :
    r.pushStars ('/' :: rest) =
      if r.current.isEmpty then (r.push '/' [.leading], rest)
      else if r.atBoundary then
        ({ r with previous := some '/', current := spanning false r.current }, rest)
      else (r.push '*' [.many, .many], '/' :: rest) := by
  unfold Reading.pushStars
  simp only [← Reading.not_atBoundary_iff]
  cases r.atBoundary <;> rfl

theorem Reading.pushStars_cons (r : Reading) {c : Char} (hc : c ≠ '/') (rest : List Char) :
    r.pushStars (c :: rest) =
      if ! r.current.isEmpty && r.atBoundary && ((c == ',' || c == '}') && ! r.groups.isEmpty) then
        ({ r with previous := some '*', current := spanning true r.current }, c :: rest)
      else (r.push '*' [.many, .many], c :: rest) := by
  unfold Reading.pushStars
  simp only [← Reading.not_atBoundary_iff]
  cases r.current.isEmpty <;> cases r.atBoundary <;> simp [hc]

/-! ## Marks up to braces -/

theorem Mark.eq_of_braced {m m' : Mark} (h : m.braced = m') (hopening : m' ≠ .opening false) :
    m = m' := by
  cases m with
  | opening isGroup => exact absurd h.symm hopening
  | _ => exact h

@[simp] theorem Mark.endsAlternative_braced (m : Mark) :
    m.braced.endsAlternative = m.endsAlternative := by
  cases m <;> rfl

theorem eq_cons_of_map_braced {found : Option (List Mark)} {m : Mark} {ms : List Mark}
    (h : found.map (m :: ·) = some (ms.map Mark.braced)) :
    ∃ m' ms', ms = m' :: ms' ∧ m'.braced = m ∧ found = some (ms'.map Mark.braced) := by
  obtain ⟨ms₁, hfound, heq⟩ := Option.map_eq_some_iff.1 h
  obtain ⟨m', ms', rfl, hm, hms⟩ := List.map_eq_cons_iff.1 heq.symm
  exact ⟨m', ms', rfl, hm, by rw [hfound, hms]⟩

namespace Draft.Spells

variable {d : Draft} {r : Reading}

theorem isEmpty_current (h : d.Spells r) : d.current.isEmpty = r.current.isEmpty := by
  rw [← h.current, Part.areSpelled_eq_map, List.isEmpty_map]

theorem isEmpty_brackets (h : d.Spells r) : d.brackets.isEmpty = r.groups.isEmpty := by
  rw [← h.groups, List.isEmpty_map]

theorem push (h : d.Spells r) {boundary : Bool} {c : Char}
    (hboundary : boundary = isBoundary (! r.groups.isEmpty) c) (ts : List Token) :
    (d.push boundary ts).Spells (r.push c ts) where
  current := by
    rw [Draft.push, ← List.map_reverse, Part.areSpelled_append, Part.areSpelled_tokens, h.current]
    rfl
  groups := h.groups
  boundary := hboundary

theorem span (h : d.Spells r) (hcurrent : r.current.isEmpty = false) {boundary : Bool} {c : Char}
    (hboundary : boundary = isBoundary (! r.groups.isEmpty) c) (atEnd : Bool) :
    (d.span atEnd boundary).Spells
      { r with previous := some c, current := spanning atEnd r.current } where
  current := by
    rw [← spanning_take atEnd r.current (by simpa using hcurrent), ← h.current, Draft.span,
      Part.areSpelled_append, Part.areSpelled_tokens, Part.areSpelled_take, Part.areSpelled_drop]
  groups := h.groups
  boundary := hboundary

theorem stars (h : d.Spells r) {rest : List Char} {ms : List Mark}
    (hms : marks false (openBraces r.groups.length) rest = some (ms.map Mark.braced)) :
    (d.stars ms).1.Spells (r.pushStars rest).1 ∧
      marks false (openBraces r.groups.length) (r.pushStars rest).2 =
        some ((d.stars ms).2.map Mark.braced) := by
  have hplain : (d.push false [.many, .many]).Spells (r.push '*' [.many, .many]) :=
    h.push (by simp [isBoundary]) _
  have hspan : r.current.isEmpty = false → ∀ atEnd, (d.span atEnd false).Spells
      { r with previous := some '*', current := spanning atEnd r.current } :=
    fun hcurrent atEnd => h.span hcurrent (by simp [isBoundary]) atEnd
  cases rest with
  | nil =>
    obtain rfl : ms = [] := by simpa [marks, eq_comm] using hms
    rw [Draft.stars_nil, Reading.pushStars_nil, h.isEmpty_current, h.boundary]
    split
    · exact ⟨h.push (by simp [isBoundary]) _, hms⟩
    · split
      · rename_i hcurrent _
        exact ⟨hspan (Bool.eq_false_iff.2 hcurrent) true, hms⟩
      · exact ⟨hplain, hms⟩
  | cons c rest =>
    by_cases hslash : c = '/'
    · subst hslash
      have hcons := hms
      rw [marks_of_markOf (by decide) (by decide) rfl (markOf_slash _)] at hcons
      obtain ⟨m, ms', rfl, hm, hrest⟩ := eq_cons_of_map_braced hcons
      obtain rfl := Mark.eq_of_braced hm (by simp)
      rw [Draft.stars_slash, Reading.pushStars_slash, h.isEmpty_current, h.boundary]
      split
      · exact ⟨h.push (by simp [isBoundary]) _, hrest⟩
      · split
        · rename_i hcurrent _
          exact ⟨h.span (Bool.eq_false_iff.2 hcurrent) (by simp [isBoundary]) false, hrest⟩
        · exact ⟨hplain, hms⟩
    · obtain ⟨m₀, ms₀, heq, hplain₀, -, hends⟩ := head_of_marks hms
      obtain ⟨m, ms', rfl, rfl, rfl⟩ := List.map_eq_cons_iff.1 heq
      have hm : m ≠ .plain '/' := by
        rintro rfl
        exact hslash (hplain₀ rfl)
      have hends : m.endsAlternative = ((c == ',' || c == '}') && ! r.groups.isEmpty) := by
        rw [Mark.endsAlternative_braced] at hends
        rw [Bool.eq_iff_iff, hends]
        simp
      rw [Draft.stars_cons d hm, Reading.pushStars_cons r hslash, h.isEmpty_current, h.boundary,
        hends]
      split
      · rename_i hspans
        simp only [Bool.and_eq_true, Bool.not_eq_true'] at hspans
        exact ⟨hspan hspans.1.1 true, hms⟩
      · exact ⟨hplain, hms⟩

end Draft.Spells

/-! ## The other marks -/

theorem markOf_literal {n : Nat} {c : Char} (hmark : isMark c = false) (hcomma : c = ',' → n = 0) :
    markOf (openBraces n) c = some (.plain c, openBraces n) := by
  have hgroup : ∀ parens outer, openBraces n ≠ .group parens :: outer := by
    intro parens outer heq
    cases n <;> simp [List.replicate_succ] at heq
  unfold markOf
  split <;> simp_all [isMark]

def Mark.Steps (m : Mark) (r r' : Reading) : Prop :=
  ∀ d : Draft, d.Spells r → ∀ m' : Mark, m'.braced = m → ∃ d', d.mark m' = some d' ∧ d'.Spells r'

theorem Mark.steps_of_mark {m : Mark} {r r' : Reading} (hm : m ≠ .opening false)
    (h : ∀ d : Draft, d.Spells r → ∃ d', d.mark m = some d' ∧ d'.Spells r') : m.Steps r r' := by
  intro d hd m' hbraced
  obtain rfl := Mark.eq_of_braced hbraced hm
  exact h d hd

theorem Mark.steps_of_push {m : Mark} {r : Reading} {c : Char} {ts : List Token}
    (hm : m ≠ .opening false)
    (h : ∀ d : Draft, d.Spells r → d.mark m = some (d.push (isBoundary (! r.groups.isEmpty) c) ts)) :
    m.Steps r (r.push c ts) :=
  Mark.steps_of_mark hm fun d hd => ⟨_, h d hd, hd.push rfl ts⟩

theorem Draft.Spells.choices {d : Draft} {r : Reading} (hd : d.Spells r)
    (choices : List (List Part)) :
    Part.allSpelled (d.current.reverse :: choices) =
      r.current.reverse :: Part.allSpelled choices := by
  rw [Part.allSpelled, Part.areSpelled_reverse, hd.current]

theorem Step.single_or_stars {r r' : Reading} {cs cs' : List Char} (h : Step r cs r' cs') :
    (∃ m, marks false (openBraces r.groups.length) cs =
        (marks false (openBraces r'.groups.length) cs').map (m :: ·) ∧
      (m = .star → cs'.head? ≠ some '*') ∧ m.Steps r r') ∨
    ∃ rest, cs = '*' :: '*' :: rest ∧ r' = (r.pushStars rest).1 ∧ cs' = (r.pushStars rest).2 := by
  cases h with
  | one =>
    refine .inl ⟨.one, ?_, by simp, Mark.steps_of_push (by simp) fun d hd => ?_⟩
    · exact marks_of_markOf (by decide) (by decide) rfl (by simp [markOf])
    · simp [Draft.mark, isBoundary]
  | stars rest => exact .inr ⟨rest, rfl, rfl, rfl⟩
  | many _ hnext =>
    refine .inl ⟨.star, ?_, fun _ => hnext, Mark.steps_of_push (by simp) fun d hd => ?_⟩
    · exact marks_of_markOf (by decide) (by decide) rfl (by simp [markOf])
    · simp [Draft.mark, isBoundary]
  | escaped c =>
    refine .inl ⟨.escaped c, marks_escaped _ _ _ _, by simp,
      Mark.steps_of_push (by simp) fun d hd => ?_⟩
    rw [Draft.mark, hd.isEmpty_brackets]
  | bracket rest token after hclass =>
    refine .inl ⟨.bracket token, marks_bracket _ _ hclass, by simp,
      Mark.steps_of_push (by simp) fun d hd => ?_⟩
    simp [Draft.mark, isBoundary]
  | opening =>
    refine .inl ⟨.opening false, ?_, by simp, fun d hd m' hm => ?_⟩
    · exact marks_of_markOf (by decide) (by decide) rfl (by simp [markOf, List.replicate_succ])
    · cases m' with
      | opening isGroup =>
        refine ⟨_, rfl, rfl, ?_, ?_⟩
        · simp [OpenPart.spelled, hd.current, hd.groups, Part.allSpelled]
        · simp [Reading.atBoundary, isBoundary]
      | _ => cases hm
  | closing _ g outer hgroups =>
    refine .inl ⟨.closing, ?_, by simp, Mark.steps_of_mark (by simp) fun d hd => ?_⟩
    · rw [hgroups]
      exact marks_of_markOf (by decide) (by decide) rfl (by simp [markOf, List.replicate_succ])
    · obtain ⟨b, bs, hbrackets, rfl, rfl⟩ := List.map_eq_cons_iff.1 (hd.groups.trans hgroups)
      refine ⟨_, by rw [Draft.mark, hbrackets], ?_, rfl, ?_⟩
      · rw [OpenPart.spelled, ← hd.choices, ← Part.allSpelled_reverse]
        cases b.isGroup <;> rfl
      · simp [Reading.atBoundary, isBoundary]
  | dividing _ g outer hgroups =>
    refine .inl ⟨.dividing, ?_, by simp, Mark.steps_of_mark (by simp) fun d hd => ?_⟩
    · rw [hgroups]
      exact marks_of_markOf (by decide) (by decide) rfl (by simp [markOf, List.replicate_succ])
    · obtain ⟨b, bs, hbrackets, rfl, rfl⟩ := List.map_eq_cons_iff.1 (hd.groups.trans hgroups)
      refine ⟨_, by rw [Draft.mark, hbrackets], rfl, ?_, ?_⟩
      · simp [OpenPart.spelled, hd.choices]
      · simp [Reading.atBoundary, isBoundary]
  | literal c _ hmark hcomma =>
    have hn : c = ',' → r.groups.length = 0 := fun hc => by rw [hcomma hc, List.length_nil]
    refine .inl ⟨.plain c, ?_, by simp, Mark.steps_of_push (by simp) fun d hd => ?_⟩
    · refine marks_of_markOf ?_ ?_ rfl (markOf_literal hmark hn)
      · rintro rfl
        simp [isMark] at hmark
      · rintro rfl
        simp [isMark] at hmark
    · -- a comma is text only outside brackets, and an opening brace nowhere
      have hinside : (! r.groups.isEmpty && (c == ',' || c == '{')) = false := by
        by_cases hcase : c = ','
        · rw [hcomma hcase]
          rfl
        · have hbrace : c ≠ '{' := by
            rintro rfl
            simp [isMark] at hmark
          simp [hcase, hbrace]
      rw [Draft.mark, isBoundary, hinside, Bool.or_false]

/-! ## Whole readings -/

theorem marks_stars (n : Nat) (rest : List Char) :
    marks false (openBraces n) ('*' :: '*' :: rest) =
      (marks false (openBraces n) rest).map (.star :: .star :: ·) := by
  have hstar : ∀ cs, marks false (openBraces n) ('*' :: cs) =
      (marks false (openBraces n) cs).map (.star :: ·) :=
    fun cs => marks_of_markOf (by decide) (by decide) rfl (by simp [markOf])
  rw [hstar, hstar, Option.map_map]
  rfl

theorem head?_of_marks_star {n : Nat} {cs : List Char} {ms : List Mark}
    (h : marks false (openBraces n) cs = some (.star :: ms)) : cs.head? = some '*' := by
  cases cs with
  | nil => simp [marks] at h
  | cons c rest =>
    obtain ⟨m, ms', heq, -, hstar, -⟩ := head_of_marks h
    obtain ⟨rfl, -⟩ := List.cons.inj heq
    rw [hstar rfl, List.head?_cons]

theorem Reading.pushStars_rest (r : Reading) (rest : List Char) :
    (r.pushStars rest).2 = rest ∨ rest = '/' :: (r.pushStars rest).2 := by
  cases rest with
  | nil =>
    rw [Reading.pushStars_nil]
    repeat' split
    all_goals exact .inl rfl
  | cons c rest =>
    by_cases hslash : c = '/'
    · subst hslash
      rw [Reading.pushStars_slash]
      repeat' split
      all_goals simp
    · rw [Reading.pushStars_cons r hslash]
      split <;> exact .inl rfl

theorem Reads.exists_marks {r : Reading} {cs : List Char} {p : Pattern} (h : Reads r cs p) :
    ∃ ms, marks false (openBraces r.groups.length) cs = some ms := by
  induction h with
  | done r hgroups => exact ⟨[], by rw [marks]⟩
  | @step r r' cs cs' p hstep _ ih =>
    obtain ⟨ms, hms⟩ := ih
    rcases hstep.single_or_stars with ⟨m, hm, -, -⟩ | ⟨rest, rfl, rfl, rfl⟩
    · exact ⟨m :: ms, by rw [hm, hms]; rfl⟩
    · rw [Reading.pushStars_groups] at hms
      rcases r.pushStars_rest rest with hrest | hrest
      · rw [hrest] at hms
        exact ⟨_, by rw [marks_stars, hms]; rfl⟩
      · refine ⟨.star :: .star :: .plain '/' :: ms, ?_⟩
        rw [hrest, marks_stars, marks_of_markOf (by decide) (by decide) rfl (markOf_slash _), hms]
        rfl

/-- Marks that are those of the text, up to the kind of the brackets, are read to parts that spell
the pattern of the text. -/
theorem Reads.spelled {r : Reading} {cs : List Char} {p : Pattern} (h : Reads r cs p) {d : Draft}
    (hd : d.Spells r) {ms : List Mark}
    (hms : marks false (openBraces r.groups.length) cs = some (ms.map Mark.braced)) :
    ∃ ps, d.read ms = some ps ∧ Part.areSpelled ps = p := by
  induction h generalizing d ms with
  | done r hgroups =>
    obtain rfl : ms = [] := by simpa [marks, eq_comm] using hms
    refine ⟨d.current.reverse, ?_, ?_⟩
    · rw [Draft.read, hd.isEmpty_brackets, hgroups]
      rfl
    · rw [Part.areSpelled_reverse, hd.current]
  | @step r r' cs cs' p hstep _ ih =>
    rcases hstep.single_or_stars with ⟨m, hm, hstar, hnext⟩ | ⟨rest, rfl, rfl, rfl⟩
    · rw [hm] at hms
      obtain ⟨m', ms', rfl, hbraced, hms'⟩ := eq_cons_of_map_braced hms
      obtain ⟨d', hmark, hd'⟩ := hnext d hd m' hbraced
      obtain ⟨ps, hread, hps⟩ := ih hd' hms'
      refine ⟨ps, ?_, hps⟩
      rw [Draft.read, hmark]
      · exact hread
      · rintro rest rfl rfl
        exact hstar hbraced.symm (head?_of_marks_star hms')
    · rw [marks_stars] at hms
      obtain ⟨ms₁, hms₁, heq⟩ := Option.map_eq_some_iff.1 hms
      obtain ⟨m, ms₂, rfl, hm, heq⟩ := List.map_eq_cons_iff.1 heq.symm
      obtain ⟨m', ms', rfl, hm', rfl⟩ := List.map_eq_cons_iff.1 heq
      obtain rfl := Mark.eq_of_braced hm (by simp)
      obtain rfl := Mark.eq_of_braced hm' (by simp)
      obtain ⟨hd', hms'⟩ := hd.stars hms₁
      rw [Draft.read]
      exact ih hd' (by rw [Reading.pushStars_groups]; exact hms')

end Lintel.Glob
