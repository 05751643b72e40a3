import Lintel.Path.FileSet

/-!
# Keeping first spellings

`Path.firsts` keeps the first of all spellings of each path. It commutes with every selection that
does not look at the spelling, leaves a list without repetitions alone, and may be applied early to
any part of a longer list.
-/
namespace Lintel.Path

def others (p : Path) (ps : List Path) : List Path := ps.filter fun q => ! decide (q.Same p)

theorem firstsFrom_congr_seen {seen seen' : List (List Component)}
    (h : ∀ c, c ∈ seen ↔ c ∈ seen') (ps : List Path) :
    firstsFrom seen ps = firstsFrom seen' ps := by
  induction ps generalizing seen seen' with
  | nil => rfl
  | cons q qs ih =>
    have hcons : ∀ c, c ∈ q.components :: seen ↔ c ∈ q.components :: seen' := by simp [h]
    simp only [firstsFrom, ih h, ih hcons, h]

theorem firstsFrom_cons_seen (p : Path) (seen : List (List Component)) (ps : List Path) :
    firstsFrom (p.components :: seen) ps = firstsFrom seen (others p ps) := by
  induction ps generalizing seen with
  | nil => rfl
  | cons q qs ih =>
    by_cases hsame : q.Same p
    · have hseen : q.components ∈ p.components :: seen := by
        rw [show q.components = p.components from hsame]; exact List.mem_cons_self ..
      rw [firstsFrom, if_pos hseen, ih, others, others, List.filter_cons_of_neg (by simp [hsame])]
    · have hne : q.components ≠ p.components := hsame
      rw [others, List.filter_cons_of_pos (by simp [hsame])]
      by_cases hseen : q.components ∈ seen
      · rw [firstsFrom, if_pos (List.mem_cons_of_mem _ hseen), firstsFrom, if_pos hseen, ih, others]
      · have hboth : q.components ∉ p.components :: seen := by simp [hne, hseen]
        have hswap : firstsFrom (q.components :: p.components :: seen) qs =
            firstsFrom (q.components :: seen) (others p qs) := by
          rw [← ih]
          exact firstsFrom_congr_seen (fun c => by simp only [List.mem_cons, or_left_comm]) qs
        rw [firstsFrom, if_neg hboth, firstsFrom, if_neg hseen, hswap, others]

@[simp] theorem firsts_nil : firsts [] = [] := rfl

theorem firsts_cons (p : Path) (ps : List Path) :
    firsts (p :: ps) = p :: firsts (others p ps) := by
  rw [firsts, firstsFrom, if_neg (by simp), firstsFrom_cons_seen, firsts]

theorem length_others_le (p : Path) (ps : List Path) : (others p ps).length ≤ ps.length :=
  List.length_filter_le ..

theorem mem_of_mem_firstsFrom {seen : List (List Component)} {ps : List Path} {p : Path}
    (h : p ∈ firstsFrom seen ps) : p ∈ ps := by
  induction ps generalizing seen with
  | nil => exact h
  | cons q qs ih =>
    rw [firstsFrom] at h
    split at h
    · exact List.mem_cons_of_mem _ (ih h)
    · rcases List.mem_cons.1 h with rfl | h
      · exact List.mem_cons_self ..
      · exact List.mem_cons_of_mem _ (ih h)

theorem mem_of_mem_firsts {p : Path} {ps : List Path} (h : p ∈ firsts ps) : p ∈ ps :=
  mem_of_mem_firstsFrom h

/-- A selection that takes all spellings of a path or none. -/
def Blind (f : Path → Bool) : Prop := ∀ p q : Path, p.Same q → f p = f q

theorem blind_others (p : Path) : Blind fun q => ! decide (q.Same p) := by
  intro q r h
  have hiff : q.Same p ↔ r.Same p := ⟨fun k => h.symm.trans k, fun k => h.trans k⟩
  simp only [hiff]

theorem firsts_filter {f : Path → Bool} (hf : Blind f) (ps : List Path) :
    firsts (ps.filter f) = (firsts ps).filter f := by
  match ps with
  | [] => rfl
  | p :: ps =>
    have hlen := length_others_le p ps
    have ih := firsts_filter hf (others p ps)
    rw [firsts_cons]
    cases hp : f p with
    | true =>
      rw [List.filter_cons_of_pos hp, List.filter_cons_of_pos hp, firsts_cons, ← ih, others, others,
        List.filter_filter, List.filter_filter]
      simp only [Bool.and_comm]
    | false =>
      -- whatever `f` keeps is no spelling of `p`
      have hsub : (others p ps).filter f = ps.filter f := by
        rw [others, List.filter_filter]
        apply List.filter_congr
        intro q _
        by_cases hsame : q.Same p
        · rw [hf q p hsame, hp, Bool.false_and]
        · simp [hsame]
      rw [List.filter_cons_of_neg (by simp [hp]), List.filter_cons_of_neg (by simp [hp]), ← ih,
        hsub]
termination_by ps.length
decreasing_by simp only [List.length_cons]; omega

theorem firsts_of_pairwise {ps : List Path} (h : ps.Pairwise fun p q => ¬ p.Same q) :
    firsts ps = ps := by
  induction ps with
  | nil => rfl
  | cons p ps ih =>
    obtain ⟨hp, hps⟩ := List.pairwise_cons.1 h
    have hothers : others p ps = ps :=
      List.filter_eq_self.2 fun q hq => by simpa using fun hs => hp q hq (Same.symm hs)
    rw [firsts_cons, hothers, ih hps]

theorem firsts_firsts (ps : List Path) : firsts (firsts ps) = firsts ps :=
  firsts_of_pairwise (pairwise_firstsFrom [] ps)

theorem firsts_append_firsts (ps qs : List Path) :
    firsts (firsts ps ++ firsts qs) = firsts (ps ++ qs) := by
  match ps with
  | [] => simpa using firsts_firsts qs
  | p :: ps =>
    have hlen := length_others_le p ps
    have ih := firsts_append_firsts (others p ps) (others p qs)
    have hself : others p (firsts (others p ps)) = firsts (others p ps) := by
      rw [others, ← firsts_filter (blind_others p), others, List.filter_filter]
      simp only [Bool.and_self]
    have hqs : others p (firsts qs) = firsts (others p qs) :=
      (firsts_filter (blind_others p) qs).symm
    have happend (as bs : List Path) : others p (as ++ bs) = others p as ++ others p bs :=
      List.filter_append ..
    rw [firsts_cons, List.cons_append, List.cons_append, firsts_cons, firsts_cons, happend, happend,
      hself, hqs, ih]
termination_by ps.length
decreasing_by simp only [List.length_cons]; omega

theorem firsts_append_firsts_right (ps qs : List Path) :
    firsts (ps ++ firsts qs) = firsts (ps ++ qs) := by
  rw [← firsts_append_firsts, firsts_firsts, firsts_append_firsts]

theorem firsts_append_firsts_left (ps qs : List Path) :
    firsts (firsts ps ++ qs) = firsts (ps ++ qs) := by
  rw [← firsts_append_firsts, firsts_firsts, firsts_append_firsts]

theorem firsts_flatMap_firsts (pss : List (List Path)) :
    firsts (pss.flatMap firsts) = firsts pss.flatten := by
  induction pss with
  | nil => rfl
  | cons ps pss ih =>
    rw [List.flatMap_cons, List.flatten_cons, firsts_append_firsts_left,
      ← firsts_append_firsts_right, ih, firsts_append_firsts_right]

theorem firsts_eq_eraseDups {ps : List Path} (h : ∀ p ∈ ps, ∀ q ∈ ps, p.Same q → p = q) :
    firsts ps = ps.eraseDups := by
  match ps with
  | [] => rfl
  | p :: ps =>
    have hlen := length_others_le p ps
    have hothers : others p ps = ps.filter fun q => ! (q == p) := by
      apply List.filter_congr
      intro q hq
      have hiff : q.Same p ↔ q = p :=
        ⟨h q (List.mem_cons_of_mem _ hq) p (List.mem_cons_self ..), fun heq => heq ▸ Same.refl q⟩
      simp only [hiff]
      rfl
    have hmem : ∀ q ∈ others p ps, q ∈ p :: ps := fun q hq =>
      List.mem_cons_of_mem _ (List.mem_filter.1 hq).1
    have ih : firsts (others p ps) = (others p ps).eraseDups :=
      firsts_eq_eraseDups fun q hq r hr => h q (hmem q hq) r (hmem r hr)
    rw [firsts_cons, List.eraseDups_cons, ih, hothers]
termination_by ps.length
decreasing_by simp only [List.length_cons]; omega

end Lintel.Path
