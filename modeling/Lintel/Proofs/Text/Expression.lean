import Lintel.Proofs.Text.Cutting

/-!
# Searching for expressions

An expression is tried at a place in a text and ends at other places, the preferred one first: a
repetition takes as many characters as it can, an option prefers to be taken, and of two
alternatives the first one is preferred. A search gives the preferred end of the leftmost place
where there is one. What follows a repetition and cannot begin with one of its characters leaves no
choice: the repetition has to take the whole run.
-/
namespace Lintel.Text

/-- A place in a text: how many characters are behind it, the text ahead, and the texts of the
groups that were read, the last one first. -/
structure Place where
  position : Nat
  rest : List Char
  groups : List (Nat × List Char)

namespace Place

def skip (s : Place) (n : Nat) : Place := ⟨s.position + n, s.rest.drop n, s.groups⟩

@[simp] theorem rest_skip (s : Place) (n : Nat) : (s.skip n).rest = s.rest.drop n := rfl

@[simp] theorem position_skip (s : Place) (n : Nat) : (s.skip n).position = s.position + n := rfl

@[simp] theorem groups_skip (s : Place) (n : Nat) : (s.skip n).groups = s.groups := rfl

theorem skip_skip (s : Place) (m n : Nat) : (s.skip m).skip n = s.skip (m + n) := by
  simp [skip, Nat.add_assoc]

@[simp] theorem skip_zero (s : Place) : s.skip 0 = s := rfl

end Place

inductive Expression
  | start
  | finish
  | one (p : Char → Bool)
  | both (d e : Expression)
  | either (d e : Expression)
  | option (e : Expression)
  | times (e : Expression) (low high : Nat)
  | group (n : Nat) (e : Expression)

namespace Expression

def repeated (f : Place → List Place) : Nat → Nat → Place → List Place
  | low, 0, s => if low = 0 then [s] else []
  | low, high + 1, s =>
      (f s).flatMap (repeated f (low - 1) high) ++ if low = 0 then [s] else []

/-- The places where the expression can end, the preferred one first. -/
def ends : Expression → Place → List Place
  | .start, s => if s.position = 0 then [s] else []
  | .finish, s => if s.rest = [] then [s] else []
  | .one p, s => if s.rest.head?.any p then [s.skip 1] else []
  | .both d e, s => (d.ends s).flatMap e.ends
  | .either d e, s => d.ends s ++ e.ends s
  | .option e, s => e.ends s ++ [s]
  | .times e low high, s => repeated e.ends low high s
  | .group n e, s => (e.ends s).map fun t =>
      { t with groups := (n, s.rest.take (t.position - s.position)) :: t.groups }

def groupsAt (e : Expression) (s : Place) : Option (List (Nat × List Char)) :=
  (e.ends s).head?.map (·.groups)

def searchFrom (e : Expression) (position : Nat) : List Char → Option (List (Nat × List Char))
  | [] => e.groupsAt ⟨position, [], []⟩
  | c :: cs => (e.groupsAt ⟨position, c :: cs, []⟩).or (searchFrom e (position + 1) cs)

def find (e : Expression) (text : List Char) : Option (List (Nat × List Char)) :=
  e.searchFrom 0 text

def Declines (p : Char → Bool) (f : Place → List Place) : Prop :=
  ∀ s : Place, s.rest.head?.any p = true → f s = []

theorem flatMap_repeated {p : Char → Bool} {f : Place → List Place} (hf : Declines p f)
    (low high : Nat) (s : Place) :
    (repeated (ends (.one p)) low high s).flatMap f =
      if low ≤ (s.rest.takeWhile p).length ∧ (s.rest.takeWhile p).length ≤ high then
        f (s.skip (s.rest.takeWhile p).length)
      else [] := by
  -- one more character is either the next one of the run or none at all
  induction high generalizing low s with
  | zero =>
    rw [repeated]
    cases hrest : s.rest with
    | nil => by_cases hlow : low = 0 <;> simp [hlow]
    | cons c cs =>
      by_cases hc : p c = true
      · have hnone : f s = [] := hf s (by simp [hrest, hc])
        by_cases hlow : low = 0 <;> simp [hlow, hc, hnone]
      · by_cases hlow : low = 0 <;> simp [hlow, hc]
  | succ high ih =>
    rw [repeated, List.flatMap_append]
    cases hrest : s.rest with
    | nil => by_cases hlow : low = 0 <;> simp [ends, hrest, hlow]
    | cons c cs =>
      by_cases hc : p c = true
      · have hnone : f s = [] := hf s (by simp [hrest, hc])
        have hstop : (if low = 0 then [s] else []).flatMap f = [] := by
          split <;> simp [hnone]
        have hnext : ends (.one p) s = [s.skip 1] := by simp [ends, hrest, hc]
        have hlength : ((c :: cs).takeWhile p).length = (cs.takeWhile p).length + 1 := by
          simp [hc]
        have hbounds : low - 1 ≤ (cs.takeWhile p).length ∧ (cs.takeWhile p).length ≤ high ↔
            low ≤ (cs.takeWhile p).length + 1 ∧ (cs.takeWhile p).length + 1 ≤ high + 1 := by
          omega
        have hrun := ih (low - 1) (s.skip 1)
        simp only [Place.rest_skip, hrest, List.drop_succ_cons, List.drop_zero, hbounds,
          Place.skip_skip, Nat.add_comm 1] at hrun
        rw [hnext, List.flatMap_singleton, hrun, hstop, List.append_nil, hlength]
      · by_cases hlow : low = 0 <;> simp [ends, hrest, hc, hlow]

theorem drop_length_takeWhile (p : Char → Bool) (cs : List Char) :
    cs.drop (cs.takeWhile p).length = cs.dropWhile p := by
  have hcut := cs.takeWhile_append_dropWhile (p := p)
  calc cs.drop (cs.takeWhile p).length
      = (cs.takeWhile p ++ cs.dropWhile p).drop (cs.takeWhile p).length := by rw [hcut]
    _ = cs.dropWhile p := List.drop_left

theorem flatMap_ends_group {p : Char → Bool} {f : Place → List Place} (hf : Declines p f)
    (n low high : Nat) (s : Place) :
    (ends (.group n (.times (.one p) low high)) s).flatMap f =
      if low ≤ (s.rest.takeWhile p).length ∧ (s.rest.takeWhile p).length ≤ high then
        f ⟨s.position + (s.rest.takeWhile p).length, s.rest.dropWhile p,
          (n, s.rest.takeWhile p) :: s.groups⟩
      else [] := by
  have htake : s.rest.take (s.rest.takeWhile p).length = s.rest.takeWhile p :=
    (List.prefix_iff_eq_take.1 (List.takeWhile_prefix p)).symm
  have hgrouped : Declines p fun t => f
      { t with groups := (n, s.rest.take (t.position - s.position)) :: t.groups } :=
    fun t ht => hf _ ht
  rw [ends, List.flatMap_map, ends, flatMap_repeated hgrouped]
  simp [Place.skip, htake, drop_length_takeWhile]

theorem declines_both_option {p q : Char → Bool} {d e : Expression}
    (hpq : ∀ c, p c = true → q c = false) (he : Declines p e.ends) :
    Declines p (ends (.both (.option (.both (.one q) d)) e)) := by
  intro s hs
  obtain ⟨c, hhead, hc⟩ := (Option.any_eq_true p _).1 hs
  have hfirst : ends (.both (.one q) d) s = [] := by
    simp [ends, hhead, hpq c hc]
  rw [ends, ends, hfirst, List.nil_append, List.flatMap_singleton, he s hs]

end Expression

end Lintel.Text
