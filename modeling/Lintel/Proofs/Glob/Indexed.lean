import Lintel.Proofs.Glob.Detected

/-!
# Scans by position

A token can be scanned with an index that moves over its characters: the scan looks one or two
characters back, steps two over an escaped one, cuts slices between delimiters and counts the open
ones. Each of these can go wrong, and here each is checked. A scan that passes all its checks and
ends gives an answer, and the answers are those of the scans of the list itself.
-/
namespace Lintel.Glob.Indexed

/-- What can go wrong in a scan: an index outside the list, a difference below zero, a character taken
back that was not the last one pushed, or more rounds than there are characters. -/
inductive Misstep
  | outOfRange
  | underflow
  | notPushed
  | unending
  deriving DecidableEq, Repr

abbrev Checked := Except Misstep

@[simp] theorem ok_bind {α β : Type} (a : α) (f : α → Checked β) :
    ((Except.ok a : Checked α) >>= f) = f a := rfl

def minus (a b : Nat) : Checked Nat := if b ≤ a then .ok (a - b) else .error .underflow

section Lists

variable {α : Type}

def itemAt (as : List α) (i : Nat) : Checked α :=
  match as[i]? with
  | some a => .ok a
  | none => .error .outOfRange

def slice (as : List α) (i j : Nat) : Checked (List α) :=
  if i ≤ j ∧ j ≤ as.length then .ok ((as.take j).drop i) else .error .outOfRange

theorem minus_add (a b : Nat) : minus (a + b) b = .ok a := by
  rw [minus, if_pos (Nat.le_add_left b a), Nat.add_sub_cancel]

theorem itemAt_append (before : List α) (a : α) (rest : List α) :
    itemAt (before ++ a :: rest) before.length = .ok a := by
  simp [itemAt]

theorem slice_append (before mid rest : List α) :
    slice (before ++ (mid ++ rest)) before.length (before.length + mid.length) = .ok mid := by
  have hbound : before.length ≤ before.length + mid.length ∧
      before.length + mid.length ≤ (before ++ (mid ++ rest)).length := by
    simp only [List.length_append]
    omega
  rw [slice, if_pos hbound, ← List.append_assoc, List.take_left' List.length_append,
    List.drop_left]

theorem slice_zero {as : List α} {j : Nat} (h : j ≤ as.length) :
    slice as 0 j = .ok (as.take j) := if_pos ⟨Nat.zero_le j, h⟩

theorem slice_length {as : List α} {i : Nat} (h : i ≤ as.length) :
    slice as i as.length = .ok (as.drop i) := by
  rw [slice, if_pos ⟨h, Nat.le_refl _⟩, List.take_length]

end Lists

/-! ## Loops -/

inductive Round (σ α : Type)
  | again (s : σ)
  | done (a : α)

def loop {σ α : Type} (round : σ → Checked (Round σ α)) : Nat → σ → Checked α
  | 0, _ => .error .unending
  | fuel + 1, s => do
      match ← round s with
      | .again s' => loop round fuel s'
      | .done a => .ok a

section Loops

variable {σ α : Type} {round : σ → Checked (Round σ α)} {Leads : σ → α → Prop} {left : σ → Nat}

/-- A round without a misstep that keeps the answer and comes nearer to it. -/
def Advances (round : σ → Checked (Round σ α)) (Leads : σ → α → Prop) (left : σ → Nat) : Prop :=
  ∀ s a, Leads s a → round s = .ok (.done a) ∨
    ∃ s', round s = .ok (.again s') ∧ Leads s' a ∧ left s' < left s

theorem loop_eq_ok (hround : Advances round Leads left) {fuel : Nat} {s : σ} {a : α}
    (h : Leads s a) (hfuel : left s < fuel) : loop round fuel s = .ok a := by
  induction fuel generalizing s with
  | zero => omega
  | succ fuel ih =>
    rcases hround s a h with hdone | ⟨s', hagain, hleads, hleft⟩
    · rw [loop, hdone]
      rfl
    · rw [loop, hagain, ok_bind]
      exact ih hleads (by omega)

end Loops

/-! ## Delimiters -/

variable {opener closer : Char}

def closingRound (opener closer : Char) (cs : List Char) (s : Nat × Nat) :
    Checked (Round (Nat × Nat) (Option Nat)) :=
  if s.1 < cs.length then do
    let c ← itemAt cs s.1
    if c = '\\' then .ok (.again (s.1 + 2, s.2))
    else if c = opener then .ok (.again (s.1 + 1, s.2 + 1))
    else if c = closer then do
      let depth ← minus s.2 1
      if depth = 0 then .ok (.done (some s.1)) else .ok (.again (s.1 + 1, depth))
    else .ok (.again (s.1 + 1, s.2))
  else .ok (.done none)

def findClosing (opener closer : Char) (cs : List Char) (i : Nat) : Checked (Option Nat) :=
  loop (closingRound opener closer cs) (cs.length + 1) (i, 0)

def closerAt (i : Nat) (found : Option (List Char × List Char)) : Option Nat :=
  found.map fun (body, _) => i + body.length

theorem closerAt_map (i : Nat) (front : List Char) (found : Option (List Char × List Char)) :
    closerAt i (found.map fun (body, after) => (front ++ body, after)) =
      closerAt (i + front.length) found := by
  cases found with
  | none => rfl
  | some found => simp [closerAt, Nat.add_assoc]

/-- The states of the search: at the opener, behind it, and behind the text where nothing is found. -/
inductive Seeks (opener closer : Char) (cs : List Char) : Nat × Nat → Option Nat → Prop
  | start {i : Nat} (before rest : List Char) {a : Option Nat} (hcs : cs = before ++ opener :: rest)
      (hi : before.length = i) (ha : closerAt (i + 1) (enclosed opener closer 0 rest) = a) :
      Seeks opener closer cs (i, 0) a
  | inside {i : Nat} (before rest : List Char) {depth : Nat} {a : Option Nat}
      (hcs : cs = before ++ rest) (hi : before.length = i)
      (ha : closerAt i (enclosed opener closer depth rest) = a) :
      Seeks opener closer cs (i, depth + 1) a
  | past {i depth : Nat} (hi : cs.length ≤ i) : Seeks opener closer cs (i, depth) none

theorem Seeks.step {before rest : List Char} {depth : Nat} {a : Option Nat} (front : List Char)
    (ha : closerAt before.length ((enclosed opener closer depth rest).map
      fun (body, after) => (front ++ body, after)) = a) :
    Seeks opener closer (before ++ (front ++ rest)) (before.length + front.length, depth + 1) a := by
  rw [closerAt_map] at ha
  exact .inside (before ++ front) rest (by simp) (by simp) ha

theorem closingRound_append (before : List Char) (c : Char) (rest : List Char) (depth : Nat) :
    closingRound opener closer (before ++ c :: rest) (before.length, depth) =
      if c = '\\' then .ok (.again (before.length + 2, depth))
      else if c = opener then .ok (.again (before.length + 1, depth + 1))
      else if c = closer then do
        let depth ← minus depth 1
        if depth = 0 then .ok (.done (some before.length))
        else .ok (.again (before.length + 1, depth))
      else .ok (.again (before.length + 1, depth)) := by
  simp only [closingRound, itemAt_append, ok_bind]
  rw [if_pos (by simp)]

theorem closingRound_past {cs : List Char} {i : Nat} (h : cs.length ≤ i) (depth : Nat) :
    closingRound opener closer cs (i, depth) = .ok (.done none) := by
  rw [closingRound, if_neg (Nat.not_lt_of_le h)]

theorem closingRound_inside (hd : Delimiters opener closer) {before rest : List Char} {c : Char}
    {depth : Nat} {a : Option Nat}
    (ha : closerAt before.length (enclosed opener closer depth (c :: rest)) = a) :
    closingRound opener closer (before ++ c :: rest) (before.length, depth + 1) = .ok (.done a) ∨
      ∃ s, closingRound opener closer (before ++ c :: rest) (before.length, depth + 1) =
          .ok (.again s) ∧ Seeks opener closer (before ++ c :: rest) s a ∧ before.length < s.1 := by
  rw [closingRound_append]
  by_cases hescape : c = '\\'
  · rw [if_pos hescape]
    refine .inr ⟨_, rfl, ?_, by dsimp only; omega⟩
    subst hescape
    rcases rest with _ | ⟨d, rest⟩
    · rw [enclosed] at ha
      subst ha
      exact .past (by simp)
    · rw [enclosed_escaped] at ha
      exact .step ['\\', d] ha
  rw [if_neg hescape]
  by_cases hopen : c = opener
  · subst hopen
    rw [if_pos rfl]
    rw [enclosed_opener hd] at ha
    exact .inr ⟨_, rfl, .step [c] ha, Nat.lt_succ_self _⟩
  rw [if_neg hopen]
  by_cases hclose : c = closer
  · subst hclose
    rw [if_pos rfl, minus_add, ok_bind]
    -- the opener in front is open too, so there is something to take off at each closer
    cases depth with
    | zero =>
      rw [enclosed_closer hd] at ha
      subst ha
      exact .inl rfl
    | succ depth =>
      rw [if_neg (Nat.succ_ne_zero depth)]
      rw [enclosed_closer_succ hd] at ha
      exact .inr ⟨_, rfl, .step [c] ha, Nat.lt_succ_self _⟩
  · rw [if_neg hclose]
    rw [enclosed_plain (by simp [hescape, hopen, hclose])] at ha
    exact .inr ⟨_, rfl, .step [c] ha, Nat.lt_succ_self _⟩

theorem closingRound_advances (hd : Delimiters opener closer) (cs : List Char) :
    Advances (closingRound opener closer cs) (Seeks opener closer cs) fun s => cs.length - s.1 := by
  intro s a h
  cases h with
  | @start i before rest _ hcs hi ha =>
    subst hcs hi
    rw [closingRound_append, if_neg hd.opener_ne, if_pos rfl]
    refine .inr ⟨_, rfl, .inside (before ++ [opener]) rest (by simp) (by simp) ha, ?_⟩
    simp only [List.length_append, List.length_cons]
    omega
  | @inside i before rest depth _ hcs hi ha =>
    subst hcs hi
    rcases rest with _ | ⟨c, rest⟩
    · rw [enclosed] at ha
      subst ha
      exact .inl (closingRound_past (by simp) _)
    · have hlength : (before ++ c :: rest).length = before.length + (rest.length + 1) :=
        List.length_append
      rcases closingRound_inside hd ha with hdone | ⟨s, hagain, hseeks, hlt⟩
      · exact .inl hdone
      · exact .inr ⟨s, hagain, hseeks, by dsimp only; omega⟩
  | past hi => exact .inl (closingRound_past hi _)

theorem findClosing_append (hd : Delimiters opener closer) (before rest : List Char) :
    findClosing opener closer (before ++ opener :: rest) before.length =
      .ok (closerAt (before.length + 1) (enclosed opener closer 0 rest)) := by
  apply loop_eq_ok (closingRound_advances hd _) (.start before rest rfl rfl rfl)
  dsimp only
  omega

theorem slice_enclosed {depth : Nat} {rest body after : List Char}
    (h : enclosed opener closer depth rest = some (body, after)) (before : List Char) :
    slice (before ++ opener :: rest) (before.length + 1) (before.length + 1 + body.length) =
      .ok body := by
  have hslice := slice_append (before ++ [opener]) body (closer :: after)
  rw [enclosed_eq_append h]
  simpa using hslice

/-! ## Neighbours and braces -/

def opensAt (cs : List Char) (i : Nat) : Checked Bool :=
  if 0 < i then do
    let op ← itemAt cs (← minus i 1)
    if op ∈ groupOperators then
      if 1 < i then do
        let previous ← itemAt cs (← minus i 2)
        .ok (previous != '\\')
      else .ok true
    else .ok false
  else .ok false

theorem opensAt_append (before rest : List Char) :
    opensAt (before ++ rest) before.length = .ok (opensGroup before.reverse) := by
  rcases List.eq_nil_or_concat before with rfl | ⟨front, op, rfl⟩
  · rfl
  · have hop : itemAt (front ++ op :: rest) front.length = .ok op := itemAt_append front op rest
    simp only [List.concat_eq_append, List.append_assoc, List.singleton_append, opensAt,
      List.length_append, List.length_singleton, minus_add, ok_bind, hop]
    rw [if_pos (Nat.succ_pos _)]
    by_cases hmem : op ∈ groupOperators
    · rw [if_pos hmem]
      rcases List.eq_nil_or_concat front with rfl | ⟨more, previous, rfl⟩
      · simp [opensGroup, hmem]
      · have hprevious : itemAt (more ++ previous :: op :: rest) more.length = .ok previous :=
          itemAt_append more previous (op :: rest)
        simp only [List.concat_eq_append, List.append_assoc, List.singleton_append,
          List.length_append, List.length_singleton]
        rw [if_pos (by omega), minus_add more.length 2, ok_bind, hprevious, ok_bind]
        simp [opensGroup, hmem]
    · rw [if_neg hmem]
      rcases List.eq_nil_or_concat front with rfl | ⟨more, previous, rfl⟩
      · simp [opensGroup, hmem]
      · simp [opensGroup, hmem]

def topLevel (needle : Char) : Nat → Bool → List Char → Checked Bool
  | _, _, [] => .ok false
  | depth, true, _ :: rest => topLevel needle depth false rest
  | depth, false, c :: rest =>
      if c = '\\' then topLevel needle depth true rest
      else if c = '{' then topLevel needle (depth + 1) false rest
      else if c = '}' then do topLevel needle (← minus depth 1) false rest
      else if c = needle ∧ depth = 0 then .ok true
      else topLevel needle depth false rest

theorem topLevel_of_enclosed {depth : Nat} {cs body after : List Char}
    (h : enclosed '{' '}' depth cs = some (body, after)) (needle : Char) :
    topLevel needle depth false body = .ok (hasTopLevel needle depth body) := by
  fun_induction enclosed '{' '}' depth cs generalizing body after with
  | case1 => cases h
  | case2 => cases h
  | case3 depth c rest ih =>
    obtain ⟨⟨b, a⟩, hb, he⟩ := Option.map_eq_some_iff.1 h
    obtain ⟨rfl, rfl⟩ := Prod.mk.inj he
    have hrest := ih hb
    rw [hasTopLevel_escaped]
    exact hrest
  | case4 depth rest _ _ ih =>
    obtain ⟨⟨b, a⟩, hb, he⟩ := Option.map_eq_some_iff.1 h
    obtain ⟨rfl, rfl⟩ := Prod.mk.inj he
    rw [hasTopLevel_cons (by decide), if_pos rfl]
    exact ih hb
  | case5 rest _ _ _ =>
    -- the body ends in front of the one closer that it did not open
    obtain ⟨rfl, rfl⟩ := Prod.mk.inj (Option.some.inj h)
    rfl
  | case6 rest d _ _ _ ih =>
    obtain ⟨⟨b, a⟩, hb, he⟩ := Option.map_eq_some_iff.1 h
    obtain ⟨rfl, rfl⟩ := Prod.mk.inj he
    rw [hasTopLevel_cons (by decide), if_neg (by decide), if_pos rfl]
    exact ih hb
  | case7 depth c rest hlast hpair hopen hclose ih =>
    obtain ⟨⟨b, a⟩, hb, he⟩ := Option.map_eq_some_iff.1 h
    obtain ⟨rfl, rfl⟩ := Prod.mk.inj he
    have hescape : c ≠ '\\' := ne_escape hlast hpair
    rw [hasTopLevel_cons hescape, if_neg hopen, if_neg hclose, topLevel, if_neg hescape,
      if_neg hopen, if_neg hclose, ih hb]
    by_cases htop : c = needle ∧ depth = 0
    · simp [htop.1, htop.2]
    · rw [if_neg htop]
      congr 1
      simp_all

end Lintel.Glob.Indexed
