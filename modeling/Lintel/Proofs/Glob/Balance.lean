import Lintel.Glob.Syntax

/-!
# Balanced delimiters

A text balances a pair of delimiters if each of them that stands outside escaped pairs has its
partner, nested in the usual way. What an open delimiter encloses is the balanced text up to the
first closer behind it, and a character of such a text is at the top level of braces exactly if the
text in front of it is balanced too.
-/
namespace Lintel.Glob

/-- Whether a text, read from the left with each backslash and the character behind it as a pair,
ends with no pair half read. -/
def isWhole : List Char → Bool
  | [] => true
  | ['\\'] => false
  | '\\' :: _ :: rest => isWhole rest
  | _ :: rest => isWhole rest

theorem ne_escape {c : Char} {rest : List Char} (hlast : c = '\\' → rest = [] → False)
    (hpair : ∀ d rest', c = '\\' → rest = d :: rest' → False) : c ≠ '\\' := by
  rintro rfl
  cases rest with
  | nil => exact hlast rfl rfl
  | cons d rest => exact hpair d rest rfl rfl

theorem isWhole_escaped (c : Char) (rest : List Char) :
    isWhole ('\\' :: c :: rest) = isWhole rest := by
  rw [isWhole]

theorem isWhole_cons {c : Char} (hc : c ≠ '\\') (rest : List Char) :
    isWhole (c :: rest) = isWhole rest := by
  rw [isWhole]
  · exact fun h _ => hc h
  · exact fun _ _ h _ => hc h

theorem isWhole_append {before : List Char} (h : isWhole before = true) (rest : List Char) :
    isWhole (before ++ rest) = isWhole rest := by
  fun_induction isWhole before with
  | case1 => rfl
  | case2 => cases h
  | case3 c before ih => rw [List.cons_append, List.cons_append, isWhole_escaped, ih h]
  | case4 c before hlast hpair ih =>
    rw [List.cons_append, isWhole_cons (ne_escape hlast hpair), ih h]

theorem isWhole_of_getLast? {cs : List Char} (h : cs.getLast? ≠ some '\\') :
    isWhole cs = true := by
  fun_induction isWhole cs with
  | case1 => rfl
  | case2 => exact absurd rfl h
  | case3 c rest ih =>
    cases rest with
    | nil => rfl
    | cons d rest => exact ih (by simpa using h)
  | case4 c rest hlast hpair ih =>
    cases rest with
    | nil => rfl
    | cons d rest => exact ih (by simpa using h)

inductive Balanced (opener closer : Char) : List Char → Prop
  | nil : Balanced opener closer []
  | escaped (c : Char) {rest : List Char} (hrest : Balanced opener closer rest) :
      Balanced opener closer ('\\' :: c :: rest)
  | plain {c : Char} {rest : List Char} (hc : c ∉ ['\\', opener, closer])
      (hrest : Balanced opener closer rest) : Balanced opener closer (c :: rest)
  | nested {inner rest : List Char} (hinner : Balanced opener closer inner)
      (hrest : Balanced opener closer rest) :
      Balanced opener closer (opener :: (inner ++ closer :: rest))

structure Delimiters (opener closer : Char) : Prop where
  opener_ne : opener ≠ '\\'
  closer_ne : closer ≠ '\\'
  ne : opener ≠ closer

variable {opener closer : Char}

theorem Balanced.append {cs ds : List Char} (hcs : Balanced opener closer cs)
    (hds : Balanced opener closer ds) : Balanced opener closer (cs ++ ds) := by
  induction hcs with
  | nil => exact hds
  | escaped c _ ih => exact .escaped c ih
  | plain hc _ ih => exact .plain hc ih
  | nested hinner _ _ ih =>
    rw [List.cons_append, List.append_assoc, List.cons_append]
    exact .nested hinner ih

theorem Balanced.isWhole (hd : Delimiters opener closer) {cs : List Char}
    (h : Balanced opener closer cs) : isWhole cs = true := by
  induction h with
  | nil => rfl
  | escaped c _ ih => rw [isWhole_escaped, ih]
  | plain hc _ ih =>
    rw [isWhole_cons (fun h => hc (by simp [h])), ih]
  | nested _ _ hinner hrest =>
    rw [isWhole_cons hd.opener_ne, isWhole_append hinner, isWhole_cons hd.closer_ne, hrest]

/-! ## What a delimiter encloses -/

theorem enclosed_escaped (opener closer : Char) (depth : Nat) (c : Char) (rest : List Char) :
    enclosed opener closer depth ('\\' :: c :: rest) =
      (enclosed opener closer depth rest).map fun (body, after) => ('\\' :: c :: body, after) := by
  rw [enclosed]

theorem enclosed_opener (hd : Delimiters opener closer) (depth : Nat) (rest : List Char) :
    enclosed opener closer depth (opener :: rest) =
      (enclosed opener closer (depth + 1) rest).map fun (body, after) => (opener :: body, after) := by
  rw [enclosed.eq_def]
  split <;> simp_all [hd.opener_ne]

theorem enclosed_closer (hd : Delimiters opener closer) (rest : List Char) :
    enclosed opener closer 0 (closer :: rest) = some ([], rest) := by
  have hne : closer ≠ opener := hd.ne.symm
  rw [enclosed.eq_def]
  split <;> simp_all [hd.closer_ne]

theorem enclosed_closer_succ (hd : Delimiters opener closer) (depth : Nat) (rest : List Char) :
    enclosed opener closer (depth + 1) (closer :: rest) =
      (enclosed opener closer depth rest).map fun (body, after) => (closer :: body, after) := by
  have hne : closer ≠ opener := hd.ne.symm
  rw [enclosed.eq_def]
  split <;> simp_all [hd.closer_ne]

theorem enclosed_plain {c : Char} (hc : c ∉ ['\\', opener, closer]) (depth : Nat)
    (rest : List Char) :
    enclosed opener closer depth (c :: rest) =
      (enclosed opener closer depth rest).map fun (body, after) => (c :: body, after) := by
  rw [enclosed.eq_def]
  split <;> simp_all

theorem enclosed_append (hd : Delimiters opener closer) {cs : List Char}
    (h : Balanced opener closer cs) (depth : Nat) (rest : List Char) :
    enclosed opener closer depth (cs ++ rest) =
      (enclosed opener closer depth rest).map fun (body, after) => (cs ++ body, after) := by
  induction h generalizing depth rest with
  | nil => simp
  | escaped c _ ih =>
    rw [List.cons_append, List.cons_append, enclosed_escaped, ih, Option.map_map]
    rfl
  | plain hc _ ih =>
    rw [List.cons_append, enclosed_plain hc, ih, Option.map_map]
    rfl
  | nested _ _ hinner hrest =>
    rw [List.cons_append, List.append_assoc, List.cons_append, enclosed_opener hd, hinner,
      enclosed_closer_succ hd, hrest]
    simp [Option.map_map, Function.comp_def]

/-- Text that closes the given number of open delimiters and is balanced otherwise. -/
def Closing (opener closer : Char) : Nat → List Char → Prop
  | 0, cs => Balanced opener closer cs
  | depth + 1, cs => ∃ inner rest, cs = inner ++ closer :: rest ∧ Balanced opener closer inner ∧
      Closing opener closer depth rest

theorem Closing.append {cs rest : List Char} {depth : Nat} (hcs : Balanced opener closer cs)
    (h : Closing opener closer depth rest) : Closing opener closer depth (cs ++ rest) := by
  cases depth with
  | zero => exact Balanced.append hcs h
  | succ depth =>
    obtain ⟨inner, after, rfl, hinner, hafter⟩ := h
    exact ⟨cs ++ inner, after, (List.append_assoc ..).symm, hcs.append hinner, hafter⟩

theorem Closing.of_opener {rest : List Char} {depth : Nat}
    (h : Closing opener closer (depth + 1) rest) :
    Closing opener closer depth (opener :: rest) := by
  obtain ⟨inner, after, rfl, hinner, hafter⟩ := h
  have hpair : Balanced opener closer (opener :: (inner ++ closer :: [])) := .nested hinner .nil
  simpa using hafter.append hpair

theorem closing_of_enclosed {depth : Nat} {cs body after : List Char}
    (h : enclosed opener closer depth cs = some (body, after)) :
    Closing opener closer depth body := by
  fun_induction enclosed opener closer depth cs generalizing body after with
  | case1 => cases h
  | case2 => cases h
  | case3 depth c rest ih =>
    obtain ⟨⟨b, a⟩, hb, he⟩ := Option.map_eq_some_iff.1 h
    obtain ⟨rfl, rfl⟩ := Prod.mk.inj he
    exact (ih hb).append (.escaped c .nil)
  | case4 depth rest _ _ ih =>
    obtain ⟨⟨b, a⟩, hb, he⟩ := Option.map_eq_some_iff.1 h
    obtain ⟨rfl, rfl⟩ := Prod.mk.inj he
    exact (ih hb).of_opener
  | case5 rest _ _ _ =>
    obtain ⟨rfl, rfl⟩ := Prod.mk.inj (Option.some.inj h)
    exact .nil
  | case6 rest d _ _ _ ih =>
    obtain ⟨⟨b, a⟩, hb, he⟩ := Option.map_eq_some_iff.1 h
    obtain ⟨rfl, rfl⟩ := Prod.mk.inj he
    exact ⟨[], b, rfl, .nil, ih hb⟩
  | case7 depth c rest hlast hpair hopen hclose ih =>
    obtain ⟨⟨b, a⟩, hb, he⟩ := Option.map_eq_some_iff.1 h
    obtain ⟨rfl, rfl⟩ := Prod.mk.inj he
    have hescape : c ≠ '\\' := ne_escape hlast hpair
    exact (ih hb).append (.plain (by simp [hescape, hopen, hclose]) .nil)

theorem enclosed_eq_some_iff (hd : Delimiters opener closer) {cs body after : List Char} :
    enclosed opener closer 0 cs = some (body, after) ↔
      cs = body ++ closer :: after ∧ Balanced opener closer body := by
  constructor
  · exact fun h => ⟨enclosed_eq_append h, closing_of_enclosed h⟩
  · intro h'
    obtain ⟨rfl, hbody⟩ := h'
    rw [enclosed_append hd hbody, enclosed_closer hd]
    simp

theorem Balanced.not_append_closer (hd : Delimiters opener closer) {cs : List Char}
    (h : Balanced opener closer cs) (rest : List Char) :
    ¬ Balanced opener closer (cs ++ closer :: rest) := by
  intro hlong
  -- the longer text would have to end at its own last closer and at the one in the middle
  have hshort : enclosed opener closer 0 (cs ++ closer :: (rest ++ [closer])) =
      some (cs, rest ++ [closer]) :=
    (enclosed_eq_some_iff hd).2 ⟨rfl, h⟩
  have hwhole : enclosed opener closer 0 (cs ++ closer :: rest ++ [closer]) =
      some (cs ++ closer :: rest, []) :=
    (enclosed_eq_some_iff hd).2 ⟨rfl, hlong⟩
  rw [List.append_assoc, List.cons_append, hshort] at hwhole
  have hbody := (Prod.mk.inj (Option.some.inj hwhole)).1
  simp at hbody

theorem Balanced.closing_of_append (hd : Delimiters opener closer) {before rest : List Char}
    (h : Balanced opener closer (before ++ opener :: rest)) (hbefore : Glob.isWhole before = true) :
    ∃ inner after, rest = inner ++ closer :: after ∧ Balanced opener closer inner := by
  generalize hcs : before ++ opener :: rest = cs at h
  induction h generalizing before rest with
  | nil => simp at hcs
  | escaped c _ ih =>
    rcases before with _ | ⟨b, _ | ⟨d, before⟩⟩
    · exact absurd (List.cons.inj hcs).1 hd.opener_ne
    · obtain ⟨rfl, -⟩ := List.cons.inj hcs
      cases hbefore
    · obtain ⟨rfl, htail⟩ := List.cons.inj hcs
      obtain ⟨rfl, hrest⟩ := List.cons.inj htail
      exact ih (by rwa [isWhole_escaped] at hbefore) hrest
  | plain hc _ ih =>
    simp only [List.mem_cons, List.not_mem_nil, or_false, not_or] at hc
    rcases before with _ | ⟨b, before⟩
    · exact absurd (List.cons.inj hcs).1.symm hc.2.1
    · obtain ⟨rfl, hrest⟩ := List.cons.inj hcs
      exact ih (by rwa [isWhole_cons hc.1] at hbefore) hrest
  | @nested inner after hinner hafter ihinner ihafter =>
    rcases before with _ | ⟨b, before⟩
    · exact ⟨inner, after, (List.cons.inj hcs).2, hinner⟩
    · obtain ⟨rfl, htail⟩ := List.cons.inj hcs
      rw [isWhole_cons hd.opener_ne] at hbefore
      rcases List.append_eq_append_iff.1 htail with ⟨mid, hmid, hopen⟩ | ⟨mid, rfl, hclose⟩
      · -- the opener stands in the inner text
        rcases mid with _ | ⟨m, mid⟩
        · exact absurd (List.cons.inj hopen).1 hd.ne
        · obtain ⟨rfl, rfl⟩ := List.cons.inj hopen
          obtain ⟨body, more, rfl, hbody⟩ := ihinner hbefore hmid.symm
          exact ⟨body, more ++ closer :: after, by simp, hbody⟩
      · rcases mid with _ | ⟨m, mid⟩
        · exact absurd (List.cons.inj hclose).1.symm hd.ne
        · obtain ⟨rfl, hbehind⟩ := List.cons.inj hclose
          rw [isWhole_append (hinner.isWhole hd), isWhole_cons hd.closer_ne] at hbefore
          exact ihafter hbefore hbehind.symm

/-! ## The top level of braces -/

theorem hasTopLevel_escaped (needle : Char) (depth : Nat) (c : Char) (rest : List Char) :
    hasTopLevel needle depth ('\\' :: c :: rest) = hasTopLevel needle depth rest := by
  rw [hasTopLevel]

theorem hasTopLevel_cons {c : Char} (hc : c ≠ '\\') (needle : Char) (depth : Nat)
    (rest : List Char) :
    hasTopLevel needle depth (c :: rest) =
      if c = '{' then hasTopLevel needle (depth + 1) rest
      else if c = '}' then hasTopLevel needle (depth - 1) rest
      else (c == needle && depth == 0) || hasTopLevel needle depth rest := by
  rw [hasTopLevel]
  · exact fun h _ => hc h
  · exact fun _ _ h _ => hc h

theorem hasTopLevel_append {cs : List Char} (h : Balanced '{' '}' cs) (needle : Char) (depth : Nat)
    (rest : List Char) :
    hasTopLevel needle (depth + 1) (cs ++ rest) = hasTopLevel needle (depth + 1) rest := by
  induction h generalizing depth rest with
  | nil => rfl
  | escaped c _ ih => rw [List.cons_append, List.cons_append, hasTopLevel_escaped, ih]
  | plain hc _ ih =>
    simp only [List.mem_cons, List.not_mem_nil, or_false, not_or] at hc
    rw [List.cons_append, hasTopLevel_cons hc.1, if_neg hc.2.1, if_neg hc.2.2, ih]
    simp
  | nested _ _ hinner hrest =>
    rw [List.cons_append, List.append_assoc, List.cons_append, hasTopLevel_cons (by decide),
      if_pos rfl, hinner, hasTopLevel_cons (by decide), if_neg (by decide), if_pos rfl,
      Nat.add_sub_cancel, hrest]

theorem hasTopLevel_of_append {needle : Char} {cs : List Char} (h : Balanced '{' '}' cs)
    (rest : List Char) (htop : hasTopLevel needle 0 rest = true) :
    hasTopLevel needle 0 (cs ++ rest) = true := by
  induction h with
  | nil => exact htop
  | escaped c _ ih => rwa [List.cons_append, List.cons_append, hasTopLevel_escaped]
  | plain hc _ ih =>
    simp only [List.mem_cons, List.not_mem_nil, or_false, not_or] at hc
    rw [List.cons_append, hasTopLevel_cons hc.1, if_neg hc.2.1, if_neg hc.2.2, ih, Bool.or_true]
  | nested hinner _ _ ih =>
    rw [List.cons_append, List.append_assoc, List.cons_append, hasTopLevel_cons (by decide),
      if_pos rfl, hasTopLevel_append hinner, hasTopLevel_cons (by decide), if_neg (by decide),
      if_pos rfl, Nat.zero_add, Nat.sub_self, ih]

theorem hasTopLevel_iff {needle : Char} (hneedle : needle ∉ ['\\', '{', '}']) {cs : List Char}
    (h : Balanced '{' '}' cs) :
    hasTopLevel needle 0 cs = true ↔ ∃ front back, cs = front ++ needle :: back ∧
      Balanced '{' '}' front ∧ Balanced '{' '}' back := by
  simp only [List.mem_cons, List.not_mem_nil, or_false, not_or] at hneedle
  constructor
  · intro htop
    induction h with
    | nil => cases htop
    | escaped c _ ih =>
      rw [hasTopLevel_escaped] at htop
      obtain ⟨front, back, rfl, hfront, hback⟩ := ih htop
      exact ⟨'\\' :: c :: front, back, rfl, .escaped c hfront, hback⟩
    | @plain c rest hc hrest ih =>
      have hc' := hc
      simp only [List.mem_cons, List.not_mem_nil, or_false, not_or] at hc'
      rw [hasTopLevel_cons hc'.1, if_neg hc'.2.1, if_neg hc'.2.2, Bool.or_eq_true,
        Bool.and_eq_true, beq_iff_eq] at htop
      rcases htop with ⟨rfl, -⟩ | htop
      · exact ⟨[], rest, rfl, .nil, hrest⟩
      · obtain ⟨front, back, rfl, hfront, hback⟩ := ih htop
        exact ⟨c :: front, back, rfl, .plain hc hfront, hback⟩
    | @nested inner rest hinner _ _ ih =>
      rw [hasTopLevel_cons (by decide), if_pos rfl, hasTopLevel_append hinner,
        hasTopLevel_cons (by decide), if_neg (by decide), if_pos rfl, Nat.zero_add,
        Nat.sub_self] at htop
      obtain ⟨front, back, rfl, hfront, hback⟩ := ih htop
      exact ⟨'{' :: (inner ++ '}' :: front), back, by simp, .nested hinner hfront, hback⟩
  · intro h'
    obtain ⟨front, back, rfl, hfront, -⟩ := h'
    exact hasTopLevel_of_append hfront (needle :: back) (by
      rw [hasTopLevel_cons hneedle.1, if_neg hneedle.2.1, if_neg hneedle.2.2]
      simp)

end Lintel.Glob
