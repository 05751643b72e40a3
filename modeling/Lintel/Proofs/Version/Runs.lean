import Lintel.Proofs.Version.Announced

/-!
# The first run

What the scan finds, said of the text alone: the leftmost maximal run of at most sixteen digits, and
the runs that stand directly behind a dot. Over-long runs are no runs, wherever they are. With ASCII
digits only, each of the numbers fits.
-/
namespace Lintel.Version

open Text (isDigit isAsciiDigit Stops decimal)

/-- Digits in an allowed number, and no digit behind them. -/
structure Run (run after : List Char) : Prop where
  nonempty : run ≠ []
  digits : ∀ c ∈ run, isDigit c = true
  short : run.length ≤ runLimit
  maximal : Stops isDigit after

/-- A run of a text, with no digit in front of it either; `inRun` says whether there is one in
front of the text. -/
structure RunIn (inRun : Bool) (text before run after : List Char) : Prop where
  text_eq : text = before ++ (run ++ after)
  front : (before.getLast?.map isDigit).getD inRun = false
  run : Run run after

def FirstRun (inRun : Bool) (text before run after : List Char) : Prop :=
  RunIn inRun text before run after ∧
    ∀ b r a, RunIn inRun text b r a → before.length ≤ b.length

def Dotted (text run rest : List Char) : Prop := text = '.' :: (run ++ rest) ∧ Run run rest

/-- The two numbers behind the first run. -/
inductive Behind (after : List Char) : Nat → Nat → Prop
  | bare (hnone : ∀ run rest, ¬ Dotted after run rest) : Behind after 0 0
  | minor {run rest : List Char} (hrun : Dotted after run rest)
      (hnone : ∀ run' rest', ¬ Dotted rest run' rest') : Behind after (decimal run) 0
  | patch {run rest run' rest' : List Char} (hrun : Dotted after run rest)
      (hrun' : Dotted rest run' rest') : Behind after (decimal run) (decimal run')

theorem headRun_eq_some_iff {cs run after : List Char} :
    headRun cs = some (run, after) ↔ cs = run ++ after ∧ Run run after := by
  rw [headRun]
  constructor
  · intro h
    split at h
    · next hlength =>
      rw [Option.some.injEq, Prod.mk.injEq] at h
      obtain ⟨rfl, rfl⟩ := h
      exact ⟨List.takeWhile_append_dropWhile.symm, List.length_pos_iff.1 hlength.1,
        List.all_eq_true.1 (List.all_takeWhile ..), hlength.2, Text.stops_dropWhile cs⟩
    · cases h
  · rintro ⟨rfl, hrun⟩
    have hlength : 1 ≤ run.length := List.length_pos_iff.2 hrun.nonempty
    rw [Text.takeWhile_append_stop hrun.digits hrun.maximal,
      Text.dropWhile_append_stop hrun.digits hrun.maximal, if_pos ⟨hlength, hrun.short⟩]

theorem dottedRun_eq_some_iff {cs run rest : List Char} :
    dottedRun cs = some (run, rest) ↔ Dotted cs run rest := by
  rw [Dotted]
  cases cs with
  | nil => simp [dottedRun]
  | cons c cs =>
    by_cases hc : c = '.'
    · rw [hc, dottedRun_dot, headRun_eq_some_iff, List.cons.injEq]
      simp
    · simp [dottedRun_of_ne_dot hc, hc]

theorem dottedRun_eq_none_iff {cs : List Char} :
    dottedRun cs = none ↔ ∀ run rest, ¬ Dotted cs run rest := by
  simp only [Option.eq_none_iff_forall_ne_some, Prod.forall, ne_eq, dottedRun_eq_some_iff]

variable {inRun : Bool} {text before run after : List Char}

theorem not_runIn_nil : ¬ RunIn inRun [] before run after := by
  intro h
  have hempty := List.append_eq_nil_iff.1 h.text_eq.symm
  exact h.run.nonempty (List.append_eq_nil_iff.1 hempty.2).1

theorem runIn_cons {c : Char} {cs : List Char} :
    RunIn inRun (c :: cs) before run after ↔
      (before = [] ∧ inRun = false ∧ headRun (c :: cs) = some (run, after)) ∨
      ∃ b, before = c :: b ∧ RunIn (isDigit c) cs b run after := by
  cases before with
  | nil =>
    rw [headRun_eq_some_iff]
    constructor
    · intro h
      exact .inl ⟨rfl, by simpa using h.front, by simpa using h.text_eq, h.run⟩
    · rintro (⟨-, hfront, htext, hrun⟩ | ⟨b, hb, -⟩)
      · exact ⟨by simpa using htext, by simpa using hfront, hrun⟩
      · cases hb
  | cons d b =>
    have hlast : ((d :: b).getLast?.map isDigit).getD inRun =
        (b.getLast?.map isDigit).getD (isDigit d) := by
      cases b with
      | nil => rfl
      | cons e b => simp [List.getLast?_cons]
    constructor
    · intro h
      obtain ⟨rfl, htext⟩ := List.cons.inj h.text_eq
      exact .inr ⟨b, rfl, htext, hlast ▸ h.front, h.run⟩
    · rintro (⟨hnil, -⟩ | ⟨b', hb, h⟩)
      · cases hnil
      · obtain ⟨rfl, rfl⟩ := List.cons.inj hb
        exact ⟨congrArg (d :: ·) h.text_eq, hlast.trans h.front, h.run⟩

theorem firstRun_eq_none_iff :
    firstRun inRun text = none ↔ ∀ before run after, ¬ RunIn inRun text before run after := by
  induction text generalizing inRun with
  | nil => simp [firstRun, not_runIn_nil]
  | cons c cs ih =>
    rw [firstRun_cons, Option.or_eq_none_iff, ih]
    constructor
    · rintro ⟨hhead, htail⟩ before run after hrun
      rcases runIn_cons.1 hrun with ⟨-, hfront, hrun⟩ | ⟨b, -, hrun⟩
      · simp [hfront, hrun] at hhead
      · exact htail b run after hrun
    · intro hnone
      constructor
      · cases inRun with
        | true => rfl
        | false =>
          by_contra hne
          obtain ⟨⟨run, after⟩, hhead⟩ := Option.ne_none_iff_exists'.1 hne
          exact hnone [] run after (runIn_cons.2 (.inl ⟨rfl, rfl, hhead⟩))
      · exact fun b run after hrun => hnone (c :: b) run after (runIn_cons.2 (.inr ⟨b, rfl, hrun⟩))

theorem exists_firstRun_of_eq_some (h : firstRun inRun text = some (run, after)) :
    ∃ before, FirstRun inRun text before run after := by
  induction text generalizing inRun with
  | nil => cases h
  | cons c cs ih =>
    rw [firstRun_cons, Option.or_eq_some_iff] at h
    rcases h with hhead | ⟨hnone, htail⟩
    · cases inRun with
      | true => cases hhead
      | false =>
        exact ⟨[], runIn_cons.2 (.inl ⟨rfl, rfl, hhead⟩), fun b r a _ => Nat.zero_le b.length⟩
    · obtain ⟨before, hrun, hfirst⟩ := ih htail
      refine ⟨c :: before, runIn_cons.2 (.inr ⟨before, rfl, hrun⟩), ?_⟩
      intro b r a hother
      rcases runIn_cons.1 hother with ⟨-, hfront, hhead⟩ | ⟨b', rfl, hbehind⟩
      · simp [hfront, hhead] at hnone
      · exact Nat.succ_le_succ (hfirst b' r a hbehind)

theorem FirstRun.unique {before' run' after' : List Char}
    (h : FirstRun inRun text before run after) (h' : FirstRun inRun text before' run' after') :
    run = run' ∧ after = after' := by
  have hlength := Nat.le_antisymm (h.2 _ _ _ h'.1) (h'.2 _ _ _ h.1)
  have hrest := (List.append_inj (h.1.text_eq.symm.trans h'.1.text_eq) hlength).2
  have hhead := headRun_eq_some_iff.2 ⟨rfl, h.1.run⟩
  rw [hrest, headRun_eq_some_iff.2 ⟨rfl, h'.1.run⟩, Option.some.injEq, Prod.mk.injEq] at hhead
  exact ⟨hhead.1.symm, hhead.2.symm⟩

theorem firstRun_eq_some_iff :
    firstRun inRun text = some (run, after) ↔ ∃ before, FirstRun inRun text before run after := by
  refine ⟨exists_firstRun_of_eq_some, ?_⟩
  rintro ⟨before, hfirst⟩
  cases hscan : firstRun inRun text with
  | none => exact absurd hfirst.1 (firstRun_eq_none_iff.1 hscan before run after)
  | some found =>
    obtain ⟨run', after'⟩ := found
    obtain ⟨before', hfirst'⟩ := exists_firstRun_of_eq_some hscan
    obtain ⟨rfl, rfl⟩ := hfirst.unique hfirst'
    rfl

/-! ## Its numbers -/

theorem foldl_decimal_lt {ds : List Char} (hds : ∀ d ∈ ds, isAsciiDigit d = true) (n : Nat) :
    ds.foldl (fun n d => n * 10 + Text.digitValue d) n < (n + 1) * Nat.pow 10 ds.length := by
  induction ds generalizing n with
  | nil => simp
  | cons d ds ih =>
    rw [List.forall_mem_cons] at hds
    have hvalue : Text.digitValue d ≤ 9 := by
      have := (isAsciiDigit_iff.1 hds.1).2
      simp only [Text.digitValue]
      omega
    calc ds.foldl _ (n * 10 + Text.digitValue d)
        < (n * 10 + Text.digitValue d + 1) * Nat.pow 10 ds.length := ih hds.2 _
      _ ≤ (n + 1) * 10 * Nat.pow 10 ds.length := Nat.mul_le_mul_right _ (by omega)
      _ = (n + 1) * (Nat.pow 10 ds.length * 10) := by
        rw [Nat.mul_assoc, Nat.mul_comm 10]
      _ = (n + 1) * Nat.pow 10 (d :: ds).length := rfl

theorem decimal_lt {ds : List Char} (hds : ∀ d ∈ ds, isAsciiDigit d = true) :
    decimal ds < Nat.pow 10 ds.length := by
  calc decimal ds < (0 + 1) * Nat.pow 10 ds.length := foldl_decimal_lt hds 0
    _ = Nat.pow 10 ds.length := by rw [Nat.zero_add, Nat.one_mul]

theorem Run.decimal_lt_limit (h : Run run after) (hascii : ∀ c ∈ run, isAsciiDigit c = true) :
    decimal run < Nat.pow 10 runLimit :=
  Nat.lt_of_lt_of_le (decimal_lt hascii) (Nat.pow_le_pow_right (by decide) h.short)

theorem Run.word64?_eq (h : Run run after) (hascii : ∀ c ∈ run, isAsciiDigit c = true) :
    Text.word64? run = some (decimal run) := by
  have hfits : Nat.pow 10 runLimit < Nat.pow 2 64 := by decide
  exact word64?_eq_some_iff.2
    ⟨⟨h.nonempty, hascii⟩, Nat.lt_trans (h.decimal_lt_limit hascii) hfits, rfl⟩

theorem Behind.unique {m p m' p' : Nat} (h : Behind after m p) (h' : Behind after m' p') :
    m = m' ∧ p = p' := by
  have hsame : ∀ {cs run rest run' rest' : List Char}, Dotted cs run rest → Dotted cs run' rest' →
      run = run' ∧ rest = rest' := by
    intro cs run rest run' rest' hrun hrun'
    rw [← dottedRun_eq_some_iff] at hrun hrun'
    simpa [hrun] using hrun'
  cases h with
  | bare hnone =>
    cases h' with
    | bare => exact ⟨rfl, rfl⟩
    | minor hrun => exact absurd hrun (hnone _ _)
    | patch hrun => exact absurd hrun (hnone _ _)
  | minor hrun hnone =>
    cases h' with
    | bare hnone' => exact absurd hrun (hnone' _ _)
    | minor hrun' =>
      obtain ⟨rfl, -⟩ := hsame hrun hrun'
      exact ⟨rfl, rfl⟩
    | patch hrun' hthird =>
      obtain ⟨-, rfl⟩ := hsame hrun hrun'
      exact absurd hthird (hnone _ _)
  | patch hrun hthird =>
    cases h' with
    | bare hnone' => exact absurd hrun (hnone' _ _)
    | minor hrun' hnone' =>
      obtain ⟨-, rfl⟩ := hsame hrun hrun'
      exact absurd hthird (hnone' _ _)
    | patch hrun' hthird' =>
      obtain ⟨rfl, rfl⟩ := hsame hrun hrun'
      obtain ⟨rfl, -⟩ := hsame hthird hthird'
      exact ⟨rfl, rfl⟩

theorem exists_run_of_mem_groups (hrun : Run run after) {g : Nat × List Char}
    (hg : g ∈ announcedGroups (run, after)) :
    (∃ rest, Run g.2 rest) ∧ ∀ c ∈ g.2, c ∈ run ++ after := by
  have hfirst : (∃ rest, Run run rest) ∧ ∀ c ∈ run, c ∈ run ++ after :=
    ⟨⟨after, hrun⟩, fun c hc => List.mem_append_left _ hc⟩
  rw [announcedGroups, continuedGroups] at hg
  cases hsecond : dottedRun after with
  | none =>
    rw [hsecond, List.mem_singleton] at hg
    exact hg ▸ hfirst
  | some second =>
    obtain ⟨minor, rest⟩ := second
    have hminor := dottedRun_eq_some_iff.1 hsecond
    have hin : ∀ c ∈ minor, c ∈ run ++ after := by
      intro c hc
      rw [hminor.1]
      simp [hc]
    have hboth : (∃ rest, Run minor rest) ∧ ∀ c ∈ minor, c ∈ run ++ after := ⟨⟨rest, hminor.2⟩, hin⟩
    cases hthird : dottedRun rest with
    | none =>
      simp only [hsecond, hthird, List.mem_cons, List.not_mem_nil, or_false] at hg
      rcases hg with rfl | rfl
      · exact hboth
      · exact hfirst
    | some third =>
      obtain ⟨patch, rest'⟩ := third
      have hpatch := dottedRun_eq_some_iff.1 hthird
      simp only [hsecond, hthird, List.mem_cons, List.not_mem_nil, or_false] at hg
      rcases hg with rfl | rfl | rfl
      · refine ⟨⟨rest', hpatch.2⟩, fun c hc => ?_⟩
        rw [hminor.1, hpatch.1]
        simp [hc]
      · exact hboth
      · exact hfirst

theorem exists_behind
    (hwords : ∀ g ∈ announcedGroups (run, after), Text.word64? g.2 = some (decimal g.2)) :
    ∃ minor patch, Behind after minor patch ∧
      ofGroups? (announcedGroups (run, after)) = some ⟨decimal run, minor, patch, []⟩ := by
  rw [announcedGroups, continuedGroups] at hwords ⊢
  cases hsecond : dottedRun after with
  | none =>
    rw [hsecond] at hwords
    have hmajor := hwords (1, run) (by simp)
    exact ⟨0, 0, .bare (dottedRun_eq_none_iff.1 hsecond),
      by simp [ofGroups?_one, hmajor]⟩
  | some second =>
    obtain ⟨minor, rest⟩ := second
    have hminor := dottedRun_eq_some_iff.1 hsecond
    cases hthird : dottedRun rest with
    | none =>
      simp only [hsecond, hthird] at hwords ⊢
      have hmajor := hwords (1, run) (by simp)
      have hnumber := hwords (2, minor) (by simp)
      exact ⟨decimal minor, 0, .minor hminor (dottedRun_eq_none_iff.1 hthird),
        by simp [ofGroups?_two, hmajor, hnumber]⟩
    | some third =>
      obtain ⟨patch, rest'⟩ := third
      simp only [hsecond, hthird] at hwords ⊢
      have hmajor := hwords (1, run) (by simp)
      have hnumber := hwords (2, minor) (by simp)
      have hlast := hwords (3, patch) (by simp)
      exact ⟨decimal minor, decimal patch, .patch hminor (dottedRun_eq_some_iff.1 hthird),
        by simp [ofGroups?_three, hmajor, hnumber, hlast]⟩

theorem number_of_mem_groups (hascii : ∀ c ∈ text, isDigit c = true → isAsciiDigit c = true)
    (hfirst : firstRun false text = some (run, after)) {g : Nat × List Char}
    (hg : g ∈ announcedGroups (run, after)) :
    Text.word64? g.2 = some (decimal g.2) ∧ decimal g.2 < Nat.pow 10 runLimit := by
  obtain ⟨before, hrun, -⟩ := firstRun_eq_some_iff.1 hfirst
  obtain ⟨⟨rest, hgroup⟩, hin⟩ := exists_run_of_mem_groups hrun.run hg
  have hdigits : ∀ c ∈ g.2, isAsciiDigit c = true := by
    intro c hc
    have htext : c ∈ text := hrun.text_eq ▸ List.mem_append_right before (hin c hc)
    exact hascii c htext (hgroup.digits c hc)
  exact ⟨hgroup.word64?_eq hdigits, hgroup.decimal_lt_limit hdigits⟩

/-- In a text whose digits are ASCII digits the search for the expression comes to a plain scan: the
first run is the major number, runs directly behind dots are the next ones, and every number that
is found fits. -/
theorem coerce?_of_ascii (hascii : ∀ c ∈ text, isDigit c = true → isAsciiDigit c = true) :
    coerce? text = (expression.find text).bind ofGroups? ∧
    (coerce? text = none ↔ ∀ before run after, ¬ RunIn false text before run after) ∧
    (∀ v, coerce? text = some v ↔ ∃ before run after, FirstRun false text before run after ∧
      v.major = decimal run ∧ Behind after v.minor v.patch ∧ v.tag = []) ∧
    ∀ groups, expression.find text = some groups → ∀ g ∈ groups,
      Text.word64? g.2 = some (decimal g.2) ∧ decimal g.2 < Nat.pow 10 runLimit := by
  have hscan := coerce?_eq_bind text
  refine ⟨coerce?_eq_find text, ?_, ?_, ?_⟩
  · rw [← firstRun_eq_none_iff, hscan]
    cases hfirst : firstRun false text with
    | none => simp
    | some found =>
      obtain ⟨run, after⟩ := found
      obtain ⟨minor, patch, -, hversion⟩ :=
        exists_behind fun g hg => (number_of_mem_groups hascii hfirst hg).1
      simp [hversion]
  · intro v
    rw [hscan]
    constructor
    · intro hv
      obtain ⟨⟨run, after⟩, hfirst, hgroups⟩ := Option.bind_eq_some_iff.1 hv
      obtain ⟨before, hbefore⟩ := firstRun_eq_some_iff.1 hfirst
      obtain ⟨minor, patch, hbehind, hversion⟩ :=
        exists_behind fun g hg => (number_of_mem_groups hascii hfirst hg).1
      rw [hversion, Option.some.injEq] at hgroups
      exact ⟨before, run, after, hbefore, hgroups ▸ rfl, hgroups ▸ hbehind, hgroups ▸ rfl⟩
    · rintro ⟨before, run, after, hbefore, hmajor, hbehind, htag⟩
      have hfirst := firstRun_eq_some_iff.2 ⟨before, hbefore⟩
      obtain ⟨minor, patch, hbehind', hversion⟩ :=
        exists_behind fun g hg => (number_of_mem_groups hascii hfirst hg).1
      obtain ⟨hminor, hpatch⟩ := hbehind.unique hbehind'
      rw [hfirst, Option.bind_some, hversion, ← hmajor, ← hminor, ← hpatch, ← htag]
  · intro groups hfind g hg
    rw [find_expression, Option.map_eq_some_iff] at hfind
    obtain ⟨⟨run, after⟩, hfirst, rfl⟩ := hfind
    exact number_of_mem_groups hascii hfirst hg

theorem coerce?_of_ascii_overlong :
    (∀ c ∈ List.replicate 17 '1' ++ [' ', '2', '.', '3', '.'] ++ List.replicate 17 '1',
      isDigit c = true → isAsciiDigit c = true) ∧
    ∃ before run after,
      FirstRun false (List.replicate 17 '1' ++ [' ', '2', '.', '3', '.'] ++ List.replicate 17 '1')
        before run after ∧
      decimal run = 2 ∧ Behind after 3 0 := by
  have hascii : ∀ c ∈ List.replicate 17 '1' ++ [' ', '2', '.', '3', '.'] ++ List.replicate 17 '1',
      isDigit c = true → isAsciiDigit c = true := by
    intro c hc
    simp only [List.mem_append, List.mem_replicate, List.mem_cons, List.not_mem_nil, or_false] at hc
    rcases hc with (⟨-, rfl⟩ | rfl | rfl | rfl | rfl | rfl) | ⟨-, rfl⟩ <;> decide
  have hversion : coerce? (List.replicate 17 '1' ++ [' ', '2', '.', '3', '.'] ++ List.replicate 17 '1') =
      some ⟨2, 3, 0, []⟩ := by decide +kernel
  obtain ⟨before, run, after, hfirst, hmajor, hbehind, -⟩ :=
    ((coerce?_of_ascii hascii).2.2.1 _).1 hversion
  exact ⟨hascii, before, run, after, hfirst, hmajor.symm, hbehind⟩

end Lintel.Version
