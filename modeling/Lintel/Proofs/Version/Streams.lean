import Lintel.Linter.Installed
import Lintel.Proofs.Version.Runs

/-!
# Versions on two streams

A program may announce its version on its error output, which is read behind its output and a line
feed. The line feed ends every run, so the first run of both streams is that of the output, and only
an output without a run lets the error output speak. An over-long run is no run, but a run of digits
of another script is one: no number is read off it, and what the error output says is not heard.
-/
namespace Lintel.Version

open Text (isDigit isAsciiDigit)
open Installed (printed)

section Apart

variable {c : Char} (hc : isDigit c = false) (cs tail : List Char)

include hc in
theorem headRun_append_cons :
    headRun (cs ++ c :: tail) = (headRun cs).map (Prod.map id (· ++ c :: tail)) := by
  simp only [headRun, Text.takeWhile_append_cons hc, Text.dropWhile_append_cons hc]
  split <;> rfl

include hc in
theorem firstRun_append_cons (inRun : Bool) :
    firstRun inRun (cs ++ c :: tail) =
      ((firstRun inRun cs).map (Prod.map id (· ++ c :: tail))).or (firstRun false tail) := by
  induction cs generalizing inRun with
  | nil => simp [firstRun_cons, headRun_cons_of_not_digit hc, hc, firstRun]
  | cons d cs ih =>
    have hhead := headRun_append_cons hc (d :: cs) tail
    rw [List.cons_append] at hhead ⊢
    rw [firstRun_cons, firstRun_cons, hhead, ih, Option.map_or, Option.or_assoc]
    cases inRun <;> rfl

include hc in
theorem dottedRun_append_cons (hdot : c ≠ '.') :
    dottedRun (cs ++ c :: tail) = (dottedRun cs).map (Prod.map id (· ++ c :: tail)) := by
  cases cs with
  | nil => exact dottedRun_of_ne_dot hdot tail
  | cons d cs =>
    by_cases hd : d = '.'
    · rw [hd, List.cons_append, dottedRun_dot, dottedRun_dot, headRun_append_cons hc]
    · rw [List.cons_append, dottedRun_of_ne_dot hd, dottedRun_of_ne_dot hd]
      rfl

include hc in
theorem announcedGroups_append_cons (hdot : c ≠ '.') (run : List Char) :
    announcedGroups (run, cs ++ c :: tail) = announcedGroups (run, cs) := by
  rw [announcedGroups, announcedGroups, continuedGroups, continuedGroups,
    dottedRun_append_cons hc cs tail hdot]
  cases dottedRun cs with
  | none => rfl
  | some second =>
    obtain ⟨minor, rest⟩ := second
    simp only [Option.map_some, Prod.map_apply, id_eq, dottedRun_append_cons hc rest tail hdot]
    cases dottedRun rest <;> rfl

include hc in
theorem coerce?_append_cons (hdot : c ≠ '.') :
    coerce? (cs ++ c :: tail) =
      if (firstRun false cs).isSome then coerce? cs else coerce? tail := by
  rw [coerce?_eq_bind, coerce?_eq_bind cs, coerce?_eq_bind tail, firstRun_append_cons hc]
  cases hfirst : firstRun false cs with
  | none => rfl
  | some found =>
    obtain ⟨run, after⟩ := found
    simp [announcedGroups_append_cons hc after tail hdot]

end Apart

theorem coerce?_printed_eq (o : Output) :
    coerce? (printed o) =
      if (firstRun false (Text.lossy o.out)).isSome then coerce? (Text.lossy o.out)
      else coerce? (Text.lossy o.err) :=
  coerce?_append_cons (by decide) _ _ (by decide)

theorem coerce?_append_of_no_run {cs : List Char} (hnone : firstRun false cs = none)
    (hlast : (cs.getLast?.map isDigit).getD false = false) (text : List Char) :
    coerce? (cs ++ text) = coerce? text := by
  rcases List.eq_nil_or_concat cs with rfl | ⟨front, c, rfl⟩
  · rfl
  · have hc : isDigit c = false := by simpa using hlast
    rw [List.concat_eq_append, firstRun_append_cons hc, Option.or_eq_none_iff,
      Option.map_eq_none_iff] at hnone
    rw [coerce?_eq_bind, coerce?_eq_bind text, List.concat_eq_append, List.append_assoc,
      List.singleton_append, firstRun_append_cons hc, hnone.1]
    rfl

theorem groupNumber?_announcedGroups (run after : List Char) :
    groupNumber? (announcedGroups (run, after)) 1 = Text.word64? run := by
  rw [announcedGroups, continuedGroups]
  cases dottedRun after with
  | none => simp [groupNumber?]
  | some second =>
    obtain ⟨minor, rest⟩ := second
    dsimp only
    cases dottedRun rest <;> simp [groupNumber?, List.lookup_cons]

theorem coerce?_eq_none {text : List Char} (h : ∀ c ∈ text, isAsciiDigit c = false) :
    coerce? text = none := by
  rw [coerce?_eq_bind]
  cases hfirst : firstRun false text with
  | none => rfl
  | some found =>
    obtain ⟨run, after⟩ := found
    obtain ⟨before, hrun, -⟩ := firstRun_eq_some_iff.1 hfirst
    have hmajor : Text.word64? run = none := by
      rw [Option.eq_none_iff_forall_ne_some]
      intro n hn
      obtain ⟨⟨hne, hdigits⟩, -⟩ := word64?_eq_some_iff.1 hn
      obtain ⟨c, cs, rfl⟩ := List.exists_cons_of_ne_nil hne
      have hc := hdigits c (List.mem_cons_self ..)
      rw [h c (by rw [hrun.text_eq]; simp)] at hc
      cases hc
    rw [Option.bind_some, ofGroups?, groupNumber?_announcedGroups, hmajor]
    rfl

/-- An output that has a run is the only one that is heard, and one that has none is not heard at
all. An output without ASCII digits drowns a version on the error output exactly if it has a run of
other digits. -/
theorem coerce?_printed (o : Output) :
    ((∃ before run after, RunIn false (Text.lossy o.out) before run after) →
      coerce? (printed o) = coerce? (Text.lossy o.out)) ∧
    ((∀ before run after, ¬ RunIn false (Text.lossy o.out) before run after) →
      coerce? (printed o) = coerce? (Text.lossy o.err)) ∧
    ((∀ c ∈ Text.lossy o.out, isAsciiDigit c = false) →
      (coerce? (printed o) = coerce? (Text.lossy o.err) ↔
        coerce? (Text.lossy o.err) = none ∨
          ∀ before run after, ¬ RunIn false (Text.lossy o.out) before run after)) ∧
    ∀ cs text, (∀ before run after, ¬ RunIn false cs before run after) →
      (cs.getLast?.map isDigit).getD false = false → coerce? (cs ++ text) = coerce? text := by
  have hout : (∃ before run after, RunIn false (Text.lossy o.out) before run after) →
      coerce? (printed o) = coerce? (Text.lossy o.out) := by
    rintro ⟨before, run, after, hrun⟩
    have hsome : (firstRun false (Text.lossy o.out)).isSome := by
      rw [Option.isSome_iff_ne_none]
      exact fun hnone => firstRun_eq_none_iff.1 hnone before run after hrun
    rw [coerce?_printed_eq, if_pos hsome]
  have herr : (∀ before run after, ¬ RunIn false (Text.lossy o.out) before run after) →
      coerce? (printed o) = coerce? (Text.lossy o.err) := by
    intro hnone
    rw [coerce?_printed_eq, firstRun_eq_none_iff.2 hnone]
    rfl
  refine ⟨hout, herr, ?_, ?_⟩
  · intro hascii
    constructor
    · intro hsame
      by_cases hrun : ∃ before run after, RunIn false (Text.lossy o.out) before run after
      · exact .inl (by rw [← hsame, hout hrun, coerce?_eq_none hascii])
      · exact .inr fun before run after h => hrun ⟨before, run, after, h⟩
    · rintro (hnone | hrun)
      · rw [coerce?_printed_eq, coerce?_eq_none hascii, hnone, ite_self]
      · exact herr hrun
  · exact fun cs text hnone hlast =>
      coerce?_append_of_no_run (firstRun_eq_none_iff.2 hnone) hlast text

theorem coerce?_printed_either :
    coerce? (printed ⟨some 0, bytesOf "hadolint 2.12", bytesOf "built with 9.4.8"⟩) =
        some ⟨2, 12, 0, []⟩ ∧
      coerce? (printed ⟨some 1, bytesOf "no configuration", bytesOf "shellcheck v0.9.0"⟩) =
        some ⟨0, 9, 0, []⟩ := by
  constructor
  · have hrun : headRun (Text.lossy (bytesOf "2.12")) = some (['2'], ['.', '1', '2']) := by
      decide +kernel
    have hin : RunIn false (Text.lossy (bytesOf "hadolint 2.12")) "hadolint ".toList ['2']
        ['.', '1', '2'] := ⟨by decide +kernel, by decide, (headRun_eq_some_iff.1 hrun).2⟩
    rw [(coerce?_printed _).1 ⟨_, _, _, hin⟩]
    decide +kernel
  · have hnone : firstRun false (Text.lossy (bytesOf "no configuration")) = none := by
      decide +kernel
    rw [(coerce?_printed _).2.1 (firstRun_eq_none_iff.1 hnone)]
    decide +kernel

theorem coerce?_printed_drowned :
    ∃ o : Output, (∀ c ∈ Text.lossy o.out, isAsciiDigit c = false) ∧
      coerce? (Text.lossy o.err) = some ⟨0, 9, 0, []⟩ ∧ coerce? (printed o) = none := by
  -- the Arabic digit three is a digit to the expression and has no value
  have hout : Text.lossy (bytesOf "\u0663") = ['\u0663'] := by decide +kernel
  refine ⟨⟨some 0, bytesOf "\u0663", bytesOf "shellcheck v0.9.0"⟩, ?_, by decide +kernel,
    by decide +kernel⟩
  rw [hout, List.forall_mem_singleton]
  decide

end Lintel.Version
