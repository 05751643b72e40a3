import Mathlib.Data.List.Infix
import Lintel.Proofs.Ignore.Appended
import Lintel.Proofs.Ignore.Seen

/-!
# Paths below an excluded directory

The search for a verdict starts at the path and goes up, so the nearest place that some rule covers
decides. A path below an excluded directory is ignored unless a place on the way down to it is
taken back by a negated rule. Where in the file the rule about the directory stands is of no
importance then, as long as the directory stays excluded and the rule covers nothing below it.
-/
namespace Lintel.Ignore

/-! ## Prefixes from the longest to the shortest -/

section Prefixes

variable {α β : Type} {outer path place nearer : List α}

/-- A place strictly below a directory on the way down to a path, the path itself included. -/
def Between (outer path place : List α) : Prop :=
  outer <+: place ∧ place ≠ outer ∧ place <+: path

theorem Between.trans (h : Between outer path place) (h' : Between place path nearer) :
    Between outer path nearer := by
  refine ⟨h.1.trans h'.1, ?_, h'.2.2⟩
  rintro rfl
  exact h.2.1 (h'.1.eq_of_length_le h.1.length_le)

theorem reverse_inits_concat (as : List α) (a : α) :
    (as ++ [a]).inits.reverse = (as ++ [a]) :: as.inits.reverse := by
  rw [List.inits_append]
  simp

theorem reverse_inits_eq_cons (as : List α) : as.inits.reverse = as :: as.inits.reverse.tail := by
  induction as using List.reverseRecOn with
  | nil => rfl
  | append_singleton as a => rw [reverse_inits_concat, List.tail_cons]

theorem findSome?_reverse_inits_eq_some_iff {v : List α → Option β} {as : List α} {b : β} :
    as.inits.reverse.findSome? v = some b ↔
      ∃ p, p <+: as ∧ v p = some b ∧ ∀ q, Between p as q → v q = none := by
  induction as using List.reverseRecOn with
  | nil =>
    simp only [List.inits, List.reverse_singleton, List.findSome?_singleton, List.prefix_nil]
    constructor
    · intro h
      exact ⟨[], rfl, h, fun q hq => absurd (List.prefix_nil.1 hq.2.2) hq.2.1⟩
    · rintro ⟨p, rfl, h, -⟩
      exact h
  | append_singleton as a ih =>
    rw [reverse_inits_concat, List.findSome?_cons]
    cases hv : v (as ++ [a]) with
    | some c =>
      constructor
      · intro h
        refine ⟨as ++ [a], List.prefix_rfl, hv.trans h, fun q hq => ?_⟩
        exact absurd (hq.2.2.eq_of_length_le hq.1.length_le) hq.2.1
      · rintro ⟨p, hp, hsome, hnone⟩
        by_cases hall : as ++ [a] = p
        · rw [← hsome, ← hall, hv]
        · rw [hnone _ ⟨hp, hall, List.prefix_rfl⟩] at hv
          cases hv
    | none =>
      dsimp only
      rw [ih]
      constructor
      · rintro ⟨p, hp, hsome, hnone⟩
        refine ⟨p, hp.trans (List.prefix_append as [a]), hsome, fun q hq => ?_⟩
        rcases List.prefix_concat_iff.1 hq.2.2 with rfl | hshort
        · exact hv
        · exact hnone q ⟨hq.1, hq.2.1, hshort⟩
      · rintro ⟨p, hp, hsome, hnone⟩
        rcases List.prefix_concat_iff.1 hp with rfl | hp
        · rw [hv] at hsome
          cases hsome
        · exact ⟨p, hp, hsome, fun q hq =>
            hnone q ⟨hq.1, hq.2.1, hq.2.2.trans (List.prefix_append as [a])⟩⟩

end Prefixes

/-! ## The rule that decides -/

variable {rules : List Rule} {outer path place : List Bytes} {isDirectory : Bool}

/-- The last rule that covers a place decides it. -/
def Decides (rules : List Rule) (place : List Bytes) (isDirectory : Bool) (r : Rule) : Prop :=
  ∃ before after, rules = before ++ r :: after ∧
    r.covers (Path.joinParts place) isDirectory = true ∧
    ∀ s ∈ after, s.covers (Path.joinParts place) isDirectory = false

def Excludes (rules : List Rule) (outer : List Bytes) : Prop :=
  ∃ r, Decides rules outer true r ∧ r.negated = false

theorem verdict_eq_some_iff {ignored : Bool} :
    verdict rules (Path.joinParts place) isDirectory = some ignored ↔
      ∃ r, Decides rules place isDirectory r ∧ r.negated = ! ignored := by
  rw [verdict, Option.map_eq_some_iff]
  refine exists_congr fun r => and_congr ?_ (by cases r.negated <;> cases ignored <;> decide)
  rw [List.find?_eq_some_iff_append]
  constructor
  · rintro ⟨hr, late, early, hcut, hlate⟩
    refine ⟨early.reverse, late.reverse, ?_, hr, fun s hs => ?_⟩
    · rw [← List.reverse_reverse rules, hcut]
      simp
    · simpa using hlate s (List.mem_reverse.1 hs)
  · rintro ⟨before, after, rfl, hr, hafter⟩
    exact ⟨hr, after.reverse, before.reverse, by simp,
      fun s hs => by simp [hafter s (List.mem_reverse.1 hs)]⟩

theorem verdict_eq_none_iff :
    verdict rules (Path.joinParts place) isDirectory = none ↔
      ∀ r ∈ rules, r.covers (Path.joinParts place) isDirectory = false := by
  simp [verdict]

theorem excludes_iff :
    Excludes rules outer ↔ verdict rules (Path.joinParts outer) true = some true := by
  rw [verdict_eq_some_iff, Bool.not_true, Excludes]

def verdictOn (rules : List Rule) (path place : List Bytes) : Option Bool :=
  verdict rules (Path.joinParts place) (place != path)

theorem inherited_eq_findSome? {names : List Bytes} (h : names <+: path) :
    inherited rules names.reverse =
      (names.inits.reverse.tail.findSome? (verdictOn rules path)).getD false := by
  induction names using List.reverseRecOn with
  | nil => rfl
  | append_singleton names b ih =>
    have hshorter : names <+: path := (List.prefix_append names [b]).trans h
    have hne : (names != path) = true := by
      have hlength : names.length + 1 ≤ path.length := by simpa using h.length_le
      rw [bne_iff_ne]
      rintro rfl
      exact Nat.not_succ_le_self _ hlength
    rw [List.reverse_concat, inherited, List.reverse_reverse, reverse_inits_concat, List.tail_cons,
      reverse_inits_eq_cons, List.findSome?_cons, verdictOn, hne, ih hshorter]
    cases verdict rules (Path.joinParts names) true <;> rfl

theorem ignores_eq_findSome? (rules : List Rule) (path : List Bytes) :
    ignores rules path = (path.inits.reverse.findSome? (verdictOn rules path)).getD false := by
  rw [ignores, inherited_eq_findSome? List.prefix_rfl, reverse_inits_eq_cons path,
    List.findSome?_cons, List.tail_cons, verdictOn, bne_self_eq_false]
  cases verdict rules (Path.joinParts path) false <;> rfl

/-! ## Below an excluded directory -/

/-- Some place below a directory, on the way down to a path, is decided by a negated rule, and no
rule covers a place that is nearer to the path. -/
def Reopened (rules : List Rule) (outer path : List Bytes) : Prop :=
  ∃ place, Between outer path place ∧
    (∃ r, Decides rules place (place != path) r ∧ r.negated = true) ∧
    ∀ nearer, Between place path nearer →
      ∀ r ∈ rules, r.covers (Path.joinParts nearer) (nearer != path) = false

theorem reopened_iff :
    Reopened rules outer path ↔
      ∃ place, Between outer path place ∧ verdictOn rules path place = some false ∧
        ∀ nearer, Between place path nearer → verdictOn rules path nearer = none := by
  simp only [Reopened, verdictOn, verdict_eq_some_iff, verdict_eq_none_iff, Bool.not_false]

theorem ignores_eq_false_iff (houter : outer <+: path) (hne : outer ≠ path)
    (hexcluded : Excludes rules outer) : ignores rules path = false ↔ Reopened rules outer path := by
  have hdirectory : verdictOn rules path outer = some true := by
    rw [verdictOn, bne_iff_ne.2 hne]
    exact excludes_iff.1 hexcluded
  have hdecided : ignores rules path = false ↔
      path.inits.reverse.findSome? (verdictOn rules path) = some false := by
    rw [ignores_eq_findSome?]
    cases hfound : path.inits.reverse.findSome? (verdictOn rules path) with
    | none =>
      have hmem : outer ∈ path.inits.reverse := by simpa using houter
      rw [List.findSome?_eq_none_iff.1 hfound _ hmem] at hdirectory
      cases hdirectory
    | some ignored => simp
  rw [hdecided, findSome?_reverse_inits_eq_some_iff, reopened_iff]
  constructor
  · rintro ⟨place, hplace, hkept, hnearer⟩
    have hother : place ≠ outer := by
      rintro rfl
      rw [hdirectory] at hkept
      cases hkept
    rcases List.prefix_or_prefix_of_prefix houter hplace with hbelow | habove
    · exact ⟨place, ⟨hbelow, hother, hplace⟩, hkept, hnearer⟩
    · -- the search would have stopped at the excluded directory
      rw [hnearer outer ⟨habove, hother.symm, houter⟩] at hdirectory
      cases hdirectory
  · rintro ⟨place, hplace, hkept, hnearer⟩
    exact ⟨place, hplace.2.2, hkept, hnearer⟩

theorem verdict_middle {before after : List Rule} {r : Rule}
    (h : r.covers (Path.joinParts place) isDirectory = false) :
    verdict (before ++ r :: after) (Path.joinParts place) isDirectory =
      verdict (before ++ after) (Path.joinParts place) isDirectory := by
  rw [verdict, verdict]
  simp [List.find?_append, h]

theorem reopened_congr {rules' : List Rule}
    (h : ∀ place, Between outer path place → verdictOn rules path place = verdictOn rules' path place) :
    Reopened rules outer path ↔ Reopened rules' outer path := by
  rw [reopened_iff, reopened_iff]
  refine exists_congr fun place => and_congr_right fun hplace => ?_
  rw [h place hplace]
  exact and_congr_right fun _ => forall₂_congr fun nearer hnearer => by
    rw [h nearer (hplace.trans hnearer)]

theorem ignores_of_moved {before after front back : List Rule} {r : Rule} (houter : outer <+: path)
    (hne : outer ≠ path) (hsame : front ++ back = before ++ after)
    (hr : ∀ place, Between outer path place →
      r.covers (Path.joinParts place) (place != path) = false)
    (hexcluded : Excludes (before ++ r :: after) outer)
    (hexcluded' : Excludes (front ++ r :: back) outer) :
    ignores (front ++ r :: back) path = ignores (before ++ r :: after) path := by
  have hreopened : Reopened (front ++ r :: back) outer path ↔
      Reopened (before ++ r :: after) outer path := reopened_congr fun place hplace => by
    rw [verdictOn, verdictOn, verdict_middle (hr place hplace), verdict_middle (hr place hplace),
      hsame]
  rw [← ignores_eq_false_iff houter hne hexcluded, ← ignores_eq_false_iff houter hne hexcluded']
    at hreopened
  simpa using hreopened

/-- A path below a directory that the ignore file excludes is ignored unless a place on the way down
to it is reopened. A rule that covers no such place, as the one about the directory, may be moved to
any other place in the file if the directory is excluded there too. -/
theorem isIgnored_below_excluded {t : Tree} {dir : Path} {named : Option Path} {file : Path}
    {text : List Char} {ls : List (List Char)} (h : Supplies t dir named file text)
    (hls : Text.Written ls text) (hvalid : ∀ line ∈ ls, IsValid line)
    (hdir : dir.isAbsolute = true) :
    ∃ f, Filter.load t dir named = .ok f ∧ f.rules = ls.filterMap rule? ∧
      ∀ p outer path, f.Below p path → outer <+: path → outer ≠ path → Excludes f.rules outer →
        (f.isIgnored p = false ↔ Reopened f.rules outer path) ∧
        ∀ r before after front back, f.rules = before ++ r :: after →
          front ++ back = before ++ after →
          (∀ place, Between outer path place →
            r.covers (Path.joinParts place) (place != path) = false) →
          Excludes (front ++ r :: back) outer →
          (Filter.mk f.workingDir f.ignorePath (front ++ r :: back)).isIgnored p =
            f.isIgnored p := by
  refine ⟨_, h.load hls hvalid, rfl, fun p outer path hbelow houter hne hexcluded => ?_⟩
  have hpath : path ≠ [] := by
    rintro rfl
    exact hne (List.prefix_nil.1 houter)
  have hignored := hbelow.isIgnored_eq hdir hpath
  refine ⟨?_, fun r before after front back hcut hsame hr hexcluded' => ?_⟩
  · rw [hignored]
    exact ignores_eq_false_iff houter hne hexcluded
  · have hbelow' : (Filter.mk dir (some file) (front ++ r :: back)).Below p path := hbelow
    dsimp only at hcut hexcluded hignored
    rw [hcut] at hexcluded hignored
    rw [hbelow'.isIgnored_eq hdir hpath, hcut, hignored]
    exact ignores_of_moved houter hne hsame hr hexcluded hexcluded'

theorem isIgnored_below_excluded_build :
    let outer := [bytesOf "build"]
    let kept := [bytesOf "build", bytesOf "keep.txt"]
    let lost := [bytesOf "build", bytesOf "a.txt"]
    ∃ f r s, Filter.load (ruled "build/\n!keep.txt\n") ⟨[Path.separator]⟩
        (some (.ofString "rules")) = .ok f ∧ f.rules = [r, s] ∧
      Excludes [r, s] outer ∧ Excludes [s, r] outer ∧
      f.Below (.ofString "/build/keep.txt") kept ∧ f.Below (.ofString "/build/a.txt") lost ∧
      Reopened f.rules outer kept ∧ ¬ Reopened f.rules outer lost ∧
      f.isIgnored (.ofString "/build/a.txt") = true ∧
      (Filter.mk f.workingDir f.ignorePath [s, r]).isIgnored (.ofString "/build/keep.txt") =
        f.isIgnored (.ofString "/build/keep.txt") := by
  intro outer kept lost
  let text := "build/\n!keep.txt\n"
  let dir : Path := ⟨[Path.separator]⟩
  let named := some (Path.ofString "rules")
  have hsupplied : (Filter.choosePath (ruled text) dir named).toOption =
        some (some (.ofString "/rules")) ∧
      ((ruled text).readText (.ofString "/rules")).toOption = some text.toList := by
    decide +kernel
  have hchecked : (Filter.load (ruled text) dir named).toOption.any (fun f =>
      decide (f.Below (.ofString "/build/keep.txt") kept) &&
      decide (f.Below (.ofString "/build/a.txt") lost) &&
      ! f.isIgnored (.ofString "/build/keep.txt") && f.isIgnored (.ofString "/build/a.txt") &&
      f.rules.length == 2 &&
      verdict f.rules (Path.joinParts outer) true == some true &&
      verdict f.rules.reverse (Path.joinParts outer) true == some true &&
      f.rules.head?.all fun r => ! r.covers (Path.joinParts kept) false) = true := by
    decide +kernel
  obtain ⟨f, hload, -, hmain⟩ := isIgnored_below_excluded (supplies_of_toOption hsupplied)
    (Text.written_lines _) (by decide +kernel) rfl
  obtain ⟨g, hg, hcheck⟩ := exists_ok_of_any hchecked
  obtain rfl : f = g := Except.ok.inj (hload.symm.trans hg)
  simp only [Bool.and_eq_true, decide_eq_true_eq, beq_iff_eq, Bool.not_eq_true'] at hcheck
  obtain ⟨⟨⟨⟨⟨⟨⟨hkept, hlost⟩, hkeeps⟩, hdrops⟩, htwo⟩, hfirst⟩, hlast⟩, hapart⟩ := hcheck
  obtain ⟨r, s, hrules⟩ := List.length_eq_two.1 htwo
  rw [hrules] at hfirst hlast hapart
  obtain ⟨hopen, hmoved⟩ := hmain _ outer _ hkept (by decide) (by decide)
    (hrules ▸ excludes_iff.2 hfirst)
  obtain ⟨hclosed, -⟩ := hmain _ outer _ hlost (by decide) (by decide)
    (hrules ▸ excludes_iff.2 hfirst)
  refine ⟨f, r, s, hload, hrules, excludes_iff.2 hfirst, excludes_iff.2 hlast, hkept, hlost,
    hopen.1 hkeeps, fun h => ?_, hdrops, hmoved r [] [s] [s] [] hrules rfl ?_ (excludes_iff.2 hlast)⟩
  · rw [hclosed.2 h] at hdrops
    cases hdrops
  · rintro place ⟨hbelow, hne, hplace⟩
    have hlonger : outer.length < place.length :=
      hbelow.length_le.lt_of_ne fun h => hne (hbelow.eq_of_length h).symm
    obtain rfl : place = kept := hplace.eq_of_length_le hlonger
    simpa using hapart

theorem keeps_below_excluded :
    let file := Path.ofString "/build/keep.txt"
    let keeps := fun text => ∃ f,
      Filter.load (ruled text) ⟨[Path.separator]⟩ (some (.ofString "rules")) = .ok f ∧
      f.Below file [bytesOf "build", bytesOf "keep.txt"] ∧ Excludes f.rules [bytesOf "build"] ∧
      f.isIgnored file = false
    keeps "build/\n!keep.txt\n" ∧ keeps "!keep.txt\nbuild/\n" := by
  intro file keeps
  have hkeeps (text : String) (h : (Filter.load (ruled text) ⟨[Path.separator]⟩
        (some (.ofString "rules"))).toOption.any (fun f =>
      decide (f.Below file [bytesOf "build", bytesOf "keep.txt"]) &&
      verdict f.rules (Path.joinParts [bytesOf "build"]) true == some true &&
      ! f.isIgnored file) = true) : keeps text := by
    obtain ⟨f, hload, hcheck⟩ := exists_ok_of_any h
    simp only [Bool.and_eq_true, decide_eq_true_eq, beq_iff_eq, Bool.not_eq_true'] at hcheck
    exact ⟨f, hload, hcheck.1.1, excludes_iff.2 hcheck.1.2, hcheck.2⟩
  exact ⟨hkeeps _ (by decide +kernel), hkeeps _ (by decide +kernel)⟩

end Lintel.Ignore
