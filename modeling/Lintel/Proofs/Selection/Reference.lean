import Lintel.Proofs.Elementwise
import Lintel.Proofs.Path.Firsts
import Lintel.Proofs.Path.Settled
import Lintel.Selection

/-!
# What a selection comes to

Without the ignore file a selection succeeds exactly when each of its tokens does, and its files
are those of the tokens, one token after the other, without repetitions. The ignore file is
consulted after that and only takes files away.
-/
namespace Lintel.Selection

variable (s : Selection) (t : Tree)

theorem gather_cons (tok : String) (toks : List String) :
    s.gather t (tok :: toks) =
      match s.token t tok with
      | .error f => .error f
      | .ok ps => (s.gather t toks).map (ps ++ ·) := by
  rw [gather]
  cases s.token t tok with
  | error f => rfl
  | ok ps => cases s.gather t toks <;> rfl

theorem gather_eq_ok_iff {toks : List String} {ps : List Path} :
    s.gather t toks = .ok ps ↔
      ∃ each, List.Forall₂ (fun tok qs => s.token t tok = .ok qs) toks each ∧
        ps = each.flatten := by
  induction toks generalizing ps with
  | nil =>
    constructor
    · intro h
      cases h
      exact ⟨[], .nil, rfl⟩
    · intro h
      obtain ⟨_, ⟨⟩, rfl⟩ := h
      rfl
  | cons tok toks ih =>
    rw [gather_cons]
    cases htok : s.token t tok with
    | error f =>
      refine ⟨fun h => by simp at h, ?_⟩
      intro h'
      obtain ⟨_, ⟨⟩, rfl⟩ := h'
      simp_all
    | ok qs =>
      constructor
      · intro h
        cases hrest : s.gather t toks with
        | error f => simp [hrest, Except.map] at h
        | ok rest =>
          obtain ⟨each, heach, rfl⟩ := ih.1 hrest
          obtain rfl : qs ++ each.flatten = ps := by simpa [hrest, Except.map] using h
          exact ⟨qs :: each, .cons htok heach, rfl⟩
      · intro h'
        obtain ⟨_, heach, rfl⟩ := h'
        cases heach with
        | cons hhead htail =>
          obtain rfl := Except.ok.inj (htok.symm.trans hhead)
          simp [ih.2 ⟨_, htail, rfl⟩, Except.map]

theorem gather_eq_error_iff {toks : List String} {f : Fault} :
    s.gather t toks = .error f ↔
      ∃ before tok after, toks = before ++ tok :: after ∧
        (∀ u ∈ before, ∃ ps, s.token t u = .ok ps) ∧ s.token t tok = .error f := by
  induction toks with
  | nil => simp [gather]
  | cons tok toks ih =>
    rw [gather_cons]
    cases htok : s.token t tok with
    | error g =>
      constructor
      · intro h
        cases h
        exact ⟨[], tok, toks, rfl, by simp, htok⟩
      · intro h
        obtain ⟨before, u, after, hsplit, hbefore, hfail⟩ := h
        cases before with
        | nil =>
          obtain ⟨rfl, rfl⟩ := List.cons.inj hsplit
          exact htok.symm.trans hfail
        | cons v before =>
          obtain ⟨rfl, -⟩ := List.cons.inj hsplit
          obtain ⟨ps, hps⟩ := hbefore tok (List.mem_cons_self ..)
          simp [htok] at hps
    | ok ps =>
      have hmap : (s.gather t toks).map (ps ++ ·) = .error f ↔ s.gather t toks = .error f := by
        cases s.gather t toks <;> simp [Except.map]
      rw [hmap, ih]
      constructor
      · intro h
        obtain ⟨before, u, after, rfl, hbefore, hfail⟩ := h
        exact ⟨tok :: before, u, after, rfl, List.forall_mem_cons.2 ⟨⟨ps, htok⟩, hbefore⟩, hfail⟩
      · intro h
        obtain ⟨before, u, after, hsplit, hbefore, hfail⟩ := h
        cases before with
        | nil =>
          obtain ⟨rfl, -⟩ := List.cons.inj hsplit
          simp [htok] at hfail
        | cons v before =>
          obtain ⟨rfl, rfl⟩ := List.cons.inj hsplit
          exact ⟨before, u, after, rfl, fun w hw => hbefore w (List.mem_cons_of_mem _ hw), hfail⟩

theorem resolve_off (toks : List String) :
    s.resolve t toks .off = (s.gather t toks).map FileSet.ofList := by
  unfold resolve
  cases s.gather t toks <;> rfl

theorem resolve_singleton (tok : String) :
    s.resolve t [tok] .off = (s.token t tok).map FileSet.ofList := by
  rw [resolve_off, gather_cons]
  cases s.token t tok <;> simp [gather, Except.map]

theorem resolve_of_ne_off {toks : List String} {ignoring : Ignoring} (h : ignoring ≠ .off) :
    s.resolve t toks ignoring =
      match s.resolve t toks .off with
      | .error f => .error f
      | .ok files => (Ignore.Filter.load t s.workingDir ignoring.path?).map fun g =>
          FileSet.ofList (g.keep files.files) := by
  rw [resolve_off, resolve]
  cases s.gather t toks with
  | error f => rfl
  | ok ps =>
    change (if ignoring = .off then _ else _) = _
    rw [if_neg h]
    cases Ignore.Filter.load t s.workingDir ignoring.path? <;> rfl

theorem isAbsolute_workingDir_under (dir : Path) : (under dir).workingDir.isAbsolute = true :=
  (Path.settled_anchor rfl dir).isAbsolute

theorem settled_of_mem_token {dir : Path} {tok : String} {ps : List Path} {p : Path}
    (h : (under dir).token t tok = .ok ps) (hp : p ∈ ps) : p.Settled := by
  have habs := isAbsolute_workingDir_under dir
  unfold token at h
  split at h
  · cases hexpand : Glob.expand t (under dir).workingDir tok with
    | error f => simp [hexpand, Except.map] at h
    | ok found =>
      obtain rfl : found.map (under dir).workingDir.anchor = ps := by
        simpa [hexpand, Except.map] using h
      obtain ⟨q, -, rfl⟩ := List.mem_map.1 hp
      exact Path.settled_anchor habs q
  · dsimp only at h
    split at h
    · obtain rfl := Except.ok.inj h
      obtain rfl := List.mem_singleton.1 hp
      exact Path.settled_anchor habs _
    · simp at h

theorem settled_of_mem_each {dir : Path} {toks : List String} {each : List (List Path)}
    (h : List.Forall₂ (fun tok qs => (under dir).token t tok = .ok qs) toks each) {p : Path}
    (hp : p ∈ each.flatten) : p.Settled := by
  induction h with
  | nil => simp at hp
  | cons hhead _ ih =>
    rcases List.mem_append.1 hp with hp | hp
    · exact settled_of_mem_token t hhead hp
    · exact ih hp

theorem eraseDups_of_settled {ps : List Path} (h : ∀ p ∈ ps, p.Settled) :
    Path.firsts ps = ps.eraseDups :=
  Path.firsts_eq_eraseDups fun p hp q hq => (h p hp).eq_of_same (h q hq)

theorem resolve_off_eq_ok_iff {toks : List String} {fs : FileSet} :
    s.resolve t toks .off = .ok fs ↔
      ∃ each, List.Forall₂ (fun tok qs => s.token t tok = .ok qs) toks each ∧
        fs.files = Path.firsts each.flatten := by
  rw [resolve_off]
  constructor
  · intro h
    cases hgather : s.gather t toks with
    | error f => simp [hgather, Except.map] at h
    | ok ps =>
      obtain ⟨each, heach, rfl⟩ := (s.gather_eq_ok_iff t).1 hgather
      obtain rfl : FileSet.ofList each.flatten = fs := by simpa [hgather, Except.map] using h
      exact ⟨each, heach, rfl⟩
  · intro h'
    obtain ⟨each, heach, hfiles⟩ := h'
    obtain ⟨files, distinct⟩ := fs
    subst hfiles
    rw [(s.gather_eq_ok_iff t).2 ⟨each, heach, rfl⟩]
    rfl

theorem exists_resolve_singleton_iff {tok : String} :
    (∃ fs, s.resolve t [tok] .off = .ok fs) ↔ ∃ ps, s.token t tok = .ok ps := by
  rw [resolve_singleton]
  cases s.token t tok <;> simp [Except.map]

theorem resolve_singleton_eq_error_iff {tok : String} {f : Fault} :
    s.resolve t [tok] .off = .error f ↔ s.token t tok = .error f := by
  rw [resolve_singleton]
  cases s.token t tok <;> simp [Except.map]

theorem resolve_off_eq_error_iff {toks : List String} {f : Fault} :
    s.resolve t toks .off = .error f ↔ s.gather t toks = .error f := by
  rw [resolve_off]
  cases s.gather t toks <;> simp [Except.map]

theorem forall₂_resolve_singleton_iff {toks : List String} {each : List FileSet} :
    List.Forall₂ (fun tok r => s.resolve t [tok] .off = .ok r) toks each ↔
      ∃ pss, List.Forall₂ (fun tok qs => s.token t tok = .ok qs) toks pss ∧
        each = pss.map FileSet.ofList := by
  simp only [resolve_singleton]
  constructor
  · intro h
    induction h with
    | nil => exact ⟨[], .nil, rfl⟩
    | @cons tok r toks each hhead _ ih =>
      obtain ⟨pss, hpss, rfl⟩ := ih
      cases htok : s.token t tok with
      | error f => simp [htok, Except.map] at hhead
      | ok ps =>
        obtain rfl : FileSet.ofList ps = r := by simpa [htok, Except.map] using hhead
        exact ⟨ps :: pss, .cons htok hpss, rfl⟩
  · intro h'
    obtain ⟨pss, hpss, rfl⟩ := h'
    induction hpss with
    | nil => exact .nil
    | cons hhead _ ih => exact .cons (by rw [hhead]; rfl) ih

theorem files_eq_eraseDups {dir : Path} {toks : List String} {pss : List (List Path)}
    (h : List.Forall₂ (fun tok qs => (under dir).token t tok = .ok qs) toks pss) :
    Path.firsts pss.flatten = ((pss.map FileSet.ofList).flatMap FileSet.files).eraseDups := by
  have hflat : (pss.map FileSet.ofList).flatMap FileSet.files = pss.flatMap Path.firsts := by
    rw [List.flatMap_map]; rfl
  have hsettled : ∀ p ∈ pss.flatMap Path.firsts, p.Settled := by
    intro p hp
    obtain ⟨ps, hps, hfirst⟩ := List.mem_flatMap.1 hp
    exact settled_of_mem_each t h (List.mem_flatten.2 ⟨ps, hps, Path.mem_of_mem_firsts hfirst⟩)
  rw [hflat, ← eraseDups_of_settled hsettled, Path.firsts_flatMap_firsts]

theorem keep_of_settled {g : Ignore.Filter} {ps : List Path} (h : ∀ p ∈ ps, p.Settled) :
    g.keep ps = ps.filter (! g.isIgnored ·) := by
  refine (List.map_congr_left fun p hp => ?_).trans (List.map_id _)
  exact (h p (List.mem_filter.1 hp).1).anchor g.workingDir

theorem settled_of_mem_resolve_off {dir : Path} {toks : List String} {fs : FileSet}
    (h : (under dir).resolve t toks .off = .ok fs) : ∀ p ∈ fs.files, p.Settled := by
  obtain ⟨each, heach, hfiles⟩ := (resolve_off_eq_ok_iff _ t).1 h
  intro p hp
  rw [hfiles] at hp
  exact settled_of_mem_each t heach (Path.mem_of_mem_firsts hp)

/-- A selection against its tokens, its parts and its ignore file. -/
theorem resolve_reference (dir : Path) (toks : List String) :
    let s := under dir
    ((∃ fs, s.resolve t toks .off = .ok fs) ↔
      ∀ tok ∈ toks, ∃ fs, s.resolve t [tok] .off = .ok fs) ∧
    (∀ f, s.resolve t toks .off = .error f ↔
      ∃ before tok after, toks = before ++ tok :: after ∧
        (∀ u ∈ before, ∃ fs, s.resolve t [u] .off = .ok fs) ∧
        s.resolve t [tok] .off = .error f) ∧
    (∀ fs, s.resolve t toks .off = .ok fs ↔
      ∃ each, List.Forall₂ (fun tok r => s.resolve t [tok] .off = .ok r) toks each ∧
        fs.files = (each.flatMap FileSet.files).eraseDups) ∧
    (∀ toks' fs fs', s.resolve t toks .off = .ok fs → s.resolve t toks' .off = .ok fs' →
      ∃ both, s.resolve t (toks ++ toks') .off = .ok both ∧
        both.files = (fs.files ++ fs'.files).eraseDups) ∧
    ∀ ignoring, ignoring ≠ .off →
      (∀ f, s.resolve t toks .off = .error f → s.resolve t toks ignoring = .error f) ∧
      ∀ fs, s.resolve t toks .off = .ok fs →
        (∀ f, Ignore.Filter.load t s.workingDir ignoring.path? = .error f →
          s.resolve t toks ignoring = .error f) ∧
        ∀ g, Ignore.Filter.load t s.workingDir ignoring.path? = .ok g →
          ∃ kept, s.resolve t toks ignoring = .ok kept ∧
            kept.files = fs.files.filter (! g.isIgnored ·) := by
  intro s
  refine ⟨?_, ?_, ?_, ?_, ?_⟩
  · simp only [s.exists_resolve_singleton_iff t, ← exists_forall₂_iff]
    constructor
    · intro h
      obtain ⟨fs, h⟩ := h
      obtain ⟨pss, hpss, -⟩ := (s.resolve_off_eq_ok_iff t).1 h
      exact ⟨pss, hpss⟩
    · intro h'
      obtain ⟨pss, hpss⟩ := h'
      exact ⟨FileSet.ofList pss.flatten, (s.resolve_off_eq_ok_iff t).2 ⟨pss, hpss, rfl⟩⟩
  · intro f
    rw [s.resolve_off_eq_error_iff t, s.gather_eq_error_iff t]
    simp only [s.exists_resolve_singleton_iff t, s.resolve_singleton_eq_error_iff t]
  · intro fs
    rw [s.resolve_off_eq_ok_iff t]
    constructor
    · intro h'
      obtain ⟨pss, hpss, hfiles⟩ := h'
      exact ⟨_, (s.forall₂_resolve_singleton_iff t).2 ⟨pss, hpss, rfl⟩,
        hfiles.trans (files_eq_eraseDups t hpss)⟩
    · intro h'
      obtain ⟨each, heach, hfiles⟩ := h'
      obtain ⟨pss, hpss, rfl⟩ := (s.forall₂_resolve_singleton_iff t).1 heach
      exact ⟨pss, hpss, hfiles.trans (files_eq_eraseDups t hpss).symm⟩
  · intro toks' fs fs' h h'
    obtain ⟨pss, hpss, hfiles⟩ := (s.resolve_off_eq_ok_iff t).1 h
    obtain ⟨pss', hpss', hfiles'⟩ := (s.resolve_off_eq_ok_iff t).1 h'
    have hboth : ∀ p ∈ fs.files ++ fs'.files, p.Settled := fun p hp =>
      (List.mem_append.1 hp).elim (settled_of_mem_resolve_off t h p)
        (settled_of_mem_resolve_off t h' p)
    refine ⟨FileSet.ofList (pss ++ pss').flatten, (s.resolve_off_eq_ok_iff t).2
      ⟨pss ++ pss', List.rel_append hpss hpss', rfl⟩, ?_⟩
    rw [FileSet.files_ofList, List.flatten_append, ← Path.firsts_append_firsts, ← hfiles,
      ← hfiles', eraseDups_of_settled hboth]
  · intro ignoring hon
    rw [s.resolve_of_ne_off t hon]
    refine ⟨fun f h => by rw [h], fun fs h => ?_⟩
    rw [h]
    refine ⟨fun f hload => by rw [hload]; rfl, fun g hload => ?_⟩
    have hkeep := keep_of_settled (g := g) (settled_of_mem_resolve_off t h)
    refine ⟨FileSet.ofList (g.keep fs.files), by rw [hload]; rfl, ?_⟩
    rw [FileSet.files_ofList, hkeep, Path.firsts_of_pairwise (fs.distinct.filter _)]

end Lintel.Selection
