import Lintel.Proofs.Outcome
import Lintel.Proofs.Selection.Reference

/-!
# The members of a selection

A selection consists of the paths of its tokens that the ignore file lets pass. They are in normal
form and none of them is there twice, so the members decide the list up to its order. Which tokens
are given decides the members; their order and their number do not.
-/
namespace Lintel

theorem FileSet.nodup (fs : FileSet) : fs.files.Nodup := by
  apply fs.distinct.imp
  intro p q hne heq
  exact hne (heq ▸ Path.Same.refl p)

namespace Selection

variable (t : Tree) {dir : Path} {toks toks' : List String} {ignoring : Ignoring} {fs : FileSet}

def Ignoring.Passes (ignoring : Ignoring) (t : Tree) (workingDir p : Path) : Prop :=
  ignoring = .off ∨ ∃ g, Ignore.Filter.load t workingDir ignoring.path? = .ok g ∧
    g.isIgnored p = false

def Ignoring.Readable (ignoring : Ignoring) (t : Tree) (workingDir : Path) : Prop :=
  ignoring = .off ∨ ∃ g, Ignore.Filter.load t workingDir ignoring.path? = .ok g

theorem mem_firsts_of_settled {ps : List Path} (h : ∀ p ∈ ps, p.Settled) (p : Path) :
    p ∈ Path.firsts ps ↔ p ∈ ps := by
  rw [eraseDups_of_settled h, List.mem_eraseDups]

theorem mem_resolve_off_iff (h : (under dir).resolve t toks .off = .ok fs) (p : Path) :
    p ∈ fs.files ↔ ∃ tok ∈ toks, ∃ ps, (under dir).token t tok = .ok ps ∧ p ∈ ps := by
  obtain ⟨each, heach, hfiles⟩ := (resolve_off_eq_ok_iff _ t).1 h
  rw [hfiles, mem_firsts_of_settled fun q hq => settled_of_mem_each t heach hq, List.mem_flatten]
  constructor
  · intro hmem
    obtain ⟨ps, hps, hp⟩ := hmem
    obtain ⟨tok, htok, hrun⟩ := exists_of_mem_forall₂ heach hps
    exact ⟨tok, htok, ps, hrun, hp⟩
  · intro htok
    apply (exists_mem_iff_of_forall₂ heach fun tok ps hrun => ?_).1 htok
    simp [hrun]

theorem exists_resolve_off_iff :
    (∃ fs, (under dir).resolve t toks .off = .ok fs) ↔
      ∀ tok ∈ toks, ∃ ps, (under dir).token t tok = .ok ps := by
  rw [← exists_forall₂_iff]
  constructor
  · intro h
    obtain ⟨fs, h⟩ := h
    obtain ⟨each, heach, -⟩ := (resolve_off_eq_ok_iff _ t).1 h
    exact ⟨each, heach⟩
  · intro h
    obtain ⟨each, heach⟩ := h
    exact ⟨FileSet.ofList each.flatten, (resolve_off_eq_ok_iff _ t).2 ⟨each, heach, rfl⟩⟩

theorem exists_resolve_off_of_resolve (h : (under dir).resolve t toks ignoring = .ok fs) :
    ∃ all, (under dir).resolve t toks .off = .ok all ∧
      (ignoring = .off ∧ fs.files = all.files ∨
        ignoring ≠ .off ∧
          ∃ g, Ignore.Filter.load t (under dir).workingDir ignoring.path? = .ok g ∧
            fs.files = all.files.filter (! g.isIgnored ·)) := by
  by_cases hoff : ignoring = .off
  · subst hoff
    exact ⟨fs, h, .inl ⟨rfl, rfl⟩⟩
  · rw [resolve_of_ne_off _ t hoff] at h
    cases hall : (under dir).resolve t toks .off with
    | error f => simp [hall] at h
    | ok all =>
      rw [hall] at h
      obtain ⟨g, hload, rfl⟩ := map_eq_ok_iff.1 h
      have hkeep := keep_of_settled (g := g) (settled_of_mem_resolve_off t hall)
      refine ⟨all, rfl, .inr ⟨hoff, g, hload, ?_⟩⟩
      rw [FileSet.files_ofList, hkeep, Path.firsts_of_pairwise (all.distinct.filter _)]

theorem exists_resolve_iff :
    (∃ fs, (under dir).resolve t toks ignoring = .ok fs) ↔
      (∀ tok ∈ toks, ∃ ps, (under dir).token t tok = .ok ps) ∧
        ignoring.Readable t (under dir).workingDir := by
  constructor
  · intro h
    obtain ⟨fs, h⟩ := h
    obtain ⟨all, hall, hkept⟩ := exists_resolve_off_of_resolve t h
    refine ⟨(exists_resolve_off_iff t).1 ⟨all, hall⟩, ?_⟩
    rcases hkept with ⟨hoff, -⟩ | ⟨-, g, hload, -⟩
    · exact .inl hoff
    · exact .inr ⟨g, hload⟩
  · intro h
    obtain ⟨htoks, hreadable⟩ := h
    obtain ⟨all, hall⟩ := (exists_resolve_off_iff t).2 htoks
    by_cases hoff : ignoring = .off
    · subst hoff
      exact ⟨all, hall⟩
    · obtain ⟨g, hload⟩ := hreadable.resolve_left hoff
      exact ⟨_, by rw [resolve_of_ne_off _ t hoff, hall, hload]; rfl⟩

theorem mem_resolve_iff (h : (under dir).resolve t toks ignoring = .ok fs) (p : Path) :
    p ∈ fs.files ↔
      (∃ tok ∈ toks, ∃ ps, (under dir).token t tok = .ok ps ∧ p ∈ ps) ∧
        ignoring.Passes t (under dir).workingDir p := by
  obtain ⟨all, hall, hkept⟩ := exists_resolve_off_of_resolve t h
  rw [← mem_resolve_off_iff t hall]
  rcases hkept with ⟨hoff, hfiles⟩ | ⟨hon, g, hload, hfiles⟩
  · simp [hfiles, Ignoring.Passes, hoff]
  · simp [hfiles, Ignoring.Passes, hon, hload]

theorem settled_of_mem_resolve (h : (under dir).resolve t toks ignoring = .ok fs) {p : Path}
    (hp : p ∈ fs.files) : p.Settled := by
  obtain ⟨⟨tok, -, ps, hrun, hmem⟩, -⟩ := (mem_resolve_iff t h p).1 hp
  exact settled_of_mem_token t hrun hmem

theorem exists_perm_of_mem_iff (htoks : ∀ tok, tok ∈ toks ↔ tok ∈ toks')
    (h : (under dir).resolve t toks ignoring = .ok fs) :
    ∃ fs', (under dir).resolve t toks' ignoring = .ok fs' ∧ fs.files.Perm fs'.files := by
  have hexists := (exists_resolve_iff t).1 ⟨fs, h⟩
  simp only [htoks] at hexists
  obtain ⟨fs', h'⟩ := (exists_resolve_iff t).2 hexists
  refine ⟨fs', h', (List.perm_ext_iff_of_nodup fs.nodup fs'.nodup).2 fun p => ?_⟩
  simp only [mem_resolve_iff t h, mem_resolve_iff t h', htoks]

/-- The files of a selection are absolute and in normal form, no path is there twice, in whatever
spelling, and the filter that was asked for ignores none of them. -/
theorem resolve_normal_distinct_kept {noIgnore : Bool} {ignorePath : Option Path}
    (h : (under dir).resolve t toks (.ofOptions noIgnore ignorePath) = .ok fs) :
    (∀ p ∈ fs.files, p.isAbsolute = true ∧ p.Settled) ∧
    fs.files.Pairwise (fun p q => ¬ p.Same q) ∧ fs.files.Nodup ∧
    (noIgnore = false →
      ∃ g, Ignore.Filter.load t (under dir).workingDir ignorePath = .ok g ∧
        ∀ p ∈ fs.files, g.isIgnored p = false) := by
  refine ⟨fun p hp => ?_, fs.distinct, fs.nodup, fun hon => ?_⟩
  · have hsettled := settled_of_mem_resolve t h hp
    exact ⟨hsettled.isAbsolute, hsettled⟩
  · subst hon
    obtain ⟨all, -, hkept⟩ := exists_resolve_off_of_resolve t h
    have hpath : (Ignoring.ofOptions false ignorePath).path? = ignorePath := by
      cases ignorePath <;> rfl
    have hne : Ignoring.ofOptions false ignorePath ≠ .off := by
      cases ignorePath <;> simp [Ignoring.ofOptions]
    rcases hkept with ⟨hoff, -⟩ | ⟨-, g, hload, hfiles⟩
    · exact absurd hoff hne
    · rw [hpath] at hload
      refine ⟨g, hload, fun p hp => ?_⟩
      rw [hfiles, List.mem_filter] at hp
      simpa using hp.2

def ruled : Tree := ⟨[
  ([bytesOf "rules"], .file (bytesOf "b.sh\n") false),
  ([bytesOf "w"], .directory),
  ([bytesOf "w", bytesOf "a.sh"], .file [] false),
  ([bytesOf "w", bytesOf "b.sh"], .file [] false)]⟩

theorem resolve_normal_distinct_kept_ruled :
    let s := under (.ofString "w/./x/..")
    let rules := some (.ofString "../rules")
    ∃ fs, s.resolve ruled ["./a.sh", "/w//./a.sh", "../w/*.sh"] (.ofOptions false rules) = .ok fs ∧
      fs.files = [.ofString "/w/a.sh"] ∧
      (∀ p ∈ fs.files, p.isAbsolute = true ∧ p.Settled) ∧
      fs.files.Pairwise (fun p q => ¬ p.Same q) ∧ fs.files.Nodup ∧
      (false = false → ∃ g, Ignore.Filter.load ruled s.workingDir rules = .ok g ∧
        ∀ p ∈ fs.files, g.isIgnored p = false) := by
  intro s rules
  have hfiles : (s.resolve ruled ["./a.sh", "/w//./a.sh", "../w/*.sh"]
      (.ofOptions false rules)).toOption.any (·.files == [.ofString "/w/a.sh"]) = true := by
    decide +kernel
  obtain ⟨fs, h, hfs⟩ := exists_ok_of_any hfiles
  exact ⟨fs, h, beq_iff_eq.1 hfs, resolve_normal_distinct_kept ruled h⟩

end Selection

end Lintel
