import Lintel.Proofs.Ignore.Appended
import Lintel.Proofs.Ignore.Seen

/-!
# What an ignore file keeps

Filtering looks at one path at a time and at the anchored form of it only. It takes paths out of a
list and leaves the order of the others, so that it may be applied to parts of a list and changes
nothing when it is applied again. A path that does not stand below the working directory passes.
-/
namespace Lintel.Ignore.Filter

variable {f : Filter}

theorem isIgnored_congr {p q : Path} (h : f.workingDir.anchor p = f.workingDir.anchor q) :
    f.isIgnored p = f.isIgnored q := by
  rw [isIgnored, isIgnored, h]

theorem isIgnored_anchor (hdir : f.workingDir.isAbsolute = true) (p : Path) :
    f.isIgnored (f.workingDir.anchor p) = f.isIgnored p :=
  isIgnored_congr ((Path.settled_anchor hdir p).anchor _)

theorem keep_append (ps qs : List Path) : f.keep (ps ++ qs) = f.keep ps ++ f.keep qs := by
  rw [keep, List.filter_append, List.map_append, keep, keep]

theorem keep_cons (p : Path) (ps : List Path) :
    f.keep (p :: ps) =
      (if f.isIgnored p then [] else [f.workingDir.anchor p]) ++ f.keep ps := by
  rw [keep, List.filter_cons]
  cases f.isIgnored p <;> rfl

theorem keep_keep (hdir : f.workingDir.isAbsolute = true) (ps : List Path) :
    f.keep (f.keep ps) = f.keep ps := by
  have hignored : (! f.isIgnored ·) ∘ f.workingDir.anchor = (! f.isIgnored ·) :=
    funext fun p => congrArg (! ·) (isIgnored_anchor hdir p)
  have hanchor : f.workingDir.anchor ∘ f.workingDir.anchor = f.workingDir.anchor :=
    funext fun p => (Path.settled_anchor hdir p).anchor _
  simp only [keep, List.filter_map, hignored, List.filter_filter, Bool.and_self, List.map_map,
    hanchor]

theorem isIgnored_of_outside (hdir : f.workingDir.isAbsolute = true) {p : Path}
    (h : f.workingDir.anchor p = f.workingDir ∨
      ¬ f.workingDir.components <+: (f.workingDir.anchor p).components) :
    f.isIgnored p = false := by
  rw [← Bool.not_eq_true, isIgnored_iff hdir]
  rintro ⟨names, hne, hbelow, -⟩
  rw [Below] at hbelow
  rcases h with hsame | houtside
  · rw [hsame, List.self_eq_append_right, List.map_eq_nil_iff] at hbelow
    exact hne hbelow
  · exact houtside ⟨_, hbelow.symm⟩

/-- Filtering selects path by path, is settled after one pass, and sees the anchored form of a path
only. The rules are asked about paths that are relative, not empty and spelled in names. -/
structure SelectsPointwise (f : Filter) : Prop where
  append : ∀ ps qs, f.keep (ps ++ qs) = f.keep ps ++ f.keep qs
  each : ∀ ps, f.keep ps =
    ps.flatMap fun p => if f.isIgnored p then [] else [f.workingDir.anchor p]
  again : ∀ ps, f.keep (f.keep ps) = f.keep ps
  spellings : ∀ p q, f.workingDir.anchor p = f.workingDir.anchor q →
    f.isIgnored p = f.isIgnored q ∧ f.keep [p] = f.keep [q]
  outside : ∀ p, f.workingDir.anchor p = f.workingDir ∨
      ¬ f.workingDir.components <+: (f.workingDir.anchor p).components →
    f.isIgnored p = false ∧ f.keep [p] = [f.workingDir.anchor p]
  asks : ∀ p, f.isIgnored p = true ↔
    ∃ relative, f.Asks p relative ∧ ignores f.rules (f.names relative) = true
  asked : ∀ p relative, f.Asks p relative → relative.isAbsolute = false ∧
    f.names relative ≠ [] ∧ (∀ b ∈ f.names relative, Path.IsName b) ∧
    relative = .ofNames false (f.names relative)

theorem keep_pointwise (hdir : f.workingDir.isAbsolute = true) : f.SelectsPointwise := by
  have hone (p : Path) :
      f.keep [p] = if f.isIgnored p then [] else [f.workingDir.anchor p] := by
    rw [keep_cons]
    exact List.append_nil _
  refine ⟨keep_append, fun ps => ?_, keep_keep hdir, fun p q hsame => ?_, fun p houtside => ?_,
    fun p => isIgnored_eq_true_iff, fun p relative hasks => ?_⟩
  · induction ps with
    | nil => rfl
    | cons p ps ih => rw [keep_cons, ih, List.flatMap_cons]
  · have hignored := isIgnored_congr hsame
    exact ⟨hignored, by rw [hone, hone, hignored, hsame]⟩
  · have hignored := isIgnored_of_outside hdir houtside
    exact ⟨hignored, by rw [hone, hignored, if_neg Bool.false_ne_true]⟩
  · obtain ⟨names, hne, hnames, -, hrelative, hsame⟩ := hasks.exists_names hdir
    rw [hsame, hrelative]
    exact ⟨Path.isAbsolute_joinParts hnames, hne, hnames, rfl⟩

theorem keep_pointwise_climbing :
    ∃ f, load (ruled "*.sh\n!keep.sh\n") (.ofString "/work") (some (.ofString "../rules")) =
        .ok f ∧
      f.workingDir.isAbsolute = true ∧
      f.keep (["a.sh", "/work//./a.sh", "sub//keep.sh", ".", "sub/../..", "../b.sh"].map
          .ofString) = ["/work/sub/keep.sh", "/work", "/", "/b.sh"].map .ofString ∧
      f.SelectsPointwise := by
  have hload : (load (ruled "*.sh\n!keep.sh\n") (.ofString "/work")
      (some (.ofString "../rules"))).toOption.any (fun f => f.workingDir.isAbsolute &&
        f.keep (["a.sh", "/work//./a.sh", "sub//keep.sh", ".", "sub/../..", "../b.sh"].map
          .ofString) == ["/work/sub/keep.sh", "/work", "/", "/b.sh"].map .ofString) = true := by
    decide +kernel
  obtain ⟨f, hf, hkept⟩ := exists_ok_of_any hload
  rw [Bool.and_eq_true, beq_iff_eq] at hkept
  exact ⟨f, hf, hkept.1, hkept.2, keep_pointwise hkept.1⟩

end Lintel.Ignore.Filter
