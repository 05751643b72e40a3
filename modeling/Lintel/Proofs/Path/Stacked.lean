import Lintel.Proofs.Path.Joined
import Lintel.Proofs.Tree.Walking

/-!
# Anchored paths as stacks of names

The parts of a path, read from left to right, build a stack: a name is put on top of it, `..` takes
the topmost name off if there is one, and silent parts leave it alone. An absolute path starts on
the empty stack, a relative one on that of its base. An anchored path spells the stack, each name
behind one separator, so that anchoring in two steps is the same as anchoring at once.
-/
namespace Lintel.Path

def stackStep (names : List Bytes) (part : Bytes) : List Bytes :=
  if part = [] ∨ part = [dot] then names
  else if part = [dot, dot] then names.dropLast
  else names ++ [part]

/-- The stack of names that `base` and then `p` leave. -/
def stack (base p : Path) : List Bytes :=
  p.parts.foldl stackStep (if p.isAbsolute then [] else base.parts.foldl stackStep [])

theorem stack_relative (base : Path) {p : Path} (h : p.isAbsolute = false) :
    stack base p = p.parts.foldl stackStep (base.parts.foldl stackStep []) := by
  rw [stack, if_neg (by simp [h])]

theorem stackStep_empty (names : List Bytes) : stackStep names [] = names := if_pos (.inl rfl)

theorem stackStep_silent {part : Bytes} (h : isSilent part = true) (names : List Bytes) :
    stackStep names part = names :=
  if_pos (by simpa [isSilent] using h)

theorem stackStep_up (names : List Bytes) : stackStep names [dot, dot] = names.dropLast := by
  simp [stackStep]

theorem stackStep_loud {part : Bytes} (hloud : isSilent part = false) (hup : part ≠ [dot, dot])
    (names : List Bytes) : stackStep names part = names ++ [part] := by
  have hsilent : ¬ (part = [] ∨ part = [dot]) := by
    intro h
    have : isSilent part = true := by simpa [isSilent] using h
    rw [hloud] at this
    cases this
  rw [stackStep, if_neg hsilent, if_neg hup]

theorem foldl_stackStep_names {more : List Bytes} (h : ∀ b ∈ more, IsName b)
    (names : List Bytes) : more.foldl stackStep names = names ++ more := by
  induction more generalizing names with
  | nil => simp
  | cons b more ih =>
    rw [List.forall_mem_cons] at h
    rw [List.foldl_cons, stackStep_loud (not_isSilent_of_isName h.1) h.1.2.2.1, ih h.2,
      List.append_assoc, List.singleton_append]

theorem foldl_stackStep_stem (p : Path) (names : List Bytes) :
    p.stem.foldl stackStep names = p.parts.foldl stackStep names := by
  rcases stem_cases p with heq | hlost
  · rw [heq]
  · rw [hlost, List.foldl_append]
    exact (stackStep_empty _).symm

theorem foldl_stackStep_ofNames {names : List Bytes} (h : ∀ b ∈ names, IsName b) :
    (ofNames true names).parts.foldl stackStep [] = names := by
  by_cases hne : names = []
  · subst hne
    rfl
  · rw [parts_ofNames h hne, List.foldl_cons, stackStep_empty, foldl_stackStep_names h,
      List.nil_append]

/-! ## Anchored paths -/

theorem settleParts_eq_foldl (ps : List Bytes) : settleParts ps = ps.foldl stackStep [] := by
  induction ps using List.reverseRecOn with
  | nil => rfl
  | append_singleton ps b ih =>
    rw [List.foldl_append, List.foldl_cons, List.foldl_nil, ← ih]
    cases hb : isSilent b with
    | true => rw [settleParts_append_silent hb, stackStep_silent hb]
    | false =>
      by_cases hup : b = [dot, dot]
      · rw [hup, settleParts_append_up, stackStep_up]
      · rw [settleParts_append_name hb hup, stackStep_loud hb hup]

theorem settle_join (base p : Path) : settle (base.join p).components = stack base p := by
  rw [settle_components, settleParts_eq_foldl, stack]
  cases hp : p.isAbsolute with
  | true => rw [join, if_pos hp, if_pos rfl]
  | false =>
    rw [parts_join base hp, List.foldl_append, foldl_stackStep_stem, if_neg Bool.false_ne_true]

theorem anchor_eq_ofNames {base : Path} (hbase : base.isAbsolute = true) (p : Path) :
    base.anchor p = ofNames true (stack base p) := by
  rw [anchor, normalize, isAbsolute_join hbase, settle_join]

theorem isName_of_mem_stack {base p : Path} {b : Bytes} (h : b ∈ stack base p) : IsName b := by
  rw [← settle_join] at h
  exact isName_of_mem_settle h

theorem foldl_stackStep_anchor {base : Path} (hbase : base.isAbsolute = true) (p : Path) :
    (base.anchor p).parts.foldl stackStep [] = stack base p := by
  rw [anchor_eq_ofNames hbase]
  exact foldl_stackStep_ofNames fun b hb => isName_of_mem_stack hb

theorem anchor_congr {base base' p p' : Path} (hbase : base.isAbsolute = true)
    (hbase' : base'.isAbsolute = true) (h : stack base p = stack base' p') :
    base.anchor p = base'.anchor p' := by
  rw [anchor_eq_ofNames hbase, anchor_eq_ofNames hbase', h]

theorem stack_join (base p : Path) {q : Path} (hq : q.isAbsolute = false) :
    stack base (p.join q) = q.parts.foldl stackStep (stack base p) := by
  rw [stack, isAbsolute_join_relative p hq, parts_join p hq, List.foldl_append,
    foldl_stackStep_stem, stack]

/-- An anchored path is absolute and spells its stack of names. Anchoring it again leaves it alone,
and its base may be anchored first; a path that is joined to another one may also be anchored
there. -/
theorem anchor_spells_stack {base : Path} (hbase : base.isAbsolute = true) (p : Path) :
    (base.anchor p).isAbsolute = true ∧
    (base.anchor p).bytes = separator :: joinParts (stack base p) ∧
    (base.anchor p).components = .root :: (stack base p).map .name ∧
    (∀ b ∈ stack base p, b ≠ [] ∧ b ≠ [dot] ∧ b ≠ [dot, dot] ∧ separator ∉ b) ∧
    (∀ other : Path, other.anchor (base.anchor p) = base.anchor p) ∧
    base.anchor p = ((⟨[separator]⟩ : Path).anchor base).anchor p ∧
    ∀ q : Path, q.isAbsolute = false → base.anchor (p.join q) = (base.anchor p).anchor q := by
  have hsettled : (base.anchor p).Settled := settled_anchor hbase p
  have hnames : ∀ b ∈ stack base p, IsName b := fun b hb => isName_of_mem_stack hb
  have hspelled := anchor_eq_ofNames hbase p
  refine ⟨hsettled.isAbsolute, by rw [hspelled]; rfl, ?_, hnames, hsettled.anchor, ?_, ?_⟩
  · rw [hspelled, components_ofNames hnames]
  · have hroot : (⟨[separator]⟩ : Path).isAbsolute = true := rfl
    have hbase' := (settled_anchor hroot base).isAbsolute
    refine anchor_congr hbase hbase' ?_
    rw [stack, stack, foldl_stackStep_anchor hroot, stack, if_pos hbase]
  · intro q hq
    refine anchor_congr hbase hsettled.isAbsolute ?_
    rw [stack_join base p hq, stack_relative _ hq, foldl_stackStep_anchor hbase]

theorem anchor_spells_stack_climbing :
    let base := Path.ofString "/work//./project/"
    let p := Path.ofString "./src/../..//../..x/./y/.."
    base.isAbsolute = true ∧
    stack base p = [bytesOf "..x"] ∧
    (base.anchor p).isAbsolute = true ∧
    (base.anchor p).bytes = separator :: joinParts (stack base p) ∧
    (base.anchor p).components = .root :: (stack base p).map .name ∧
    (∀ b ∈ stack base p, b ≠ [] ∧ b ≠ [dot] ∧ b ≠ [dot, dot] ∧ separator ∉ b) ∧
    (∀ other : Path, other.anchor (base.anchor p) = base.anchor p) ∧
    base.anchor p = ((⟨[separator]⟩ : Path).anchor base).anchor p ∧
    ∀ q : Path, q.isAbsolute = false → base.anchor (p.join q) = (base.anchor p).anchor q := by
  intro base p
  have hbase : base.isAbsolute = true := by decide +kernel
  exact ⟨hbase, by decide +kernel, anchor_spells_stack hbase p⟩

end Lintel.Path
