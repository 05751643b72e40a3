import Lintel.Path.Normal
import Lintel.Proofs.Text.Cutting

/-!
# Settled paths

A settled path is absolute and spells each of its names once: no `.`, no `..`, no empty part. Every
anchored path is settled when the base is absolute, and anchoring a settled path gives it back,
byte for byte and whatever the base. Two settled paths with the same components are equal.
-/
namespace Lintel.Path

def IsName (b : Bytes) : Prop := b ≠ [] ∧ b ≠ [dot] ∧ b ≠ [dot, dot] ∧ separator ∉ b

def Settled (p : Path) : Prop := ∃ names, (∀ b ∈ names, IsName b) ∧ p = ofNames true names

theorem not_isSilent_of_isName {b : Bytes} (h : IsName b) : isSilent b = false := by
  simp [isSilent, h.1, h.2.1]

theorem ofPart_of_isName {b : Bytes} (h : IsName b) : Component.ofPart b = .name b := by
  rw [Component.ofPart, if_neg h.2.2.1]

theorem parts_ofNames {names : List Bytes} (h : ∀ b ∈ names, IsName b) (hne : names ≠ []) :
    (ofNames true names).parts = [] :: names := by
  have hcut : Text.pieces (· == separator) (joinParts names) = names :=
    Text.pieces_intercalate (fun b hb => (h b hb).2.2.2) hne
  have hsep := Text.pieces_cons_sep (p := (· == separator)) (a := separator) (by simp)
    (joinParts names)
  rw [hcut] at hsep
  exact hsep

theorem components_ofNames {names : List Bytes} (h : ∀ b ∈ names, IsName b) :
    (ofNames true names).components = .root :: names.map .name := by
  have habs : (ofNames true names).isAbsolute = true := by simp [ofNames, isAbsolute]
  rw [components, if_pos habs]
  by_cases hne : names = []
  · subst hne; rfl
  · have hfilter : names.filter (! isSilent ·) = names :=
      List.filter_eq_self.2 fun b hb => by simp [not_isSilent_of_isName (h b hb)]
    have hsilent : isSilent [] = true := rfl
    rw [parts_ofNames h hne, List.filter_cons_of_neg (by simp [hsilent]), hfilter]
    exact congrArg _ (List.map_congr_left fun b hb => ofPart_of_isName (h b hb))

theorem isName_of_mem_components {p : Path} {b : Bytes} (h : .name b ∈ p.components) :
    IsName b := by
  have hbody : .name b ∈ (p.parts.filter (! isSilent ·)).map Component.ofPart := by
    unfold components at h
    split at h
    · simpa using h
    · split at h
      · simpa using h
      · exact h
  obtain ⟨part, hpart, hname⟩ := List.mem_map.1 hbody
  obtain ⟨hmem, hloud⟩ := List.mem_filter.1 hpart
  unfold Component.ofPart at hname
  split at hname
  · simp at hname
  · rename_i hup
    obtain rfl : part = b := by simpa using hname
    have hsep := Text.no_sep_of_mem_pieces hmem
    simp only [isSilent, Bool.not_or, Bool.and_eq_true, Bool.not_eq_true', beq_eq_false_iff_ne]
      at hloud
    exact ⟨hloud.1, hloud.2, hup, fun hin => by simpa using hsep _ hin⟩

theorem mem_of_mem_foldl_settleStep {cs : List Component} {names : List Bytes} {b : Bytes}
    (h : b ∈ cs.foldl settleStep names) : b ∈ names ∨ .name b ∈ cs := by
  induction cs generalizing names with
  | nil => exact .inl h
  | cons c cs ih =>
    rcases ih h with hstep | htail
    · cases c with
      | root => exact .inl hstep
      | here => exact .inl hstep
      | up => exact .inl (List.mem_of_mem_tail hstep)
      | name a =>
        rcases List.mem_cons.1 hstep with rfl | hold
        · exact .inr (List.mem_cons_self ..)
        · exact .inl hold
    · exact .inr (List.mem_cons_of_mem _ htail)

theorem isName_of_mem_settle {p : Path} {b : Bytes} (h : b ∈ settle p.components) : IsName b := by
  rw [settle, List.mem_reverse] at h
  rcases mem_of_mem_foldl_settleStep h with h | h
  · simp at h
  · exact isName_of_mem_components h

theorem foldl_settleStep_names (names before : List Bytes) :
    (names.map Component.name).foldl settleStep before = names.reverse ++ before := by
  induction names generalizing before with
  | nil => rfl
  | cons b names ih => simp [settleStep, ih]

theorem settle_root_names (names : List Bytes) :
    settle (.root :: names.map .name) = names := by
  simp [settle, settleStep, foldl_settleStep_names]

theorem isAbsolute_ofNames (names : List Bytes) : (ofNames true names).isAbsolute = true := by
  simp [ofNames, isAbsolute]

theorem isAbsolute_normalize {p : Path} (h : p.isAbsolute = true) :
    p.normalize.isAbsolute = true := by
  rw [normalize, h]
  exact isAbsolute_ofNames _

theorem Settled.isAbsolute {p : Path} (h : p.Settled) : p.isAbsolute = true := by
  obtain ⟨names, _, rfl⟩ := h
  exact isAbsolute_ofNames names

theorem isAbsolute_join {base : Path} (h : base.isAbsolute = true) (p : Path) :
    (base.join p).isAbsolute = true := by
  unfold join
  split
  · assumption
  · obtain ⟨bytes⟩ := base
    cases bytes with
    | nil => simp [Path.isAbsolute] at h
    | cons b bytes =>
      split
      · simp_all
      · split <;> simpa [Path.isAbsolute] using h

theorem settled_anchor {base : Path} (h : base.isAbsolute = true) (p : Path) :
    (base.anchor p).Settled := by
  refine ⟨settle (base.join p).components, fun b hb => isName_of_mem_settle hb, ?_⟩
  rw [anchor, normalize, isAbsolute_join h]

theorem Settled.normalize {p : Path} (h : p.Settled) : p.normalize = p := by
  obtain ⟨names, hnames, rfl⟩ := h
  rw [Path.normalize, components_ofNames hnames, settle_root_names, isAbsolute_ofNames]

theorem Settled.anchor {p : Path} (h : p.Settled) (base : Path) : base.anchor p = p := by
  rw [Path.anchor, join, if_pos h.isAbsolute, h.normalize]

theorem Settled.eq_of_same {p q : Path} (hp : p.Settled) (hq : q.Settled) (h : p.Same q) :
    p = q := by
  rw [← hp.normalize, ← hq.normalize, Path.normalize, Path.normalize, h, hp.isAbsolute,
    hq.isAbsolute]

end Lintel.Path
