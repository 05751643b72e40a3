import Mathlib.Data.List.Basic
import Mathlib.Data.List.TakeWhile
import Lintel.Ignore.Filter
import Lintel.Proofs.Path.Below
import Lintel.Proofs.Path.Stacked

/-!
# What an ignore file sees of a path

The rules of an ignore file are asked about the names that lead from the working directory to a
path, and about no path that does not stand below it. Both sides of the comparison are read
component by component, so a filter sees nothing of how a path is spelled and keeps or drops all
spellings of a path together.
-/
namespace Lintel

namespace Path

variable {base p r : Path}

theorem stripPrefix_congr {base' : Path} (h : base.Same base') (p : Path) :
    stripPrefix base p = stripPrefix base' p := by
  unfold stripPrefix
  rw [h]

theorem body_names {names : List Bytes} (h : ∀ b ∈ names, IsName b) :
    body names = names.map .name := by
  have hfilter : names.filter (! isSilent ·) = names :=
    List.filter_eq_self.2 fun b hb => by simp [not_isSilent_of_isName (h b hb)]
  rw [body, hfilter]
  exact List.map_congr_left fun b hb => ofPart_of_isName (h b hb)

theorem trimBoth_of_suffix {names rest : List Bytes} (h : ∀ b ∈ names, IsName b)
    (hrest : rest <:+ (ofNames true names).parts) :
    (∀ b ∈ Text.trimBoth isSilent rest, IsName b) ∧
      body rest = (Text.trimBoth isSilent rest).map .name := by
  have hsilent : isSilent [] = true := rfl
  by_cases hne : names = []
  · have hparts : (ofNames true names).parts = [[], []] := by
      rw [hne]
      rfl
    rw [hparts] at hrest
    have hall : ∀ b ∈ rest, b = [] := fun b hb => by simpa using hrest.mem hb
    have hdrop : rest.dropWhile isSilent = [] :=
      List.dropWhile_eq_nil_iff.2 fun b hb => by rw [hall b hb, hsilent]
    have htrim : Text.trimBoth isSilent rest = [] := by
      rw [Text.trimBoth, hdrop]
      rfl
    rw [htrim, ← body_dropWhile, hdrop]
    exact ⟨by simp, rfl⟩
  · rw [parts_ofNames h hne, List.suffix_cons_iff] at hrest
    rcases hrest with rfl | hrest
    · have htrim : Text.trimBoth isSilent ([] :: names) = names := by
        rw [Text.trimBoth, List.dropWhile_cons_of_pos hsilent]
        exact trimBoth_isSilent h
      rw [htrim, body_cons_silent hsilent]
      exact ⟨h, body_names h⟩
    · have hnames : ∀ b ∈ rest, IsName b := fun b hb => h b (hrest.mem hb)
      rw [trimBoth_isSilent hnames]
      exact ⟨hnames, body_names hnames⟩

theorem exists_names_of_stripPrefix (hbase : base.isAbsolute = true) (hp : p.Settled)
    (h : stripPrefix base p = some r) :
    ∃ names, (∀ b ∈ names, IsName b) ∧ p.components = base.components ++ names.map .name ∧
      r = ofNames false names := by
  obtain ⟨all, hall, rfl⟩ := hp
  obtain ⟨habs, rest, hdrop, rfl⟩ := (stripPrefix_eq_some_iff hbase).1 h
  obtain ⟨hbody, hsuffix⟩ := body_of_dropComponents hdrop
  obtain ⟨hnames, hrest⟩ := trimBoth_of_suffix hall hsuffix
  refine ⟨_, hnames, ?_, rfl⟩
  rw [components_of_isAbsolute habs, components_of_isAbsolute hbase, ← body_parts, hbody, hrest,
    List.cons_append]

theorem stripPrefix_of_components {names : List Bytes} (hp : p.Settled)
    (h : p.components = base.components ++ names.map .name) (hne : names ≠ [])
    (hbase : base.isAbsolute = true) : stripPrefix base p = some (ofNames false names) := by
  obtain ⟨all, hall, rfl⟩ := hp
  rw [components_ofNames hall, components_of_isAbsolute hbase, List.cons_append,
    List.cons.injEq] at h
  obtain ⟨front, rest, rfl, hfront, hrest⟩ := List.map_eq_append_iff.1 h.2
  obtain rfl : rest = names := List.map_injective_iff.2 (fun _ _ => Component.name.inj) hrest
  rw [List.forall_mem_append] at hall
  have hsame : base.Same (ofNames true front) := by
    rw [Same, components_of_isAbsolute hbase, components_ofNames hall.1, hfront]
  rw [stripPrefix_congr hsame]
  exact stripPrefix_ofNames hall.1 hall.2 hne

theorem bytes_ofNames_ne_nil {names : List Bytes} (h : ∀ b ∈ names, IsName b) (hne : names ≠ []) :
    (ofNames false names).bytes ≠ [] := by
  obtain ⟨c, hlast, -⟩ := getLast?_joinParts h hne
  intro hnil
  have hjoin : joinParts names = [] := hnil
  rw [hjoin] at hlast
  cases hlast

end Path

namespace Ignore.Filter

variable {f : Filter} {p : Path} {names : List Bytes}

/-- The names that lead to a path from the working directory. -/
def Below (f : Filter) (p : Path) (names : List Bytes) : Prop :=
  (f.workingDir.anchor p).components = f.workingDir.components ++ names.map .name

instance (f : Filter) (p : Path) (names : List Bytes) : Decidable (f.Below p names) :=
  inferInstanceAs (Decidable (_ = _))

theorem Below.unique {more : List Bytes} (h : f.Below p names) (h' : f.Below p more) :
    names = more :=
  List.map_injective_iff.2 (fun _ _ => Path.Component.name.inj)
    (List.append_cancel_left (h.symm.trans h'))

/-- What is left of a path below the working directory, where that is not the directory itself. The
rules are asked about such paths only. -/
def Asks (f : Filter) (p relative : Path) : Prop :=
  Path.stripPrefix f.workingDir (f.workingDir.anchor p) = some relative ∧ relative.bytes ≠ []

theorem isIgnored_eq_true_iff :
    f.isIgnored p = true ↔
      ∃ relative, f.Asks p relative ∧ ignores f.rules (f.names relative) = true := by
  rw [isIgnored]
  cases hstrip : Path.stripPrefix f.workingDir (f.workingDir.anchor p) with
  | none => simp [Asks, hstrip]
  | some relative => simp [Asks, hstrip]

theorem names_ofNames (hdir : f.workingDir.isAbsolute = true)
    (hnames : ∀ b ∈ names, Path.IsName b) (hne : names ≠ []) :
    f.names (.ofNames false names) = names := by
  obtain ⟨tail, hdirBytes⟩ : ∃ tail, f.workingDir.bytes = Path.separator :: tail := by
    rw [Path.isAbsolute, beq_iff_eq, List.head?_eq_some_iff] at hdir
    exact hdir
  have hbase : f.base = Path.separator :: tail := by
    rw [base, hdirBytes]
    rfl
  have hrelative := Path.isAbsolute_joinParts hnames
  have hkept : Text.dropPrefix? f.base (Path.ofNames false names).bytes = none := by
    rw [Text.dropPrefix?_eq_none_iff, hbase]
    rintro ⟨rest, hrest⟩
    rw [Path.isAbsolute, ← hrest] at hrelative
    cases hrelative
  rw [Filter.names]
  simp only [hkept, ite_self, if_neg (Path.bytes_ofNames_ne_nil hnames hne)]
  exact Path.pieces_joinParts hnames hne

theorem Asks.exists_names (hdir : f.workingDir.isAbsolute = true) {relative : Path}
    (h : f.Asks p relative) :
    ∃ names, names ≠ [] ∧ (∀ b ∈ names, Path.IsName b) ∧ f.Below p names ∧
      relative = .ofNames false names ∧ f.names relative = names := by
  obtain ⟨names, hnames, hbelow, rfl⟩ :=
    Path.exists_names_of_stripPrefix hdir (Path.settled_anchor hdir p) h.1
  have hne : names ≠ [] := by
    rintro rfl
    exact h.2 rfl
  exact ⟨names, hne, hnames, hbelow, rfl, names_ofNames hdir hnames hne⟩

theorem Below.isName (h : f.Below p names) : ∀ b ∈ names, Path.IsName b := by
  intro b hb
  refine Path.isName_of_mem_components (p := f.workingDir.anchor p) ?_
  rw [h]
  exact List.mem_append_right _ (List.mem_map_of_mem hb)

theorem Below.asks (hdir : f.workingDir.isAbsolute = true) (h : f.Below p names)
    (hne : names ≠ []) : f.Asks p (.ofNames false names) :=
  ⟨Path.stripPrefix_of_components (Path.settled_anchor hdir p) h hne hdir,
    Path.bytes_ofNames_ne_nil (h.isName) hne⟩

theorem isIgnored_iff (hdir : f.workingDir.isAbsolute = true) :
    f.isIgnored p = true ↔
      ∃ names, names ≠ [] ∧ f.Below p names ∧ ignores f.rules names = true := by
  rw [isIgnored_eq_true_iff]
  constructor
  · intro h
    obtain ⟨relative, hasks, hignores⟩ := h
    obtain ⟨names, hne, -, hbelow, -, hsame⟩ := hasks.exists_names hdir
    rw [hsame] at hignores
    exact ⟨names, hne, hbelow, hignores⟩
  · intro h
    obtain ⟨names, hne, hbelow, hignores⟩ := h
    refine ⟨_, hbelow.asks hdir hne, ?_⟩
    rw [names_ofNames hdir (hbelow.isName) hne]
    exact hignores

theorem Below.isIgnored_eq (hdir : f.workingDir.isAbsolute = true) (h : f.Below p names)
    (hne : names ≠ []) : f.isIgnored p = ignores f.rules names := by
  rw [Bool.eq_iff_iff, isIgnored_iff hdir]
  constructor
  · rintro ⟨more, -, hmore, hignores⟩
    rw [h.unique hmore]
    exact hignores
  · intro hignores
    exact ⟨names, hne, h, hignores⟩

end Ignore.Filter

end Lintel
