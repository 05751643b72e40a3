import Mathlib.Data.List.Nodup
import Lintel.Proofs.Tree.Walking

/-!
# Well-formed trees

In a well-formed tree every entry has a location of its own, in order, made of proper names that
are not too long, and stands in a directory. Where there are also no links, a path in normal form
names exactly the location that it spells.
-/
namespace Lintel

instance (b : Bytes) : Decidable (Path.IsName b) :=
  inferInstanceAs (Decidable (b ≠ [] ∧ b ≠ [Path.dot] ∧ b ≠ [Path.dot, Path.dot] ∧
    Path.separator ∉ b))

namespace Tree

structure WellFormed (t : Tree) : Prop where
  sorted : t.entries.Pairwise fun e f => e.1 < f.1
  named : ∀ e ∈ t.entries, e.1 ≠ [] ∧ ∀ b ∈ e.1, Path.IsName b ∧ b.length ≤ nameLimit
  held : ∀ e ∈ t.entries, t.at? e.1.dropLast = some .directory

instance (t : Tree) : Decidable t.WellFormed :=
  decidable_of_iff (t.entries.Pairwise (fun e f => e.1 < f.1) ∧
    (∀ e ∈ t.entries, e.1 ≠ [] ∧ ∀ b ∈ e.1, Path.IsName b ∧ b.length ≤ nameLimit) ∧
    ∀ e ∈ t.entries, t.at? e.1.dropLast = some .directory)
    ⟨fun h => ⟨h.1, h.2.1, h.2.2⟩, fun h => ⟨h.sorted, h.named, h.held⟩⟩

variable {t : Tree}

theorem WellFormed.at?_eq_some_iff (ht : t.WellFormed) {l : Location} {o : Object} (hne : l ≠ []) :
    t.at? l = some o ↔ (l, o) ∈ t.entries := by
  refine ⟨mem_entries_of_at? hne, fun hmem => ?_⟩
  have hdistinct : (t.entries.map (·.1)).Nodup := by
    rw [List.nodup_iff_pairwise_ne, List.pairwise_map]
    refine ht.sorted.imp fun {e f} h heq => ?_
    rw [heq] at h
    exact List.lt_irrefl _ h
  rw [at?, if_neg hne, Keyed.get?]
  cases hfind : t.entries.find? (·.1 = l) with
  | none => simpa using List.find?_eq_none.1 hfind _ hmem
  | some e =>
    have hkey : e.1 = l := by simpa using List.find?_some hfind
    have heq : e = (l, o) :=
      List.inj_on_of_nodup_map hdistinct (List.mem_of_find?_eq_some hfind) hmem hkey
    rw [heq]
    rfl

theorem WellFormed.isName_of_at? (ht : t.WellFormed) {l : Location} {o : Object}
    (h : t.at? l = some o) : ∀ b ∈ l, Path.IsName b ∧ b.length ≤ nameLimit := by
  intro b hb
  exact (ht.named _ (mem_entries_of_at? (List.ne_nil_of_mem hb) h)).2 b hb

theorem WellFormed.at?_parent (ht : t.WellFormed) {l : Location} {b : Bytes} {o : Object}
    (h : t.at? (l ++ [b]) = some o) : t.at? l = some .directory := by
  simpa using ht.held _ (mem_entries_of_at? (by simp) h)

theorem WellFormed.at?_above (ht : t.WellFormed) {l rest : Location} {b : Bytes} {o : Object}
    (h : t.at? (l ++ b :: rest) = some o) : t.at? l = some .directory := by
  induction rest using List.reverseRecOn generalizing o with
  | nil => exact ht.at?_parent h
  | append_singleton rest c ih =>
    rw [← List.cons_append, ← List.append_assoc] at h
    exact ih (ht.at?_parent h)

/-! ## Locations without links -/

theorem Linkless.at?_ne_link (hlinks : t.Linkless) (l : Location) (target : Path) :
    t.at? l ≠ some (.link target) := by
  intro h
  by_cases hne : l = []
  · subst hne
    simp at h
  · exact hlinks _ (mem_entries_of_at? hne h) target rfl

theorem descend_of_at? (ht : t.WellFormed) (hlinks : t.Linkless) {l names : Location} {o : Object}
    (h : t.at? (l ++ names) = some o) : t.descend l names = .here (l ++ names) := by
  induction names generalizing l with
  | nil => simp [descend]
  | cons b rest ih =>
    have hdir := ht.at?_above h
    obtain ⟨hname, hshort⟩ := ht.isName_of_at? h b (by simp)
    have hnext : t.at? ((l ++ [b]) ++ rest) = some o := by simpa using h
    have hstep : t.descend (l ++ [b]) rest = .here ((l ++ [b]) ++ rest) := ih hnext
    have hat : ∃ p, t.at? (l ++ [b]) = some p := by
      cases rest with
      | nil => exact ⟨o, by simpa using hnext⟩
      | cons c rest => exact ⟨_, ht.at?_above hnext⟩
    obtain ⟨p, hp⟩ := hat
    have hloud := Path.not_isSilent_of_isName hname
    have hup := hname.2.2.1
    have hlong : ¬ nameLimit < b.length := by omega
    cases p with
    | link target => exact absurd hp (hlinks.at?_ne_link _ target)
    | directory => simp [descend, hdir, hloud, hup, hlong, hp, hstep]
    | file data executable => simp [descend, hdir, hloud, hup, hlong, hp, hstep]

theorem at?_of_descend (hlinks : t.Linkless) {l names k : Location} {o : Object}
    (hnames : ∀ b ∈ names, Path.IsName b) (hl : t.at? l = some o)
    (h : t.descend l names = .here k) : k = l ++ names ∧ ∃ p, t.at? k = some p := by
  induction names generalizing l o with
  | nil =>
    obtain rfl : l = k := by simpa [descend] using h
    exact ⟨by simp, o, hl⟩
  | cons b rest ih =>
    have hname := hnames b (by simp)
    have hloud := Path.not_isSilent_of_isName hname
    have hup := hname.2.2.1
    have hrest : ∀ c ∈ rest, Path.IsName c := fun c hc => hnames c (by simp [hc])
    by_cases hdir : t.at? l = some .directory
    · by_cases hlong : nameLimit < b.length
      · simp [descend, hdir, hloud, hup, hlong] at h
      · cases hat : t.at? (l ++ [b]) with
        | none => simp [descend, hdir, hloud, hup, hlong, hat] at h
        | some p =>
          cases p with
          | link target => exact absurd hat (hlinks.at?_ne_link _ target)
          | directory =>
            simp only [descend, hdir, hloud, hup, hlong, hat] at h
            simpa using ih hrest hat (by simpa using h)
          | file data executable =>
            simp only [descend, hdir, hloud, hup, hlong, hat] at h
            simpa using ih hrest hat (by simpa using h)
    · simp [descend, hdir] at h

theorem descend_ne_link (hlinks : t.Linkless) (l : Location) (ps : List Bytes) :
    ∀ holder target rest, t.descend l ps ≠ .link holder target rest := by
  intro holder target rest
  fun_induction descend t l ps with
  | case1 => simp
  | case2 => simp
  | case3 l part ps hdir hsilent ih => exact ih
  | case4 l ps hdir hsilent ih => exact ih
  | case5 => simp
  | case6 => simp
  | case7 l part ps hdir hsilent hup hlong target hlink =>
    exact absurd hlink (hlinks.at?_ne_link _ target)
  | case8 l part ps hdir hsilent hup hlong o hother hsome ih => exact ih

theorem locate_ofNames_eq_ok_iff (ht : t.WellFormed) (hlinks : t.Linkless) {names k : Location}
    (hnames : ∀ b ∈ names, Path.IsName b) :
    t.locate (Path.ofNames true names) = .ok k ↔ k = names ∧ ∃ o, t.at? names = some o := by
  rw [t.locate_ofNames hnames, walk]
  constructor
  · intro h
    cases hdescend : t.descend [] names with
    | here l =>
      obtain rfl : l = k := by simpa [hdescend, resume, Except.map] using h
      obtain ⟨rfl, ho⟩ := at?_of_descend hlinks hnames t.at?_nil hdescend
      exact ⟨rfl, ho⟩
    | stuck f => simp [hdescend, resume, Except.map] at h
    | link holder target rest => exact absurd hdescend (descend_ne_link hlinks _ _ _ _ _)
  · intro h'
    obtain ⟨rfl, o, ho⟩ := h'
    rw [descend_of_at? ht hlinks (l := []) ho]
    rfl

theorem isFile_ofNames_iff (ht : t.WellFormed) (hlinks : t.Linkless) {names : Location}
    (hnames : ∀ b ∈ names, Path.IsName b) :
    t.isFile (Path.ofNames true names) = true ↔
      ∃ data executable, t.at? names = some (.file data executable) := by
  cases hat : t.at? names with
  | none =>
    cases hlocate : t.locate (Path.ofNames true names) with
    | error f => simp [isFile, object, hlocate, bind, Except.bind]
    | ok k =>
      obtain ⟨-, o, ho⟩ := (locate_ofNames_eq_ok_iff ht hlinks hnames).1 hlocate
      simp [hat] at ho
  | some o =>
    have hlocate := (locate_ofNames_eq_ok_iff ht hlinks hnames).2 ⟨rfl, o, hat⟩
    cases o <;> simp [isFile, object, hlocate, hat, bind, Except.bind]

/-! ## Entries below a location -/

def seenFrom (base : Location) (e : Location × Object) : Option (Location × Object) :=
  match Text.dropPrefix? base e.1 with
  | none | some [] => none
  | some l => some (l, e.2)

theorem below_eq_filterMap (base : Location) : t.below base = t.entries.filterMap (seenFrom base) :=
  rfl

theorem seenFrom_eq_some_iff {base rest : Location} {e : Location × Object} {o : Object} :
    seenFrom base e = some (rest, o) ↔ rest ≠ [] ∧ e = (base ++ rest, o) := by
  obtain ⟨l, p⟩ := e
  rw [seenFrom]
  cases hdrop : Text.dropPrefix? base l with
  | none =>
    have hne : l ≠ base ++ rest := fun h => by simp [Text.dropPrefix?_eq_some_iff.2 h] at hdrop
    simp [hne]
  | some k =>
    obtain rfl := Text.dropPrefix?_eq_some_iff.1 hdrop
    cases k with
    | nil =>
      simp only [reduceCtorEq, Prod.mk.injEq, List.append_cancel_left_eq, false_iff, not_and]
      intro hne heq
      exact absurd heq.symm hne
    | cons b k =>
      simp only [Option.some.injEq, Prod.mk.injEq, List.append_cancel_left_eq, iff_and_self]
      rintro ⟨rfl, -⟩
      simp

theorem mem_below_iff {base rest : Location} {o : Object} :
    (rest, o) ∈ t.below base ↔ rest ≠ [] ∧ (base ++ rest, o) ∈ t.entries := by
  simp only [below_eq_filterMap, List.mem_filterMap, seenFrom_eq_some_iff]
  constructor
  · rintro ⟨e, he, hne, rfl⟩
    exact ⟨hne, he⟩
  · rintro ⟨hne, hmem⟩
    exact ⟨_, hmem, hne, rfl⟩

theorem WellFormed.pairwise_below (ht : t.WellFormed) (base : Location) :
    (t.below base).Pairwise fun e f => base ++ e.1 < base ++ f.1 := by
  refine List.Pairwise.filterMap _ (fun e f hlt e' he' f' hf' => ?_) ht.sorted
  obtain ⟨-, rfl⟩ := seenFrom_eq_some_iff.1 he'
  obtain ⟨-, rfl⟩ := seenFrom_eq_some_iff.1 hf'
  exact hlt

end Tree

end Lintel
