import Mathlib.Data.List.Induction
import Lintel.Proofs.Outcome
import Lintel.Proofs.Path.Settled
import Lintel.Tree.Locate

/-!
# Walking along a path

Following a path is a walk: it has a place to stand on, a supply of links it may still follow, and
takes the parts of the path in turn, so that a longer path is walked one piece after the other.
Resolving `..` on the names alone shortens the walk and ends it at the same place, unless some
`..` takes back the name of a link.
-/
namespace Lintel

namespace Path

def settleParts (ps : List Bytes) : List Bytes :=
  settle ((ps.filter (! isSilent ·)).map Component.ofPart)

@[simp] theorem settleParts_nil : settleParts [] = [] := rfl

theorem settleParts_append_silent {b : Bytes} (hb : isSilent b = true) (ps : List Bytes) :
    settleParts (ps ++ [b]) = settleParts ps := by
  simp [settleParts, hb]

theorem settleParts_append_up (ps : List Bytes) :
    settleParts (ps ++ [[dot, dot]]) = (settleParts ps).dropLast := by
  have hloud : isSilent [dot, dot] = false := rfl
  simp [settleParts, hloud, Component.ofPart, settle, settleStep]

theorem settleParts_append_name {b : Bytes} (hb : isSilent b = false) (hup : b ≠ [dot, dot])
    (ps : List Bytes) : settleParts (ps ++ [b]) = settleParts ps ++ [b] := by
  simp [settleParts, hb, Component.ofPart, hup, settle, settleStep]

theorem settle_components (p : Path) : settle p.components = settleParts p.parts := by
  unfold components
  split
  · rfl
  · split <;> rfl

theorem isName_of_mem_settleParts {ps : List Bytes} (hps : ∀ b ∈ ps, separator ∉ b) {b : Bytes}
    (h : b ∈ settleParts ps) : IsName b := by
  rw [settleParts, settle, List.mem_reverse] at h
  rcases mem_of_mem_foldl_settleStep h with h | h
  · simp at h
  · obtain ⟨c, hc, hname⟩ := List.mem_map.1 h
    obtain ⟨hmem, hloud⟩ := List.mem_filter.1 hc
    by_cases hup : c = [dot, dot]
    · simp [Component.ofPart, hup] at hname
    · obtain rfl : c = b := by simpa [Component.ofPart, hup] using hname
      simp only [isSilent, Bool.not_or, Bool.and_eq_true, Bool.not_eq_true', beq_eq_false_iff_ne]
        at hloud
      exact ⟨hloud.1, hloud.2, hup, hps c hmem⟩

end Path

namespace Tree

variable (t : Tree)

/-- Follows links until none is in the way. The answer is the supply of links that is left and the
place that is reached. -/
def resume : Nat → Reached → Except IoFault (Nat × Location)
  | links, .here k => .ok (links, k)
  | _, .stuck f => .error f
  | 0, .link .. => .error .tooManyLinks
  | links + 1, .link holder target rest =>
      resume links (t.descend (if target.isAbsolute then [] else holder) (target.parts ++ rest))

def walk (links : Nat) (l : Location) (parts : List Bytes) : Except IoFault (Nat × Location) :=
  t.resume links (t.descend l parts)

theorem locateFrom_eq_map_walk (links : Nat) (l : Location) (parts : List Bytes) :
    t.locateFrom links l parts = (t.walk links l parts).map (·.2) := by
  induction links generalizing l parts with
  | zero =>
    rw [locateFrom, walk]
    cases t.descend l parts <;> rfl
  | succ n ih =>
    rw [locateFrom, walk]
    cases t.descend l parts with
    | here k => rfl
    | stuck f => rfl
    | link holder target rest => exact ih _ _

/-! ## Walking on -/

def Reached.onward (parts : List Bytes) : Reached → Reached
  | .here k => t.descend k parts
  | .stuck f => .stuck f
  | .link holder target rest => .link holder target (rest ++ parts)

theorem descend_append (l : Location) (ps qs : List Bytes) :
    t.descend l (ps ++ qs) = (t.descend l ps).onward t qs := by
  fun_induction descend t l ps with
  | case1 => rfl
  | case2 l part rest hdir => simp [descend, hdir, Reached.onward]
  | case3 l part rest hdir hsilent ih => simpa [descend, hdir, hsilent] using ih
  | case4 l rest hdir hsilent ih => simpa [descend, hdir, hsilent] using ih
  | case5 l part rest hdir hsilent hup hlong =>
    simp [descend, hdir, hsilent, hup, hlong, Reached.onward]
  | case6 l part rest hdir hsilent hup hlong hnone =>
    simp [descend, hdir, hsilent, hup, hlong, hnone, Reached.onward]
  | case7 l part rest hdir hsilent hup hlong target hlink =>
    simp [descend, hdir, hsilent, hup, hlong, hlink, Reached.onward]
  | case8 l part rest hdir hsilent hup hlong o hother hsome ih =>
    rw [← ih]
    simp [descend, hdir, hsilent, hup, hlong, hsome]

theorem resume_onward (links : Nat) (r : Reached) (parts : List Bytes) :
    t.resume links (r.onward t parts) = t.resume links r >>= fun s => t.walk s.1 s.2 parts := by
  induction links generalizing r with
  | zero => cases r <;> rfl
  | succ n ih =>
    cases r with
    | here k => rfl
    | stuck f => rfl
    | link holder target rest =>
      rw [Reached.onward, resume, resume, ← ih, ← descend_append, List.append_assoc]

theorem walk_append (links : Nat) (l : Location) (ps qs : List Bytes) :
    t.walk links l (ps ++ qs) = t.walk links l ps >>= fun s => t.walk s.1 s.2 qs := by
  rw [walk, descend_append, resume_onward, walk]

theorem walk_append_eq_ok_iff {links : Nat} {l : Location} {ps qs : List Bytes}
    {s : Nat × Location} :
    t.walk links l (ps ++ qs) = .ok s ↔
      ∃ r, t.walk links l ps = .ok r ∧ t.walk r.1 r.2 qs = .ok s := by
  rw [walk_append]
  cases t.walk links l ps with
  | error f => simp [bind, Except.bind]
  | ok r => simp [bind, Except.bind]

/-! ## Single steps -/

theorem walk_silent {links : Nat} {l : Location} {b : Bytes} {s : Nat × Location}
    (hb : Path.isSilent b = true) (h : t.walk links l [b] = .ok s) : s = (links, l) := by
  by_cases hdir : t.at? l = some .directory
  · simpa [walk, descend, hdir, hb, resume, eq_comm] using h
  · simp [walk, descend, hdir, resume] at h

theorem walk_up {links : Nat} {l : Location} {s : Nat × Location}
    (h : t.walk links l [[Path.dot, Path.dot]] = .ok s) : s = (links, l.dropLast) := by
  have hloud : Path.isSilent [Path.dot, Path.dot] = false := rfl
  by_cases hdir : t.at? l = some .directory
  · simpa [walk, descend, hdir, hloud, resume, eq_comm] using h
  · simp [walk, descend, hdir, resume] at h

theorem walk_name {links : Nat} {l : Location} {b : Bytes} {s : Nat × Location}
    (hb : Path.isSilent b = false) (hup : b ≠ [Path.dot, Path.dot])
    (hlink : ∀ target, t.at? (l ++ [b]) ≠ some (.link target))
    (h : t.walk links l [b] = .ok s) : s = (links, l ++ [b]) := by
  by_cases hdir : t.at? l = some .directory
  · by_cases hlong : nameLimit < b.length
    · simp [walk, descend, hdir, hb, hup, hlong, resume] at h
    · cases hat : t.at? (l ++ [b]) with
      | none => simp [walk, descend, hdir, hb, hup, hlong, hat, resume] at h
      | some o =>
        cases o with
        | link target => exact absurd hat (hlink target)
        | directory => simpa [walk, descend, hdir, hb, hup, hlong, hat, resume, eq_comm] using h
        | file data executable =>
          simpa [walk, descend, hdir, hb, hup, hlong, hat, resume, eq_comm] using h
  · simp [walk, descend, hdir, resume] at h

theorem walk_root (links : Nat) (ps : List Bytes) :
    t.walk links [] ([] :: ps) = t.walk links [] ps := by
  have hsilent : Path.isSilent [] = true := rfl
  simp [walk, descend, hsilent]

/-! ## Resolving without the tree -/

/-- Some `..` among the parts takes back the name of a link. -/
def ClimbsOverLink (parts : List Bytes) : Prop :=
  ∃ before after names name l target, parts = before ++ [Path.dot, Path.dot] :: after ∧
    Path.settleParts before = names ++ [name] ∧
    t.locate (Path.ofNames true names) = .ok l ∧ t.at? (l ++ [name]) = some (.link target)

theorem walk_parts_ofNames {links : Nat} {names : List Bytes} (h : ∀ b ∈ names, Path.IsName b) :
    t.walk links [] (Path.ofNames true names).parts = t.walk links [] names := by
  by_cases hne : names = []
  · subst hne
    rfl
  · rw [Path.parts_ofNames h hne, walk_root]

theorem locate_of_isAbsolute {p : Path} (h : p.isAbsolute = true) :
    t.locate p = (t.walk linkLimit [] p.parts).map (·.2) := by
  have hbytes : p.bytes ≠ [] := by
    intro hnil
    rw [Path.isAbsolute, hnil] at h
    cases h
  rw [locate, if_neg hbytes, locateFrom_eq_map_walk]

theorem locate_ofNames {names : List Bytes} (h : ∀ b ∈ names, Path.IsName b) :
    t.locate (Path.ofNames true names) = (t.walk linkLimit [] names).map (·.2) := by
  rw [t.locate_of_isAbsolute (Path.isAbsolute_ofNames names), t.walk_parts_ofNames h]

theorem walk_settleParts {ps : List Bytes} {s : Nat × Location}
    (hnames : ∀ b ∈ ps, Path.separator ∉ b) (hclimb : ¬ t.ClimbsOverLink ps)
    (h : t.walk linkLimit [] ps = .ok s) :
    t.walk linkLimit [] (Path.settleParts ps) = .ok s := by
  induction ps using List.reverseRecOn generalizing s with
  | nil => exact h
  | append_singleton ps b ih =>
    obtain ⟨r, hr, hstep⟩ := t.walk_append_eq_ok_iff.1 h
    have hfewer : ¬ t.ClimbsOverLink ps := by
      intro h'
      obtain ⟨before, after, names, name, l, target, hps, hrest⟩ := h'
      exact hclimb ⟨before, after ++ [b], names, name, l, target, by simp [hps], hrest⟩
    have hps : ∀ c ∈ ps, Path.separator ∉ c := fun c hc => hnames c (by simp [hc])
    have hlexical := ih hps hfewer hr
    by_cases hsilent : Path.isSilent b = true
    · rw [Path.settleParts_append_silent hsilent, hlexical, t.walk_silent hsilent hstep]
    · rw [Bool.not_eq_true] at hsilent
      by_cases hup : b = [Path.dot, Path.dot]
      · subst hup
        rw [Path.settleParts_append_up, t.walk_up hstep]
        rcases List.eq_nil_or_concat (Path.settleParts ps) with hnil | ⟨names, name, hcut⟩
        · -- there is no name to take back, and nothing above the top directory
          rw [hnil] at hlexical ⊢
          cases hlexical
          rfl
        · have hisName : ∀ c ∈ Path.settleParts ps, Path.IsName c := fun c hc =>
            Path.isName_of_mem_settleParts hps hc
          rw [List.concat_eq_append] at hcut
          rw [hcut] at hlexical hisName ⊢
          obtain ⟨q, hq, hlast⟩ := t.walk_append_eq_ok_iff.1 hlexical
          have hname := hisName name (by simp)
          have hlocate : t.locate (Path.ofNames true names) = .ok q.2 := by
            rw [t.locate_ofNames fun c hc => hisName c (by simp [hc]), hq]
            rfl
          have hlink : ∀ target, t.at? (q.2 ++ [name]) ≠ some (.link target) := fun target hat =>
            hclimb ⟨ps, [], names, name, q.2, target, rfl, hcut, hlocate, hat⟩
          rw [t.walk_name (Path.not_isSilent_of_isName hname) hname.2.2.1 hlink hlast,
            List.dropLast_concat, List.dropLast_concat]
          exact hq
      · rw [Path.settleParts_append_name hsilent hup]
        exact t.walk_append_eq_ok_iff.2 ⟨r, hlexical, hstep⟩

theorem walk_normalize {p : Path} {s : Nat × Location} (habs : p.isAbsolute = true)
    (hclimb : ¬ t.ClimbsOverLink p.parts) (h : t.walk linkLimit [] p.parts = .ok s) :
    t.walk linkLimit [] p.normalize.parts = .ok s := by
  have hparts : ∀ b ∈ p.parts, Path.separator ∉ b := by
    intro b hb hsep
    simpa using Text.no_sep_of_mem_pieces hb _ hsep
  rw [Path.normalize, habs, Path.settle_components, t.walk_parts_ofNames fun b hb =>
    Path.isName_of_mem_settleParts hparts hb]
  exact t.walk_settleParts hparts hclimb h

theorem locate_normalize {p : Path} {l : Location} (habs : p.isAbsolute = true)
    (hclimb : ¬ t.ClimbsOverLink p.parts) (h : t.locate p = .ok l) :
    t.locate p.normalize = .ok l := by
  rw [t.locate_of_isAbsolute habs] at h
  obtain ⟨s, hwalk, rfl⟩ := map_eq_ok_iff.1 h
  rw [t.locate_of_isAbsolute (Path.isAbsolute_normalize habs), t.walk_normalize habs hclimb hwalk]
  rfl

theorem isFile_normalize {p : Path} (habs : p.isAbsolute = true)
    (hclimb : ¬ t.ClimbsOverLink p.parts) (h : t.isFile p = true) :
    t.isFile p.normalize = true := by
  cases hlocate : t.locate p with
  | error f => simp [isFile, object, hlocate, bind, Except.bind] at h
  | ok l =>
    rw [isFile, object, hlocate] at h
    rw [isFile, object, t.locate_normalize habs hclimb hlocate]
    exact h

/-! ## Trees without links -/

def Linkless (t : Tree) : Prop := ∀ e ∈ t.entries, ∀ target, e.2 ≠ .link target

instance (t : Tree) : Decidable t.Linkless :=
  decidable_of_iff (∀ e ∈ t.entries, ¬ (match e.2 with | .link _ => true | _ => false) = true) <| by
    refine forall₂_congr fun e _ => ?_
    cases e.2 <;> simp

theorem mem_entries_of_at? {t : Tree} {l : Location} {o : Object} (hne : l ≠ [])
    (h : t.at? l = some o) : (l, o) ∈ t.entries := by
  rw [at?, if_neg hne, Keyed.get?, Option.map_eq_some_iff] at h
  obtain ⟨e, hfind, rfl⟩ := h
  obtain rfl : e.1 = l := by simpa using List.find?_some hfind
  exact List.mem_of_find?_eq_some hfind

theorem Linkless.not_climbsOverLink {t : Tree} (h : t.Linkless) (parts : List Bytes) :
    ¬ t.ClimbsOverLink parts := by
  intro h'
  obtain ⟨-, -, -, name, l, target, -, -, -, hlink⟩ := h'
  exact h _ (mem_entries_of_at? (by simp) hlink) target rfl

end Tree

end Lintel
