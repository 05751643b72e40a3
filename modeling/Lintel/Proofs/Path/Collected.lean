import Lintel.Proofs.Path.Firsts

/-!
# Collected paths

Collecting passes over a path if one that was seen before has the same components. What has been
seen is then what spells a path in front of the place reached, whether that was kept or not, so a
path is kept exactly at the first place at which it is spelled. The main statement adds the laws of
collecting that follow: what a set contains, and that it makes no difference to collect the front of
a list first.
-/
namespace Lintel

namespace Path

def isNewAt (ps : List Path) (p : Path) (i : Nat) : Bool :=
  (ps.take i).all fun q => ! decide (q.Same p)

/-- The paths of a list at the places at which they are spelled for the first time. -/
def firstSpellings (ps : List Path) : List Path :=
  (ps.zipIdx.filter fun (p, i) => isNewAt ps p i).map Prod.fst

def SeenIn (before : List Path) (seen : List (List Component)) : Prop :=
  ∀ p : Path, p.components ∈ seen ↔ ∃ q ∈ before, q.Same p

variable {seen : List (List Component)} {before ps : List Path} {p : Path}

theorem seenIn_nil : SeenIn [] [] := fun p => by simp

theorem exists_same_concat {r : Path} :
    (∃ q ∈ before ++ [p], q.Same r) ↔ (∃ q ∈ before, q.Same r) ∨ p.Same r := by
  simp only [List.mem_append, List.mem_singleton, or_and_right, exists_or, exists_eq_left]

theorem SeenIn.keep (h : SeenIn before seen) (p : Path) :
    SeenIn (before ++ [p]) (p.components :: seen) := by
  intro r
  rw [List.mem_cons, h r, exists_same_concat, or_comm]
  exact or_congr_right eq_comm

theorem SeenIn.pass (h : SeenIn before seen) (hp : p.components ∈ seen) :
    SeenIn (before ++ [p]) seen := by
  intro r
  rw [h r, exists_same_concat, iff_self_or]
  intro hsame
  obtain ⟨q, hq, hqp⟩ := (h p).1 hp
  exact ⟨q, hq, hqp.trans hsame⟩

theorem isNewAt_iff (h : SeenIn before seen) (p : Path) (ps : List Path) :
    isNewAt (before ++ p :: ps) p before.length = true ↔ p.components ∉ seen := by
  rw [isNewAt, List.take_left, h p]
  simp

theorem firstsFrom_eq_filter (h : SeenIn before seen) (ps : List Path) :
    firstsFrom seen ps = ((ps.zipIdx before.length).filter fun (p, i) =>
      isNewAt (before ++ ps) p i).map Prod.fst := by
  induction ps generalizing before seen with
  | nil => rfl
  | cons p ps ih =>
    have hlength : before.length + 1 = (before ++ [p]).length := by simp
    have hsplit : before ++ p :: ps = (before ++ [p]) ++ ps := by simp
    have hnew := isNewAt_iff h p ps
    rw [List.zipIdx_cons, List.filter_cons, firstsFrom, hlength]
    by_cases hp : p.components ∈ seen
    · rw [if_pos hp, if_neg fun hif => hnew.1 hif hp, ih (h.pass hp), hsplit]
    · rw [if_neg hp, if_pos (hnew.2 hp), List.map_cons, ih (h.keep p), hsplit]

theorem firsts_eq_firstSpellings (ps : List Path) : firsts ps = firstSpellings ps :=
  firstsFrom_eq_filter seenIn_nil ps

theorem exists_same_of_mem (h : p ∈ ps) (hp : p.components ∉ seen) :
    ∃ q ∈ firstsFrom seen ps, q.Same p := by
  induction ps generalizing seen with
  | nil => cases h
  | cons r ps ih =>
    rw [firstsFrom]
    by_cases hsame : r.Same p
    · rw [if_neg (by rwa [show r.components = p.components from hsame])]
      exact ⟨r, List.mem_cons_self .., hsame⟩
    · have hmem : p ∈ ps := (List.mem_cons.1 h).resolve_left fun heq => hsame (heq ▸ Same.refl p)
      split
      · exact ih hmem hp
      · have hp' : p.components ∉ r.components :: seen := by
          rw [List.mem_cons, not_or]
          exact ⟨fun heq => hsame heq.symm, hp⟩
        obtain ⟨q, hq, hqp⟩ := ih hmem hp'
        exact ⟨q, List.mem_cons_of_mem _ hq, hqp⟩

end Path

namespace FileSet

theorem ofList_congr {ps qs : List Path} (h : Path.firsts ps = Path.firsts qs) :
    ofList ps = ofList qs := by
  simp only [ofList, h]

theorem contains_ofList_iff (ps : List Path) (p : Path) :
    (ofList ps).contains p = true ↔ ∃ q ∈ ps, q.Same p := by
  simp only [contains, files_ofList, List.any_eq_true, decide_eq_true_eq]
  constructor
  · intro h'
    obtain ⟨q, hq, hqp⟩ := h'
    exact ⟨q, Path.mem_of_mem_firsts hq, hqp⟩
  · intro h'
    obtain ⟨q, hq, hqp⟩ := h'
    obtain ⟨r, hr, hrq⟩ := Path.exists_same_of_mem hq List.not_mem_nil
    exact ⟨r, hr, hrq.trans hqp⟩

/-- Of the spellings of a path the first is kept, in its place; nothing else decides what a set is,
and so a list may be collected in two steps. -/
theorem ofList_keeps_firsts (ps qs : List Path) :
    (ofList ps).files = Path.firstSpellings ps ∧
    (ofList ps).files.Pairwise (fun p q => ¬ p.Same q) ∧
    (∀ p, (ofList ps).contains p = true ↔ ∃ q ∈ ps, q.Same p) ∧
    ofList (ofList ps).files = ofList ps ∧
    ofList (ps ++ qs) = ofList ((ofList ps).files ++ qs) :=
  ⟨Path.firsts_eq_firstSpellings ps, (ofList ps).distinct, contains_ofList_iff ps,
    ofList_congr (Path.firsts_firsts ps), ofList_congr (Path.firsts_append_firsts_left ps qs).symm⟩

example :
    (ofList (["a//b", "a/./b", "./a/b", "a/b/", "../a", "a/b"].map Path.ofString)).files =
      ["a//b", "./a/b", "../a"].map Path.ofString := by
  decide +kernel

end FileSet

end Lintel
