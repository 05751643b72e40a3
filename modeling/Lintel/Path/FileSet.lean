import Lintel.Path.Basic

/-!
# Collected paths

A `FileSet` lists paths in the order in which they were found. Of several spellings of one path
the first is kept.
-/
namespace Lintel

namespace Path

def firstsFrom (seen : List (List Component)) : List Path → List Path
  | [] => []
  | p :: ps =>
      if p.components ∈ seen then firstsFrom seen ps
      else p :: firstsFrom (p.components :: seen) ps

def firsts (ps : List Path) : List Path := firstsFrom [] ps

theorem components_notMem_of_mem_firstsFrom {seen : List (List Component)} {ps : List Path}
    {p : Path} (h : p ∈ firstsFrom seen ps) : p.components ∉ seen := by
  induction ps generalizing seen with
  | nil => simp [firstsFrom] at h
  | cons q qs ih =>
    simp only [firstsFrom] at h
    split at h
    · exact ih h
    · rename_i hq
      rcases List.mem_cons.1 h with rfl | h
      · exact hq
      · exact fun hp => ih h (List.mem_cons_of_mem _ hp)

theorem pairwise_firstsFrom (seen : List (List Component)) (ps : List Path) :
    (firstsFrom seen ps).Pairwise (fun p q => ¬ p.Same q) := by
  induction ps generalizing seen with
  | nil => exact .nil
  | cons q qs ih =>
    simp only [firstsFrom]
    split
    · exact ih seen
    · refine .cons (fun p hp hs => ?_) (ih _)
      exact components_notMem_of_mem_firstsFrom hp (by rw [← hs]; exact List.mem_cons_self ..)

end Path

structure FileSet where
  files : List Path
  distinct : files.Pairwise (fun p q => ¬ p.Same q)

namespace FileSet

def ofList (ps : List Path) : FileSet := ⟨Path.firsts ps, Path.pairwise_firstsFrom [] ps⟩

def size (s : FileSet) : Nat := s.files.length

def isEmpty (s : FileSet) : Bool := s.files.isEmpty

def contains (s : FileSet) (p : Path) : Bool := s.files.any fun q => decide (q.Same p)

@[simp] theorem files_ofList (ps : List Path) : (ofList ps).files = Path.firsts ps := rfl

end FileSet

end Lintel
