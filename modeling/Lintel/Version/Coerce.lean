import Lintel.Version.Basic

/-!
# Finding a version in free text

Programs announce their version in prose. The first maximal digit run of at most sixteen digits is
taken as the major number; a run directly behind a dot gives the next one.
-/
namespace Lintel.Version

def runLimit : Nat := 16

def firstRun (inRun : Bool) : List Char → Option (List Char × List Char)
  | [] => none
  | c :: rest =>
      if Text.isDigit c then
        if inRun ∨ runLimit < ((c :: rest).takeWhile Text.isDigit).length then firstRun true rest
        else some ((c :: rest).takeWhile Text.isDigit, (c :: rest).dropWhile Text.isDigit)
      else firstRun false rest

def dottedRun : List Char → Option (List Char × List Char)
  | '.' :: rest =>
      let run := rest.takeWhile Text.isDigit
      if run = [] ∨ runLimit < run.length then none else some (run, rest.dropWhile Text.isDigit)
  | _ => none

/-- The first version-like number sequence in a text. Missing numbers are zero. -/
def coerce? (text : List Char) : Option Version := do
  let (major, rest) ← firstRun false text
  match dottedRun rest with
  | none => some ⟨← Text.word64? major, 0, 0, []⟩
  | some (minor, rest) =>
      match dottedRun rest with
      | none => some ⟨← Text.word64? major, ← Text.word64? minor, 0, []⟩
      | some (patch, _) =>
          some ⟨← Text.word64? major, ← Text.word64? minor, ← Text.word64? patch, []⟩

end Lintel.Version
