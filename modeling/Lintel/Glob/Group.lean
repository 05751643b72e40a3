import Lintel.Glob.Syntax

/-!
# Extended groups

`@(a|b)` means the same as `{a,b}` and is rewritten to it before a pattern is compiled. The other
four operators have no counterpart and are refused. Only the outermost group is rewritten: its
body is copied, and a bar becomes a comma where no parenthesis is open.
-/
namespace Lintel.Glob

def barsToCommas : Nat → List Char → List Char
  | _, [] => []
  | depth, '(' :: rest => '(' :: barsToCommas (depth + 1) rest
  | depth, ')' :: rest => ')' :: barsToCommas (depth - 1) rest
  | depth, '|' :: rest => (if depth = 0 then ',' else '|') :: barsToCommas depth rest
  | depth, c :: rest => c :: barsToCommas depth rest

/-- The group that the operator `op` opens in front of `rest`, unless the character before the
operator is a backslash: its body and what follows. -/
def groupAt (previous : Option Char) (op : Char) (rest : List Char) :
    Option (List Char × List Char) :=
  match rest with
  | '(' :: inner =>
      if op ∈ groupOperators && previous != some '\\' then enclosed '(' ')' 0 inner else none
  | _ => none

theorem length_lt_of_groupAt {previous : Option Char} {op : Char} {rest body after : List Char}
    (h : groupAt previous op rest = some (body, after)) : after.length < rest.length := by
  unfold groupAt at h
  split at h
  · split at h
    · have := length_lt_of_enclosed h
      simp
      omega
    · simp at h
  · simp at h

def rewriteFrom (previous : Option Char) (cs : List Char) : Except Char (List Char) :=
  match cs with
  | [] => .ok []
  | ['\\'] => .ok ['\\']
  | '\\' :: c :: rest => (rewriteFrom (some c) rest).map ('\\' :: c :: ·)
  | c :: rest =>
      match _h : groupAt previous c rest with
      | some (body, after) =>
          if c = '@' then
            (rewriteFrom (some ')') after).map fun out => '{' :: barsToCommas 0 body ++ '}' :: out
          else .error c
      | none => (rewriteFrom (some c) rest).map (c :: ·)
termination_by cs.length
decreasing_by
  all_goals simp_wf
  all_goals try (have hlt := length_lt_of_groupAt _h)
  all_goals omega

def rewriteGroups (cs : List Char) : Except Char (List Char) := rewriteFrom none cs

end Lintel.Glob
