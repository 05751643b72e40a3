import Lintel.Proofs.Glob.Spelled

/-!
# Why a pattern cannot be read

Whether a text can be read, and what is wrong with it, depends on the groups that are open and on
nothing else that was read before it: neither the tokens so far nor the character in front decide.
So a character that is no mark may stand in front of a text without any effect on its fault.
-/
namespace Lintel.Glob

/-- What is wrong with a text behind `depth` open groups. -/
def faultFrom (depth : Nat) (cs : List Char) : Option PatternFault :=
  match cs with
  | [] => if depth = 0 then none else some .unclosedAlternates
  | ['\\'] => some .danglingEscape
  | '\\' :: _ :: rest => faultFrom depth rest
  | '[' :: rest =>
      match _h : readClass rest with
      | .error e => some e
      | .ok none => some .unclosedClass
      | .ok (some (_, after)) => faultFrom depth after
  | '{' :: rest => faultFrom (depth + 1) rest
  | '}' :: rest => if depth = 0 then some .unopenedAlternates else faultFrom (depth - 1) rest
  | _ :: rest => faultFrom depth rest
termination_by cs.length
decreasing_by
  all_goals simp_wf
  all_goals try (have hlt := length_lt_of_readClass _h)
  all_goals omega

theorem faultFrom_plain {c : Char} (hc : c ∉ ['\\', '[', '{', '}']) (depth : Nat)
    (rest : List Char) : faultFrom depth (c :: rest) = faultFrom depth rest := by
  rw [faultFrom]
  all_goals simp_all

theorem faultFrom_pushStars (depth : Nat) (r : Reading) (rest : List Char) :
    faultFrom depth ('*' :: '*' :: rest) = faultFrom depth (r.pushStars rest).2 := by
  rw [faultFrom_plain (by decide), faultFrom_plain (by decide)]
  rcases r.pushStars_rest rest with hrest | hrest
  · rw [hrest]
  · have hskip := congrArg (faultFrom depth) hrest
    rwa [faultFrom_plain (by decide)] at hskip

theorem readFrom_eq_error_iff {r : Reading} {cs : List Char} {e : PatternFault}
    (hstrict : r.bracketIsText = false) :
    readFrom false r cs = .error e ↔ faultFrom r.groups.length cs = some e := by
  fun_induction readFrom false r cs with
  | case1 r hgroups => simp [faultFrom, List.isEmpty_iff.1 hgroups]
  | case2 r hgroups => simp [faultFrom, mt List.isEmpty_iff.2 hgroups]
  | case3 r rest ih => rw [ih hstrict, faultFrom_plain (by decide), Reading.push_groups]
  | case4 r rest ih =>
    rw [ih (by simpa using hstrict), faultFrom_pushStars _ r, Reading.pushStars_groups]
  | case5 r rest hnext ih => rw [ih hstrict, faultFrom_plain (by decide), Reading.push_groups]
  | case6 r => simp [faultFrom]
  | case7 r c rest ih => rw [ih hstrict, faultFrom, Reading.push_groups]
  | case8 r rest hbracket ih => simp [hstrict] at hbracket
  | case9 r rest hbracket f hclass =>
    rw [faultFrom, hclass]
    simp
  | case10 r rest hbracket token after hclass ih =>
    rw [faultFrom, hclass, ih hstrict, Reading.push_groups]
  | case11 r rest hbracket hclass hlenient ih => cases hlenient
  | case12 r rest hbracket hclass hlenient =>
    rw [faultFrom, hclass]
    simp
  | case13 r rest ih => rw [ih hstrict, faultFrom, List.length_cons]
  | case14 r rest hgroups => simp [faultFrom, hgroups]
  | case15 r rest g outer hgroups ih =>
    rw [faultFrom, hgroups]
    simpa using ih hstrict
  | case16 r rest hgroups ih => rw [ih hstrict, faultFrom_plain (by decide), Reading.push_groups]
  | case17 r rest g outer hgroups ih =>
    rw [faultFrom_plain (by decide), hgroups]
    simpa using ih hstrict
  | case18 r c rest hone hstars hmany hdangling hescape hbracket hopen hclose hcomma ih =>
    have hplain : c ∉ ['\\', '[', '{', '}'] := by
      simp only [List.mem_cons, List.not_mem_nil, or_false, not_or]
      exact ⟨ne_escape hdangling hescape, hbracket, hopen, hclose⟩
    rw [ih hstrict, faultFrom_plain hplain, Reading.push_groups]

theorem read_eq_error_iff {cs : List Char} {e : PatternFault} :
    Pattern.read cs = .error e ↔ faultFrom 0 cs = some e :=
  readFrom_eq_error_iff rfl

theorem read_append_eq_error_iff {w : List Char} (hw : ∀ c ∈ w, c ∉ ['\\', '[', '{', '}'])
    {cs : List Char} {e : PatternFault} :
    Pattern.read (w ++ cs) = .error e ↔ Pattern.read cs = .error e := by
  rw [read_eq_error_iff, read_eq_error_iff]
  induction w with
  | nil => rfl
  | cons c w ih =>
    rw [List.forall_mem_cons] at hw
    rw [List.cons_append, faultFrom_plain hw.1, ih hw.2]

end Lintel.Glob
