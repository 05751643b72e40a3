import Lintel.Glob.Token

/-!
# Reading a pattern step by step

Each step of a reading takes a few characters off the text and changes the open alternative or the
open groups. A pattern is what is left when the steps have used up the text and closed every group;
what all steps keep therefore holds of every pattern that is read.
-/
namespace Lintel.Glob

def isMark (c : Char) : Bool :=
  c == '?' || c == '*' || c == '\\' || c == '[' || c == '{' || c == '}'

/-- A step from one reading and text to the next, where every bracket has to close. -/
inductive Step : Reading → List Char → Reading → List Char → Prop
  | one (r : Reading) (rest : List Char) : Step r ('?' :: rest) (r.push '?' [.one]) rest
  | stars (r : Reading) (rest : List Char) :
      Step r ('*' :: '*' :: rest) (r.pushStars rest).1 (r.pushStars rest).2
  | many (r : Reading) (rest : List Char) (hnext : rest.head? ≠ some '*') :
      Step r ('*' :: rest) (r.push '*' [.many]) rest
  | escaped (r : Reading) (c : Char) (rest : List Char) :
      Step r ('\\' :: c :: rest) (r.push c [.literal c]) rest
  | bracket (r : Reading) (rest : List Char) (token : Token) (after : List Char)
      (hclass : readClass rest = .ok (some (token, after))) :
      Step r ('[' :: rest) (r.push ']' [token]) after
  | opening (r : Reading) (rest : List Char) :
      Step r ('{' :: rest)
        { r with previous := some '{', current := [], groups := ⟨r.current, []⟩ :: r.groups } rest
  | closing (r : Reading) (rest : List Char) (g : OpenGroup) (outer : List OpenGroup)
      (hgroups : r.groups = g :: outer) :
      Step r ('}' :: rest)
        { r with previous := some '}', groups := outer,
                 current := .either (r.current.reverse :: g.choices).reverse :: g.before } rest
  | dividing (r : Reading) (rest : List Char) (g : OpenGroup) (outer : List OpenGroup)
      (hgroups : r.groups = g :: outer) :
      Step r (',' :: rest)
        { r with previous := some ',', current := [],
                 groups := ⟨g.before, r.current.reverse :: g.choices⟩ :: outer } rest
  | literal (r : Reading) (c : Char) (rest : List Char) (hmark : isMark c = false)
      (hcomma : c = ',' → r.groups = []) : Step r (c :: rest) (r.push c [.literal c]) rest

inductive Reads : Reading → List Char → Pattern → Prop
  | done (r : Reading) (hgroups : r.groups = []) : Reads r [] r.current.reverse
  | step {r r' : Reading} {cs cs' : List Char} {p : Pattern} (hstep : Step r cs r' cs')
      (hrest : Reads r' cs' p) : Reads r cs p

@[simp] theorem Reading.push_groups (r : Reading) (c : Char) (ts : List Token) :
    (r.push c ts).groups = r.groups := rfl

@[simp] theorem Reading.pushStars_groups (r : Reading) (rest : List Char) :
    (r.pushStars rest).1.groups = r.groups := by
  unfold Reading.pushStars
  simp only
  repeat' split
  all_goals rfl

@[simp] theorem Reading.pushStars_bracketIsText (r : Reading) (rest : List Char) :
    (r.pushStars rest).1.bracketIsText = r.bracketIsText := by
  unfold Reading.pushStars
  simp only
  repeat' split
  all_goals rfl

theorem reads_of_readFrom {r : Reading} {cs : List Char} {p : Pattern}
    (hstrict : r.bracketIsText = false) (h : readFrom false r cs = .ok p) : Reads r cs p := by
  fun_induction readFrom false r cs with
  | case1 r hgroups =>
    obtain rfl := Except.ok.inj h
    exact .done r (List.isEmpty_iff.1 hgroups)
  | case2 r hgroups => cases h
  | case3 r rest ih => exact .step (.one r rest) (ih hstrict h)
  | case4 r rest ih => exact .step (.stars r rest) (ih (by simpa using hstrict) h)
  | case5 r rest hnext ih =>
    refine .step (.many r rest fun hhead => ?_) (ih hstrict h)
    obtain ⟨tail, htail⟩ := List.head?_eq_some_iff.1 hhead
    exact hnext tail htail
  | case6 r => cases h
  | case7 r c rest ih => exact .step (.escaped r c rest) (ih hstrict h)
  | case8 r rest hbracket ih => simp [hstrict] at hbracket
  | case9 r rest hbracket e hclass => cases h
  | case10 r rest hbracket token after hclass ih =>
    exact .step (.bracket r rest token after hclass) (ih hstrict h)
  | case11 r rest hbracket hclass hlenient ih => cases hlenient
  | case12 r rest hbracket hclass hlenient => cases h
  | case13 r rest ih => exact .step (.opening r rest) (ih hstrict h)
  | case14 r rest hgroups => cases h
  | case15 r rest g outer hgroups ih =>
    exact .step (.closing r rest g outer hgroups) (by simpa using ih hstrict (by simpa using h))
  | case16 r rest hgroups ih =>
    exact .step (.literal r ',' rest rfl fun _ => hgroups) (ih hstrict h)
  | case17 r rest g outer hgroups ih =>
    exact .step (.dividing r rest g outer hgroups) (by simpa using ih hstrict (by simpa using h))
  | case18 r c rest hone hstars hmany hdangling hescape hbracket hopen hclose hcomma ih =>
    refine .step (.literal r c rest ?_ fun h => absurd h hcomma) (ih hstrict h)
    have hback : c ≠ '\\' := by
      rintro rfl
      cases rest with
      | nil => exact hdangling rfl rfl
      | cons d rest => exact hescape d rest rfl rfl
    simp only [isMark, Bool.or_eq_false_iff, beq_eq_false_iff_ne]
    exact ⟨⟨⟨⟨⟨hone, hmany⟩, hback⟩, hbracket⟩, hopen⟩, hclose⟩

theorem reads_of_read {cs : List Char} {p : Pattern} (h : Pattern.read cs = .ok p) :
    Reads .start cs p :=
  reads_of_readFrom rfl h

end Lintel.Glob
