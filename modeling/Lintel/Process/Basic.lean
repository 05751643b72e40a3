import Lintel.Fault

/-!
# Running programs

A shell finds programs by name and runs them. What a run answers may depend on all runs before it,
so a shell is a function of the calls made so far. A computation with a shell carries the list of
its calls along, also past a fault.
-/
namespace Lintel

structure Output where
  code : Option Int
  out : Bytes
  err : Bytes
  deriving DecidableEq, Repr

structure Call where
  program : Path
  arguments : List Bytes
  deriving DecidableEq, Repr

structure Shell where
  find : String → Option Path
  answer : List Call → Call → Except IoFault Output

/-- A computation that runs programs: from the calls so far to a result and all calls. -/
abbrev Traced (α : Type) := ExceptT Fault (StateM (List Call)) α

namespace Shell

def run (sh : Shell) (c : Call) : Traced Output := fun calls =>
  ((sh.answer calls c).mapError Fault.io, calls ++ [c])

def programDir : Path := Path.ofString "/usr/bin"

def silence : Output := ⟨none, [], []⟩

def scripted (programs : List String) (answers : List Output) : Shell where
  find name := if name ∈ programs then some (programDir.join (Path.ofString name)) else none
  answer calls _ := .ok (answers[calls.length]?.getD silence)

end Shell

namespace Traced

def ofExcept {α : Type} (r : Except Fault α) : Traced α := fun calls => (r, calls)

def fail {α : Type} (f : Fault) : Traced α := ofExcept (.error f)

def start {α : Type} (r : Traced α) : Except Fault α × List Call := r []

def startAfter {α : Type} (calls : List Call) (r : Traced α) : Except Fault α × List Call := r calls

variable {α β : Type}

theorem start_eq (r : Traced α) : r.start = r.startAfter [] := rfl

@[simp] theorem startAfter_pure (calls : List Call) (a : α) :
    startAfter calls (pure a) = (.ok a, calls) := rfl

@[simp] theorem startAfter_ofExcept (calls : List Call) (r : Except Fault α) :
    startAfter calls (ofExcept r) = (r, calls) := rfl

@[simp] theorem startAfter_fail (calls : List Call) (f : Fault) :
    startAfter calls (fail f : Traced α) = (.error f, calls) := rfl

@[simp] theorem startAfter_run (calls : List Call) (sh : Shell) (c : Call) :
    startAfter calls (sh.run c) = ((sh.answer calls c).mapError .io, calls ++ [c]) := rfl

theorem startAfter_bind_of_ok {calls later : List Call} {r : Traced α} {a : α}
    (h : r.startAfter calls = (.ok a, later)) (g : α → Traced β) :
    startAfter calls (r >>= g) = (g a).startAfter later := by
  change ExceptT.bindCont g (r.startAfter calls).1 (r.startAfter calls).2 = _
  rw [h]
  rfl

theorem startAfter_bind_of_error {calls later : List Call} {r : Traced α} {f : Fault}
    (h : r.startAfter calls = (.error f, later)) (g : α → Traced β) :
    startAfter calls (r >>= g) = (.error f, later) := by
  change ExceptT.bindCont g (r.startAfter calls).1 (r.startAfter calls).2 = _
  rw [h]
  rfl

theorem startAfter_bind_eq_ok_iff {calls after : List Call} {r : Traced α} {g : α → Traced β}
    {b : β} :
    startAfter calls (r >>= g) = (.ok b, after) ↔
      ∃ a mid, r.startAfter calls = (.ok a, mid) ∧ (g a).startAfter mid = (.ok b, after) := by
  rcases h : r.startAfter calls with ⟨_ | a, mid⟩
  · rw [startAfter_bind_of_error h]
    simp
  · rw [startAfter_bind_of_ok h]
    simp [and_assoc]

end Traced

end Lintel
