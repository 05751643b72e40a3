import Lintel.Report.Basic
import Mathlib.Data.List.Perm.Basic

/-!
# What a tally counts

Each count of a tally is the number of findings of that severity. The counts do not depend on the
order of the findings, and together they are as many as the findings that have a severity.
-/
namespace Lintel.Tally

def count (t : Tally) : Severity → Nat
  | .error => t.error
  | .warning => t.warning
  | .info => t.info
  | .other => t.other

def total (t : Tally) : Nat := t.error + t.warning + t.info + t.other

theorem ext_count {t u : Tally} (h : ∀ s, t.count s = u.count s) : t = u := by
  obtain ⟨error, warning, info, other⟩ := t
  have herror := h .error
  have hwarning := h .warning
  have hinfo := h .info
  have hother := h .other
  simp only [count] at herror hwarning hinfo hother
  subst herror hwarning hinfo hother
  rfl

theorem count_record (t : Tally) (s s' : Severity) :
    (t.record s).count s' = t.count s' + if s = s' then 1 else 0 := by
  cases s <;> cases s' <;> rfl

theorem total_record (t : Tally) (s : Severity) : (t.record s).total = t.total + 1 := by
  cases s <;> simp only [record, total] <;> omega

theorem count_foldl_record (severities : List Severity) (t : Tally) (s : Severity) :
    (severities.foldl record t).count s = t.count s + severities.count s := by
  induction severities generalizing t with
  | nil => rfl
  | cons s' severities ih =>
    rw [List.foldl_cons, ih, count_record, List.count_cons]
    simp only [beq_iff_eq]
    omega

theorem total_foldl_record (severities : List Severity) (t : Tally) :
    (severities.foldl record t).total = t.total + severities.length := by
  induction severities generalizing t with
  | nil => rfl
  | cons s severities ih =>
    rw [List.foldl_cons, ih, total_record, List.length_cons]
    omega

theorem count_ofFindings (fs : List Finding) (s : Severity) :
    (ofFindings fs).count s = (fs.filterMap (·.severity)).count s := by
  have hzero : zero.count s = 0 := by cases s <;> rfl
  rw [ofFindings, count_foldl_record, hzero, Nat.zero_add]

theorem total_ofFindings (fs : List Finding) :
    (ofFindings fs).total = (fs.filterMap (·.severity)).length := by
  have hzero : zero.total = 0 := rfl
  rw [ofFindings, total_foldl_record, hzero, Nat.zero_add]

theorem ofFindings_eq_of_perm {fs gs : List Finding} (h : fs.Perm gs) :
    ofFindings fs = ofFindings gs := by
  apply ext_count
  intro s
  rw [count_ofFindings, count_ofFindings]
  exact (h.filterMap _).count_eq s

end Lintel.Tally
