import Lintel.Proofs.Json.Nested

/-!
# Any value is read back

The reader without a shape in mind reads every value whose numbers are natural and fit 64 bits and
that does not nest too deep.
-/
namespace Lintel.Json

namespace Value

/-- A value that nests at most so deep and whose numbers are natural and fit 64 bits. -/
def Within : Nat → Value → Prop
  | _, .null | _, .bool _ | _, .text _ => True
  | _, .number (.natural n) => n ≤ Number.wordLimit
  | _, .number _ => False
  | n + 1, .list items => ∀ v ∈ items, Within n v
  | n + 1, .object members => ∀ m ∈ members, Within n m.2
  | 0, .list _ | 0, .object _ => False

theorem yields_readMembers (r : Reader Value) (depth : Nat) {l : Layout} (hl : l.Blank)
    {ms : List (String × Value)} (h : ∀ m ∈ ms, ReadsAt (r depth) l m.2 m.2)
    {indent fuel : Nat} {isFirst : Bool} {ws rest : Bytes} (hfuel : ms.length < fuel)
    (hws : AllBlank ws) :
    Yields (readMembers r depth fuel isFirst)
      (Text.bytes (l.writeMembers indent isFirst ms) ++ (ws ++ objectClose :: rest)) ms
      (objectClose :: rest) := by
  obtain ⟨fuel, rfl⟩ : ∃ n, fuel = n + 1 := ⟨fuel - 1, by omega⟩
  induction ms generalizing fuel isFirst with
  | nil =>
    intro c hc
    obtain ⟨d, hd, hdrest⟩ := Yields.nextKey_close hws isFirst c hc
    exact ⟨d, by simp [readMembers, hd, bind, Except.bind], hdrest⟩
  | cons m ms ih =>
    intro c hc
    rw [List.forall_mem_cons] at h
    obtain ⟨d, e, g, hd, he, hg, hgrest⟩ := key_of_rest hl hc
    obtain ⟨i, hi, hirest⟩ := h.1.yields indent _ _ hl.space (stops_of_members hws) g hgrest
    obtain ⟨n, rfl⟩ : ∃ n, fuel = n + 1 := ⟨fuel - 1, by simp at hfuel; omega⟩
    obtain ⟨j, hj, hjrest⟩ := ih h.2 n (by simpa using hfuel) i hirest
    refine ⟨j, ?_, hjrest⟩
    rw [readMembers]
    simp [hd, he, hg, hi, hj, bind, Except.bind]

theorem reads_null (need : Nat) : Reads reader need .null .null := by
  intro l hl depth _
  refine ⟨fun indent => ⟨_, _, l.bytes_write_null indent, rfl⟩,
    fun indent ws rest hws hrest c hc => ?_⟩
  rw [l.bytes_write_null, List.cons_append] at hc
  obtain ⟨d, hd, hdrest⟩ := Yields.inSight hws (by rfl) c hc
  obtain ⟨e, he, herest⟩ := ident_of_rest nullTail (Cursor.rest_advance_of_rest hdrest)
  refine ⟨e, ?_, herest⟩
  rw [reader]
  simp [hd, he, bind, Except.bind]

theorem reads_bool (need : Nat) (b : Bool) : Reads reader need (.bool b) (.bool b) := by
  intro l hl depth _
  let first : UInt8 := if b then 116 else 102
  let name : Bytes := if b then trueTail else falseTail
  have hbytes : ∀ indent, Text.bytes (l.write indent (.bool b)) = first :: name := by
    intro indent
    rw [Layout.write]
    cases b <;> rfl
  have hopens : opensValue first = true := by
    cases b <;> rfl
  refine ⟨fun indent => ⟨_, _, hbytes indent, hopens⟩, fun indent ws rest hws hrest c hc => ?_⟩
  rw [hbytes, List.cons_append] at hc
  obtain ⟨d, hd, hdrest⟩ := Yields.inSight hws (isBlank_of_opensValue hopens) c hc
  obtain ⟨e, he, herest⟩ := ident_of_rest name (Cursor.rest_advance_of_rest hdrest)
  refine ⟨e, ?_, herest⟩
  rw [reader]
  cases b with
  | false =>
    have hfalse : d.advance.ident falseTail = .ok e := he
    simp [hd, hfalse, bind, Except.bind, first]
  | true =>
    have htrue : d.advance.ident trueTail = .ok e := he
    simp [hd, htrue, bind, Except.bind, first]

theorem reads_natural (need : Nat) {n : Nat} (hn : n ≤ Number.wordLimit) :
    Reads reader need (.natural n) (.natural n) := by
  intro l hl depth _
  obtain ⟨b, bs, hbytes, hb⟩ := exists_digitBytes_eq_cons n
  have hopens := opensValue_of_isDigit hb
  have hother : b ≠ 110 ∧ b ≠ 116 ∧ b ≠ 102 ∧ b ≠ 45 := by
    refine ⟨?_, ?_, ?_, ?_⟩ <;> rintro rfl <;> cases hb
  refine ⟨fun indent => ⟨b, bs, hbytes, hopens⟩, fun indent ws rest hws hrest c hc => ?_⟩
  rw [l.bytes_write_natural, hbytes, List.cons_append] at hc
  obtain ⟨d, hd, hdrest⟩ := Yields.inSight hws (isBlank_of_opensValue hopens) c hc
  obtain ⟨e, he, herest⟩ := Yields.read_natural hn hrest d (by rw [hdrest, hbytes]; rfl)
  refine ⟨e, ?_, herest⟩
  rw [reader]
  simp [hd, he, hother, hb, natural, bind, Except.bind, Except.map]

theorem reads_text (need : Nat) (s : String) : Reads reader need (.text s) (.text s) := by
  intro l hl depth _
  refine ⟨fun indent => ⟨_, _, l.bytes_write_text indent s, rfl⟩,
    fun indent ws rest hws hrest c hc => ?_⟩
  rw [l.bytes_write_text, List.cons_append, List.append_assoc, List.singleton_append] at hc
  obtain ⟨d, hd, hdrest⟩ := Yields.inSight hws (by rfl) c hc
  obtain ⟨e, he, herest⟩ := Yields.string_text s rest d.advance (by simp [hdrest])
  have hother : quoteByte ≠ 110 ∧ quoteByte ≠ 116 ∧ quoteByte ≠ 102 ∧ quoteByte ≠ 45 ∧
      Cursor.isDigit quoteByte = false := by
    decide
  refine ⟨e, ?_, herest⟩
  rw [reader]
  simp [hd, he, hother, bind, Except.bind, Except.map]

theorem reads_list {need : Nat} {vs : List Value} (h : ∀ v ∈ vs, Reads reader need v v) :
    Reads reader (need + 1) (.list vs) (.list vs) := by
  intro l hl depth hdepth
  obtain ⟨inner, rfl⟩ : ∃ n, depth = n + 2 := ⟨depth - 2, by omega⟩
  have hread : List.Forall₂ (ReadsAt (reader (inner + 1)) l) vs vs :=
    List.forall₂_same.2 fun v hv => h v hv l hl (inner + 1) (by omega)
  refine ⟨fun indent => hl.opens_list indent vs, fun indent before rest hbefore hrest c hc => ?_⟩
  obtain ⟨d, ws, hd, hws, hdrest, hfuel⟩ := list_of_rest hl hread hbefore hc
  obtain ⟨e, he, herest⟩ := Yields.elements (fun _ => reader (inner + 1)) (inner + 1) hl hread
    hfuel hws d.advance hdrest
  obtain ⟨g, hg, hgrest⟩ := endList_of_rest herest
  have hother : listOpen ≠ 110 ∧ listOpen ≠ 116 ∧ listOpen ≠ 102 ∧ listOpen ≠ 45 ∧
      Cursor.isDigit listOpen = false ∧ listOpen ≠ quoteByte := by
    decide
  refine ⟨g, ?_, hgrest⟩
  rw [reader]
  simp [hd, hother, he, hg, bind, Except.bind]

theorem reads_object {need : Nat} {ms : List (String × Value)}
    (h : ∀ m ∈ ms, Reads reader need m.2 m.2) :
    Reads reader (need + 1) (.object ms) (.object ms) := by
  intro l hl depth hdepth
  obtain ⟨inner, rfl⟩ : ∃ n, depth = n + 2 := ⟨depth - 2, by omega⟩
  have hmembers : ∀ m ∈ ms, ReadsAt (reader (inner + 1)) l m.2 m.2 := fun m hm =>
    h m hm l hl (inner + 1) (by omega)
  refine ⟨fun indent => hl.opens_object indent ms, fun indent before rest hbefore hrest c hc => ?_⟩
  obtain ⟨d, ws, hd, hws, hdrest, hfuel⟩ := object_of_rest hl hbefore hc
  obtain ⟨e, he, herest⟩ := yields_readMembers (fun _ => reader (inner + 1)) (inner + 1) hl
    hmembers hfuel hws d.advance hdrest
  obtain ⟨g, hg, hgrest⟩ := endObject_of_rest herest
  have hother : objectOpen ≠ 110 ∧ objectOpen ≠ 116 ∧ objectOpen ≠ 102 ∧ objectOpen ≠ 45 ∧
      Cursor.isDigit objectOpen = false ∧ objectOpen ≠ quoteByte ∧ objectOpen ≠ listOpen := by
    decide
  refine ⟨g, ?_, hgrest⟩
  rw [reader]
  simp [hd, hother, he, hg, bind, Except.bind]

theorem Within.reads {need : Nat} {v : Value} (h : v.Within need) : Reads reader need v v := by
  cases v with
  | null => exact reads_null need
  | bool b => exact reads_bool need b
  | number n =>
    cases need <;> cases n with
    | natural n => exact reads_natural _ h
    | negative n => exact h.elim
    | binary isNegative value => exact h.elim
  | text s => exact reads_text need s
  | list items =>
    cases need with
    | zero => exact h.elim
    | succ need => exact reads_list fun v hv => Within.reads (h v hv)
  | object members =>
    cases need with
    | zero => exact h.elim
    | succ need => exact reads_object fun m hm => Within.reads (h m hm)
termination_by need

end Value

end Lintel.Json
