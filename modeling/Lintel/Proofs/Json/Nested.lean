import Lintel.Proofs.Elementwise
import Lintel.Proofs.Json.Skipping

/-!
# Lists and records are read back

The items of a list and the members of an object stand between brackets, each but the first behind a
comma. What reads the items reads the list, and a record whose members fill it, one field after the
other, is read from its object, one level deeper. Members that it has no field for are passed over.
-/
namespace Lintel.Json

variable {α β σ : Type}

/-! ## Lists -/

theorem Yields.nextElement_close {ws rest : Bytes} (hws : AllBlank ws) (isFirst : Bool) :
    Yields (Reader.nextElement isFirst) (ws ++ listClose :: rest) false (listClose :: rest) := by
  intro c hc
  have hsight := rest_skipBlanks_of_rest hc hws (by rfl)
  exact ⟨c.skipBlanks, by simp [Reader.nextElement, Cursor.peek_of_rest hsight], hsight⟩

theorem afterComma_of_rest {c : Cursor} {ws text : Bytes} {b : UInt8}
    (hc : c.rest = commaByte :: (ws ++ b :: text)) (hws : AllBlank ws)
    (hb : Cursor.isBlank b = false) :
    c.skipBlanks.peek = some commaByte ∧ c.skipBlanks.advance.skipBlanks.rest = b :: text := by
  obtain ⟨hpeek, hrest⟩ := next_of_rest hc (List.forall_mem_nil _) (by rfl)
  exact ⟨hpeek, rest_skipBlanks_of_rest hrest hws hb⟩

theorem Yields.nextElement {ws text : Bytes} {b : UInt8} (hws : AllBlank ws)
    (hb : opensValue b = true) (isFirst : Bool) :
    Yields (Reader.nextElement isFirst)
      ((if isFirst then [] else [commaByte]) ++ (ws ++ b :: text)) true (b :: text) := by
  intro c hc
  have hclose := opensValue_ne_listClose hb
  have hblank := isBlank_of_opensValue hb
  cases isFirst with
  | true =>
    have hsight := rest_skipBlanks_of_rest hc hws hblank
    exact ⟨c.skipBlanks, by simp [Reader.nextElement, Cursor.peek_of_rest hsight, hclose], hsight⟩
  | false =>
    obtain ⟨hcomma, hsight⟩ := afterComma_of_rest hc hws hblank
    have hopen : commaByte ≠ listClose := by decide
    exact ⟨_, by simp [Reader.nextElement, hcomma, Cursor.peek_of_rest hsight, hopen, hclose],
      hsight⟩

theorem stops_of_tail {p : UInt8 → Bool} {ws rest : Bytes} {b : UInt8} (hws : AllBlank ws)
    (hblank : ∀ c, Cursor.isBlank c = true → p c = false) (hb : p b = false) :
    Text.Stops p (ws ++ b :: rest) := by
  cases ws with
  | nil => exact Text.stops_cons.2 hb
  | cons c ws => exact Text.stops_cons.2 (hblank c (hws c (List.mem_cons_self ..)))

theorem continuesNumber_of_isBlank (b : UInt8) (h : Cursor.isBlank b = true) :
    continuesNumber b = false := by
  simp only [Cursor.isBlank, Bool.or_eq_true, beq_iff_eq] at h
  rcases h with ((rfl | rfl) | rfl) | rfl <;> rfl

theorem Yields.elements (r : Reader α) (depth : Nat) {l : Layout} (hl : l.Blank)
    {vs : List Value} {as : List α} (h : List.Forall₂ (ReadsAt (r depth) l) vs as)
    {indent fuel : Nat} {isFirst : Bool} {ws rest : Bytes} (hfuel : vs.length < fuel)
    (hws : AllBlank ws) :
    Yields (Reader.elements r depth fuel isFirst)
      (Text.bytes (l.writeItems indent isFirst vs) ++ (ws ++ listClose :: rest)) as
      (listClose :: rest) := by
  obtain ⟨fuel, rfl⟩ : ∃ n, fuel = n + 1 := ⟨fuel - 1, by omega⟩
  induction h generalizing fuel isFirst with
  | nil =>
    intro c hc
    obtain ⟨d, hd, hdrest⟩ := Yields.nextElement_close hws isFirst c hc
    exact ⟨d, by simp [Reader.elements, hd, bind, Except.bind], hdrest⟩
  | @cons v a vs as hread _ ih =>
    intro c hc
    obtain ⟨b, text, hbytes, hopens⟩ := hread.opens indent
    have hcomma : Text.bytes (if isFirst then [] else [',']) =
        if isFirst then [] else [commaByte] := by
      cases isFirst <;> rfl
    rw [Layout.writeItems, Text.bytes_append, Text.bytes_append, Text.bytes_append, hcomma,
      hbytes, List.append_assoc, List.append_assoc, List.cons_append, List.cons_append] at hc
    obtain ⟨d, hd, hdrest⟩ := Yields.nextElement (hl.gap indent) hopens isFirst c hc
    have hstop : Text.Stops continuesNumber
        (Text.bytes (l.writeItems indent false vs) ++ (ws ++ listClose :: rest)) := by
      cases vs with
      | nil => exact stops_of_tail hws continuesNumber_of_isBlank (by rfl)
      | cons w vs => exact Text.stops_cons.2 (by rfl)
    obtain ⟨e, he, herest⟩ := hread.yields indent [] _ (List.forall_mem_nil _) hstop d
      (by rw [hdrest, hbytes, List.nil_append, List.append_assoc, List.cons_append])
    obtain ⟨n, rfl⟩ : ∃ n, fuel = n + 1 := ⟨fuel - 1, by simp at hfuel; omega⟩
    obtain ⟨g, hg, hgrest⟩ := ih n (by simpa using hfuel) e herest
    refine ⟨g, ?_, hgrest⟩
    rw [Reader.elements]
    simp [hd, he, hg, bind, Except.bind]

theorem endList_of_rest {c : Cursor} {rest : Bytes} (hc : c.rest = listClose :: rest) :
    ∃ d, Reader.endList c = .ok d ∧ d.rest = rest := by
  obtain ⟨hpeek, hrest⟩ := next_of_rest hc (List.forall_mem_nil _) (by rfl)
  exact ⟨_, by simp [Reader.endList, hpeek], hrest⟩

/-! ## Objects -/

theorem Yields.nextKey_close {ws rest : Bytes} (hws : AllBlank ws) (isFirst : Bool) :
    Yields (Reader.nextKey isFirst) (ws ++ objectClose :: rest) false (objectClose :: rest) := by
  intro c hc
  have hsight := rest_skipBlanks_of_rest hc hws (by rfl)
  exact ⟨c.skipBlanks, by simp [Reader.nextKey, Cursor.peek_of_rest hsight], hsight⟩

theorem Yields.nextKey {ws text : Bytes} (hws : AllBlank ws) (isFirst : Bool) :
    Yields (Reader.nextKey isFirst)
      ((if isFirst then [] else [commaByte]) ++ (ws ++ quoteByte :: text)) true text := by
  intro c hc
  have hclose : quoteByte ≠ objectClose := by decide
  cases isFirst with
  | true =>
    have hsight := rest_skipBlanks_of_rest hc hws (by rfl)
    exact ⟨c.skipBlanks.advance,
      by simp [Reader.nextKey, Cursor.peek_of_rest hsight, hclose],
      Cursor.rest_advance_of_rest hsight⟩
  | false =>
    obtain ⟨hcomma, hsight⟩ := afterComma_of_rest hc hws (by rfl)
    have hopen : commaByte ≠ objectClose := by decide
    exact ⟨_, by simp [Reader.nextKey, hcomma, Cursor.peek_of_rest hsight, hopen],
      Cursor.rest_advance_of_rest hsight⟩

theorem colon_of_rest {c : Cursor} {text : Bytes} (hc : c.rest = colonByte :: text) :
    ∃ d, Reader.colon c = .ok d ∧ d.rest = text := by
  obtain ⟨hpeek, hrest⟩ := next_of_rest hc (List.forall_mem_nil _) (by rfl)
  exact ⟨_, by simp [Reader.colon, hpeek], hrest⟩

theorem endObject_of_rest {c : Cursor} {rest : Bytes} (hc : c.rest = objectClose :: rest) :
    ∃ d, Reader.endObject c = .ok d ∧ d.rest = rest := by
  obtain ⟨hpeek, hrest⟩ := next_of_rest hc (List.forall_mem_nil _) (by rfl)
  exact ⟨_, by simp [Reader.endObject, hpeek], hrest⟩

theorem key_of_rest {l : Layout} (hl : l.Blank) {indent : Nat} {isFirst : Bool} {key : String}
    {v : Value} {ms : List (String × Value)} {rest : Bytes} {c : Cursor}
    (hc : c.rest = Text.bytes (l.writeMembers indent isFirst ((key, v) :: ms)) ++ rest) :
    ∃ d e g, Reader.nextKey isFirst c = .ok (true, d) ∧ string d = .ok (key, e) ∧
      Reader.colon e = .ok g ∧ g.rest = Text.bytes l.space ++ (Text.bytes (l.write indent v) ++
        (Text.bytes (l.writeMembers indent false ms) ++ rest)) := by
  have hcomma : Text.bytes (if isFirst then [] else [',']) =
      if isFirst then [] else [commaByte] := by
    cases isFirst <;> rfl
  have hcolon : ∀ cs, Text.bytes (':' :: cs) = colonByte :: Text.bytes cs := fun _ => rfl
  rw [Layout.writeMembers, Text.bytes_append, Text.bytes_append, Text.bytes_append,
    bytes_writeText, hcomma, hcolon] at hc
  simp only [Text.bytes_append, List.append_assoc, List.cons_append, List.nil_append] at hc
  obtain ⟨d, hd, hdrest⟩ := Yields.nextKey (hl.gap indent) isFirst c hc
  obtain ⟨e, he, herest⟩ := Yields.string_text key _ d hdrest
  obtain ⟨g, hg, hgrest⟩ := colon_of_rest herest
  exact ⟨d, e, g, hd, he, hg, hgrest⟩

theorem stops_of_members {l : Layout} {indent : Nat} {ms : List (String × Value)} {ws rest : Bytes}
    (hws : AllBlank ws) : Text.Stops continuesNumber
      (Text.bytes (l.writeMembers indent false ms) ++ (ws ++ objectClose :: rest)) := by
  cases ms with
  | nil => exact stops_of_tail hws continuesNumber_of_isBlank (by rfl)
  | cons m ms => exact Text.stops_cons.2 (by rfl)

/-- The members take the record from one state to another, one field after the other; a member that
is no field leaves it as it is. -/
inductive Fills (shape : Shape σ α) (need : Nat) : σ → List (String × Value) → σ → Prop
  | nil (s : σ) : Fills shape need s [] s
  | cons {s s' s'' : σ} {key : String} {v : Value} {ms : List (String × Value)} {f : Field σ}
      (hfind : shape.fields.find? (·.name == key) = some f) (hunset : f.isSet s = false)
      (hread : Reads (f.read s) need v (.ok s')) (hrest : Fills shape need s' ms s'') :
      Fills shape need s ((key, v) :: ms) s''
  | skip {s s' : σ} {key : String} {v : Value} {ms : List (String × Value)}
      (hfind : shape.fields.find? (·.name == key) = none) (hskip : Skipped v)
      (hrest : Fills shape need s ms s') : Fills shape need s ((key, v) :: ms) s'

theorem Fills.yields {shape : Shape σ α} {need depth : Nat} {s s' : σ}
    {ms : List (String × Value)} (h : Fills shape need s ms s') (hdepth : need < depth)
    {l : Layout} (hl : l.Blank) {indent fuel : Nat} {isFirst : Bool} {ws rest : Bytes}
    (hfuel : ms.length < fuel) (hws : AllBlank ws) :
    Yields (shape.members depth fuel isFirst s)
      (Text.bytes (l.writeMembers indent isFirst ms) ++ (ws ++ objectClose :: rest)) (.ok s')
      (objectClose :: rest) := by
  obtain ⟨fuel, rfl⟩ : ∃ n, fuel = n + 1 := ⟨fuel - 1, by omega⟩
  induction h generalizing fuel isFirst with
  | nil s =>
    intro c hc
    obtain ⟨d, hd, hdrest⟩ := Yields.nextKey_close hws isFirst c hc
    exact ⟨d, by simp [Shape.members, hd, bind, Except.bind], hdrest⟩
  | @cons s s' s'' key v ms f hfind hunset hread hrest ih =>
    intro c hc
    obtain ⟨d, e, g, hd, he, hg, hgrest⟩ := key_of_rest hl hc
    obtain ⟨i, hi, hirest⟩ := (hread l hl depth hdepth).yields indent _ _ hl.space
      (stops_of_members hws) g hgrest
    obtain ⟨n, rfl⟩ : ∃ n, fuel = n + 1 := ⟨fuel - 1, by simp at hfuel; omega⟩
    obtain ⟨j, hj, hjrest⟩ := ih n (by simpa using hfuel) i hirest
    refine ⟨j, ?_, hjrest⟩
    rw [Shape.members]
    simp [hd, he, hfind, hunset, hg, hi, hj, bind, Except.bind]
  | @skip s s' key v ms hfind hskip hrest ih =>
    intro c hc
    obtain ⟨d, e, g, hd, he, hg, hgrest⟩ := key_of_rest hl hc
    obtain ⟨i, hi, hirest⟩ := hskip l indent _ _ hl.space (stops_of_members hws) g hgrest
    obtain ⟨n, rfl⟩ : ∃ n, fuel = n + 1 := ⟨fuel - 1, by simp at hfuel; omega⟩
    obtain ⟨j, hj, hjrest⟩ := ih n (by simpa using hfuel) i hirest
    refine ⟨j, ?_, hjrest⟩
    rw [Shape.members]
    simp [hd, he, hfind, hg, hi, hj, bind, Except.bind]

theorem Layout.length_le_writeItems (l : Layout) (indent : Nat) (isFirst : Bool) (vs : List Value)
    (hopens : ∀ v ∈ vs, Text.bytes (l.write indent v) ≠ []) :
    vs.length ≤ (Text.bytes (l.writeItems indent isFirst vs)).length := by
  induction vs generalizing isFirst with
  | nil => exact Nat.zero_le _
  | cons v vs ih =>
    rw [List.forall_mem_cons] at hopens
    have hv := List.length_pos_iff.2 hopens.1
    have hvs := ih false hopens.2
    simp only [writeItems, Text.bytes_append, List.length_append, List.length_cons]
    omega

theorem Layout.length_le_writeMembers (l : Layout) (indent : Nat) (isFirst : Bool)
    (ms : List (String × Value)) :
    ms.length ≤ (Text.bytes (l.writeMembers indent isFirst ms)).length := by
  induction ms generalizing isFirst with
  | nil => exact Nat.zero_le _
  | cons m ms ih =>
    have hms := ih false
    have hcolon : ∀ cs, Text.bytes (':' :: cs) = colonByte :: Text.bytes cs := fun _ => rfl
    simp only [writeMembers, Text.bytes_append, hcolon, List.length_append, List.length_cons]
    omega

theorem Layout.Blank.write_object {l : Layout} (hl : l.Blank) (indent : Nat)
    (ms : List (String × Value)) :
    ∃ ws, AllBlank ws ∧ Text.bytes (l.write indent (.object ms)) =
      objectOpen ::
        (Text.bytes (l.writeMembers (indent + 1) true ms) ++ (ws ++ [objectClose])) := by
  cases ms with
  | nil => exact ⟨[], List.forall_mem_nil _, by rw [Layout.write]; rfl⟩
  | cons m ms =>
    refine ⟨_, hl.gap indent, ?_⟩
    rw [Layout.write, Text.bytes_cons, Text.bytes_append, Text.bytes_append, List.append_assoc]
    rfl

theorem Layout.Blank.write_list {l : Layout} (hl : l.Blank) (indent : Nat) (vs : List Value) :
    ∃ ws, AllBlank ws ∧ Text.bytes (l.write indent (.list vs)) =
      listOpen :: (Text.bytes (l.writeItems (indent + 1) true vs) ++ (ws ++ [listClose])) := by
  cases vs with
  | nil => exact ⟨[], List.forall_mem_nil _, by rw [Layout.write]; rfl⟩
  | cons v vs =>
    refine ⟨_, hl.gap indent, ?_⟩
    rw [Layout.write, Text.bytes_cons, Text.bytes_append, Text.bytes_append, List.append_assoc]
    rfl

theorem Layout.Blank.opens_object {l : Layout} (hl : l.Blank) (indent : Nat)
    (ms : List (String × Value)) :
    ∃ b text, Text.bytes (l.write indent (.object ms)) = b :: text ∧ opensValue b = true := by
  obtain ⟨ws, -, hbytes⟩ := hl.write_object indent ms
  exact ⟨_, _, hbytes, rfl⟩

theorem Layout.Blank.opens_list {l : Layout} (hl : l.Blank) (indent : Nat) (vs : List Value) :
    ∃ b text, Text.bytes (l.write indent (.list vs)) = b :: text ∧ opensValue b = true := by
  obtain ⟨ws, -, hbytes⟩ := hl.write_list indent vs
  exact ⟨_, _, hbytes, rfl⟩

theorem list_of_rest {f : Cursor → Except Fault (α × Cursor)} {l : Layout} (hl : l.Blank)
    {indent : Nat} {vs : List Value} {as : List α} (hread : List.Forall₂ (ReadsAt f l) vs as)
    {before rest : Bytes} (hbefore : AllBlank before) {c : Cursor}
    (hc : c.rest = before ++ (Text.bytes (l.write indent (.list vs)) ++ rest)) :
    ∃ d ws, inSight c = .ok (listOpen, d) ∧ AllBlank ws ∧
      d.advance.rest = Text.bytes (l.writeItems (indent + 1) true vs) ++
        (ws ++ listClose :: rest) ∧ vs.length < d.rest.length + 1 := by
  obtain ⟨ws, hws, hbytes⟩ := hl.write_list indent vs
  rw [hbytes, List.cons_append, List.append_assoc, List.append_assoc, List.singleton_append] at hc
  obtain ⟨d, hd, hdrest⟩ := Yields.inSight hbefore (by rfl) c hc
  refine ⟨d, ws, hd, hws, Cursor.rest_advance_of_rest hdrest, ?_⟩
  have hlength := l.length_le_writeItems (indent + 1) true vs fun v hv => by
    obtain ⟨a, -, hopens⟩ := exists_of_mem_forall₂ hread.flip hv
    obtain ⟨b, text, hcons, -⟩ := hopens.opens (indent + 1)
    rw [hcons]
    exact List.cons_ne_nil _ _
  rw [hdrest, List.length_cons, List.length_append]
  omega

theorem object_of_rest {l : Layout} (hl : l.Blank) {indent : Nat} {ms : List (String × Value)}
    {before rest : Bytes} (hbefore : AllBlank before) {c : Cursor}
    (hc : c.rest = before ++ (Text.bytes (l.write indent (.object ms)) ++ rest)) :
    ∃ d ws, inSight c = .ok (objectOpen, d) ∧ AllBlank ws ∧
      d.advance.rest = Text.bytes (l.writeMembers (indent + 1) true ms) ++
        (ws ++ objectClose :: rest) ∧ ms.length < d.rest.length + 1 := by
  obtain ⟨ws, hws, hbytes⟩ := hl.write_object indent ms
  rw [hbytes, List.cons_append, List.append_assoc, List.append_assoc, List.singleton_append] at hc
  obtain ⟨d, hd, hdrest⟩ := Yields.inSight hbefore (by rfl) c hc
  refine ⟨d, ws, hd, hws, Cursor.rest_advance_of_rest hdrest, ?_⟩
  have hlength := l.length_le_writeMembers (indent + 1) true ms
  rw [hdrest, List.length_cons, List.length_append]
  omega

theorem Reads.list {r : Reader α} {need : Nat} {vs : List Value} {as : List α}
    (h : List.Forall₂ (Reads r need) vs as) :
    Reads (Reader.list r) (need + 1) (.list vs) as := by
  intro l hl depth hdepth
  obtain ⟨inner, rfl⟩ : ∃ n, depth = n + 2 := ⟨depth - 2, by omega⟩
  have hitems : List.Forall₂ (ReadsAt (r (inner + 1)) l) vs as :=
    h.imp fun v a hread => hread l hl (inner + 1) (by omega)
  refine ⟨fun indent => hl.opens_list indent vs, fun indent before rest hbefore hrest c hc => ?_⟩
  obtain ⟨d, ws, hd, hws, hdrest, hfuel⟩ := list_of_rest hl hitems hbefore hc
  obtain ⟨e, he, herest⟩ := Yields.elements r (inner + 1) hl hitems hfuel hws d.advance hdrest
  obtain ⟨g, hg, hgrest⟩ := endList_of_rest herest
  refine ⟨g, ?_, hgrest⟩
  simp [Reader.list, hd, he, hg, bind, Except.bind]

theorem Reads.shape {shape : Shape σ α} {need : Nat} {ms : List (String × Value)} {s : σ} {a : α}
    (h : Fills shape need shape.empty ms s) (hcomplete : shape.complete s = .ok a) :
    Reads shape.reader (need + 1) (.object ms) a := by
  intro l hl depth hdepth
  obtain ⟨inner, rfl⟩ : ∃ n, depth = n + 2 := ⟨depth - 2, by omega⟩
  refine ⟨fun indent => hl.opens_object indent ms, fun indent before rest hbefore hrest c hc => ?_⟩
  obtain ⟨d, ws, hd, hws, hdrest, hfuel⟩ := object_of_rest hl hbefore hc
  have hinner : need < inner + 1 := by omega
  obtain ⟨e, he, herest⟩ := h.yields hinner hl hfuel hws d.advance hdrest
  obtain ⟨g, hg, hgrest⟩ := endObject_of_rest herest
  have hkind : objectOpen ≠ listOpen := by decide
  refine ⟨g, ?_, hgrest⟩
  simp [Shape.reader, hd, hkind, he, hcomplete, hg, bind, Except.bind]

theorem Reads.field {r : Reader β} {need : Nat} {v : Value} {b : β} (h : Reads r need v b)
    (name : String) (isSet : σ → Bool) (set : σ → β → σ) (s : σ) :
    Reads ((Field.of name isSet r set).read s) need v (.ok (set s b)) :=
  h.map fun b => Except.ok (set s b)

end Lintel.Json
