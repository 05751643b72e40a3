import Lintel.Proofs.Json.Layout
import Lintel.Proofs.Json.Scalars

/-!
# Written values are read back

A reader reads a value if it takes it off the text in every layout, whatever blanks stand in front
and whatever stands behind that does not continue a number. Both ways to write a value put only
blanks into their gaps, so that a reader which reads a value makes up for either of them.
-/
namespace Lintel.Json

variable {α β : Type}

def AllBlank (bs : Bytes) : Prop := ∀ b ∈ bs, Cursor.isBlank b = true

structure Layout.Blank (l : Layout) : Prop where
  gap : ∀ depth, AllBlank (Text.bytes (l.gap depth))
  space : AllBlank (Text.bytes l.space)

theorem Layout.blank_compact : Layout.compact.Blank :=
  ⟨fun _ => List.forall_mem_nil _, List.forall_mem_nil _⟩

theorem Layout.blank_pretty : Layout.pretty.Blank := by
  refine ⟨fun depth b hb => ?_, List.forall_mem_singleton.2 rfl⟩
  rw [Layout.pretty_gap, Value.indent, Text.bytes_cons] at hb
  rcases List.mem_append.1 hb with hb | hb
  · obtain rfl := List.mem_singleton.1 hb
    rfl
  · obtain ⟨c, hc, hb⟩ := List.mem_flatMap.1 hb
    rw [List.eq_of_mem_replicate hc] at hb
    obtain rfl := List.mem_singleton.1 hb
    rfl

def opensValue (b : UInt8) : Bool :=
  b == 110 || b == 116 || b == 102 || b == quoteByte || b == listOpen || b == objectOpen ||
    Cursor.isDigit b

theorem isBlank_of_opensValue {b : UInt8} (h : opensValue b = true) : Cursor.isBlank b = false := by
  have hall : ∀ n : Fin 256, opensValue (UInt8.ofNat n) = true →
      Cursor.isBlank (UInt8.ofNat n) = false := by
    decide +kernel
  simpa using hall ⟨b.toNat, b.toNat_lt⟩ (by simpa using h)

theorem opensValue_ne_listClose {b : UInt8} (h : opensValue b = true) : b ≠ listClose := by
  rintro rfl
  cases h

structure ReadsAt (f : Cursor → Except Fault (α × Cursor)) (l : Layout) (v : Value) (a : α) :
    Prop where
  opens : ∀ indent, ∃ b text, Text.bytes (l.write indent v) = b :: text ∧ opensValue b = true
  yields : ∀ indent ws rest, AllBlank ws → Text.Stops continuesNumber rest →
    Yields f (ws ++ (Text.bytes (l.write indent v) ++ rest)) a rest

/-- `r` reads the value `v` as `a` in every layout, where values may nest deeper than `need`. -/
def Reads (r : Reader α) (need : Nat) (v : Value) (a : α) : Prop :=
  ∀ l : Layout, l.Blank → ∀ depth, need < depth → ReadsAt (r depth) l v a

theorem Reads.mono {r : Reader α} {need more : Nat} {v : Value} {a : α} (h : Reads r need v a)
    (hle : need ≤ more) : Reads r more v a :=
  fun l hl depth hdepth => h l hl depth (Nat.lt_of_le_of_lt hle hdepth)

theorem ReadsAt.map {f : Cursor → Except Fault (α × Cursor)} {l : Layout} {v : Value} {a : α}
    (h : ReadsAt f l v a) (g : α → β) :
    ReadsAt (fun c => (f c).map fun (a, d) => (g a, d)) l v (g a) :=
  ⟨h.opens, fun indent ws rest hws hrest => (h.yields indent ws rest hws hrest).map g⟩

theorem Reads.map {r : Reader α} {need : Nat} {v : Value} {a : α} (h : Reads r need v a)
    (g : α → β) : Reads (fun depth c => (r depth c).map fun (a, d) => (g a, d)) need v (g a) :=
  fun l hl depth hdepth => (h l hl depth hdepth).map g

/-! ## Blanks in front -/

theorem dropWhile_isBlank {ws text : Bytes} {b : UInt8} (hws : AllBlank ws)
    (hb : Cursor.isBlank b = false) :
    (ws ++ b :: text).dropWhile Cursor.isBlank = b :: text :=
  Text.dropWhile_append_stop hws (Text.stops_cons.2 hb)

theorem rest_skipBlanks_of_rest {c : Cursor} {ws text : Bytes} {b : UInt8}
    (hc : c.rest = ws ++ b :: text) (hws : AllBlank ws) (hb : Cursor.isBlank b = false) :
    c.skipBlanks.rest = b :: text := by
  rw [Cursor.rest_skipBlanks, hc, dropWhile_isBlank hws hb]

theorem next_of_rest {c : Cursor} {ws text : Bytes} {b : UInt8} (hc : c.rest = ws ++ b :: text)
    (hws : AllBlank ws) (hb : Cursor.isBlank b = false) :
    c.skipBlanks.peek = some b ∧ c.skipBlanks.advance.rest = text := by
  have hrest := rest_skipBlanks_of_rest hc hws hb
  exact ⟨Cursor.peek_of_rest hrest, Cursor.rest_advance_of_rest hrest⟩

theorem Yields.inSight {ws text : Bytes} {b : UInt8} (hws : AllBlank ws)
    (hb : Cursor.isBlank b = false) : Yields inSight (ws ++ b :: text) b (b :: text) := by
  intro c hc
  have hrest := rest_skipBlanks_of_rest hc hws hb
  refine ⟨c.skipBlanks, ?_, hrest⟩
  rw [Json.inSight, Cursor.peek_of_rest hrest]

/-! ## Scalars -/

theorem Layout.bytes_write_text (l : Layout) (indent : Nat) (s : String) :
    Text.bytes (l.write indent (.text s)) =
      quoteByte :: (Text.bytes (s.toList.flatMap Value.escapeChar) ++ [34]) :=
  bytes_writeText s

theorem Reads.textAs (expected : String) (s : String) :
    Reads (Reader.textAs expected) 0 (.text s) s := by
  intro l hl depth _
  refine ⟨fun indent => ⟨_, _, l.bytes_write_text indent s, rfl⟩,
    fun indent ws rest hws hrest c hc => ?_⟩
  rw [l.bytes_write_text, List.cons_append, List.append_assoc, List.singleton_append] at hc
  obtain ⟨d, hd, hdrest⟩ := Yields.inSight hws (by rfl) c hc
  obtain ⟨e, he, herest⟩ := Yields.string_text s rest d.advance (by simp [hdrest])
  exact ⟨e, by simp [Reader.textAs, hd, he, bind, Except.bind], herest⟩

theorem Layout.bytes_write_natural (l : Layout) (indent n : Nat) :
    Text.bytes (l.write indent (.natural n)) = digitBytes n := rfl

theorem exists_digitBytes_eq_cons (n : Nat) :
    ∃ b bs, digitBytes n = b :: bs ∧ Cursor.isDigit b = true := by
  cases hbytes : digitBytes n with
  | nil =>
    have hvalue := digitsValue_digitBytes n
    rw [hbytes] at hvalue
    obtain rfl : 0 = n := hvalue
    cases hbytes
  | cons b bs =>
    have hmem : b ∈ digitBytes n := by
      rw [hbytes]
      exact List.mem_cons_self ..
    exact ⟨b, bs, rfl, isDigit_of_mem_digitBytes hmem⟩

theorem opensValue_of_isDigit {b : UInt8} (h : Cursor.isDigit b = true) : opensValue b = true := by
  simp [opensValue, h]

theorem Reads.natural (expected : String) {limit n : Nat} (hlimit : n ≤ limit)
    (hn : n ≤ Number.wordLimit) : Reads (Reader.natural expected limit) 0 (.natural n) n := by
  intro l hl depth _
  obtain ⟨b, bs, hbytes, hb⟩ := exists_digitBytes_eq_cons n
  have hopens := opensValue_of_isDigit hb
  have hminus : b ≠ 45 := by
    rintro rfl
    cases hb
  refine ⟨fun indent => ⟨b, bs, hbytes, hopens⟩, fun indent ws rest hws hrest c hc => ?_⟩
  rw [l.bytes_write_natural, hbytes, List.cons_append] at hc
  obtain ⟨d, hd, hdrest⟩ := Yields.inSight hws (isBlank_of_opensValue hopens) c hc
  obtain ⟨e, he, herest⟩ := Yields.read_natural hn hrest d (by rw [hdrest, hbytes]; rfl)
  exact ⟨e, by simp [Reader.natural, hd, he, hminus, hb, hlimit, bind, Except.bind], herest⟩

theorem ident_of_rest (name : Bytes) {rest : Bytes} {c : Cursor} (hc : c.rest = name ++ rest) :
    ∃ d, c.ident name = .ok d ∧ d.rest = rest := by
  induction name generalizing c with
  | nil => exact ⟨c, rfl, hc⟩
  | cons b name ih =>
    obtain ⟨d, hd, hrest⟩ := ih (c := c.advance) (by simp [hc])
    refine ⟨d, ?_, hrest⟩
    rw [Cursor.ident, Cursor.peek_of_rest (b := b) (by rw [hc]; rfl)]
    simpa using hd

theorem Layout.bytes_write_null (l : Layout) (indent : Nat) :
    Text.bytes (l.write indent .null) = 110 :: nullTail := by
  rw [write]
  rfl

theorem Reads.optional_null (r : Reader α) (need : Nat) :
    Reads (Reader.optional r) need .null none := by
  intro l hl depth _
  refine ⟨fun indent => ⟨_, _, l.bytes_write_null indent, rfl⟩,
    fun indent ws rest hws hrest c hc => ?_⟩
  rw [l.bytes_write_null, List.cons_append] at hc
  have hsight := rest_skipBlanks_of_rest hc hws (by rfl)
  obtain ⟨d, hd, hdrest⟩ := ident_of_rest nullTail (Cursor.rest_advance_of_rest hsight)
  exact ⟨d, by simp [Reader.optional, Cursor.peek_of_rest hsight, hd, bind, Except.bind], hdrest⟩

theorem Layout.bytes_write_ne_null (l : Layout) (indent : Nat) {v : Value}
    (hv : (∃ s, v = .text s) ∨ (∃ n, v = .natural n) ∨ ∃ ms, v = .object ms) :
    (Text.bytes (l.write indent v)).head? ≠ some 110 := by
  rcases hv with ⟨s, rfl⟩ | ⟨n, rfl⟩ | ⟨ms, rfl⟩
  · rw [l.bytes_write_text, List.head?_cons]
    decide
  · obtain ⟨b, bs, hbytes, hb⟩ := exists_digitBytes_eq_cons n
    rw [l.bytes_write_natural, hbytes, List.head?_cons]
    rintro h
    cases h
    cases hb
  · have hopen : (Text.bytes (l.write indent (.object ms))).head? = some objectOpen := by
      cases ms <;> rw [write] <;> rfl
    rw [hopen]
    decide

theorem Reads.optional {r : Reader α} {need : Nat} {v : Value} {a : α} (h : Reads r need v a)
    (hv : (∃ s, v = .text s) ∨ (∃ n, v = .natural n) ∨ ∃ ms, v = .object ms) :
    Reads (Reader.optional r) need v (some a) := by
  intro l hl depth hdepth
  have hread := h l hl depth hdepth
  refine ⟨hread.opens, fun indent ws rest hws hrest c hc => ?_⟩
  obtain ⟨b, text, hbytes, hopens⟩ := hread.opens indent
  have hnull : b ≠ 110 := by
    have hhead := l.bytes_write_ne_null indent hv
    rw [hbytes, List.head?_cons] at hhead
    exact fun hb => hhead (by rw [hb])
  rw [hbytes, List.cons_append] at hc
  have hsight := rest_skipBlanks_of_rest hc hws (isBlank_of_opensValue hopens)
  obtain ⟨d, hd, hdrest⟩ := hread.yields indent [] rest (List.forall_mem_nil _) hrest c.skipBlanks
    (by rw [hsight, hbytes]; rfl)
  refine ⟨d, ?_, hdrest⟩
  simp [Reader.optional, Cursor.peek_of_rest hsight, hnull, hd, Except.map]

theorem Reads.choice {choices : List (String × α)} {name : String} {a : α}
    (h : choices.lookup name = some a) : Reads (choice choices) 0 (.text name) a := by
  intro l hl depth hdepth
  have hname := Reads.textAs "variant identifier" name l hl depth hdepth
  refine ⟨hname.opens, fun indent ws rest hws hrest c hc => ?_⟩
  rw [l.bytes_write_text, List.cons_append] at hc
  obtain ⟨d, hd, hdrest⟩ := Yields.inSight hws (by rfl) c hc
  obtain ⟨e, he, herest⟩ := hname.yields indent [] rest (List.forall_mem_nil _) hrest d
    (by rw [hdrest, l.bytes_write_text]; rfl)
  exact ⟨e, by simp [Json.choice, choiceName, hd, he, h, bind, Except.bind], herest⟩

/-! ## Whole texts -/

/-- `r` reads both ways to write the value `v` as `a`. -/
def RoundTrips (r : Reader α) (v : Value) (a : α) : Prop :=
  decode r v.toCompact = .ok a ∧ decode r v.toPretty = .ok a

theorem ReadsAt.decode {r : Reader α} {l : Layout} {v : Value} {a : α}
    (h : ReadsAt (r depthLimit) l v a) :
    decode r (String.ofList (l.write 0 v)) = .ok a := by
  have hstart : (Cursor.start (bytesOf (String.ofList (l.write 0 v)))).rest =
      [] ++ (Text.bytes (l.write 0 v) ++ []) := by
    rw [Cursor.start, bytesOf, String.toList_ofList, List.nil_append, List.append_nil]
  obtain ⟨d, hd, hdrest⟩ := h.yields 0 [] [] (List.forall_mem_nil _) Text.stops_nil _ hstart
  have hend : d.skipBlanks.peek = none := by
    rw [Cursor.peek, Cursor.rest_skipBlanks, hdrest]
    rfl
  simp [Json.decode, hd, hend, bind, Except.bind]

theorem Reads.roundTrips {r : Reader α} {need : Nat} {v : Value} {a : α} (h : Reads r need v a)
    (hneed : need < depthLimit) : RoundTrips r v a := by
  have hcompact := (h .compact Layout.blank_compact depthLimit hneed).decode
  have hpretty := (h .pretty Layout.blank_pretty depthLimit hneed).decode
  rw [Layout.write_compact] at hcompact
  rw [Layout.write_pretty] at hpretty
  exact ⟨hcompact, hpretty⟩

end Lintel.Json
