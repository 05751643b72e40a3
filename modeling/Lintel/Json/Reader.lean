import Lintel.Json.Number
import Lintel.Text.Quoted

/-!
# Typed readers of JSON

A reader takes a value of one kind from a cursor. It is given how much deeper values may nest. When
the value in sight is of another kind, the fault names what was found and what was expected, and
is placed behind it. A complaint about a whole list or object is placed behind its closing bracket
if that comes next.
-/
namespace Lintel.Json

abbrev Reader (α : Type) := Nat → Cursor → Except Fault (α × Cursor)

def depthLimit : Nat := 128

def inSight (c : Cursor) : Except Fault (UInt8 × Cursor) :=
  let c := c.skipBlanks
  match c.peek with
  | some b => .ok (b, c)
  | none => .error (c.faultAhead .endInValue)

def quoteByte : UInt8 := 34

def commaByte : UInt8 := 44

def colonByte : UInt8 := 58

def listOpen : UInt8 := 91

def listClose : UInt8 := 93

def objectOpen : UInt8 := 123

def objectClose : UInt8 := 125

def nullTail : Bytes := bytesOf "ull"

def trueTail : Bytes := bytesOf "rue"

def falseTail : Bytes := bytesOf "alse"

def wrongKind (expected : String) (c : Cursor) : Fault :=
  let found (what : String) (c : Cursor) : Fault :=
    c.fault (.complaint ("invalid type: " ++ what ++ ", expected " ++ expected))
  let named (what : String) : Except Fault Cursor → Fault
    | .ok c => found what c
    | .error f => f
  match c.peek with
  | some 110 => named "null" (c.advance.ident nullTail)
  | some 116 => named "boolean \x60true\x60" (c.advance.ident trueTail)
  | some 102 => named "boolean \x60false\x60" (c.advance.ident falseTail)
  | some 45 => match Number.read true c.advance with
      | .ok (n, d) => found n.describe d
      | .error f => f
  | some 34 => match string c.advance with
      | .ok (s, d) => found ("string " ++ Text.quoted s) d
      | .error f => f
  | some 91 => found "sequence" c
  | some 123 => found "map" c
  | some b =>
      if Cursor.isDigit b then match Number.read false c with
        | .ok (n, d) => found n.describe d
        | .error f => f
      else c.faultAhead .expectedValue
  | none => c.faultAhead .expectedValue

namespace Reader

def textAs (expected : String) : Reader String := fun _ c => do
  let (b, c) ← inSight c
  if b = quoteByte then string c.advance else .error (wrongKind expected c)

def text : Reader String := textAs "a string"

def natural (expected : String) (limit : Nat) : Reader Nat := fun _ c => do
  let (b, c) ← inSight c
  let check : Number × Cursor → Except Fault (Nat × Cursor)
    | (.natural n, d) =>
        if n ≤ limit then .ok (n, d)
        else .error (d.fault (.complaint
          ("invalid value: " ++ Number.describe (.natural n) ++ ", expected " ++ expected)))
    | (.negative n, d) => .error (d.fault (.complaint
        ("invalid value: " ++ Number.describe (.negative n) ++ ", expected " ++ expected)))
    | (n, d) => .error (d.fault (.complaint
        ("invalid type: " ++ n.describe ++ ", expected " ++ expected)))
  if b = 45 then check (← Number.read true c.advance)
  else if Cursor.isDigit b then check (← Number.read false c)
  else .error (wrongKind expected c)

def optional {α : Type} (r : Reader α) : Reader (Option α) := fun depth c =>
  let c := c.skipBlanks
  if c.peek = some 110 then do
    let c ← c.advance.ident nullTail
    .ok (none, c)
  else (r depth c).map fun (a, d) => (some a, d)

def unit : Reader Unit := fun _ c => do
  let (b, c) ← inSight c
  if b = 110 then do
    let c ← c.advance.ident nullTail
    .ok ((), c)
  else .error (wrongKind "unit" c)

/-! ## Lists -/

def nextElement (isFirst : Bool) (c : Cursor) : Except Fault (Bool × Cursor) := do
  let c := c.skipBlanks
  match c.peek with
  | none => .error (c.faultAhead .endInList)
  | some b =>
      if b = listClose then .ok (false, c)
      else if isFirst then .ok (true, c)
      else if b = commaByte then do
        let c := c.advance.skipBlanks
        match c.peek with
        | none => .error (c.faultAhead .endInValue)
        | some b =>
            if b = listClose then .error (c.faultAhead .trailingComma) else .ok (true, c)
      else .error (c.faultAhead .expectedListEnd)

def endList (c : Cursor) : Except Fault Cursor :=
  let c := c.skipBlanks
  match c.peek with
  | none => .error (c.faultAhead .endInList)
  | some b =>
      if b = listClose then .ok c.advance
      else if b = commaByte then
        let c := c.advance.skipBlanks
        .error (c.faultAhead (if c.peek = some listClose then .trailingComma else .trailingText))
      else .error (c.faultAhead .trailingText)

def behindList (c : Cursor) : Cursor :=
  let c := c.skipBlanks
  if c.peek = some listClose then c.advance
  else if c.peek = some commaByte then c.advance.skipBlanks
  else c

/-- Reads elements up to the closing bracket. Each takes at least a byte, which bounds `fuel`. -/
def elements {α : Type} (r : Reader α) (depth : Nat) : Nat → Bool → Cursor → Except Fault (List α × Cursor)
  | 0, _, c => .error (c.faultAhead .endInList)
  | fuel + 1, isFirst, c => do
      match ← nextElement isFirst c with
      | (false, c) => .ok ([], c)
      | (true, c) => do
          let (a, c) ← r depth c
          let (as, c) ← elements r depth fuel false c
          .ok (a :: as, c)

def list {α : Type} (r : Reader α) : Reader (List α) := fun depth c => do
  let (b, c) ← inSight c
  if b = listOpen then
    match depth with
    | 0 | 1 => .error (c.faultAhead .tooDeep)
    | inner + 1 => do
        let (as, d) ← elements r inner (c.rest.length + 1) true c.advance
        .ok (as, ← endList d)
  else .error (wrongKind "a sequence" c)

/-! ## Objects -/

def nextKey (isFirst : Bool) (c : Cursor) : Except Fault (Bool × Cursor) := do
  let c := c.skipBlanks
  match c.peek with
  | none => .error (c.faultAhead .endInObject)
  | some b =>
      if b = objectClose then .ok (false, c)
      else if isFirst then
        if b = quoteByte then .ok (true, c.advance) else .error (c.faultAhead .keyNotString)
      else if b = commaByte then
        let c := c.advance.skipBlanks
        match c.peek with
        | none => .error (c.faultAhead .endInValue)
        | some b =>
            if b = quoteByte then .ok (true, c.advance)
            else .error (c.faultAhead (if b = objectClose then .trailingComma else .keyNotString))
      else .error (c.faultAhead .expectedObjectEnd)

def colon (c : Cursor) : Except Fault Cursor :=
  let c := c.skipBlanks
  match c.peek with
  | none => .error (c.faultAhead .endInObject)
  | some b => if b = colonByte then .ok c.advance else .error (c.faultAhead .expectedColon)

def endObject (c : Cursor) : Except Fault Cursor :=
  let c := c.skipBlanks
  match c.peek with
  | none => .error (c.faultAhead .endInObject)
  | some b =>
      if b = objectClose then .ok c.advance
      else .error (c.faultAhead (if b = commaByte then .trailingComma else .trailingText))

def behindObject (c : Cursor) : Cursor :=
  let c := c.skipBlanks
  if c.peek = some objectClose then c.advance else c

end Reader

/-! ## Values of no interest -/

/-- Where the skipping of a value stands: in front of a value, behind one, or behind an opening
bracket. The open brackets are kept apart, innermost first. -/
inductive Skipping
  | value
  | behindValue
  | opened

/-- One step of passing over a value. `none` means that the value is complete. Values may nest
without limit, as nothing is built. -/
def skipStep (frames : List UInt8) (s : Skipping) (c : Cursor) :
    Except Fault (Option (List UInt8 × Skipping) × Cursor) := do
  let key (frames : List UInt8) (c : Cursor) : Except Fault Cursor :=
    if frames.head? = some objectOpen then
      let c := c.skipBlanks
      match c.peek with
      | none => .error (c.faultAhead .endInObject)
      | some b =>
          if b = quoteByte then do Reader.colon (← skipString c.advance)
          else .error (c.faultAhead .keyNotString)
    else .ok c
  match s with
  | .value =>
      let (b, c) ← inSight c
      if b = 110 then .ok (some (frames, .behindValue), ← c.advance.ident nullTail)
      else if b = 116 then .ok (some (frames, .behindValue), ← c.advance.ident trueTail)
      else if b = 102 then .ok (some (frames, .behindValue), ← c.advance.ident falseTail)
      else if b = 45 then .ok (some (frames, .behindValue), ← Number.skip c.advance)
      else if Cursor.isDigit b then .ok (some (frames, .behindValue), ← Number.skip c)
      else if b = quoteByte then .ok (some (frames, .behindValue), ← skipString c.advance)
      else if b = listOpen ∨ b = objectOpen then .ok (some (b :: frames, .opened), c.advance)
      else .error (c.faultAhead .expectedValue)
  | .behindValue =>
      match frames with
      | [] => .ok (none, c)
      | f :: outer =>
          let c := c.skipBlanks
          match c.peek with
          | none => .error (c.faultAhead (if f = listOpen then .endInList else .endInObject))
          | some b =>
              if b = commaByte then .ok (some (frames, .value), ← key frames c.advance)
              else if b = (if f = listOpen then listClose else objectClose) then
                .ok (some (outer, .behindValue), c.advance)
              else
                .error (c.faultAhead (if f = listOpen then .expectedListEnd else .expectedObjectEnd))
  | .opened =>
      match frames with
      | [] => .ok (none, c)
      | f :: outer =>
          let c := c.skipBlanks
          match c.peek with
          | none => .error (c.faultAhead (if f = listOpen then .endInList else .endInObject))
          | some b =>
              if b = (if f = listOpen then listClose else objectClose) then
                .ok (some (outer, .behindValue), c.advance)
              else .ok (some (frames, .value), ← key frames c)

def skipFrom : Nat → List UInt8 → Skipping → Cursor → Except Fault Cursor
  | 0, _, _, c => .error (c.faultAhead .endInValue)
  -- each two steps take at least a byte
  | fuel + 1, frames, s, c => do
      match ← skipStep frames s c with
      | (none, c) => .ok c
      | (some (frames, s), c) => skipFrom fuel frames s c

def skipValue (c : Cursor) : Except Fault Cursor :=
  skipFrom (2 * c.rest.length + 2) [] .value c

/-! ## Records -/

abbrev Outcome (σ : Type) := Except String σ

/-- A field of a record whose partial state is `σ`. A field that is `lenient` may be missing from
the end of a list. -/
structure Field (σ : Type) where
  name : String
  isSet : σ → Bool
  lenient : Bool
  read : σ → Nat → Cursor → Except Fault (Outcome σ × Cursor)

def Field.of {σ α : Type} (name : String) (isSet : σ → Bool) (r : Reader α) (set : σ → α → σ) :
    Field σ :=
  ⟨name, isSet, false, fun s depth c => (r depth c).map fun (a, d) => (.ok (set s a), d)⟩

/-- A record: its name, how many elements it has as a list, its fields in order, an empty state,
and the record of a state or the name of a field that it lacks. -/
structure Shape (σ α : Type) where
  name : String
  fields : List (Field σ)
  empty : σ
  complete : σ → Except String α

namespace Shape

variable {σ α : Type}

def fromList (shape : Shape σ α) (depth : Nat) :
    List (Field σ) → Nat → σ → Cursor → Except Fault (Outcome σ × Cursor)
  | [], _, s, c => .ok (.ok s, c)
  | f :: fs, index, s, c => do
      match ← Reader.nextElement (index == 0) c with
      | (true, c) =>
          match ← f.read s depth c with
          | (.ok s, c) => fromList shape depth fs (index + 1) s c
          | (.error e, c) => .ok (.error e, c)
      | (false, c) =>
          if f.lenient then fromList shape depth fs (index + 1) s c
          else .ok (.error ("invalid length " ++ toString index ++ ", expected struct "
            ++ shape.name ++ " with " ++ toString shape.fields.length
            ++ (if shape.fields.length = 1 then " element" else " elements")), c)

def members (shape : Shape σ α) (depth : Nat) :
    Nat → Bool → σ → Cursor → Except Fault (Outcome σ × Cursor)
  | 0, _, _, c => .error (c.faultAhead .endInObject)
  -- a member takes several bytes
  | fuel + 1, isFirst, s, c => do
      match ← Reader.nextKey isFirst c with
      | (false, c) => .ok (.ok s, c)
      | (true, c) =>
          let (key, c) ← string c
          match shape.fields.find? (·.name == key) with
          | none => members shape depth fuel false s (← skipValue (← Reader.colon c))
          | some f =>
              if f.isSet s then
                .ok (.error ("duplicate field \x60" ++ f.name ++ "\x60"), c)
              else match ← f.read s depth (← Reader.colon c) with
                | (.ok s, c) => members shape depth fuel false s c
                | (.error e, c) => .ok (.error e, c)

def reader (shape : Shape σ α) : Reader α := fun depth c => do
  let (b, c) ← inSight c
  let complain (e : String) (c : Cursor) : Except Fault (α × Cursor) := .error (c.fault (.complaint e))
  if b = listOpen then
    match depth with
    | 0 | 1 => .error (c.faultAhead .tooDeep)
    | inner + 1 => do
        match ← fromList shape inner shape.fields 0 shape.empty c.advance with
        | (.error e, d) => complain e (Reader.behindList d)
        | (.ok s, d) =>
            match shape.complete s with
            | .ok a => .ok (a, ← Reader.endList d)
            | .error e => complain e (Reader.behindList d)
  else if b = objectOpen then
    match depth with
    | 0 | 1 => .error (c.faultAhead .tooDeep)
    | inner + 1 => do
        match ← members shape inner (c.rest.length + 1) true shape.empty c.advance with
        | (.error e, d) => complain e (Reader.behindObject d)
        | (.ok s, d) =>
            match shape.complete s with
            | .ok a => .ok (a, ← Reader.endObject d)
            | .error e => complain ("missing field \x60" ++ e ++ "\x60") (Reader.behindObject d)
  else .error (wrongKind ("struct " ++ shape.name) c)

end Shape

/-! ## Choices -/

def oneOfNames (names : List String) : String :=
  match names with
  | [a, b] => "\x60" ++ a ++ "\x60 or \x60" ++ b ++ "\x60"
  | names => "one of " ++ String.intercalate ", " (names.map fun n => "\x60" ++ n ++ "\x60")

def choiceName {α : Type} (choices : List (String × α)) : Reader α := fun depth c => do
  let (name, c) ← Reader.textAs "variant identifier" depth c
  match choices.lookup name with
  | some a => .ok (a, c)
  | none => .error (c.fault (.complaint ("unknown variant \x60" ++ name ++ "\x60, expected "
      ++ oneOfNames (choices.map (·.1)))))

def choice {α : Type} (choices : List (String × α)) : Reader α := fun depth c => do
  let (b, c) ← inSight c
  if b = quoteByte then choiceName choices depth c
  else if b = objectOpen then
    match depth with
    | 0 | 1 => .error (c.faultAhead .tooDeep)
    | inner + 1 => do
        let (a, c) ← choiceName choices inner c.advance
        let ((), c) ← Reader.unit inner (← Reader.colon c)
        let c := c.skipBlanks
        match c.peek with
        | none => .error (c.fault .endInObject)
        | some b => if b = objectClose then .ok (a, c.advance) else .error (c.fault .expectedValue)
  else .error (c.faultAhead .expectedValue)

def decode {α : Type} (r : Reader α) (text : String) : Except Fault α := do
  let (a, c) ← r depthLimit (Cursor.start (bytesOf text))
  let c := c.skipBlanks
  match c.peek with
  | none => .ok a
  | some _ => .error (c.faultAhead .trailingText)

end Lintel.Json
