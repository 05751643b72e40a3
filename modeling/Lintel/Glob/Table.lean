import Lintel.Glob.Match

/-!
# Tables of matches

A table says for every suffix of a path, the whole path first, whether something holds of it. A
token turns the table of what may be left behind it into the table of where it may begin, in one
pass over the path, so that a pattern costs no more than its length times that of the path. The
main statement is `Pattern.accepts_iff`: the tables decide matching.
-/
namespace Lintel.Glob

abbrev Table := List Bool

def tabulate (f : Bytes → Bool) : Bytes → Table
  | [] => [f []]
  | b :: rest => f (b :: rest) :: tabulate f rest

@[simp] theorem head?_tabulate (f : Bytes → Bool) (s : Bytes) :
    (tabulate f s).head? = some (f s) := by
  cases s <;> rfl

theorem tabulate_congr {f g : Bytes → Bool} (h : ∀ u, f u = g u) (s : Bytes) :
    tabulate f s = tabulate g s := by
  rw [show f = g from funext h]

namespace Table

def byte (p : UInt8 → Bool) : Bytes → Table → Table
  | b :: rest, _ :: k => (p b && k.headD false) :: byte p rest k
  | _, _ => [false]

def star : Bytes → Table → Table
  | b :: rest, x :: k =>
      let r := star rest k
      (x || (b != separator && r.headD false)) :: r
  | _, k => k

def suffix : Bytes → Table → Table
  | _ :: rest, x :: k =>
      let r := suffix rest k
      (x || r.headD false) :: r
  | _, k => k

def behind : Bytes → Table → Table
  | b :: rest, _ :: k =>
      let r := behind rest k
      ((b == separator && k.headD false) || r.headD false) :: r
  | _, _ => [false]

def either (k l : Table) : Table := List.zipWith (· || ·) k l

theorem byte_tabulate (p : UInt8 → Bool) (f : Bytes → Bool) (s : Bytes) :
    byte p s (tabulate f s) =
      tabulate (fun u => match u with
        | b :: rest => p b && f rest
        | [] => false) s := by
  induction s with
  | nil => rfl
  | cons b rest ih => simp [byte, tabulate, ih]

theorem star_tabulate (f : Bytes → Bool) (s : Bytes) :
    star s (tabulate f s) = tabulate (fun u => (starEnds u).any f) s := by
  induction s with
  | nil => simp [star, tabulate, starEnds]
  | cons b rest ih =>
    by_cases h : b = separator
    · simp [star, tabulate, starEnds, ih, h]
    · have hb : (b != separator) = true := by simpa using h
      simp [star, tabulate, starEnds, ih, h, hb]

theorem suffix_tabulate (f : Bytes → Bool) (s : Bytes) :
    suffix s (tabulate f s) = tabulate (fun u => (suffixes u).any f) s := by
  induction s with
  | nil => simp [suffix, tabulate, suffixes]
  | cons b rest ih => simp [suffix, tabulate, suffixes, ih]

theorem behind_tabulate (f : Bytes → Bool) (s : Bytes) :
    behind s (tabulate f s) = tabulate (fun u => (behindSeparators u).any f) s := by
  induction s with
  | nil => simp [behind, tabulate, behindSeparators]
  | cons b rest ih =>
    by_cases h : b = separator <;> simp [behind, tabulate, behindSeparators, ih, h]

theorem either_tabulate (f g : Bytes → Bool) (s : Bytes) :
    either (tabulate f s) (tabulate g s) = tabulate (fun u => f u || g u) s := by
  induction s with
  | nil => rfl
  | cons b rest ih => simpa [either, tabulate] using ih

def bytes (text s : Bytes) (k : Table) : Table := text.foldr (fun b => byte (· == b) s) k

theorem bytes_tabulate (text : Bytes) (f : Bytes → Bool) (s : Bytes) :
    bytes text s (tabulate f s) =
      tabulate (fun u => (Text.dropPrefix? text u).toList.any f) s := by
  induction text with
  | nil => simp [bytes, Text.dropPrefix?]
  | cons c text ih =>
    have hrest := congrArg (byte (· == c) s) ih
    rw [byte_tabulate] at hrest
    refine hrest.trans (tabulate_congr (fun u => ?_) s)
    cases u with
    | nil => simp [Text.dropPrefix?]
    | cons b rest =>
      by_cases h : b = c
      · simp [Text.dropPrefix?, h]
      · simp [Text.dropPrefix?, h, Ne.symm h]

end Table

mutual

/-- Where a token may begin, given where what is behind it may begin. -/
def Token.table : Token → Bytes → Table → Table
  | .literal c, s, k => Table.bytes (String.utf8EncodeChar c) s k
  | .one, s, k => Table.byte (· != separator) s k
  | .many, s, k => Table.star s k
  | .leading, s, k => Table.either k (Table.behind s k)
  | .inner, s, k => Table.byte (· == separator) s (Table.either k (Table.behind s k))
  | .trailing, s, k => Table.byte (· == separator) s (Table.suffix s k)
  | .oneOf negated ranges, s, k => Table.byte (classHolds negated ranges) s k
  | .either choices, s, k =>
      if Token.allVoid choices then k else Token.choiceTable choices s k

def Token.listTable : List Token → Bytes → Table → Table
  | [], _, k => k
  | t :: ts, s, k => Token.table t s (Token.listTable ts s k)

def Token.choiceTable : List (List Token) → Bytes → Table → Table
  | [], s, _ => tabulate (fun _ => false) s
  | c :: cs, s, k =>
      if Token.areVoid c then Token.choiceTable cs s k
      else Table.either (Token.listTable c s k) (Token.choiceTable cs s k)

end

mutual

theorem Token.table_tabulate (t : Token) (f : Bytes → Bool) (s : Bytes) :
    t.table s (tabulate f s) = tabulate (fun u => (t.ends u).any f) s := by
  cases t with
  | literal c => exact Table.bytes_tabulate _ f s
  | one =>
    refine (Table.byte_tabulate _ f s).trans (tabulate_congr (fun u => ?_) s)
    cases u with
    | nil => simp [Token.ends]
    | cons b rest => by_cases h : b = separator <;> simp [Token.ends, h]
  | many => exact Table.star_tabulate f s
  | leading =>
    rw [Token.table, Table.behind_tabulate, Table.either_tabulate]
    exact tabulate_congr (fun u => by simp [Token.ends]) s
  | inner =>
    rw [Token.table, Table.behind_tabulate, Table.either_tabulate, Table.byte_tabulate]
    refine tabulate_congr (fun u => ?_) s
    cases u with
    | nil => simp [Token.ends]
    | cons b rest => by_cases h : b = separator <;> simp [Token.ends, h]
  | trailing =>
    rw [Token.table, Table.suffix_tabulate, Table.byte_tabulate]
    refine tabulate_congr (fun u => ?_) s
    cases u with
    | nil => simp [Token.ends]
    | cons b rest => by_cases h : b = separator <;> simp [Token.ends, h]
  | oneOf negated ranges =>
    refine (Table.byte_tabulate _ f s).trans (tabulate_congr (fun u => ?_) s)
    cases u with
    | nil => simp [Token.ends]
    | cons b rest => cases h : classHolds negated ranges b <;> simp [Token.ends, h]
  | either choices =>
    rw [Token.table]
    by_cases h : Token.allVoid choices
    · simp [h, Token.ends]
    · rw [if_neg h, Token.choiceTable_tabulate choices f s]
      exact tabulate_congr (fun u => by simp [Token.ends, h]) s

theorem Token.listTable_tabulate (ts : List Token) (f : Bytes → Bool) (s : Bytes) :
    Token.listTable ts s (tabulate f s) = tabulate (fun u => (Token.listEnds ts u).any f) s := by
  cases ts with
  | nil => simp [Token.listTable, Token.listEnds]
  | cons t ts =>
    rw [Token.listTable, Token.listTable_tabulate ts f s, Token.table_tabulate t _ s]
    exact tabulate_congr (fun u => by simp [Token.listEnds, List.any_flatMap]) s

theorem Token.choiceTable_tabulate (cs : List (List Token)) (f : Bytes → Bool) (s : Bytes) :
    Token.choiceTable cs s (tabulate f s) =
      tabulate (fun u => (Token.choiceEnds cs u).any f) s := by
  cases cs with
  | nil => simp [Token.choiceTable, Token.choiceEnds]
  | cons c cs =>
    rw [Token.choiceTable, Token.choiceTable_tabulate cs f s]
    by_cases h : Token.areVoid c
    · rw [if_pos h]
      exact tabulate_congr (fun u => by simp [Token.choiceEnds, h]) s
    · rw [if_neg h, Token.listTable_tabulate c f s, Table.either_tabulate]
      exact tabulate_congr (fun u => by simp [Token.choiceEnds, h]) s

end

def Pattern.accepts (p : Pattern) (s : Bytes) : Bool :=
  match p with
  | [.leading] => true
  | _ => (Token.listTable p s (tabulate List.isEmpty s)).headD false

theorem Pattern.accepts_iff {p : Pattern} {s : Bytes} : p.accepts s = true ↔ p.Matches s := by
  unfold Pattern.accepts Pattern.Matches
  split
  · simp
  · simp [Token.listTable_tabulate, List.isEmpty_iff]

instance (p : Pattern) (s : Bytes) : Decidable (p.Matches s) :=
  decidable_of_iff _ Pattern.accepts_iff

end Lintel.Glob
