import Lintel.Json.Value

/-!
# Layouts of JSON text

The two ways to write a value differ only in the blanks that they put in front of items and behind
colons. A layout says what these are, and both ways are writing in a layout.
-/
namespace Lintel.Json

/-- The blanks in front of an item or a closing bracket at a depth, and those behind a colon. -/
structure Layout where
  gap : Nat → List Char
  space : List Char

namespace Layout

def compact : Layout := ⟨fun _ => [], []⟩

def pretty : Layout := ⟨Value.indent, [' ']⟩

@[simp] theorem compact_gap (depth : Nat) : compact.gap depth = [] := rfl

@[simp] theorem compact_space : compact.space = [] := rfl

@[simp] theorem pretty_gap (depth : Nat) : pretty.gap depth = Value.indent depth := rfl

@[simp] theorem pretty_space : pretty.space = [' '] := rfl

variable (l : Layout)

mutual

def write (depth : Nat) : Value → List Char
  | .null => ['n', 'u', 'l', 'l']
  | .bool b => Value.writeBool b
  | .number n => Value.writeNumber n
  | .text s => Value.writeText s
  | .list [] => ['[', ']']
  | .list (v :: vs) =>
      '[' :: (writeItems (depth + 1) true (v :: vs) ++ l.gap depth ++ [']'])
  | .object [] => ['{', '}']
  | .object (m :: ms) =>
      '{' :: (writeMembers (depth + 1) true (m :: ms) ++ l.gap depth ++ ['}'])

def writeItems (depth : Nat) (isFirst : Bool) : List Value → List Char
  | [] => []
  | v :: vs =>
      (if isFirst then [] else [',']) ++
        (l.gap depth ++ (write depth v ++ writeItems depth false vs))

def writeMembers (depth : Nat) (isFirst : Bool) : List (String × Value) → List Char
  | [] => []
  | (k, v) :: ms =>
      (if isFirst then [] else [',']) ++ (l.gap depth ++ (Value.writeText k ++
        ':' :: (l.space ++ (write depth v ++ writeMembers depth false ms))))

end

mutual

theorem write_compact (depth : Nat) : ∀ v, compact.write depth v = Value.compact v
  | .null => rfl
  | .bool b => rfl
  | .number n => rfl
  | .text s => rfl
  | .list [] => rfl
  | .list (v :: vs) => by
      simp [write, Value.compact, writeItems_compact (depth + 1) (v :: vs)]
  | .object [] => rfl
  | .object (m :: ms) => by
      simp [write, Value.compact, writeMembers_compact (depth + 1) (m :: ms)]

theorem writeItems_compact (depth : Nat) :
    ∀ vs, compact.writeItems depth true vs = Value.compactItems vs
  | [] => rfl
  | [v] => by simp [writeItems, Value.compactItems, write_compact depth v]
  | v :: w :: vs => by
      have hrest := writeItems_compact depth (w :: vs)
      simp only [writeItems, Bool.false_eq_true, if_true, if_false, List.nil_append,
        List.singleton_append] at hrest ⊢
      rw [hrest]
      simp [Value.compactItems, write_compact depth v]

theorem writeMembers_compact (depth : Nat) :
    ∀ ms, compact.writeMembers depth true ms = Value.compactMembers ms
  | [] => rfl
  | [(k, v)] => by simp [writeMembers, Value.compactMembers, write_compact depth v]
  | (k, v) :: (j, w) :: ms => by
      have hrest := writeMembers_compact depth ((j, w) :: ms)
      simp only [writeMembers, Bool.false_eq_true, if_true, if_false, List.nil_append,
        List.singleton_append] at hrest ⊢
      rw [hrest]
      simp [Value.compactMembers, write_compact depth v]

end

mutual

theorem write_pretty (depth : Nat) : ∀ v, pretty.write depth v = Value.pretty depth v
  | .null => rfl
  | .bool b => rfl
  | .number n => rfl
  | .text s => rfl
  | .list [] => rfl
  | .list (v :: vs) => by
      simp [write, Value.pretty, writeItems_pretty (depth + 1) (v :: vs)]
  | .object [] => rfl
  | .object (m :: ms) => by
      simp [write, Value.pretty, writeMembers_pretty (depth + 1) (m :: ms)]

theorem writeItems_pretty (depth : Nat) :
    ∀ vs, pretty.writeItems depth true vs = Value.prettyItems depth vs
  | [] => rfl
  | [v] => by simp [writeItems, Value.prettyItems, write_pretty depth v]
  | v :: w :: vs => by
      have hrest := writeItems_pretty depth (w :: vs)
      simp only [writeItems, Bool.false_eq_true, if_true, if_false, List.nil_append,
        List.singleton_append] at hrest ⊢
      rw [hrest]
      simp [Value.prettyItems, write_pretty depth v]

theorem writeMembers_pretty (depth : Nat) :
    ∀ ms, pretty.writeMembers depth true ms = Value.prettyMembers depth ms
  | [] => rfl
  | [(k, v)] => by simp [writeMembers, Value.prettyMembers, write_pretty depth v]
  | (k, v) :: (j, w) :: ms => by
      have hrest := writeMembers_pretty depth ((j, w) :: ms)
      simp only [writeMembers, Bool.false_eq_true, if_true, if_false, List.nil_append,
        List.singleton_append] at hrest ⊢
      rw [hrest]
      simp [Value.prettyMembers, write_pretty depth v]

end

end Layout

end Lintel.Json
