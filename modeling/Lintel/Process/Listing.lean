import Lintel.Process.Machine

/-!
# Listings of machines

A machine is described line by line: its working directory, the directories of its search path, and
what stands in its tree. A line has a letter for its kind and one or two byte strings behind it,
which are written in hexadecimal digits, so that names may hold blanks and line ends.
-/
namespace Lintel.Machine

def empty : Machine := ⟨Tree.empty, ⟨[Path.separator]⟩, []⟩

def hexValue? (c : Char) : Option Nat :=
  if '0' ≤ c ∧ c ≤ '9' then some (c.toNat - 48)
  else if 'a' ≤ c ∧ c ≤ 'f' then some (c.toNat - 87)
  else none

def hexBytes? : List Char → Option Bytes
  | [] => some []
  | a :: b :: rest => do
      let byte := UInt8.ofNat ((← hexValue? a) * 16 + (← hexValue? b))
      some (byte :: (← hexBytes? rest))
  | [_] => none

def names (p : Path) : Location := p.parts.filter (! Path.isSilent ·)

def describe (m : Machine) (line : List Char) : Option Machine :=
  match Text.pieces (· == ' ') line with
  | [['w'], p] => do some { m with workingDir := ⟨← hexBytes? p⟩ }
  | [['p'], p] => do some { m with searchPath := m.searchPath ++ [⟨← hexBytes? p⟩] }
  | [['d'], p] => do
      some { m with tree := m.tree.place (names ⟨← hexBytes? p⟩) .directory }
  | [['f'], p, data] => do
      some { m with tree := m.tree.place (names ⟨← hexBytes? p⟩) (.file (← hexBytes? data) false) }
  | [['x'], p, data] => do
      some { m with tree := m.tree.place (names ⟨← hexBytes? p⟩) (.file (← hexBytes? data) true) }
  | [['l'], p, target] => do
      some { m with tree := m.tree.place (names ⟨← hexBytes? p⟩) (.link ⟨← hexBytes? target⟩) }
  | _ => none

def ofListing? (text : List Char) : Option Machine :=
  (Text.lines text).foldlM describe empty

end Lintel.Machine
