/-!
# Margins

A line starts with a margin of spaces. A width may be any integer: one that is not positive gives an
empty margin, and one that is too large, or too far below zero to be counted in a machine word, gives
none.
-/
namespace MarkupTree

inductive MarginError where
  | overflow
  | outOfMemory
  deriving DecidableEq

namespace MarginError

/-- The wording of a margin error. A margin that does not fit into memory has none. -/
def message : MarginError → String
  | overflow => "cannot fit 'int' into an index-sized integer"
  | outOfMemory => ""

end MarginError

namespace Margin

/-- The first width above all signed words of 64 bits. Its negative is still a word. -/
def wordBound : Int := 9223372036854775808

/-- Margins of half that width and above do not fit into memory. -/
def memoryBound : Int := 4611686018427387904

def spaces (width : Nat) : String := "".pushn ' ' width

theorem toList_spaces (width : Nat) : (spaces width).toList = List.replicate width ' ' := by
  have repeated : ∀ n, (Nat.repeat (fun s : String => s.push ' ') n "").toList =
      List.replicate n ' ' := by
    intro n
    induction n with
    | zero => rfl
    | succ n ih => simp [Nat.repeat, ih, List.replicate_succ']
  exact repeated width

/-- The margin of a given width. Whether the width can be counted is settled before its cost. -/
def ofWidth (width : Int) : Except MarginError String :=
  if width < -wordBound ∨ wordBound ≤ width then .error .overflow
  else if memoryBound ≤ width then .error .outOfMemory
  else .ok (spaces width.toNat)

end Margin

end MarkupTree
