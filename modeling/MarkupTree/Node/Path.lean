import MarkupTree.Node.Basic

/-!
# Places in a tree

A place is named by the child indices that lead to it from the root, counted from zero. The root is
the empty path.
-/
namespace MarkupTree

/-- Child indices from the root downwards. -/
abbrev Path := List Nat

namespace Node

def at? : Node → Path → Option Node
  | n, [] => some n
  | n, index :: path => n.children[index]?.bind fun child => child.at? path

mutual

/-- All places of a tree in document order. -/
def paths : Node → List Path
  | ⟨_, _, children⟩ => [] :: pathsFrom 0 children

/-- The places below a node whose children from `index` on are given. -/
def pathsFrom (index : Nat) : List Node → List Path
  | [] => []
  | n :: rest => (paths n).map (index :: ·) ++ pathsFrom (index + 1) rest

end

@[simp] theorem at?_nil (n : Node) : n.at? [] = some n := by
  rw [at?]

theorem at?_cons (n : Node) (index : Nat) (path : Path) :
    n.at? (index :: path) = n.children[index]?.bind fun child => child.at? path := by
  rw [at?]

end Node

end MarkupTree
