import MarkupTree.Content

/-!
# Nodes

A node has a content and an ordered list of children, whatever its content is. The mark of a node
says which node it is: a node that stands in several places has one mark in all of them, and two
nodes that were made apart have two marks even if they look the same. Nothing that is printed or
handed out depends on marks; only the comparison of trees looks at them.
-/
namespace MarkupTree

/-- A node with everything below it. -/
structure Node where
  mark : Nat
  content : Content
  children : List Node := []

namespace Node

instance : Inhabited Node := ⟨0, .text, []⟩

/-- What holds of a node whenever it holds of all its children holds of every node. -/
@[induction_eliminator]
theorem induct {P : Node → Prop}
    (node : ∀ mark content children, (∀ child ∈ children, P child) → P ⟨mark, content, children⟩) :
    ∀ n, P n
  | ⟨mark, content, children⟩ => node mark content children fun child _ => induct node child

def label (n : Node) : String := n.content.label

mutual

/-- The number of places in a tree, the root included. -/
def size : Node → Nat
  | ⟨_, _, children⟩ => 1 + sizeAll children

def sizeAll : List Node → Nat
  | [] => 0
  | n :: rest => size n + sizeAll rest

end

mutual

/-- The nodes of a tree in document order: a node comes before its children, and everything below
a child comes before the next child. A node that stands in several places comes once for each. -/
def preorder : Node → List Node
  | ⟨mark, content, children⟩ => ⟨mark, content, children⟩ :: preorderAll children

def preorderAll : List Node → List Node
  | [] => []
  | n :: rest => preorder n ++ preorderAll rest

end

theorem size_eq (n : Node) : n.size = 1 + sizeAll n.children := by
  cases n; rw [size]

theorem size_pos (n : Node) : 0 < n.size := by
  rw [size_eq]; omega

@[simp] theorem sizeAll_append (a b : List Node) : sizeAll (a ++ b) = sizeAll a + sizeAll b := by
  induction a with
  | nil => simp [sizeAll]
  | cons n rest ih => simp [sizeAll, ih, Nat.add_assoc]

@[simp] theorem sizeAll_reverse (row : List Node) : sizeAll row.reverse = sizeAll row := by
  induction row with
  | nil => rfl
  | cons n rest ih => simp [sizeAll, ih, Nat.add_comm]

theorem preorderAll_eq_flatMap (row : List Node) : preorderAll row = row.flatMap preorder := by
  induction row with
  | nil => rfl
  | cons n rest ih => simp [preorderAll, ih]

theorem preorder_eq (n : Node) : n.preorder = n :: preorderAll n.children := by
  cases n; rw [preorder]

end Node

end MarkupTree
