import MarkupTree.Node.Basic

/-!
# Comparison of trees

Two trees are compared with a stack of pairs that are still to be compared, so the depth of a tree
is no limit. A pair of one node with itself needs no further comparison, whatever is below it.
`alike` says by recursion what the stack decides.
-/
namespace MarkupTree

/-- Pairs of nodes still to be compared, the next one first. -/
abbrev Comparison := List (Node × Node)

namespace Comparison

inductive Progress where
  | settled (equal : Bool)
  | remaining (pairs : Comparison)

/-- The places left in the first trees of all pairs. -/
def weight (pairs : Comparison) : Nat := Node.sizeAll (pairs.map Prod.fst)

/-- Compares the next pair. `same` tells when both are one node. Contents are compared before
the numbers of children, and the last children become the next pair. -/
def step (same : Node → Node → Bool) : Comparison → Progress
  | [] => .settled true
  | (left, right) :: rest =>
      if same left right then .remaining rest
      else if !left.content.alike right.content then .settled false
      else if left.children.length ≠ right.children.length then .settled false
      else .remaining ((left.children.zip right.children).reverse ++ rest)

theorem sizeAll_fst_zip_le (left right : List Node) :
    Node.sizeAll ((left.zip right).reverse.map Prod.fst) ≤ Node.sizeAll left := by
  rw [List.map_reverse, Node.sizeAll_reverse]
  induction left generalizing right with
  | nil => simp [Node.sizeAll]
  | cons n rest ih =>
      cases right with
      | nil => simp [Node.sizeAll]
      | cons m rest' => simpa [Node.sizeAll] using ih rest'

theorem weight_step_lt {same : Node → Node → Bool} {pairs next : Comparison}
    (h : step same pairs = .remaining next) : weight next < weight pairs := by
  cases pairs with
  | nil => cases h
  | cons pair rest =>
      obtain ⟨left, right⟩ := pair
      have positive := left.size_pos
      have children := sizeAll_fst_zip_le left.children right.children
      have size := left.size_eq
      simp only [step] at h
      split at h
      · cases h
        simp only [weight, List.map_cons, Node.sizeAll]
        omega
      · split at h
        · cases h
        · split at h
          · cases h
          · cases h
            simp only [weight, List.map_append, List.map_cons, Node.sizeAll_append, Node.sizeAll]
            omega

/-- Compares pair after pair until one differs or none is left. -/
def run (same : Node → Node → Bool) (pairs : Comparison) : Bool :=
  match _h : step same pairs with
  | .settled equal => equal
  | .remaining next => run same next
termination_by pairs.weight
decreasing_by exact weight_step_lt ‹_›

theorem run_of_settled {same : Node → Node → Bool} {pairs : Comparison} {equal : Bool}
    (h : step same pairs = .settled equal) : run same pairs = equal := by
  rw [run]; split <;> simp_all

theorem run_of_remaining {same : Node → Node → Bool} {pairs next : Comparison}
    (h : step same pairs = .remaining next) : run same pairs = run same next := by
  rw [run]; split <;> simp_all

end Comparison

namespace Node

def same (a b : Node) : Bool := a.mark == b.mark

/-- Whether two nodes are equal as trees. The marks do not matter if each of them names one tree. -/
def equal (a b : Node) : Bool := Comparison.run same [(a, b)]

mutual

/-- Two trees are alike when their roots are and their children are alike one by one. Marks are
not looked at. -/
def alike : Node → Node → Bool
  | ⟨_, content, children⟩, b => content.alike b.content && alikeAll children b.children

def alikeAll : List Node → List Node → Bool
  | [], [] => true
  | a :: left, b :: right => alike a b && alikeAll left right
  | _, _ => false

end

theorem alike_eq (a b : Node) :
    a.alike b = (a.content.alike b.content && alikeAll a.children b.children) := by
  cases a; rw [alike]

end Node

end MarkupTree
