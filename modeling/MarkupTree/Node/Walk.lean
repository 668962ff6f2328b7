import MarkupTree.Node.Basic

/-!
# Walks in document order

A walk hands out the nodes of a tree one at a time and reads the children of a node only when it is
asked for the one after it. Between two requests it therefore keeps the node handed out last beside
the stack of nodes that are still to come.
-/
namespace MarkupTree

/-- A walk between two requests. -/
structure Walk where
  last : Option Node := none
  stack : List Node := []

namespace Walk

def ofRoot (root : Node) : Walk := { stack := [root] }

/-- What is still to come, with the children of the node handed out last in front. -/
def frontier (walk : Walk) : List Node :=
  match walk.last with
  | none => walk.stack
  | some node => node.children ++ walk.stack

/-- Hands out the next node, if there is one. -/
def next (walk : Walk) : Option Node × Walk :=
  match walk.frontier with
  | [] => (none, {})
  | node :: rest => (some node, { last := some node, stack := rest })

/-- The number of nodes still to come. -/
def remaining (walk : Walk) : Nat := Node.sizeAll walk.frontier

/-- Hands out up to `count` nodes after those in `taken`, which has the newest first. -/
def takeOnto (taken : List Node) : Nat → Walk → List Node × Walk
  | 0, walk => (taken.reverse, walk)
  | count + 1, walk =>
      match walk.next with
      | (none, walk) => (taken.reverse, walk)
      | (some node, walk) => takeOnto (node :: taken) count walk

def take (count : Nat) (walk : Walk) : List Node × Walk := takeOnto [] count walk

theorem frontier_next {walk rest : Walk} {node : Node} (h : walk.next = (some node, rest)) :
    walk.frontier = node :: rest.stack ∧ rest.last = some node := by
  unfold next at h
  split at h
  · cases h
  · rename_i frontier
    cases h
    exact ⟨frontier, rfl⟩

theorem remaining_next {walk rest : Walk} {node : Node} (h : walk.next = (some node, rest)) :
    walk.remaining = rest.remaining + 1 := by
  obtain ⟨frontier, last⟩ := frontier_next h
  have size := node.size_eq
  simp only [remaining, frontier, Node.sizeAll]
  simp only [Walk.frontier, last, Node.sizeAll_append]
  omega

/-- Feeds every node that is still to come to a function, in order. -/
def fold {β : Type} (f : β → Node → β) (start : β) (walk : Walk) : β :=
  match _h : walk.next with
  | (none, _) => start
  | (some node, rest) => fold f (f start node) rest
termination_by walk.remaining
decreasing_by have := remaining_next ‹_›; omega

def toList (walk : Walk) : List Node := (walk.fold (fun nodes node => node :: nodes) []).reverse

def count (walk : Walk) : Nat := walk.fold (fun n _ => n + 1) 0

theorem fold_of_none {β : Type} {f : β → Node → β} {start : β} {walk rest : Walk}
    (h : walk.next = (none, rest)) : walk.fold f start = start := by
  rw [fold]; split <;> simp_all

theorem fold_of_some {β : Type} {f : β → Node → β} {start : β} {walk rest : Walk} {node : Node}
    (h : walk.next = (some node, rest)) : walk.fold f start = rest.fold f (f start node) := by
  rw [fold]; split <;> simp_all

end Walk

namespace Node

def walk (root : Node) : Walk := Walk.ofRoot root

def tags (root : Node) : List Tag := root.walk.toList.filterMap fun n => n.content.tag?

end Node

end MarkupTree
