import MarkupTree.Proofs.DocumentOrder
import MarkupTree.Proofs.ProperParts

/-!
# The stack of a walk

When a walk hands out a node, its stack is determined by the place of this node: it holds the right
siblings of the node, then those of its parent, and so on up to the children of the root. So what is
still to come after the node is everything below it and everything on the stack.
-/
namespace MarkupTree

namespace Node

/-- The right siblings of the node at a path, in order, then those of its parent, and so on up to the
children of the root. -/
def beyond : Node → Path → List Node
  | _, [] => []
  | n, index :: path =>
      (n.children[index]?.elim [] fun child => child.beyond path) ++ n.children.drop (index + 1)

theorem beyond_cons {n child : Node} {index : Nat} (held : n.children[index]? = some child)
    (path : Path) :
    n.beyond (index :: path) = child.beyond path ++ n.children.drop (index + 1) := by
  rw [beyond, held]
  rfl

/-- One step further down, the right siblings there come before all others. -/
theorem beyond_concat {n x : Node} {path : Path} (place : n.at? path = some x) {index : Nat}
    (inside : index < x.children.length) :
    n.beyond (path ++ [index]) = x.children.drop (index + 1) ++ n.beyond path := by
  induction path generalizing n with
  | nil =>
      cases place
      rw [List.nil_append, beyond_cons (List.getElem?_eq_getElem inside), beyond, beyond,
        List.nil_append, List.append_nil]
  | cons first path ih =>
      rw [at?_cons, Option.bind_eq_some_iff] at place
      obtain ⟨child, held, lower⟩ := place
      rw [List.cons_append, beyond_cons held, beyond_cons held, ih lower, List.append_assoc]

/-- What is left of a row from an index on starts with the item at this index. -/
theorem getElem?_of_drop {α : Type} {row rest : List α} {item : α} {index : Nat}
    (here : row.drop index = item :: rest) :
    row[index]? = some item ∧ row.drop (index + 1) = rest := by
  constructor
  · rw [← List.head?_drop, here, List.head?_cons]
  · rw [← List.tail_drop, here, List.tail_cons]

end Node

namespace Walk

/-- The walk just after each node that it hands out, in order. -/
def states (walk : Walk) : List Walk :=
  match _h : walk.next with
  | (none, _) => []
  | (some _, rest) => rest :: states rest
termination_by walk.remaining
decreasing_by have := remaining_next ‹_›; omega

theorem states_of_none {walk rest : Walk} (h : walk.next = (none, rest)) : walk.states = [] := by
  rw [states]; split <;> simp_all

theorem states_of_some {walk rest : Walk} {node : Node} (h : walk.next = (some node, rest)) :
    walk.states = rest :: rest.states := by
  rw [states]; split <;> simp_all

/-- Where a walk goes from here depends only on what is to come. -/
theorem states_eq_of_frontier {walk other : Walk} (same : walk.frontier = other.frontier) :
    walk.states = other.states := by
  have next : other.next = walk.next := by rw [Walk.next, Walk.next, same]
  rcases asked : walk.next with ⟨_ | node, rest⟩
  · rw [states_of_none asked, states_of_none (next.trans asked)]
  · rw [states_of_some asked, states_of_some (next.trans asked)]

theorem states_cons (node : Node) (rest : List Node) :
    states { stack := node :: rest } =
      { last := some node, stack := rest } :: states { stack := node.children ++ rest } := by
  rw [states_of_some (show Walk.next { stack := node :: rest } = _ from rfl)]
  exact congrArg _ (states_eq_of_frontier rfl)

/-- A row of children is walked through before what waits under it, and each node below the parent
is handed out with the stack of its place. -/
theorem states_row (parent : Node) (index : Nat) {row : List Node}
    (each : ∀ n ∈ row, ∀ rest, states { stack := n :: rest } =
      (n.paths.map fun path => { last := n.at? path, stack := n.beyond path ++ rest }) ++
        states { stack := rest })
    (here : parent.children.drop index = row) (rest : List Node) :
    states { stack := row ++ rest } =
      ((Node.pathsFrom index row).map fun path =>
        { last := parent.at? path, stack := parent.beyond path ++ rest }) ++
          states { stack := rest } := by
  induction row generalizing index with
  | nil => rfl
  | cons child row ih =>
      obtain ⟨own, others⟩ := List.forall_mem_cons.mp each
      obtain ⟨held, later⟩ := Node.getElem?_of_drop here
      rw [List.cons_append, own, ih (index + 1) others later, Node.pathsFrom, List.map_append,
        List.map_map, List.append_assoc]
      congr 1
      apply List.map_congr_left
      intro path _
      rw [Function.comp_apply, Node.at?_cons, held, Option.bind_some, Node.beyond_cons held, later,
        List.append_assoc]

theorem states_tree (n : Node) (rest : List Node) :
    states { stack := n :: rest } =
      (n.paths.map fun path => { last := n.at? path, stack := n.beyond path ++ rest }) ++
        states { stack := rest } := by
  induction n generalizing rest with
  | node mark content children ih =>
      rw [states_cons, states_row ⟨mark, content, children⟩ 0 ih rfl rest,
        Node.paths_eq, List.map_cons, List.cons_append]
      rfl

theorem takeOnto_of_states {walk state : Walk} {k : Nat} (h : walk.states[k]? = some state)
    (taken : List Node) : (walk.takeOnto taken (k + 1)).2 = state := by
  induction k generalizing walk taken with
  | zero =>
      rcases asked : walk.next with ⟨_ | node, rest⟩
      · rw [states_of_none asked] at h
        cases h
      · rw [states_of_some asked] at h
        cases h
        simp only [takeOnto, asked]
  | succ k ih =>
      rcases asked : walk.next with ⟨_ | node, rest⟩
      · rw [states_of_none asked] at h
        cases h
      · rw [states_of_some asked, List.getElem?_cons_succ] at h
        rw [takeOnto, asked]
        exact ih h (node :: taken)

end Walk

namespace Node

/-- A walk passes through one state for each place, in document order. -/
theorem states_walk (n : Node) :
    n.walk.states = n.paths.map fun path => { last := n.at? path, stack := n.beyond path } := by
  have whole := Walk.states_tree n []
  have ended : Walk.states { stack := [] } = [] := Walk.states_of_none rfl
  simp only [ended, List.append_nil] at whole
  exact whole

/-- When a walk hands out the node at a path, its stack holds the right siblings of this place, then
those of the place above it, and so on. The nodes below the place and those on the stack are all that
is still to come, so the nodes handed out and those that wait are never more than the tree has. -/
theorem walk_stack_beyond_place {n : Node} {k : Nat} {path : Path}
    (turn : n.paths[k]? = some path) :
    let walk := (n.walk.take (k + 1)).2
    let total := n.walk.toList.length
    ∃ x, n.at? path = some x ∧ n.walk.toList[k]? = some x ∧ walk.last = some x ∧
      walk.stack = n.beyond path ∧
      (∀ above index, path = above ++ [index] → ∃ parent, n.at? above = some parent ∧
        walk.stack = parent.children.drop (index + 1) ++ n.beyond above) ∧
      (∀ count, walk.Ends count ↔ count = sizeAll x.children + sizeAll walk.stack) ∧
      k + 1 + (sizeAll x.children + sizeAll walk.stack) = total ∧
      k + 1 + walk.stack.length ≤ total ∧ k + 1 + (x.children ++ walk.stack).length ≤ total := by
  intro walk total
  have member := List.mem_of_getElem? turn
  obtain ⟨x, place⟩ := Option.isSome_iff_exists.mp (mem_paths_iff.mp member)
  have state : walk = { last := some x, stack := n.beyond path } := by
    apply Walk.takeOnto_of_states
    rw [states_walk, List.getElem?_map, turn, Option.map_some, place]
  have frontier : walk.frontier = x.children ++ walk.stack := by
    rw [state]
    rfl
  have handed : n.preorder[k]? = some x := by
    have same : (n.paths.map n.at?)[k]? = (n.preorder.map some)[k]? := by rw [map_at?_paths]
    rw [List.getElem?_map, List.getElem?_map, turn, Option.map_some, place] at same
    obtain ⟨y, held, one⟩ := Option.map_eq_some_iff.mp same.symm
    rwa [← Option.some.inj one]
  have left : walk.upcoming.length = sizeAll x.children + sizeAll walk.stack := by
    rw [Walk.upcoming, length_preorderAll fun m _ => m.length_preorder, frontier, sizeAll_append]
  have sum : k + 1 + (sizeAll x.children + sizeAll walk.stack) = total := by
    have inside := (List.getElem?_eq_some_iff.mp handed).1
    have behind : walk.upcoming = n.preorder.drop (k + 1) := by
      rw [Walk.upcoming_take, Walk.upcoming_walk]
    rw [← left, behind, List.length_drop, ← toList_walk]
    rw [← toList_walk] at inside
    omega
  have children := length_le_sizeAll x.children
  have stacked := length_le_sizeAll walk.stack
  refine ⟨x, place, ?_, ?_, ?_, ?_, ?_, sum, ?_, ?_⟩
  · rw [toList_walk, handed]
  · rw [state]
  · rw [state]
  · intro above index split
    rw [split, at?_append, Option.bind_eq_some_iff] at place
    obtain ⟨parent, upper, last⟩ := place
    rw [at?_cons, Option.bind_eq_some_iff] at last
    obtain ⟨child, held, _⟩ := last
    refine ⟨parent, upper, ?_⟩
    rw [state, split, beyond_concat upper (List.getElem?_eq_some_iff.mp held).1]
  · intro count
    rw [Walk.ends_iff, left]
  · omega
  · rw [List.length_append]
    omega

/-- An element whose first child has two generations below it and a right sibling of its own. -/
def threeGenerations : Node :=
  ⟨4, .element { name := "p" },
    [⟨3, .comment "c", [⟨1, .text "t", [⟨0, .element { name := "q" }, []⟩]⟩, ⟨2, .text "u", []⟩]⟩,
      ⟨2, .text "u", []⟩]⟩

theorem stack_of_threeGenerations :
    threeGenerations.paths[3]? = some [0, 0, 0] ∧
      (threeGenerations.walk.take 4).2.stack = [⟨2, .text "u", []⟩, ⟨2, .text "u", []⟩] ∧
      (threeGenerations.walk.take 4).2.Ends 2 := by
  have turn : threeGenerations.paths[3]? = some [0, 0, 0] := rfl
  obtain ⟨x, place, _, _, stack, _, ends, _⟩ := walk_stack_beyond_place turn
  cases place
  have others : threeGenerations.beyond [0, 0, 0] = [⟨2, .text "u", []⟩, ⟨2, .text "u", []⟩] := rfl
  refine ⟨turn, stack.trans others, (ends 2).mpr ?_⟩
  rw [stack, others]
  rfl

end Node

end MarkupTree
