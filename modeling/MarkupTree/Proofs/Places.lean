import MarkupTree.Node.Path
import Mathlib.Tactic.Common

/-!
# Nodes with their places

The places of a tree are listed in document order, each beside the node that stands there. The nodes
of this list are the preorder, and following a place from the root leads to the node beside it.
-/
namespace MarkupTree.Node

mutual

/-- The nodes of a tree in document order, each behind the path that leads to it. -/
def places : Node → List (Path × Node)
  | ⟨mark, content, children⟩ => ([], ⟨mark, content, children⟩) :: placesFrom 0 children

/-- The places below a node whose children from `index` on are given. -/
def placesFrom (index : Nat) : List Node → List (Path × Node)
  | [] => []
  | n :: rest =>
      (places n).map (fun place => (index :: place.1, place.2)) ++ placesFrom (index + 1) rest

end

theorem places_eq (n : Node) : n.places = ([], n) :: placesFrom 0 n.children := by
  cases n; rw [places]

theorem map_snd_placesFrom {row : List Node}
    (each : ∀ n ∈ row, n.places.map Prod.snd = n.preorder) (index : Nat) :
    (placesFrom index row).map Prod.snd = preorderAll row := by
  induction row generalizing index with
  | nil => rfl
  | cons n rest ih =>
      obtain ⟨own, later⟩ := List.forall_mem_cons.mp each
      rw [placesFrom, List.map_append, List.map_map, preorderAll, ← own, ← ih later (index + 1)]
      rfl

theorem map_snd_places (n : Node) : n.places.map Prod.snd = n.preorder := by
  induction n with
  | node mark content children ih =>
      rw [places_eq, preorder_eq, List.map_cons, map_snd_placesFrom ih]

theorem mem_placesFrom {row : List Node} {index : Nat} {place : Path × Node}
    (member : place ∈ placesFrom index row) :
    ∃ offset child below, row[offset]? = some child ∧ below ∈ child.places ∧
      place = ((index + offset) :: below.1, below.2) := by
  induction row generalizing index with
  | nil => cases member
  | cons n rest ih =>
      rw [placesFrom, List.mem_append, List.mem_map] at member
      rcases member with ⟨below, here, rfl⟩ | later
      · exact ⟨0, n, below, rfl, here, rfl⟩
      · obtain ⟨offset, child, below, held, there, rfl⟩ := ih later
        refine ⟨offset + 1, child, below, held, there, ?_⟩
        rw [Nat.add_right_comm, Nat.add_assoc]

/-- Following a listed path from the root leads to the node beside it. -/
theorem at?_of_mem_places {n : Node} {place : Path × Node} (member : place ∈ n.places) :
    n.at? place.1 = some place.2 := by
  induction n generalizing place with
  | node mark content children ih =>
      rw [places_eq, List.mem_cons] at member
      rcases member with rfl | below
      · rw [at?_nil]
      · obtain ⟨index, child, lower, held, there, rfl⟩ := mem_placesFrom below
        rw [Nat.zero_add, at?_cons, held, Option.bind_some]
        exact ih child (List.mem_of_getElem? held) there

end MarkupTree.Node
