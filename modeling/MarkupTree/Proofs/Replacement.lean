import MarkupTree.Node.Build
import MarkupTree.Proofs.Record
import MarkupTree.Proofs.Walking

/-!
# A subtree is printed and walked in its place

Another node can be put at a place of a tree. What a print or a walk gives before and after the part
that belongs to this place depends on the tree and the place alone, and the part itself is what the
node at the place gives on its own, at the indent of the place. Only the nodes above the place differ,
as they now hold another tree; they show the same content and have as many children as before.
-/
namespace MarkupTree

namespace Node

/-- `Replaced x n path m` says that `m` is the tree `n` with `x` at a place. A node above the place
keeps its content and its other children. It may have any mark, as it may have been made anew. -/
inductive Replaced (x : Node) : Node → Path → Node → Prop where
  | here (n : Node) : Replaced x n [] x
  | child {n child replaced : Node} {index : Nat} {path : Path} (mark : Nat)
      (held : n.children[index]? = some child) (inner : Replaced x child path replaced) :
      Replaced x n (index :: path) ⟨mark, n.content, n.children.set index replaced⟩

theorem exists_split_of_getElem? {α : Type} {row : List α} {index : Nat} {item : α}
    (held : row[index]? = some item) :
    ∃ before after, before.length = index ∧ row = before ++ item :: after ∧
      ∀ other, row.set index other = before ++ other :: after := by
  obtain ⟨inside, rfl⟩ := List.getElem?_eq_some_iff.mp held
  refine ⟨row.take index, row.drop (index + 1), ?_, ?_, ?_⟩
  · rw [List.length_take]
    omega
  · rw [← List.drop_eq_getElem_cons inside, List.take_append_drop]
  · intro other
    rw [List.set_eq_take_append_cons_drop, if_pos inside]

theorem Replaced.self {n s : Node} {path : Path} (place : n.at? path = some s) :
    Replaced s n path n := by
  induction path generalizing n with
  | nil =>
      cases place
      exact .here s
  | cons index path ih =>
      rw [at?_cons, Option.bind_eq_some_iff] at place
      obtain ⟨child, held, lower⟩ := place
      obtain ⟨before, after, _, row, set⟩ := exists_split_of_getElem? held
      have whole := Replaced.child n.mark held (ih lower)
      rw [set, ← row] at whole
      cases n
      exact whole

theorem replaced_replaceAt {n : Node} {path : Path} (place : (n.at? path).isSome) (x : Node)
    (unused : Nat) : Replaced x n path (Build.replaceAt n path x unused).1 := by
  induction path generalizing n unused with
  | nil => exact .here n
  | cons index path ih =>
      rw [at?_cons, Option.isSome_bind, Option.any_eq_true] at place
      obtain ⟨child, held, lower⟩ := place
      rw [Build.replaceAt, held]
      exact .child _ held (ih lower unused)

end Node

end MarkupTree
