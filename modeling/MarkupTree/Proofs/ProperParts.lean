import MarkupTree.Proofs.Building
import MarkupTree.Proofs.Preorder

/-!
# No tree is equal to a part of itself

Equal trees have as many nodes, and a tree has more nodes than anything below it. So a tree differs
from all its proper parts, and towers of one element over one node are equal only if they are of one
height.
-/
namespace MarkupTree

namespace Node

theorem length_preorderAll {row : List Node} (each : ∀ n ∈ row, n.preorder.length = n.size) :
    (preorderAll row).length = sizeAll row := by
  induction row with
  | nil => rfl
  | cons n rest ih =>
      obtain ⟨own, later⟩ := List.forall_mem_cons.mp each
      rw [preorderAll, sizeAll, List.length_append, own, ih later]

theorem length_preorder (n : Node) : n.preorder.length = n.size := by
  induction n with
  | node mark content children ih =>
      rw [preorder_eq, size_eq, List.length_cons, length_preorderAll ih, Nat.add_comm]

theorem size_eq_of_alike {a b : Node} (h : a.alike b = true) : a.size = b.size := by
  rw [← length_preorder, ← length_preorder, (forall₂_preorder_of_alike h).length_eq]

/-- Each step down leaves at least one node behind. -/
theorem size_add_length_le {n x : Node} {path : Path} (place : n.at? path = some x) :
    x.size + path.length ≤ n.size := by
  induction path generalizing n with
  | nil =>
      cases place
      exact Nat.le_refl _
  | cons index path ih =>
      rw [at?_cons, Option.bind_eq_some_iff] at place
      obtain ⟨child, held, lower⟩ := place
      have part := size_le_sizeAll (List.mem_of_getElem? held)
      have deeper := ih lower
      rw [n.size_eq, List.length_cons]
      omega

end Node

namespace Build

theorem wrap_succ (tag : Tag) (depth : Nat) (x : Node) (unused : Nat) :
    wrap tag (depth + 1) x unused =
      (⟨(wrap tag depth x unused).2, .element tag, [(wrap tag depth x unused).1]⟩,
        (wrap tag depth x unused).2 + 1) :=
  tower_succ _ 1 x depth unused

theorem size_wrap (tag : Tag) (depth : Nat) (x : Node) (unused : Nat) :
    (wrap tag depth x unused).1.size = depth + x.size := by
  induction depth with
  | zero => exact (Nat.zero_add _).symm
  | succ depth ih =>
      rw [wrap_succ, Node.size_eq, Node.sizeAll, Node.sizeAll, ih]
      omega

theorem alike_wrap (tag : Tag) (depth : Nat) (x : Node) (unused unused' : Nat) :
    (wrap tag depth x unused).1.alike (wrap tag depth x unused').1 = true := by
  induction depth with
  | zero => exact x.alike_refl
  | succ depth ih =>
      rw [wrap_succ, wrap_succ, Node.alike_eq, Content.alike_of_same (.refl _), Node.alikeAll, ih]
      rfl

end Build

namespace Node

theorem equal_wrap_iff {x : Node} {tag : Tag} {depth depth' unused unused' : Nat}
    (marks : MarksNameTrees
      [(Build.wrap tag depth x unused).1, (Build.wrap tag depth' x unused').1]) :
    (Build.wrap tag depth x unused).1.equal (Build.wrap tag depth' x unused').1 = true ↔
      depth = depth' := by
  rw [equal_eq_alike marks]
  constructor
  · intro alike
    have sizes := size_eq_of_alike alike
    rw [Build.size_wrap, Build.size_wrap] at sizes
    exact Nat.add_right_cancel sizes
  · rintro rfl
    exact Build.alike_wrap tag depth x unused unused'

/-- A tree is equal to nothing below its root. Towers of one element over one node are equal exactly
if they are of one height, whether they share nodes or not, and also if they are built in turn. -/
theorem unequal_to_proper_parts (n : Node) :
    (MarksNameTrees [n] → ∀ path x, path ≠ [] → n.at? path = some x →
      n.equal x = false ∧ x.equal n = false) ∧
    (∀ tag depth depth' unused unused',
      let left : Node × Nat := Build.wrap tag depth n unused
      let right : Node × Nat := Build.wrap tag depth' n unused'
      MarksNameTrees [left.1, right.1] → (left.1.equal right.1 = true ↔ depth = depth')) ∧
    ∀ unused, Build.Pool unused [n] → ∀ tag depth depth',
      let left : Node × Nat := Build.wrap tag depth n unused
      let right : Node × Nat := Build.wrap tag depth' n left.2
      MarksNameTrees [left.1, right.1] ∧ (left.1.equal right.1 = true ↔ depth = depth') := by
  refine ⟨?_, fun _ _ _ _ _ => equal_wrap_iff, ?_⟩
  · intro marks path x proper place
    have smaller : x.size < n.size := by
      have levels := size_add_length_le place
      have deep := List.length_pos_iff.mpr proper
      omega
    have whole : MarksNameTrees [n, n] := marks.of_subset (by simp)
    have below := mem_preorder_of_at? place
    have root := n.self_mem_preorder
    constructor
    · rw [equal_eq_alike (whole.of_mem root below), Bool.eq_false_iff]
      intro alike
      exact absurd (size_eq_of_alike alike) (Nat.ne_of_gt smaller)
    · rw [equal_eq_alike (whole.of_mem below root), Bool.eq_false_iff]
      intro alike
      exact absurd (size_eq_of_alike alike) (Nat.ne_of_lt smaller)
  · intro unused pool tag depth depth' left right
    have one := pool.tower (mem_preorderAll_of_mem List.mem_cons_self) (fun _ => tag) 1 depth
    have held : n ∈ [left.1, n] := by simp
    have two := one.tower (mem_preorderAll_of_mem held) (fun _ => tag) 1 depth'
    have marks : MarksNameTrees [right.1, left.1, n] := two.marks
    have both : MarksNameTrees [left.1, right.1] := marks.of_subset (by simp)
    exact ⟨both, equal_wrap_iff both⟩

/-- An element over a text that stands in it twice. -/
def doubled : Node := ⟨1, .element { name := "d" }, [⟨0, .text "t", []⟩, ⟨0, .text "t", []⟩]⟩

theorem doubled_unequal_below_towers :
    MarksNameTrees [doubled] ∧ Build.Pool 2 [doubled] ∧
      doubled.equal ⟨0, .text "t", []⟩ = false ∧
      (let left : Node × Nat := Build.wrap { name := "d" } 3 doubled 2
        let right : Node × Nat := Build.wrap { name := "d" } 4 doubled left.2
        left.1.equal right.1 = false) := by
  have pool : Build.Pool 2 [doubled] := by
    constructor
    · simp [MarksNameTrees, doubled, preorderAll, preorder]
    · simp [doubled, preorderAll, preorder]
  obtain ⟨parts, _, built⟩ := unequal_to_proper_parts doubled
  refine ⟨pool.marks, pool, (parts pool.marks [1] _ (by simp) rfl).1, ?_⟩
  rw [← Bool.not_eq_true]
  exact mt (built 2 pool { name := "d" } 3 4).2.mp (by decide)

end Node

end MarkupTree
