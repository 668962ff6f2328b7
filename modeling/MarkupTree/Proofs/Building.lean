import MarkupTree.Node.Build
import MarkupTree.Proofs.Structure

/-!
# Built trees have marks that name them

A pool is a row of trees that have been built, with the next unused mark. Every construction that holds
nodes of a pool and draws its marks from the pool's counter leaves a pool, so wherever two nodes of
built trees have one mark, the same tree hangs there.
-/
namespace MarkupTree

namespace Node

theorem mem_preorderAll_iff {row : List Node} {n : Node} :
    n ∈ preorderAll row ↔ ∃ root ∈ row, n ∈ root.preorder := by
  rw [preorderAll_eq_flatMap, List.mem_flatMap]

theorem mem_preorderAll_of_mem {row : List Node} {n : Node} (held : n ∈ row) :
    n ∈ preorderAll row :=
  mem_preorderAll_iff.mpr ⟨n, held, n.self_mem_preorder⟩

/-- What is below a node of a row is in the row. -/
theorem mem_preorderAll_trans {row : List Node} {n x : Node} (outer : n ∈ preorderAll row)
    (inner : x ∈ n.preorder) : x ∈ preorderAll row := by
  obtain ⟨root, held, below⟩ := mem_preorderAll_iff.mp outer
  exact mem_preorderAll_iff.mpr ⟨root, held, mem_preorder_trans below inner⟩

end Node

namespace Build

/-- Trees whose marks name trees and have all been drawn before the next unused mark. -/
structure Pool (unused : Nat) (row : List Node) : Prop where
  marks : Node.MarksNameTrees row
  drawn : ∀ n ∈ Node.preorderAll row, n.mark < unused

variable {unused : Nat} {row : List Node}

/-- Any nodes of a pool are a pool. -/
theorem Pool.of_held (pool : Pool unused row) {other : List Node}
    (held : ∀ n ∈ other, n ∈ Node.preorderAll row) : Pool unused other := by
  have inside : ∀ n ∈ Node.preorderAll other, n ∈ Node.preorderAll row := by
    intro n member
    obtain ⟨root, own, below⟩ := Node.mem_preorderAll_iff.mp member
    exact Node.mem_preorderAll_trans (held root own) below
  constructor
  · intro a ha b hb
    exact pool.marks a (inside a ha) b (inside b hb)
  · intro n member
    exact pool.drawn n (inside n member)

theorem Pool.of_subset (pool : Pool unused row) {other : List Node} (sub : other ⊆ row) :
    Pool unused other :=
  pool.of_held fun _ member => Node.mem_preorderAll_of_mem (sub member)

/-- A node below a root of a pool may stand in the row as well. -/
theorem Pool.cons (pool : Pool unused row) {n : Node} (held : n ∈ Node.preorderAll row) :
    Pool unused (n :: row) :=
  pool.of_held (List.forall_mem_cons.mpr ⟨held, fun _ => Node.mem_preorderAll_of_mem⟩)

/-- A new node over nodes of a pool makes the pool larger. -/
theorem Pool.node (pool : Pool unused row) (content : Content) {children : List Node}
    (held : ∀ child ∈ children, child ∈ Node.preorderAll row) :
    Pool (unused + 1) (⟨unused, content, children⟩ :: row) := by
  have sorts : ∀ n ∈ Node.preorderAll (⟨unused, content, children⟩ :: row),
      n = ⟨unused, content, children⟩ ∨ n ∈ Node.preorderAll row := by
    intro n member
    rw [Node.preorderAll, Node.preorder, List.cons_append, List.mem_cons, List.mem_append] at member
    rcases member with new | below | old
    · exact .inl new
    · obtain ⟨child, own, lower⟩ := Node.mem_preorderAll_iff.mp below
      exact .inr (Node.mem_preorderAll_trans (held child own) lower)
    · exact .inr old
  constructor
  · intro a ha b hb mark
    rcases sorts a ha with rfl | olda
    · rcases sorts b hb with rfl | oldb
      · rfl
      · exact absurd mark.symm (Nat.ne_of_lt (pool.drawn b oldb))
    · rcases sorts b hb with rfl | oldb
      · exact absurd mark (Nat.ne_of_lt (pool.drawn a olda))
      · exact pool.marks a olda b oldb mark
  · intro n member
    rcases sorts n member with rfl | old
    · exact Nat.lt_succ_self unused
    · exact Nat.lt_succ_of_lt (pool.drawn n old)

theorem replaceAt_cons {n child : Node} {index : Nat} (held : n.children[index]? = some child)
    (path : Path) (x : Node) (unused : Nat) :
    Build.replaceAt n (index :: path) x unused =
      (⟨(Build.replaceAt child path x unused).2, n.content,
          n.children.set index (Build.replaceAt child path x unused).1⟩,
        (Build.replaceAt child path x unused).2 + 1) := by
  rw [replaceAt, held]
  rfl

theorem Pool.replaceAt {n x : Node} (pool : Pool unused row) (tree : n ∈ Node.preorderAll row)
    (other : x ∈ Node.preorderAll row) (path : Path) :
    Pool (Build.replaceAt n path x unused).2 ((Build.replaceAt n path x unused).1 :: row) := by
  induction path generalizing n with
  | nil => exact pool.cons other
  | cons index path ih =>
      cases held : n.children[index]? with
      | none =>
          rw [Build.replaceAt, held]
          exact pool.cons tree
      | some child =>
          have inside : ∀ c ∈ n.children, c ∈ Node.preorderAll row := by
            intro c member
            exact Node.mem_preorderAll_trans tree
              (Node.mem_preorder_of_child member c.self_mem_preorder)
          have inner := ih (inside child (List.mem_of_getElem? held))
          rw [replaceAt_cons held]
          generalize Build.replaceAt child path x unused = built at inner ⊢
          have grown : ∀ c ∈ n.children.set index built.1,
              c ∈ Node.preorderAll (built.1 :: row) := by
            intro c member
            rw [Node.preorderAll, List.mem_append]
            rcases List.mem_or_eq_of_mem_set member with old | rfl
            · exact .inr (inside c old)
            · exact .inl built.1.self_mem_preorder
          -- the rebuilt child is below the new root, so it need not stand in the row
          exact (inner.node n.content grown).of_subset
            (List.cons_subset_cons _ (List.subset_cons_self _ _))

theorem tower_succ (tag : Nat → Tag) (width : Nat) (inner : Node) (level unused : Nat) :
    tower tag width inner (level + 1) unused =
      (⟨(tower tag width inner level unused).2, .element (tag (level + 1)),
          List.replicate width (tower tag width inner level unused).1⟩,
        (tower tag width inner level unused).2 + 1) := by
  rw [tower]
  rfl

theorem Pool.tower (pool : Pool unused row) {inner : Node} (held : inner ∈ Node.preorderAll row)
    (tag : Nat → Tag) (width depth : Nat) :
    Pool (Build.tower tag width inner depth unused).2
      ((Build.tower tag width inner depth unused).1 :: row) := by
  induction depth with
  | zero => exact pool.cons held
  | succ level ih =>
      rw [tower_succ]
      generalize Build.tower tag width inner level unused = built at ih ⊢
      have grown : ∀ c ∈ List.replicate width built.1, c ∈ Node.preorderAll (built.1 :: row) := by
        intro c member
        rw [List.eq_of_mem_replicate member]
        exact Node.mem_preorderAll_of_mem List.mem_cons_self
      exact (ih.node (.element (tag (level + 1))) grown).of_subset
        (List.cons_subset_cons _ (List.subset_cons_self _ _))

end Build

end MarkupTree
