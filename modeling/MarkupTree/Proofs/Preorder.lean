import MarkupTree.Proofs.Comparison
import MarkupTree.Proofs.Walking

/-!
# The preorder determines the tree

Two nodes match when their contents are alike and they have as many children. The nodes of a tree in
document order, each read as its content and its number of children, are a code word for the tree.
No code word is a proper beginning of another: two walks that match up to the end of the shorter one
belong to trees that are alike.
-/
namespace MarkupTree.Node

/-- What the children are does not count, only how many there are. -/
structure Matches (x y : Node) : Prop where
  contents : x.content.alike y.content = true
  arities : x.children.length = y.children.length

/-- Two rows of nodes match place by place, up to the end of the shorter one. -/
def Agree (left right : List Node) : Prop :=
  ∀ (k : Nat) (x y : Node), left[k]? = some x → right[k]? = some y → Matches x y

/-- Where a row that starts with the preorder of the tree agrees with a row that starts with the
preorder of any other, the trees are alike and what follows them agrees as well. -/
def Separates (a : Node) : Prop :=
  ∀ (b : Node) (left right : List Node),
    Agree (a.preorder ++ left) (b.preorder ++ right) → a.alike b = true ∧ Agree left right

theorem agree_cons {x y : Node} {left right : List Node} :
    Agree (x :: left) (y :: right) ↔ Matches x y ∧ Agree left right := by
  constructor
  · intro h
    exact ⟨h 0 x y rfl rfl, fun k => h (k + 1)⟩
  · intro h k
    cases k with
    | zero =>
        intro _ _ hx hy
        cases hx
        cases hy
        exact h.1
    | succ k => exact h.2 k

theorem alikeAll_of_agree {row others : List Node} (separates : ∀ a ∈ row, Separates a)
    (lengths : row.length = others.length) {left right : List Node}
    (agree : Agree (preorderAll row ++ left) (preorderAll others ++ right)) :
    alikeAll row others = true ∧ Agree left right := by
  induction row generalizing others with
  | nil =>
      cases others with
      | nil => exact ⟨rfl, agree⟩
      | cons b others => cases lengths
  | cons a row ih =>
      cases others with
      | nil => cases lengths
      | cons b others =>
          obtain ⟨own, later⟩ := List.forall_mem_cons.mp separates
          rw [preorderAll, preorderAll, List.append_assoc, List.append_assoc] at agree
          obtain ⟨first, agree⟩ := own b _ _ agree
          obtain ⟨rest, agree⟩ := ih later (Nat.succ.inj lengths) agree
          exact ⟨by rw [alikeAll, first, rest, Bool.and_true], agree⟩

theorem separates (a : Node) : Separates a := by
  induction a with
  | node mark content children ih =>
      intro b left right agree
      rw [preorder_eq, preorder_eq, List.cons_append, List.cons_append, agree_cons] at agree
      obtain ⟨root, agree⟩ := agree
      obtain ⟨below, agree⟩ := alikeAll_of_agree ih root.arities agree
      refine ⟨?_, agree⟩
      rw [alike_eq, root.contents, below, Bool.and_true]

theorem alikeAll_iff_forall₂ {left right : List Node} :
    alikeAll left right = true ↔ List.Forall₂ (·.alike · = true) left right := by
  induction left generalizing right with
  | nil => cases right <;> simp [alikeAll]
  | cons a left ih => cases right <;> simp [alikeAll, ih]

theorem alike_iff_root_children {a b : Node} :
    a.alike b = true ↔ a.content.alike b.content = true ∧
      List.Forall₂ (·.alike · = true) a.children b.children := by
  rw [alike_eq, Bool.and_eq_true, alikeAll_iff_forall₂]

theorem matches_of_alike {a b : Node} (h : a.alike b = true) : Matches a b := by
  obtain ⟨contents, children⟩ := alike_iff_root_children.mp h
  exact ⟨contents, children.length_eq⟩

theorem forall₂_preorderAll {row others : List Node}
    (each : ∀ a ∈ row, ∀ b : Node, a.alike b = true →
      List.Forall₂ (·.alike · = true) a.preorder b.preorder)
    (rows : List.Forall₂ (·.alike · = true) row others) :
    List.Forall₂ (·.alike · = true) (preorderAll row) (preorderAll others) := by
  induction rows with
  | nil => exact .nil
  | @cons a b row others first _ ih =>
      obtain ⟨own, later⟩ := List.forall_mem_cons.mp each
      rw [preorderAll, preorderAll]
      exact List.rel_append (own b first) (ih later)

theorem same_content_of_alike {a b : Node} (h : a.alike b = true) : a.content.Same b.content :=
  Content.alike_iff.mp (alike_iff_root_children.mp h).1

/-- Trees that are alike are alike node by node in document order. -/
theorem forall₂_preorder_of_alike {a b : Node} (h : a.alike b = true) :
    List.Forall₂ (·.alike · = true) a.preorder b.preorder := by
  induction a generalizing b with
  | node mark content children ih =>
      rw [preorder_eq, preorder_eq]
      refine .cons h ?_
      apply forall₂_preorderAll
      · intro child member other
        exact ih child member
      · exact (alike_iff_root_children.mp h).2

theorem agree_of_forall₂ {left right : List Node} (h : List.Forall₂ Matches left right) :
    Agree left right := by
  induction h with
  | nil =>
      intro k x y hx
      cases hx
  | cons first _ ih => exact agree_cons.mpr ⟨first, ih⟩

theorem agree_preorder_of_alike {a b : Node} (h : a.alike b = true) :
    Agree a.preorder b.preorder := by
  apply agree_of_forall₂
  apply (forall₂_preorder_of_alike h).imp
  intro x y
  exact matches_of_alike

theorem alike_of_agree_preorder {a b : Node} (h : Agree a.preorder b.preorder) :
    a.alike b = true := by
  have padded : Agree (a.preorder ++ []) (b.preorder ++ []) := by simpa using h
  exact (separates a b [] [] padded).1

/-- Two trees are equal exactly if their walks are of one length and match node by node. If the
walks match as far as the shorter one goes, they are of one length. -/
theorem equal_iff_walks_agree {a b : Node} (marks : MarksNameTrees [a, b]) :
    (a.equal b = true ↔
      a.walk.toList.length = b.walk.toList.length ∧ Agree a.walk.toList b.walk.toList) ∧
      (Agree a.walk.toList b.walk.toList →
        a.walk.toList.length = b.walk.toList.length ∧ a.equal b = true) := by
  rw [equal_eq_alike marks, toList_walk, toList_walk]
  constructor
  · constructor
    · intro alike
      exact ⟨(forall₂_preorder_of_alike alike).length_eq, agree_preorder_of_alike alike⟩
    · intro h
      exact alike_of_agree_preorder h.2
  · intro agree
    have alike := alike_of_agree_preorder agree
    exact ⟨(forall₂_preorder_of_alike alike).length_eq, alike⟩

/-- A text over one paragraph that stands under it twice. -/
def repeatedPart : Node :=
  ⟨1, .text "t", [⟨0, .element { name := "p" }, [⟨2, .comment "", []⟩]⟩,
    ⟨0, .element { name := "p" }, [⟨2, .comment "", []⟩]⟩]⟩

/-- The same text over two paragraphs that were made apart. -/
def copiedPart : Node :=
  ⟨3, .text "t", [⟨0, .element { name := "p" }, [⟨2, .comment "", []⟩]⟩,
    ⟨4, .element { name := "p" }, [⟨5, .comment "", []⟩]⟩]⟩

theorem equal_of_agreeing_walks :
    MarksNameTrees [repeatedPart, copiedPart] ∧
      Agree repeatedPart.walk.toList copiedPart.walk.toList ∧
      repeatedPart.equal copiedPart = true := by
  have marks : MarksNameTrees [repeatedPart, copiedPart] := by
    simp [MarksNameTrees, repeatedPart, copiedPart, preorderAll, preorder, unmarked, unmarkedAll]
  have agree : Agree repeatedPart.walk.toList copiedPart.walk.toList := by
    rw [toList_walk, toList_walk]
    exact agree_preorder_of_alike (by decide +kernel)
  exact ⟨marks, agree, ((equal_iff_walks_agree marks).2 agree).2⟩

end MarkupTree.Node
