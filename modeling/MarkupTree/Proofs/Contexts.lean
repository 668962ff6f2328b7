import MarkupTree.Proofs.Building
import MarkupTree.Proofs.Comparison
import MarkupTree.Proofs.Replacement

/-!
# Equality at one place

Two trees that are the same but for what hangs at one place are equal exactly if that is equal. So a
difference at a single place is found however deep it is, and a tree may be exchanged for an equal one
anywhere without a change to any answer.
-/
namespace MarkupTree.Node

theorem alikeAll_refl (row : List Node) : alikeAll row row = true := by
  induction row with
  | nil => rfl
  | cons n rest ih => rw [alikeAll, alike_refl, ih, Bool.and_true]

theorem alikeAll_around (before after : List Node) (x y : Node) :
    alikeAll (before ++ x :: after) (before ++ y :: after) = x.alike y := by
  induction before with
  | nil => rw [List.nil_append, List.nil_append, alikeAll, alikeAll_refl, Bool.and_true]
  | cons n before ih =>
      rw [List.cons_append, List.cons_append, alikeAll, alike_refl, ih, Bool.true_and]

/-- All pairs of nodes away from the place are alike, so the place decides. -/
theorem alike_of_replaced {t x y a b : Node} {path : Path} (left : Replaced x t path a)
    (right : Replaced y t path b) : a.alike b = x.alike y := by
  induction left generalizing b with
  | here n =>
      cases right
      rfl
  | child mark held inner ih =>
      cases right with
      | child mark' held' inner' =>
          cases held.symm.trans held'
          obtain ⟨before, after, _, _, set⟩ := exists_split_of_getElem? held
          rw [alike_eq, set, set, alikeAll_around, ih inner', Content.alike_of_same (.refl _),
            Bool.true_and]

theorem Replaced.mem_preorder {x n m : Node} {path : Path} (h : Replaced x n path m) :
    x ∈ m.preorder := by
  induction h with
  | here n => exact x.self_mem_preorder
  | child mark held inner ih =>
      obtain ⟨inside, _⟩ := List.getElem?_eq_some_iff.mp held
      exact mem_preorder_of_child (List.mem_set inside _) ih

theorem alike_congr {a b : Node} (h : a.alike b = true) (z : Node) :
    a.alike z = b.alike z ∧ z.alike a = z.alike b := by
  rw [alike_iff_sameStructure] at h
  constructor
  · rw [Bool.eq_iff_iff, alike_iff_sameStructure, alike_iff_sameStructure]
    exact ⟨h.symm.trans, h.trans⟩
  · rw [Bool.eq_iff_iff, alike_iff_sameStructure, alike_iff_sameStructure]
    exact ⟨fun same => same.trans h, fun same => same.trans h.symm⟩

theorem equal_of_replaced {t x y a b : Node} {path : Path} (left : Replaced x t path a)
    (right : Replaced y t path b) (marks : MarksNameTrees [a, b]) : a.equal b = x.equal y := by
  have parts : MarksNameTrees [x, y] := marks.of_mem left.mem_preorder right.mem_preorder
  rw [equal_eq_alike marks, equal_eq_alike parts, alike_of_replaced left right]

/-- A tree with one node at a place is equal to the tree with another node there exactly if the two
nodes are equal. If they are, the two trees compare alike with every third one, on either side. A tree
itself is one of these, with its own node at the place, and two of them are built in turn from a pool
without any mark that stands for two trees. -/
theorem equal_at_place {t x y : Node} {path : Path} (place : (t.at? path).isSome) :
    (∀ a b, Replaced x t path a → Replaced y t path b → MarksNameTrees [a, b] →
      (a.equal b = true ↔ x.equal y = true)) ∧
    (∀ a b z, Replaced x t path a → Replaced y t path b → MarksNameTrees [a, b, z] →
      x.equal y = true → a.equal z = b.equal z ∧ z.equal a = z.equal b) ∧
    (∀ s, t.at? path = some s → Replaced s t path t) ∧
    ∀ unused row, Build.Pool unused row → t ∈ row → x ∈ row → y ∈ row →
      let first : Node × Nat := Build.replaceAt t path x unused
      let second : Node × Nat := Build.replaceAt t path y first.2
      Replaced x t path first.1 ∧ Replaced y t path second.1 ∧
        MarksNameTrees (second.1 :: first.1 :: row) ∧
        (first.1.equal second.1 = true ↔ x.equal y = true) := by
  refine ⟨?_, ?_, fun _ => .self, ?_⟩
  · intro a b left right marks
    rw [equal_of_replaced left right marks]
  · intro a b z left right marks equal
    have both : MarksNameTrees [a, b] := marks.of_subset (by simp)
    rw [← equal_of_replaced left right both, equal_eq_alike both] at equal
    rw [equal_eq_alike (marks.of_subset (by simp)), equal_eq_alike (marks.of_subset (by simp)),
      equal_eq_alike (marks.of_subset (by simp)), equal_eq_alike (marks.of_subset (by simp))]
    exact alike_congr equal z
  · intro unused row pool tree left right first second
    have held : ∀ n ∈ row, n ∈ preorderAll row := fun _ => mem_preorderAll_of_mem
    have one := pool.replaceAt (held t tree) (held x left) path
    have two := one.replaceAt (mem_preorderAll_of_mem (List.mem_cons_of_mem _ tree))
      (mem_preorderAll_of_mem (List.mem_cons_of_mem _ right)) path
    have putLeft := replaced_replaceAt place x unused
    have putRight := replaced_replaceAt place y first.2
    have marks : MarksNameTrees (second.1 :: first.1 :: row) := two.marks
    refine ⟨putLeft, putRight, marks, ?_⟩
    have both : MarksNameTrees [first.1, second.1] := marks.of_subset (by simp)
    rw [equal_of_replaced putLeft putRight both]

/-- An element over a comment that holds a text and an element. -/
def noted : Node :=
  ⟨3, .element { name := "p" },
    [⟨0, .text "t", []⟩, ⟨2, .comment "c", [⟨0, .text "t", []⟩, ⟨1, .element, []⟩]⟩]⟩

/-- A link with two attributes over a text that stands in the tree above as well. -/
def forthLink : Node :=
  ⟨4, .element { name := "a", attributes := .ofPairs [("id", "x"), ("class", "u")] },
    [⟨0, .text "t", []⟩]⟩

/-- The same link with its attributes the other way round. -/
def backLink : Node :=
  ⟨5, .element { name := "a", attributes := .ofPairs [("class", "u"), ("id", "x")] },
    [⟨0, .text "t", []⟩]⟩

theorem links_equal_at_place :
    (noted.at? [1, 0]).isSome ∧ Build.Pool 6 [noted, forthLink, backLink] ∧
      (let first : Node × Nat := Build.replaceAt noted [1, 0] forthLink 6
        let second : Node × Nat := Build.replaceAt noted [1, 0] backLink first.2
        first.1.equal second.1 = true ∧ noted.equal second.1 = false) := by
  have place : (noted.at? [1, 0]).isSome := rfl
  have pool : Build.Pool 6 [noted, forthLink, backLink] := by
    constructor
    · simp [MarksNameTrees, noted, forthLink, backLink, preorderAll, preorder]
    · simp [noted, forthLink, backLink, preorderAll, preorder]
  have links : forthLink.equal backLink = true := by decide +kernel
  have apart : ¬ (⟨0, .text "t", []⟩ : Node).equal backLink = true := by decide +kernel
  obtain ⟨_, _, _, built⟩ := equal_at_place (x := forthLink) (y := backLink) place
  obtain ⟨_, put, marks, equal⟩ := built 6 _ pool (by simp) (by simp) (by simp)
  obtain ⟨differ, _, self, _⟩ :=
    equal_at_place (x := ⟨0, .text "t", []⟩) (y := backLink) place
  refine ⟨place, pool, equal.mpr links, ?_⟩
  rw [← Bool.not_eq_true, differ _ _ (self _ rfl) put (marks.of_subset (by simp))]
  exact apart

end MarkupTree.Node
