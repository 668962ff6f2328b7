import MarkupTree.Proofs.Structure

/-!
# The comparison loop decides the structure of trees

The pairs on the stack owe one verdict together: all of them are alike. A comparison passes this
verdict on to the pairs that remain, or settles it. The shortcut for one node passes it on as well,
as long as it only skips trees that are alike, and marks that name trees see to that.
-/
namespace MarkupTree

namespace Comparison

/-- The loop ends with an answer once a number of pairs has been taken from the stack. -/
inductive Settles (same : Node → Node → Bool) : Comparison → Nat → Bool → Prop where
  | exhausted : Settles same [] 0 true
  | settled {pair : Node × Node} {rest : Comparison} {equal : Bool}
      (last : step same (pair :: rest) = .settled equal) : Settles same (pair :: rest) 1 equal
  | remaining {pairs next : Comparison} {taken : Nat} {equal : Bool}
      (first : step same pairs = .remaining next) (others : Settles same next taken equal) :
      Settles same pairs (taken + 1) equal

def verdict (pairs : Comparison) : Bool := pairs.all fun pair => pair.1.alike pair.2

/-- Wherever the shortcut may fire below the pairs, it skips trees that are alike. -/
def Sound (same : Node → Node → Bool) (pairs : Comparison) : Prop :=
  ∀ pair ∈ pairs, ∀ x ∈ pair.1.preorder, ∀ y ∈ pair.2.preorder, same x y = true → x.alike y = true

variable {same : Node → Node → Bool}

theorem step_settled {pairs : Comparison} {equal : Bool} (h : step same pairs = .settled equal) :
    (pairs = [] ∧ equal = true) ∨
      ∃ left right rest, pairs = (left, right) :: rest ∧ equal = false ∧
        (left.content.alike right.content = false ∨
          left.children.length ≠ right.children.length) := by
  cases pairs with
  | nil =>
      cases h
      exact .inl ⟨rfl, rfl⟩
  | cons pair rest =>
      obtain ⟨left, right⟩ := pair
      simp only [step] at h
      split at h
      · cases h
      · split at h
        · rename_i contents
          cases h
          exact .inr ⟨left, right, rest, rfl, rfl, .inl (by simpa using contents)⟩
        · split at h
          · rename_i lengths
            cases h
            exact .inr ⟨left, right, rest, rfl, rfl, .inr lengths⟩
          · cases h

theorem step_remaining {pairs next : Comparison} (h : step same pairs = .remaining next) :
    ∃ left right rest, pairs = (left, right) :: rest ∧
      ((same left right = true ∧ next = rest) ∨
        (left.content.alike right.content = true ∧
          left.children.length = right.children.length ∧
          next = (left.children.zip right.children).reverse ++ rest)) := by
  cases pairs with
  | nil => cases h
  | cons pair rest =>
      obtain ⟨left, right⟩ := pair
      refine ⟨left, right, rest, rfl, ?_⟩
      simp only [step] at h
      split at h
      · rename_i one
        cases h
        exact .inl ⟨one, rfl⟩
      · split at h
        · cases h
        · split at h
          · cases h
          · rename_i contents lengths
            cases h
            exact .inr ⟨by simpa using contents, by simpa using lengths, rfl⟩

theorem verdict_cons (pair : Node × Node) (rest : Comparison) :
    verdict (pair :: rest) = (pair.1.alike pair.2 && verdict rest) := rfl

theorem verdict_children {left right : List Node} (lengths : left.length = right.length)
    (rest : Comparison) :
    verdict ((left.zip right).reverse ++ rest) = (Node.alikeAll left right && verdict rest) := by
  have row : (left.zip right).all (fun pair => pair.1.alike pair.2) = Node.alikeAll left right := by
    induction left generalizing right with
    | nil => cases right <;> simp_all [Node.alikeAll]
    | cons a left ih =>
        cases right with
        | nil => cases lengths
        | cons b right => simp [Node.alikeAll, ih (Nat.succ.inj lengths)]
  rw [verdict, List.all_append, List.all_reverse, row, verdict]

theorem Sound.tail {pair : Node × Node} {rest : Comparison} (h : Sound same (pair :: rest)) :
    Sound same rest := by
  intro other member
  exact h other (List.mem_cons_of_mem pair member)

theorem Sound.children {left right : Node} {rest : Comparison}
    (h : Sound same ((left, right) :: rest)) :
    Sound same ((left.children.zip right.children).reverse ++ rest) := by
  intro pair member
  rcases List.mem_append.mp member with pushed | old
  · obtain ⟨hx, hy⟩ := List.of_mem_zip (List.mem_reverse.mp pushed)
    intro x below y below'
    exact h (left, right) List.mem_cons_self x (Node.mem_preorder_of_child hx below)
      y (Node.mem_preorder_of_child hy below')
  · exact h.tail pair old

theorem verdict_of_settled {pairs : Comparison} {equal : Bool}
    (h : step same pairs = .settled equal) : verdict pairs = equal := by
  obtain ⟨rfl, rfl⟩ | ⟨left, right, rest, rfl, rfl, differ⟩ := step_settled h
  · rfl
  · have unlike : left.alike right = false := by
      apply Node.alike_eq_false_iff.mpr
      refine ⟨[], ?_⟩
      apply Node.differAt_nil.mpr
      rwa [← Content.alike_iff, Bool.not_eq_true]
    rw [verdict_cons, unlike, Bool.false_and]

theorem Sound.of_remaining {pairs next : Comparison} (sound : Sound same pairs)
    (h : step same pairs = .remaining next) : Sound same next := by
  obtain ⟨left, right, rest, rfl, ⟨_, rfl⟩ | ⟨_, _, rfl⟩⟩ := step_remaining h
  · exact sound.tail
  · exact sound.children

theorem verdict_of_remaining {pairs next : Comparison} (sound : Sound same pairs)
    (h : step same pairs = .remaining next) : verdict next = verdict pairs := by
  obtain ⟨left, right, rest, rfl, ⟨one, rfl⟩ | ⟨contents, lengths, rfl⟩⟩ := step_remaining h
  · have skipped : left.alike right = true :=
      sound (left, right) List.mem_cons_self left left.self_mem_preorder
        right right.self_mem_preorder one
    rw [verdict_cons, skipped, Bool.true_and]
  · rw [verdict_children lengths, verdict_cons, Node.alike_eq, contents, Bool.true_and]

theorem run_eq_verdict {pairs : Comparison} (sound : Sound same pairs) :
    run same pairs = verdict pairs := by
  induction pairs using run.induct same with
  | case1 pairs equal last => rw [run_of_settled last, verdict_of_settled last]
  | case2 pairs next first ih =>
      rw [run_of_remaining first, ih (sound.of_remaining first), verdict_of_remaining sound first]

theorem run_settles (same : Node → Node → Bool) (pairs : Comparison) :
    ∃ taken, Settles same pairs taken (run same pairs) := by
  induction pairs using run.induct same with
  | case1 pairs equal last =>
      rw [run_of_settled last]
      cases pairs with
      | nil =>
          cases last
          exact ⟨0, .exhausted⟩
      | cons pair rest => exact ⟨1, .settled last⟩
  | case2 pairs next first ih =>
      obtain ⟨taken, others⟩ := ih
      rw [run_of_remaining first]
      exact ⟨taken + 1, .remaining first others⟩

end Comparison

namespace Node

theorem MarksNameTrees.sound {a b : Node} (h : MarksNameTrees [a, b]) :
    Comparison.Sound same [(a, b)] := by
  intro pair member x hx y hy one
  have both : pair = (a, b) := List.mem_singleton.mp member
  subst both
  have trees : x.unmarked = y.unmarked :=
    h x (by simp [preorderAll, hx]) y (by simp [preorderAll, hy]) (beq_iff_eq.mp one)
  rw [← alike_unmarked, trees, alike_refl]

theorem equal_eq_alike {a b : Node} (h : MarksNameTrees [a, b]) : a.equal b = a.alike b := by
  rw [equal, Comparison.run_eq_verdict h.sound, Comparison.verdict, List.all_cons, List.all_nil,
    Bool.and_true]

theorem run_without_shortcut (a b : Node) :
    Comparison.run (fun _ _ => false) [(a, b)] = a.alike b := by
  have sound : Comparison.Sound (fun _ _ => false) [(a, b)] := by
    intro pair _ x _ y _ one
    exact absurd one Bool.false_ne_true
  rw [Comparison.run_eq_verdict sound, Comparison.verdict, List.all_cons, List.all_nil,
    Bool.and_true]

/-- Comparing two trees ends, however their nodes are shared, with the answer whether they have one
structure. The answer is no exactly if some place of both trees shows a difference. Skipping pairs
of one node never changes the answer. -/
theorem equal_decides_structure {a b : Node} (marks : MarksNameTrees [a, b]) :
    (∃ taken, Comparison.Settles same [(a, b)] taken (a.equal b)) ∧
      (a.equal b = true ↔ SameStructure a b) ∧
      (a.equal b = false ↔ ∃ path, DifferAt a b path) ∧
      a.equal b = Comparison.run (fun _ _ => false) [(a, b)] ∧
      a.equal b = a.unmarked.alike b.unmarked := by
  refine ⟨Comparison.run_settles same _, ?_, ?_, ?_, ?_⟩
  · rw [equal_eq_alike marks, alike_iff_sameStructure]
  · rw [equal_eq_alike marks, alike_eq_false_iff]
  · rw [equal_eq_alike marks, run_without_shortcut]
  · rw [equal_eq_alike marks, alike_unmarked]

/-- A list that holds one item twice. -/
def sharingList : Node :=
  ⟨1, .element { name := "ul", attributes := .ofPairs [("id", "l"), ("class", "m")] },
    [⟨0, .text "x", []⟩, ⟨0, .text "x", []⟩]⟩

/-- A list that holds the same item and a copy of it. -/
def copyingList : Node :=
  ⟨2, .element { name := "ul", attributes := .ofPairs [("class", "m"), ("id", "l")] },
    [⟨0, .text "x", []⟩, ⟨3, .text "x", []⟩]⟩

theorem equal_of_shared_items :
    MarksNameTrees [sharingList, copyingList] ∧ SameStructure sharingList copyingList ∧
      Comparison.run (fun _ _ => false) [(sharingList, copyingList)] = true := by
  have marks : MarksNameTrees [sharingList, copyingList] := by
    simp [MarksNameTrees, sharingList, copyingList, preorderAll, preorder]
  have equal : sharingList.equal copyingList = true := by decide +kernel
  have decided := equal_decides_structure marks
  exact ⟨marks, decided.2.1.mp equal, decided.2.2.2.1 ▸ equal⟩

end Node

end MarkupTree
