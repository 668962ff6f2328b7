import MarkupTree.Node.Equality
import MarkupTree.Node.Path
import MarkupTree.Proofs.Extensional

/-!
# The structure of a tree

Trees have one structure when they have the same places and the same content at each of them. The
recursive comparison decides this. It fails exactly when there is a place of both trees at which the
contents or the numbers of children differ, and it does not see marks.
-/
namespace MarkupTree.Node

/-- The two trees have the same places, and the same content at each of them. -/
structure SameStructure (a b : Node) : Prop where
  places : ∀ path, (a.at? path).isSome ↔ (b.at? path).isSome
  contents : ∀ path x y, a.at? path = some x → b.at? path = some y → x.content.Same y.content

/-- A place of both trees where the contents or the numbers of children differ. -/
def DifferAt (a b : Node) (path : Path) : Prop :=
  ∃ x y, a.at? path = some x ∧ b.at? path = some y ∧
    (¬ x.content.Same y.content ∨ x.children.length ≠ y.children.length)

theorem self_mem_preorder (n : Node) : n ∈ n.preorder := by
  rw [preorder_eq]
  exact List.mem_cons_self

theorem mem_preorder_of_child {n child x : Node} (member : child ∈ n.children)
    (below : x ∈ child.preorder) : x ∈ n.preorder := by
  rw [preorder_eq, preorderAll_eq_flatMap]
  exact List.mem_cons_of_mem n (List.mem_flatMap.mpr ⟨child, member, below⟩)

/-- What is below a node of a tree is below the root. -/
theorem mem_preorder_trans {n x y : Node} (outer : x ∈ n.preorder) (inner : y ∈ x.preorder) :
    y ∈ n.preorder := by
  induction n with
  | node mark content children ih =>
      rw [preorder_eq, preorderAll_eq_flatMap, List.mem_cons, List.mem_flatMap] at outer
      rcases outer with rfl | ⟨child, held, below⟩
      · exact inner
      · exact mem_preorder_of_child held (ih child held below)

theorem at?_append (n : Node) (path below : Path) :
    n.at? (path ++ below) = (n.at? path).bind fun x => x.at? below := by
  induction path generalizing n with
  | nil => simp
  | cons index path ih =>
      rw [List.cons_append, at?_cons, at?_cons, Option.bind_assoc]
      congr 1
      funext child
      exact ih child

theorem mem_preorder_of_at? {n x : Node} {path : Path} (place : n.at? path = some x) :
    x ∈ n.preorder := by
  induction path generalizing n with
  | nil =>
      cases place
      exact x.self_mem_preorder
  | cons index path ih =>
      rw [at?_cons, Option.bind_eq_some_iff] at place
      obtain ⟨child, held, lower⟩ := place
      exact mem_preorder_of_child (List.mem_of_getElem? held) (ih lower)

theorem size_le_sizeAll {child : Node} {row : List Node} (member : child ∈ row) :
    child.size ≤ sizeAll row := by
  obtain ⟨before, after, split⟩ := List.append_of_mem member
  rw [split, sizeAll_append, sizeAll]
  omega

theorem length_le_sizeAll (row : List Node) : row.length ≤ sizeAll row := by
  induction row with
  | nil => exact Nat.le_refl _
  | cons n rest ih =>
      have positive := n.size_pos
      rw [List.length_cons, sizeAll]
      omega

theorem length_lt_size_of_place {n : Node} {path : Path} (place : (n.at? path).isSome) :
    path.length < n.size := by
  induction path generalizing n with
  | nil => exact n.size_pos
  | cons index path ih =>
      rw [at?_cons] at place
      cases found : n.children[index]? with
      | none => simp [found] at place
      | some child =>
          have deeper : path.length < child.size := ih (by simpa [found] using place)
          have part := size_le_sizeAll (List.mem_of_getElem? found)
          rw [size_eq, List.length_cons]
          omega

theorem differAt_nil {a b : Node} :
    DifferAt a b [] ↔
      ¬ a.content.Same b.content ∨ a.children.length ≠ b.children.length := by
  simp [DifferAt]

theorem differAt_cons {a b : Node} {index : Nat} {path : Path} :
    DifferAt a b (index :: path) ↔
      ∃ x y, a.children[index]? = some x ∧ b.children[index]? = some y ∧ DifferAt x y path := by
  simp only [DifferAt, at?_cons, Option.bind_eq_some_iff]
  constructor
  · intro h
    obtain ⟨x, y, ⟨c, hc, hx⟩, ⟨d, hd, hy⟩, differ⟩ := h
    exact ⟨c, d, hc, hd, x, y, hx, hy, differ⟩
  · intro h
    obtain ⟨c, d, hc, hd, x, y, hx, hy, differ⟩ := h
    exact ⟨x, y, ⟨c, hc, hx⟩, ⟨d, hd, hy⟩, differ⟩

theorem not_differAt_self (n : Node) (path : Path) : ¬ DifferAt n n path := by
  intro h
  obtain ⟨x, y, hx, hy, differ⟩ := h
  have one : x = y := Option.some.inj (hx.symm.trans hy)
  subst one
  rcases differ with contents | lengths
  · exact contents (.refl _)
  · exact lengths rfl

theorem alikeAll_iff {left right : List Node} :
    alikeAll left right = true ↔
      left.length = right.length ∧
        ∀ (index : Nat) (x y : Node),
          left[index]? = some x → right[index]? = some y → x.alike y = true := by
  induction left generalizing right with
  | nil => cases right <;> simp [alikeAll]
  | cons a left ih =>
      cases right with
      | nil => simp [alikeAll]
      | cons b right =>
          rw [alikeAll, Bool.and_eq_true, ih, List.length_cons, List.length_cons, Nat.succ_inj]
          constructor
          · intro h
            obtain ⟨first, lengths, others⟩ := h
            refine ⟨lengths, ?_⟩
            intro index x y hx hy
            cases index with
            | zero =>
                cases hx
                cases hy
                exact first
            | succ index => exact others index x y hx hy
          · intro h
            obtain ⟨lengths, all⟩ := h
            refine ⟨all 0 a b rfl rfl, lengths, ?_⟩
            intro index
            exact all (index + 1)

theorem alike_iff_not_differAt {a b : Node} :
    a.alike b = true ↔ ∀ path, ¬ DifferAt a b path := by
  induction a generalizing b with
  | node mark content children ih =>
      rw [alike_eq, Bool.and_eq_true, Content.alike_iff, alikeAll_iff]
      constructor
      · intro h path
        obtain ⟨same, lengths, pairs⟩ := h
        cases path with
        | nil => simpa [differAt_nil, same] using lengths
        | cons index path =>
            rw [differAt_cons]
            intro below
            obtain ⟨x, y, hx, hy, differ⟩ := below
            exact (ih x (List.mem_of_getElem? hx)).mp (pairs index x y hx hy) path differ
      · intro agree
        have root := agree []
        rw [differAt_nil, not_or, not_not, not_not] at root
        refine ⟨root.1, root.2, ?_⟩
        intro index x y hx hy
        apply (ih x (List.mem_of_getElem? hx)).mpr
        intro path differ
        apply agree (index :: path)
        exact differAt_cons.mpr ⟨x, y, hx, hy, differ⟩

theorem alike_refl (n : Node) : n.alike n = true :=
  alike_iff_not_differAt.mpr (not_differAt_self n)

theorem SameStructure.lengths_eq {a b x y : Node} {path : Path} (h : SameStructure a b)
    (hx : a.at? path = some x) (hy : b.at? path = some y) :
    x.children.length = y.children.length := by
  -- a child that only one of the two nodes has would be a place of one tree alone
  have children : ∀ index, index < x.children.length ↔ index < y.children.length := by
    intro index
    have place := h.places (path ++ [index])
    simpa [at?_append, hx, hy, at?_cons] using place
  have left := children x.children.length
  have right := children y.children.length
  omega

theorem SameStructure.refl (n : Node) : SameStructure n n := by
  refine ⟨fun _ => Iff.rfl, ?_⟩
  intro path x y hx hy
  rw [Option.some.inj (hx.symm.trans hy)]
  exact .refl y.content

theorem SameStructure.symm {a b : Node} (h : SameStructure a b) : SameStructure b a where
  places path := (h.places path).symm
  contents path x y hx hy := (h.contents path y x hy hx).symm

theorem SameStructure.trans {a b c : Node} (h : SameStructure a b) (h' : SameStructure b c) :
    SameStructure a c := by
  refine ⟨fun path => (h.places path).trans (h'.places path), ?_⟩
  intro path x z hx hz
  have place : (b.at? path).isSome := (h.places path).mp (Option.isSome_of_eq_some hx)
  obtain ⟨y, hy⟩ := Option.isSome_iff_exists.mp place
  exact (h.contents path x y hx hy).trans (h'.contents path y z hy hz)

theorem places_of_not_differAt {a b : Node} (agree : ∀ path, ¬ DifferAt a b path) (path : Path) :
    (a.at? path).isSome ↔ (b.at? path).isSome := by
  induction path generalizing a b with
  | nil => simp
  | cons index path ih =>
      have root := agree []
      rw [differAt_nil, not_or, not_not, not_not] at root
      rw [at?_cons, at?_cons]
      by_cases inside : index < a.children.length
      · have inside' : index < b.children.length := root.2 ▸ inside
        rw [List.getElem?_eq_getElem inside, List.getElem?_eq_getElem inside']
        apply ih
        intro below differ
        apply agree (index :: below)
        apply differAt_cons.mpr
        exact ⟨_, _, List.getElem?_eq_getElem inside, List.getElem?_eq_getElem inside', differ⟩
      · have outside' : ¬ index < b.children.length := root.2 ▸ inside
        rw [List.getElem?_eq_none (Nat.le_of_not_lt inside),
          List.getElem?_eq_none (Nat.le_of_not_lt outside')]

theorem sameStructure_iff_not_differAt {a b : Node} :
    SameStructure a b ↔ ∀ path, ¬ DifferAt a b path := by
  constructor
  · intro same path differ
    obtain ⟨x, y, hx, hy, contents | lengths⟩ := differ
    · exact contents (same.contents path x y hx hy)
    · exact lengths (same.lengths_eq hx hy)
  · intro agree
    refine ⟨places_of_not_differAt agree, ?_⟩
    intro path x y hx hy
    by_contra contents
    exact agree path ⟨x, y, hx, hy, .inl contents⟩

theorem alike_iff_sameStructure {a b : Node} : a.alike b = true ↔ SameStructure a b :=
  alike_iff_not_differAt.trans sameStructure_iff_not_differAt.symm

theorem alike_eq_false_iff {a b : Node} : a.alike b = false ↔ ∃ path, DifferAt a b path := by
  rw [← Bool.not_eq_true, alike_iff_not_differAt, not_forall_not]

mutual

/-- A tree without its marks. -/
def unmarked : Node → Node
  | ⟨_, content, children⟩ => ⟨0, content, unmarkedAll children⟩

def unmarkedAll : List Node → List Node
  | [] => []
  | n :: rest => unmarked n :: unmarkedAll rest

end

theorem unmarkedAll_eq_map (row : List Node) : unmarkedAll row = row.map unmarked := by
  induction row with
  | nil => rfl
  | cons n rest ih => rw [unmarkedAll, ih, List.map_cons]

@[simp] theorem content_unmarked (n : Node) : n.unmarked.content = n.content := by
  cases n; rw [unmarked]

@[simp] theorem children_unmarked (n : Node) : n.unmarked.children = n.children.map unmarked := by
  cases n; rw [unmarked, unmarkedAll_eq_map]

theorem at?_unmarked (n : Node) (path : Path) :
    n.unmarked.at? path = (n.at? path).map unmarked := by
  induction path generalizing n with
  | nil => simp
  | cons index path ih =>
      rw [at?_cons, at?_cons, children_unmarked, List.getElem?_map]
      cases n.children[index]? with
      | none => rfl
      | some child => exact ih child

theorem differAt_unmarked {a b : Node} {path : Path} :
    DifferAt a.unmarked b.unmarked path ↔ DifferAt a b path := by
  induction path generalizing a b with
  | nil => simp [differAt_nil]
  | cons index path ih =>
      simp only [differAt_cons, children_unmarked, List.getElem?_map, Option.map_eq_some_iff]
      constructor
      · intro h
        obtain ⟨_, _, ⟨x, hx, rfl⟩, ⟨y, hy, rfl⟩, differ⟩ := h
        exact ⟨x, y, hx, hy, ih.mp differ⟩
      · intro h
        obtain ⟨x, y, hx, hy, differ⟩ := h
        exact ⟨_, _, ⟨x, hx, rfl⟩, ⟨y, hy, rfl⟩, ih.mpr differ⟩

theorem alike_unmarked (a b : Node) : a.unmarked.alike b.unmarked = a.alike b := by
  rw [Bool.eq_iff_iff, alike_iff_not_differAt, alike_iff_not_differAt]
  apply forall_congr'
  intro path
  exact not_congr differAt_unmarked

/-- Marks that name trees: wherever a mark is reached, the same tree hangs there. Its own nodes may
be marked in any way. -/
def MarksNameTrees (row : List Node) : Prop :=
  ∀ a ∈ preorderAll row, ∀ b ∈ preorderAll row, a.mark = b.mark → a.unmarked = b.unmarked

theorem MarksNameTrees.of_subset {row other : List Node} (h : MarksNameTrees row)
    (sub : other ⊆ row) : MarksNameTrees other := by
  have inside : ∀ n ∈ preorderAll other, n ∈ preorderAll row := by
    intro n member
    rw [preorderAll_eq_flatMap, List.mem_flatMap] at member ⊢
    obtain ⟨root, held, below⟩ := member
    exact ⟨root, sub held, below⟩
  intro n hn m hm
  exact h n (inside n hn) m (inside m hm)

theorem MarksNameTrees.of_mem {a b x y : Node} (h : MarksNameTrees [a, b]) (hx : x ∈ a.preorder)
    (hy : y ∈ b.preorder) : MarksNameTrees [x, y] := by
  have inside : ∀ n ∈ preorderAll [x, y], n ∈ preorderAll [a, b] := by
    intro n member
    simp only [preorderAll, List.append_nil, List.mem_append] at member ⊢
    rcases member with left | right
    · exact .inl (mem_preorder_trans hx left)
    · exact .inr (mem_preorder_trans hy right)
  intro n hn m hm
  exact h n (inside n hn) m (inside m hm)

end MarkupTree.Node
