import MarkupTree.Proofs.Record
import MarkupTree.Proofs.Replacement

/-!
# Where the frames of a tree stand

Each frame of a tree has the path of its node and the indent of that place. The frames of a place
follow on one another, and all that stand at this place or below it are among them. So two children
have no frame in common, and no frame of a tree comes twice.
-/
namespace MarkupTree.Node

theorem placedFramesFrom_append (path : Path) (indent : Int) (index : Nat)
    (before after : List Node) :
    placedFramesFrom path indent index (before ++ after) =
      placedFramesFrom path indent index before ++
        placedFramesFrom path indent (index + before.length) after := by
  induction before generalizing index with
  | nil => rfl
  | cons n rest ih =>
      rw [List.cons_append, placedFramesFrom, placedFramesFrom, ih, List.append_assoc,
        List.length_cons, Nat.add_right_comm, Nat.add_assoc]

theorem mem_placedFramesFrom {row : List Node} {path : Path} {indent : Int} {index : Nat}
    {placed : Placed} (member : placed ∈ placedFramesFrom path indent index row) :
    ∃ (offset : Nat) (child : Node), row[offset]? = some child ∧
      placed ∈ child.placedFrames (path ++ [index + offset]) indent := by
  induction row generalizing index with
  | nil => cases member
  | cons n rest ih =>
      rw [placedFramesFrom, List.mem_append] at member
      rcases member with here | later
      · exact ⟨0, n, rfl, here⟩
      · obtain ⟨offset, child, held, there⟩ := ih later
        refine ⟨offset + 1, child, held, ?_⟩
        rwa [Nat.add_right_comm, Nat.add_assoc] at there

/-- A frame of a tree stands where its path leads, at the indent of that place. -/
theorem mem_placedFrames {n : Node} {path : Path} {indent : Int} {placed : Placed}
    (member : placed ∈ n.placedFrames path indent) :
    ∃ below : Path, placed.path = path ++ below ∧ n.at? below = some placed.frame.node ∧
      placed.frame.indent = indent + 2 * below.length := by
  induction n generalizing path indent placed with
  | node mark content children ih =>
      rw [placedFrames_eq, List.mem_cons, List.mem_append] at member
      rcases member with rfl | inner | closes
      · exact ⟨[], (List.append_nil _).symm, at?_nil _, by simp [Frame.indent]⟩
      · obtain ⟨index, child, held, there⟩ := mem_placedFramesFrom inner
        obtain ⟨below, own, place, width⟩ := ih child (List.mem_of_getElem? held) there
        refine ⟨index :: below, ?_, ?_, ?_⟩
        · rw [own, List.append_assoc, Nat.zero_add, List.singleton_append]
        · rw [at?_cons, held, Option.bind_some, place]
        · rw [width, Line.indentStep, List.length_cons]
          omega
      · rw [Placed.eq_of_mem_closings closes]
        exact ⟨[], (List.append_nil _).symm, at?_nil _, by simp [Frame.indent]⟩

/-- The frames of the children from `index` on stand at or below these children. -/
theorem path_of_mem_placedFramesFrom {row : List Node} {path : Path} {indent : Int} {index : Nat}
    {placed : Placed} (member : placed ∈ placedFramesFrom path indent index row) :
    ∃ offset below, offset < row.length ∧ placed.path = path ++ (index + offset) :: below ∧
      placed.frame.indent = indent + 2 * below.length := by
  obtain ⟨offset, child, held, there⟩ := mem_placedFramesFrom member
  obtain ⟨below, own, _, width⟩ := mem_placedFrames there
  obtain ⟨inside, _⟩ := List.getElem?_eq_some_iff.mp held
  refine ⟨offset, below, inside, ?_, width⟩
  rw [own, List.append_assoc, List.singleton_append]

theorem not_prefix_self (path : Path) (index : Nat) (below : Path) :
    ¬ path ++ index :: below <+: path := by
  intro start
  have longer := start.length_le
  rw [List.length_append, List.length_cons] at longer
  omega

/-- The frames of some children are not those of a place under another child. -/
theorem not_prefix_of_mem_placedFramesFrom {row : List Node} {path : Path} {indent : Int}
    {index : Nat} {placed : Placed} (member : placed ∈ placedFramesFrom path indent index row)
    {other : Nat} (apart : other < index ∨ index + row.length ≤ other) (below : Path) :
    ¬ path ++ other :: below <+: placed.path := by
  obtain ⟨offset, rest, inside, own, _⟩ := path_of_mem_placedFramesFrom member
  rw [own, List.prefix_append_right_inj, List.cons_prefix_cons]
  rintro ⟨same, _⟩
  omega

/-- The frames of a place of a tree follow on one another, and no other frame stands at this place or
below it. -/
theorem exists_placedFrames_around {n x : Node} {below : Path} (place : n.at? below = some x)
    (path : Path) (indent : Int) :
    ∃ before after, n.placedFrames path indent =
        before ++ x.placedFrames (path ++ below) (indent + 2 * below.length) ++ after ∧
      ∀ placed ∈ before ++ after, ¬ path ++ below <+: placed.path := by
  induction below generalizing n path indent with
  | nil =>
      cases place
      exact ⟨[], [], by simp, by simp⟩
  | cons index below ih =>
      rw [at?_cons, Option.bind_eq_some_iff] at place
      obtain ⟨child, held, lower⟩ := place
      obtain ⟨earlier, later, position, row, _⟩ := exists_split_of_getElem? held
      obtain ⟨before, after, own, apart⟩ :=
        ih lower (path ++ [index]) (indent + Line.indentStep)
      have step : path ++ [index] ++ below = path ++ index :: below := by
        rw [List.append_assoc, List.singleton_append]
      have deeper : indent + Line.indentStep + 2 * (below.length : Int) =
          indent + 2 * ((index :: below).length : Int) := by
        rw [List.length_cons, Line.indentStep]
        omega
      rw [step] at own apart
      rw [deeper] at own
      refine ⟨⟨path, .opening n indent⟩ ::
          (placedFramesFrom path (indent + Line.indentStep) 0 earlier ++ before),
        after ++ (placedFramesFrom path (indent + Line.indentStep) (index + 1) later ++
          Placed.closings path n indent), ?_, ?_⟩
      · rw [placedFrames_eq, row, placedFramesFrom_append, placedFramesFrom, Nat.zero_add, position,
          own]
        simp only [List.append_assoc, List.cons_append]
      · -- a frame around the place is the node's own, or stands at another child, or was around below
        intro placed member
        have sorts : placed.path = path ∨
            placed ∈ placedFramesFrom path (indent + Line.indentStep) 0 earlier ∨
            placed ∈ placedFramesFrom path (indent + Line.indentStep) (index + 1) later ∨
            placed ∈ before ++ after := by
          rw [List.mem_append, List.mem_cons, List.mem_append, List.mem_append, List.mem_append]
            at member
          rcases member with (rfl | left | inner) | inner | right | closes
          · exact .inl rfl
          · exact .inr (.inl left)
          · exact .inr (.inr (.inr (List.mem_append_left _ inner)))
          · exact .inr (.inr (.inr (List.mem_append_right _ inner)))
          · exact .inr (.inr (.inl right))
          · exact .inl (by rw [Placed.eq_of_mem_closings closes])
        rcases sorts with root | left | right | inner
        · rw [root]
          exact not_prefix_self path index below
        · exact not_prefix_of_mem_placedFramesFrom left (.inr (by omega)) below
        · exact not_prefix_of_mem_placedFramesFrom right (.inl (by omega)) below
        · exact apart placed inner

theorem nodup_placedFramesFrom {row : List Node}
    (each : ∀ n ∈ row, ∀ path indent, (n.placedFrames path indent).Nodup)
    (path : Path) (indent : Int) (index : Nat) :
    (placedFramesFrom path indent index row).Nodup := by
  induction row generalizing index with
  | nil => exact .nil
  | cons n rest ih =>
      obtain ⟨own, later⟩ := List.forall_mem_cons.mp each
      refine List.nodup_append.mpr ⟨own _ _, ih later (index + 1), ?_⟩
      rintro placed here _ there rfl
      obtain ⟨below, lower, _⟩ := mem_placedFrames here
      refine not_prefix_of_mem_placedFramesFrom there (.inl (Nat.lt_succ_self index)) [] ?_
      rw [lower]
      exact List.prefix_append _ _

/-- No frame of a tree comes twice. -/
theorem nodup_placedFrames (n : Node) (path : Path) (indent : Int) :
    (n.placedFrames path indent).Nodup := by
  induction n generalizing path indent with
  | node mark content children ih =>
      -- the frames of the children stand at longer paths than the node's own
      have lower : ∀ placed ∈ placedFramesFrom path (indent + Line.indentStep) 0 children,
          placed.path ≠ path := by
        intro placed member same
        obtain ⟨_, _, _, own, _⟩ := path_of_mem_placedFramesFrom member
        rw [same] at own
        simp at own
      have inner := nodup_placedFramesFrom ih path (indent + Line.indentStep) 0
      rw [placedFrames_eq, List.nodup_cons, List.nodup_append]
      refine ⟨?_, inner, ?_, ?_⟩
      · intro again
        rcases List.mem_append.mp again with below | close
        · exact lower _ below rfl
        · cases Placed.eq_of_mem_closings close
      · unfold Placed.closings Frame.closings
        split <;> simp
      · intro placed below other close same
        rw [Placed.eq_of_mem_closings close] at same
        exact lower placed below (congrArg Placed.path same)

end MarkupTree.Node
