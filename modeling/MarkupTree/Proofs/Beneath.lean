import MarkupTree.Proofs.LineCount
import MarkupTree.Proofs.PlacedFrames
import MarkupTree.Proofs.WalkStack

/-!
# The frames beneath a place

What lies under a frame on the stack of a printer is determined by the path of the frame: the frames
that open the right siblings of the place, the frame that closes its parent if that is an element, and
so on up to the root. A stack in which this holds of every frame keeps it when the top frame gives way
to those that follow from it, and it leads down and outwards: no frame stands further in than those
above it, and one that closes an element belongs to a place that all of them are below.
-/
namespace MarkupTree

namespace Placed

theorem of_mem_openings {placed : Placed} {path : Path} {indent : Int} {index : Nat}
    {row : List Node} (member : placed ∈ openings path indent index row) :
    placed.frame.opens = true ∧ ∃ offset, placed.path = path ++ [index + offset] := by
  induction row generalizing index with
  | nil => cases member
  | cons n rest ih =>
      rcases List.mem_cons.mp member with rfl | later
      · exact ⟨rfl, 0, rfl⟩
      · obtain ⟨opens, offset, own⟩ := ih later
        refine ⟨opens, offset + 1, ?_⟩
        rw [own, Nat.add_right_comm, Nat.add_assoc]

theorem map_node_openings (path : Path) (indent : Int) (index : Nat) (row : List Node) :
    ((openings path indent index row).filter (·.frame.opens)).map (·.frame.node) = row := by
  have all : (openings path indent index row).filter (·.frame.opens) =
      openings path indent index row :=
    List.filter_eq_self.mpr fun _ member => (of_mem_openings member).1
  have nodes := congrArg (List.map Frame.node) (map_frame_openings path indent index row)
  rw [List.map_map, List.map_map] at nodes
  rw [all]
  exact nodes.trans (List.map_id _)

theorem filter_opens_closings (path : Path) (node : Node) (indent : Int) :
    (closings path node indent).filter (·.frame.opens) = [] := by
  rw [closings, List.filter_map]
  exact congrArg (List.map (Placed.mk path)) (Frame.filter_opens_closings node indent)

/-- The frame that closes a node follows from the one that opens it, and only if it is an element. -/
theorem closing_mem_successors_iff {top : Placed} {path : Path} {x : Node} {width : Int} :
    ⟨path, .closing x width⟩ ∈ top.successors ↔
      top = ⟨path, .opening x width⟩ ∧ ∃ tag, x.content = .element tag := by
  constructor
  · intro member
    obtain ⟨above, frame⟩ := top
    cases frame with
    | closing node indent => cases member
    | opening node indent =>
        rcases List.mem_append.mp member with child | close
        · cases (of_mem_openings child).1
        · cases eq_of_mem_closings close
          refine ⟨rfl, ?_⟩
          cases own : x.content.tag? with
          | none =>
              rw [closings_of_none own] at close
              cases close
          | some tag => exact ⟨tag, Content.tag?_eq_some_iff.mp own⟩
  · rintro ⟨rfl, tag, own⟩
    apply List.mem_append_right
    rw [closings_of_element own]
    exact List.mem_cons_self

/-- A frame stands at its place in a tree whose root stands at a given indent. -/
structure Stands (n : Node) (indent : Int) (placed : Placed) : Prop where
  place : n.at? placed.path = some placed.frame.node
  width : placed.frame.indent = indent + 2 * placed.path.length

/-- How a frame on a stack stands to those under it. A frame under it that closes an element belongs to
a place above its own. -/
structure Over (upper lower : Placed) : Prop where
  indents : lower.frame.indent ≤ upper.frame.indent
  closes : lower.frame.opens = false →
    lower.path <+: upper.path ∧ lower.frame.indent < upper.frame.indent

end Placed

namespace Node

/-- The frames under those of the node at a path, from the top down. -/
def beneath (above : Path) (indent : Int) : Node → Path → List Placed
  | _, [] => []
  | n, index :: path =>
      (n.children[index]?.elim [] fun child =>
          beneath (above ++ [index]) (indent + Line.indentStep) child path) ++
        (Placed.openings above (indent + Line.indentStep) (index + 1)
            (n.children.drop (index + 1)) ++
          Placed.closings above n indent)

theorem beneath_cons {n child : Node} {index : Nat} (held : n.children[index]? = some child)
    (above : Path) (indent : Int) (path : Path) :
    n.beneath above indent (index :: path) =
      child.beneath (above ++ [index]) (indent + Line.indentStep) path ++
        (Placed.openings above (indent + Line.indentStep) (index + 1)
            (n.children.drop (index + 1)) ++
          Placed.closings above n indent) := by
  rw [beneath, held]
  rfl

/-- One step further down, the frames of the level that is left come before all others. -/
theorem beneath_concat {n x : Node} {path : Path} (place : n.at? path = some x) {index : Nat}
    (inside : index < x.children.length) (above : Path) (indent : Int) :
    n.beneath above indent (path ++ [index]) =
      Placed.openings (above ++ path) (indent + 2 * path.length + Line.indentStep) (index + 1)
          (x.children.drop (index + 1)) ++
        (Placed.closings (above ++ path) x (indent + 2 * path.length) ++
          n.beneath above indent path) := by
  induction path generalizing n above indent with
  | nil =>
      cases place
      rw [List.nil_append, beneath_cons (List.getElem?_eq_getElem inside), beneath, beneath]
      simp
  | cons first path ih =>
      rw [at?_cons, Option.bind_eq_some_iff] at place
      obtain ⟨child, held, lower⟩ := place
      rw [List.cons_append, beneath_cons held, beneath_cons held, ih lower,
        Frame.indent_of_child indent first path]
      simp only [List.append_assoc, List.singleton_append]

/-- The frames that wait under a place open what is beyond it. -/
theorem map_node_beneath (n : Node) (above : Path) (indent : Int) (path : Path) :
    ((n.beneath above indent path).filter (·.frame.opens)).map (·.frame.node) =
      n.beyond path := by
  induction path generalizing n above indent with
  | nil => rfl
  | cons index path ih =>
      rw [beneath, beyond, List.filter_append, List.filter_append, List.map_append,
        Placed.filter_opens_closings, List.append_nil, Placed.map_node_openings]
      cases n.children[index]? with
      | none => rfl
      | some child => rw [Option.elim_some, Option.elim_some, ih]

theorem of_mem_beneath {n : Node} {above : Path} {indent : Int} {path : Path} {placed : Placed}
    (member : placed ∈ n.beneath above indent path) :
    ∃ upper index lower, path = upper ++ index :: lower ∧
      ((∃ later, placed.path = above ++ upper ++ [later]) ∧ placed.frame.opens = true ∨
        placed.path = above ++ upper ∧ placed.frame.opens = false) := by
  induction path generalizing n above indent with
  | nil => cases member
  | cons index path ih =>
      rw [beneath, List.mem_append, List.mem_append] at member
      rcases member with deeper | sibling | parent
      · cases held : n.children[index]? with
        | none =>
            rw [held] at deeper
            cases deeper
        | some child =>
            rw [held] at deeper
            obtain ⟨upper, next, lower, split, sorts⟩ := ih deeper
            refine ⟨index :: upper, next, lower, by rw [split, List.cons_append], ?_⟩
            rwa [List.append_assoc, List.singleton_append] at sorts
      · obtain ⟨opens, offset, own⟩ := Placed.of_mem_openings sibling
        refine ⟨[], index, path, rfl, .inl ⟨⟨index + 1 + offset, ?_⟩, opens⟩⟩
        rw [own, List.append_nil]
      · cases Placed.eq_of_mem_closings parent
        exact ⟨[], index, path, rfl, .inr ⟨(List.append_nil _).symm, rfl⟩⟩

/-- Each frame stands at its place, and the frames under it are those beneath this place. -/
inductive Stacked (n : Node) (indent : Int) : List Placed → Prop where
  | nil : Stacked n indent []
  | cons {top : Placed} {rest : List Placed} (stands : top.Stands n indent)
      (under : rest = n.beneath [] indent top.path) (others : Stacked n indent rest) :
      Stacked n indent (top :: rest)

namespace Stacked
variable {n x : Node} {indent : Int} {path : Path} {stack rest : List Placed} {top : Placed}

theorem root (n : Node) (indent : Int) : Stacked n indent [⟨[], .opening n indent⟩] :=
  .cons ⟨at?_nil n, by simp [Frame.indent]⟩ rfl .nil

theorem stands (h : Stacked n indent stack) : ∀ placed ∈ stack, placed.Stands n indent := by
  induction h with
  | nil =>
      intro placed member
      cases member
  | cons stands _ _ ih => exact List.forall_mem_cons.mpr ⟨stands, ih⟩

theorem closings (place : n.at? path = some x)
    (h : Stacked n indent (n.beneath [] indent path)) :
    Stacked n indent (Placed.closings path x (indent + 2 * path.length) ++
      n.beneath [] indent path) := by
  cases own : x.content.tag? with
  | none =>
      rw [Placed.closings_of_none own]
      exact h
  | some tag =>
      rw [Placed.closings_of_element (Content.tag?_eq_some_iff.mp own)]
      exact .cons ⟨place, rfl⟩ rfl h

theorem openings (place : n.at? path = some x) {row : List Node} {index : Nat}
    (here : x.children.drop index = row)
    (h : Stacked n indent (Placed.closings path x (indent + 2 * path.length) ++
      n.beneath [] indent path)) :
    Stacked n indent
      (Placed.openings path (indent + 2 * path.length + Line.indentStep) index row ++
        (Placed.closings path x (indent + 2 * path.length) ++ n.beneath [] indent path)) := by
  induction row generalizing index with
  | nil => exact h
  | cons child row ih =>
      obtain ⟨held, later⟩ := getElem?_of_drop here
      refine .cons ⟨?_, ?_⟩ ?_ (ih later)
      · rw [at?_append, place, Option.bind_some, at?_cons, held, Option.bind_some, at?_nil]
        rfl
      · rw [List.length_append, List.length_singleton, Frame.indent, Line.indentStep]
        omega
      · rw [beneath_concat place (List.getElem?_eq_some_iff.mp held).1, later, List.nil_append]
        rfl

/-- The frames that follow from the top one are stacked on those that were under it. -/
theorem successors (h : Stacked n indent (top :: rest)) :
    Stacked n indent (top.successors ++ rest) := by
  obtain ⟨path, frame⟩ := top
  cases h with
  | cons stands under others =>
      cases frame with
      | closing node width => exact others
      | opening node width =>
          have level : width = indent + 2 * (path.length : Int) := stands.width
          subst level under
          rw [Placed.successors, List.append_assoc]
          exact openings stands.place rfl (closings stands.place others)

theorem pairwise (h : Stacked n indent stack) : stack.Pairwise Placed.Over := by
  induction h with
  | nil => exact .nil
  | @cons top rest stands under others ih =>
      refine .cons ?_ ih
      intro placed member
      have level := (others.stands placed member).width
      rw [under] at member
      obtain ⟨upper, index, lower, split, ⟨⟨later, own⟩, opens⟩ | ⟨own, _⟩⟩ :=
        of_mem_beneath member
      · rw [List.nil_append] at own
        constructor
        · rw [level, stands.width, own, split]
          simp only [List.length_append, List.length_cons, List.length_nil]
          omega
        · intro closes
          rw [opens] at closes
          cases closes
      · rw [List.nil_append] at own
        have shallower : placed.frame.indent < top.frame.indent := by
          rw [level, stands.width, own, split]
          simp only [List.length_append, List.length_cons]
          omega
        exact ⟨Int.le_of_lt shallower, fun _ => ⟨⟨index :: lower, by rw [own, split]⟩, shallower⟩⟩

end Stacked

theorem length_flatMap_closingsAt (indent : Int) (places : List (Path × Node)) :
    (places.flatMap (Frame.closingsAt indent)).length =
      ((places.map Prod.snd).filterMap (·.content.tag?)).length := by
  induction places with
  | nil => rfl
  | cons place rest ih =>
      rw [List.flatMap_cons, List.length_append, ih, Frame.closingsAt, Frame.closings]
      cases own : place.2.content.tag? <;> simp [own, Nat.add_comm]

/-- A tree has one frame for each node and one more for each element. -/
theorem length_placedFrames (n : Node) (path : Path) (indent : Int) :
    (n.placedFrames path indent).length = n.walk.toList.length + n.tags.length := by
  have split := (List.filter_append_perm Frame.opens (n.frames indent)).length_eq
  rw [← List.length_map Placed.frame, map_frame_placedFrames, ← split, List.length_append,
    filter_opens_frames, (n.filter_closes_frames indent).length_eq, List.length_map,
    length_flatMap_closingsAt, map_snd_places, tags, toList_walk, ← map_snd_places,
    List.length_map]

end Node

end MarkupTree
