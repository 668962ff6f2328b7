import MarkupTree.Sink
import MarkupTree.Proofs.Printing
import MarkupTree.Proofs.Structure

/-!
# The printed form of a tree

The printed form is defined by recursion on the tree, with the forms of the three kinds of nodes
written out. An open sink without a limit takes exactly its lines, provided that there is a margin
at every place of the tree. Margins are made from the indent of the root and the depth of the place,
so a negative indent is made up for by depth.
-/
namespace MarkupTree

namespace Margin

/-- As many spaces as the width says, and none if it is negative. -/
def padding (width : Int) : String := String.ofList (List.replicate (max 0 width).toNat ' ')

theorem padding_eq_empty_iff {width : Int} : padding width = "" ↔ width ≤ 0 := by
  rw [padding, String.ofList_eq_empty_iff, List.replicate_eq_nil_iff]
  omega

theorem eq_padding_of_ofWidth {width : Int} {margin : String} (h : ofWidth width = .ok margin) :
    margin = padding width := by
  unfold ofWidth at h
  split at h
  · cases h
  · split at h
    · cases h
    · cases h
      have count : width.toNat = (max 0 width).toNat := by omega
      apply String.toList_injective
      rw [toList_spaces, padding, String.toList_ofList, count]

end Margin

/-- A line with its margin, without the newline that ends it. -/
def Line.text (line : Line) : String := Margin.padding line.indent ++ line.body

theorem Line.append_body_of_ofWidth {line : Line} {margin : String}
    (h : Margin.ofWidth line.indent = .ok margin) : margin ++ line.body = line.text := by
  rw [text, Margin.eq_padding_of_ofWidth h]

namespace Node

mutual

/-- The printed form of a tree, line by line. Only an element has a line after its children. -/
def rendering (indent : Int) : Node → List String
  | ⟨_, .text body, children⟩ =>
      (Margin.padding indent ++ body) :: renderingAll (indent + 2) children
  | ⟨_, .comment body, children⟩ =>
      (Margin.padding indent ++ "<!--" ++ body ++ "-->") :: renderingAll (indent + 2) children
  | ⟨_, .element tag, children⟩ =>
      (Margin.padding indent ++ tag.opening) ::
        (renderingAll (indent + 2) children ++ [Margin.padding indent ++ "<" ++ tag.name ++ "/>"])

def renderingAll (indent : Int) : List Node → List String
  | [] => []
  | n :: rest => rendering indent n ++ renderingAll indent rest

end

/-- There is a margin at every place of a tree whose root stands at the given indent. -/
def MarginsFit (indent : Int) (n : Node) : Prop :=
  ∀ path, (n.at? path).isSome → ∃ margin, Margin.ofWidth (indent + 2 * path.length) = .ok margin

/-- A tree has all its margins unless it is too deep for its indent to stay within bounds. -/
theorem marginsFit_of_size {n : Node} {indent : Int} (low : -Margin.wordBound ≤ indent)
    (high : indent + 2 * n.size ≤ Margin.memoryBound) : n.MarginsFit indent := by
  intro path place
  have depth := length_lt_size_of_place place
  refine ⟨Margin.spaces (indent + 2 * path.length).toNat, ?_⟩
  simp only [Margin.wordBound, Margin.memoryBound] at low high
  rw [Margin.ofWidth, if_neg, if_neg]
  · rw [Margin.memoryBound]
    omega
  · rw [Margin.wordBound]
    omega

theorem renderingAll_eq_flatMap (indent : Int) (row : List Node) :
    renderingAll indent row = row.flatMap (rendering indent) := by
  induction row with
  | nil => rfl
  | cons n rest ih => rw [renderingAll, ih, List.flatMap_cons]

theorem map_text_lines (n : Node) (indent : Int) :
    (n.lines indent).map Line.text = n.rendering indent := by
  induction n generalizing indent with
  | node mark content children ih =>
      have below : (linesAll (indent + Line.indentStep) children).map Line.text =
          renderingAll (indent + 2) children := by
        rw [linesAll_eq_flatMap, renderingAll_eq_flatMap, List.map_flatMap]
        apply List.flatMap_congr
        intro child member
        exact ih child member _
      rw [lines_eq, List.map_cons, List.map_append, below]
      cases content with
      | text body => simp [rendering, Line.text, Line.closings, Content.heading, Content.tag?]
      | comment body =>
          simp [rendering, Line.text, Line.closings, Content.heading, Content.tag?,
            String.append_assoc]
      | element tag =>
          simp [rendering, Line.text, Line.closings, Content.heading, Content.tag?, Tag.closing,
            String.append_assoc]

theorem exists_place_of_line (n : Node) (indent : Int) {line : Line}
    (member : line ∈ n.lines indent) :
    ∃ path, (n.at? path).isSome ∧ line.indent = indent + 2 * path.length := by
  induction n generalizing indent with
  | node mark content children ih =>
      rw [lines_eq, linesAll_eq_flatMap, List.mem_cons, List.mem_append, List.mem_flatMap] at member
      rcases member with opens | ⟨child, held, below⟩ | closes
      · exact ⟨[], by simp, by simp [opens]⟩
      · obtain ⟨path, place, width⟩ := ih child held _ below
        obtain ⟨index, found⟩ := List.mem_iff_getElem?.mp held
        refine ⟨index :: path, ?_, ?_⟩
        · simpa [at?_cons, found] using place
        · rw [width, Line.indentStep, List.length_cons]
          omega
      · refine ⟨[], by simp, ?_⟩
        unfold Line.closings at closes
        split at closes
        · simp [List.mem_singleton.mp closes]
        · cases closes

theorem MarginsFit.of_line {n : Node} {indent : Int} (fits : n.MarginsFit indent) :
    ∀ line ∈ n.lines indent, ∃ margin, Margin.ofWidth line.indent = .ok margin := by
  intro line member
  obtain ⟨path, place, width⟩ := n.exists_place_of_line indent member
  rw [width]
  exact fits path place

theorem rendering_infix {n x : Node} {path : Path} (place : n.at? path = some x) (indent : Int) :
    x.rendering (indent + 2 * path.length) <:+: n.rendering indent := by
  induction path generalizing n indent with
  | nil =>
      have root : n = x := by simpa using place
      subst root
      simp
  | cons index path ih =>
      rw [at?_cons, Option.bind_eq_some_iff] at place
      obtain ⟨child, found, below⟩ := place
      have deeper : indent + 2 * ((index :: path).length : Int) =
          indent + 2 + 2 * (path.length : Int) := by
        rw [List.length_cons]
        omega
      have row : child.rendering (indent + 2) <:+: renderingAll (indent + 2) n.children := by
        obtain ⟨before, after, split⟩ := List.append_of_mem (List.mem_of_getElem? found)
        rw [renderingAll_eq_flatMap, split, List.flatMap_append, List.flatMap_cons]
        exact List.infix_append' _ _ _
      rw [deeper]
      apply (ih below (indent + 2)).trans
      apply row.trans
      obtain ⟨mark, content, children⟩ := n
      cases content with
      | text body => exact (List.suffix_cons _ _).isInfix
      | comment body => exact (List.suffix_cons _ _).isInfix
      | element tag => exact (List.infix_append_left).trans (List.suffix_cons _ _).isInfix

end Node

namespace Sink
variable {sink : Sink}

/-- The room that is left when some lines have been taken. -/
def roomAfter (room : Option Nat) (taken : Nat) : Option Nat := room.map (· - taken)

theorem roomAfter_add (room : Option Nat) (first second : Nat) :
    roomAfter (roomAfter room first) second = roomAfter room (first + second) := by
  cases room with
  | none => rfl
  | some count => exact congrArg some (Nat.sub_sub count first second)

/-- The sink with some more lines in it. -/
def adding (sink : Sink) (added : List String) : Sink :=
  { sink with taken := added.reverse ++ sink.taken, room := roomAfter sink.room added.length }

theorem adding_nil (sink : Sink) : sink.adding [] = sink := by
  simp [adding, roomAfter]

theorem adding_adding (sink : Sink) (first second : List String) :
    (sink.adding first).adding second = sink.adding (first ++ second) := by
  simp [adding, roomAfter_add]

/-- A sink takes a line exactly if it has room and is not closed. -/
theorem accept_eq_ok_iff {line : String} {next : Sink} :
    sink.accept line = .ok next ↔
      sink.room ≠ some 0 ∧ sink.closed = false ∧ sink.adding [line] = next := by
  unfold accept
  split
  · rename_i full
    simp [full]
  · rename_i left
    split
    · rename_i closed
      simp [closed]
    · rename_i open'
      simp [left, open', adding, roomAfter]

/-- The lines that reach a sink are added to those that it holds. -/
theorem eq_adding_of_delivers {lines : List Line} {last : Sink}
    (h : Line.Delivers accept lines sink last) : last = sink.adding (lines.map Line.text) := by
  induction h with
  | nil sink => exact sink.adding_nil.symm
  | @cons line rest margin sink next last made taken others ih =>
      obtain ⟨_, _, grown⟩ := accept_eq_ok_iff.mp taken
      rw [ih, ← grown, adding_adding, Line.append_body_of_ofWidth made]
      rfl

theorem delivers_to_open {lines : List Line} (taken : List String)
    (fit : ∀ line ∈ lines, ∃ margin, Margin.ofWidth line.indent = .ok margin) :
    Line.Delivers accept lines { taken } { taken := (lines.map Line.text).reverse ++ taken } := by
  induction lines generalizing taken with
  | nil => exact .nil _
  | cons line rest ih =>
      obtain ⟨margin, made⟩ := fit line List.mem_cons_self
      have others := ih (line.text :: taken) (by
        intro other member
        exact fit other (List.mem_cons_of_mem line member))
      rw [List.map_cons, List.reverse_cons, List.append_assoc, List.singleton_append]
      apply Line.Delivers.cons made _ others
      rw [Line.append_body_of_ofWidth made]
      rfl

theorem text_append (before after : List String) :
    text { taken := after.reverse ++ before } =
      text { taken := before } ++ String.join (after.map (· ++ "\n")) := by
  simp [text, lines]

end Sink

namespace Node

/-- An open sink takes all lines of a tree if there is a margin for each of them. -/
theorem printTo_eq_of_margins {node : Node} {indent : Int}
    (made : ∀ line ∈ node.lines indent, ∃ margin, Margin.ofWidth line.indent = .ok margin)
    (taken : List String) :
    node.printTo indent { taken } =
      { sink := { taken := ((node.lines indent).map Line.text).reverse ++ taken } } := by
  rw [printTo, print_eq_writeAll]
  exact Line.writeAll_of_ends (.complete (Sink.delivers_to_open taken made))

/-- Printing to an open sink without a limit adds the printed form of the tree to what the sink has,
one newline after each line, and ends without a fault. What hangs at a place is printed as a tree of
its own would be at an indent that grows by two with each level, and a line has a margin of at least
one space exactly if its indent is positive. -/
theorem printTo_writes_rendering {node : Node} {indent : Int} (fits : node.MarginsFit indent)
    (taken : List String) :
    node.printTo indent { taken } =
        { sink := { taken := (node.rendering indent).reverse ++ taken } } ∧
      (node.printTo indent { taken }).sink.text =
        Sink.text { taken } ++ String.join ((node.rendering indent).map (· ++ "\n")) ∧
      (∀ path x, node.at? path = some x →
        x.rendering (indent + 2 * path.length) <:+: node.rendering indent) ∧
      ∀ width, Margin.padding width = "" ↔ width ≤ 0 := by
  have printed : node.printTo indent { taken } =
      { sink := { taken := (node.rendering indent).reverse ++ taken } } := by
    rw [← map_text_lines]
    exact printTo_eq_of_margins fits.of_line taken
  refine ⟨printed, ?_, ?_, ?_⟩
  · rw [printed, Sink.text_append]
  · intro path x place
    exact rendering_infix place indent
  · intro width
    exact Margin.padding_eq_empty_iff

/-- A text that holds an element, which holds a comment. -/
def oddTree : Node :=
  ⟨0, .text "odd", [⟨1, .element { name := "p" }, [⟨2, .comment "c", []⟩]⟩]⟩

theorem printTo_at_negative_indent :
    oddTree.MarginsFit (-3) ∧
      (oddTree.printTo (-3) {}).sink.text = "odd\n<p>\n <!--c-->\n<p/>\n" := by
  have fits : oddTree.MarginsFit (-3) := marginsFit_of_size (by decide) (by decide)
  refine ⟨fits, ?_⟩
  rw [(printTo_writes_rendering fits []).2.1]
  decide +kernel

end Node

end MarkupTree
