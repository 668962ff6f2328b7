import MarkupTree.Proofs.Comparison
import MarkupTree.Proofs.LineReading

/-!
# Trees are read back from their prints

A tree is rebuilt from its lines beginning with the last one. Each opening line takes the trees behind
it that stand deeper as the children of its node, and closing lines are passed over. A print of a
legible tree is read back as the tree and its indent, so trees with one print are equal.
-/
namespace MarkupTree

/-- Puts a line in front of the trees that are rebuilt from the lines behind it. -/
def Sign.attach : Int × Sign → List (Int × Node) → List (Int × Node)
  | (_, .closing _), behind => behind
  | (indent, .opening content), behind =>
      let deeper := fun tree : Int × Node => decide (indent < tree.1)
      (indent, ⟨0, content, (behind.takeWhile deeper).map Prod.snd⟩) :: behind.dropWhile deeper

namespace Node

/-- Every content of the tree is legible. -/
def Legible (n : Node) : Prop := ∀ x ∈ n.preorder, x.content.Legible

instance (n : Node) : Decidable n.Legible :=
  inferInstanceAs (Decidable (∀ x ∈ n.preorder, x.content.Legible))

/-- Reads a print as a tree and the indent of its root. -/
def read (text : String) : Option (Int × Node) :=
  (((Text.tokens '\n' text).dropLast.map fun line => Line.read line.toList).foldr
    Sign.attach []).head?

/-- What the lines of some frames say, with their indents. -/
def signs (frames : List Frame) : List (Int × Sign) :=
  frames.map fun frame => (frame.indent, frame.sign)

/-- No tree behind stands deeper than the given indent. -/
def Shallow (indent : Int) (behind : List (Int × Node)) : Prop :=
  ∀ tree ∈ behind.head?, tree.1 ≤ indent

theorem signs_append (before after : List Frame) :
    signs (before ++ after) = signs before ++ signs after :=
  List.map_append

theorem foldr_attach_closings (node : Node) (indent : Int) (behind : List (Int × Node)) :
    (signs (Frame.closings node indent)).foldr Sign.attach behind = behind := by
  unfold Frame.closings
  split <;> rfl

theorem foldr_attach_framesAll {row : List Node} {indent : Int} {behind : List (Int × Node)}
    (each : ∀ n ∈ row, ∀ behind, Shallow indent behind →
      (signs (n.frames indent)).foldr Sign.attach behind = (indent, n.unmarked) :: behind)
    (shallow : Shallow indent behind) :
    (signs (framesAll indent row)).foldr Sign.attach behind =
      row.map (fun n => (indent, n.unmarked)) ++ behind := by
  induction row with
  | nil => rfl
  | cons n rest ih =>
      obtain ⟨own, later⟩ := List.forall_mem_cons.mp each
      have next : Shallow indent (rest.map (fun n => (indent, n.unmarked)) ++ behind) := by
        cases rest with
        | nil => exact shallow
        | cons other rest =>
            intro tree first
            cases first
            exact Int.le_refl indent
      have first := own _ next
      rw [framesAll, signs_append, List.foldr_append, ih later, first, List.map_cons,
        List.cons_append]

/-- The root of a row of deeper trees takes them all and nothing of what is behind them. -/
theorem attach_opening {indent deeper : Int} (below : indent < deeper) (content : Content)
    (children : List Node) {behind : List (Int × Node)} (shallow : Shallow indent behind) :
    Sign.attach (indent, .opening content) (children.map (fun n => (deeper, n)) ++ behind) =
      (indent, ⟨0, content, children⟩) :: behind := by
  have all : ∀ tree ∈ children.map (fun n => (deeper, n)), decide (indent < tree.1) = true := by
    intro tree member
    obtain ⟨child, _, rfl⟩ := List.mem_map.mp member
    exact decide_eq_true below
  have stop : ∀ tree ∈ behind.head?, decide (indent < tree.1) = false := by
    intro tree first
    exact decide_eq_false (Int.not_lt.mpr (shallow tree first))
  simp only [Sign.attach, Text.takeWhile_append_of_stop all stop,
    Text.dropWhile_append_of_stop all stop, List.map_map]
  congr 3
  exact List.map_id children

/-- Rebuilding from the lines of a tree puts just this tree in front. -/
theorem foldr_attach_frames (n : Node) (indent : Int) {behind : List (Int × Node)}
    (shallow : Shallow indent behind) :
    (signs (n.frames indent)).foldr Sign.attach behind = (indent, n.unmarked) :: behind := by
  induction n generalizing indent behind with
  | node mark content children ih =>
      have deeper : Shallow (indent + Line.indentStep) behind := by
        intro tree first
        have bound := shallow tree first
        rw [Line.indentStep]
        omega
      have below : indent < indent + Line.indentStep := by
        rw [Line.indentStep]
        omega
      have row := foldr_attach_framesAll (fun child member _ => ih child member _) deeper
      have trees : children.map (fun n => (indent + Line.indentStep, n.unmarked)) =
          (children.map unmarked).map fun n => (indent + Line.indentStep, n) := by
        rw [List.map_map]
        rfl
      rw [frames_eq, ← List.singleton_append, signs_append, List.foldr_append, signs_append,
        List.foldr_append, foldr_attach_closings, row, trees, unmarked, unmarkedAll_eq_map]
      exact attach_opening below content _ shallow

theorem mem_frames {n : Node} {indent : Int} {frame : Frame} (member : frame ∈ n.frames indent) :
    frame.node ∈ n.preorder ∧ indent ≤ frame.indent := by
  induction n generalizing indent with
  | node mark content children ih =>
      rw [frames_eq, framesAll_eq_flatMap, List.mem_cons, List.mem_append, List.mem_flatMap]
        at member
      rcases member with rfl | ⟨child, held, below⟩ | closes
      · exact ⟨self_mem_preorder _, Int.le_refl indent⟩
      · obtain ⟨inside, deeper⟩ := ih child held below
        refine ⟨mem_preorder_of_child held inside, ?_⟩
        rw [Line.indentStep] at deeper
        omega
      · rw [Frame.eq_of_mem_closings closes]
        exact ⟨self_mem_preorder _, Int.le_refl indent⟩

theorem read_lines {frames : List Frame} {lines : List String}
    (shown : lines.map some = frames.map Frame.text?)
    (legible : ∀ frame ∈ frames, frame.node.content.Legible ∧ 0 ≤ frame.indent) :
    lines.map (fun line => Line.read line.toList) = signs frames ∧
      ∀ line ∈ lines, '\n' ∉ line.toList := by
  induction frames generalizing lines with
  | nil =>
      rw [List.map_nil, List.map_eq_nil_iff] at shown
      subst shown
      exact ⟨rfl, fun _ member => nomatch member⟩
  | cons frame rest ih =>
      cases lines with
      | nil => cases shown
      | cons line lines =>
          obtain ⟨first, others⟩ := List.cons.inj shown
          obtain ⟨⟨own, nonneg⟩, later⟩ := List.forall_mem_cons.mp legible
          obtain ⟨read, newline⟩ := Frame.read_text? own nonneg first.symm
          obtain ⟨reads, newlines⟩ := ih others later
          constructor
          · rw [List.map_cons, read, reads]
            rfl
          · exact List.forall_mem_cons.mpr ⟨newline, newlines⟩

/-- The print of a legible tree is read back as the tree and its indent, but for the marks. -/
theorem read_printTo {n : Node} {indent : Int} (legible : n.Legible) (nonneg : 0 ≤ indent)
    (done : (n.printTo indent {}).fault = none) :
    read (n.printTo indent {}).sink.text = some (indent, n.unmarked) := by
  have shown : (n.printTo indent {}).sink.lines.map some =
      (n.frames indent).map Frame.text? := by
    rw [lines_printTo, record_of_fault_none done]
  have clear : ∀ frame ∈ n.frames indent, frame.node.content.Legible ∧ 0 ≤ frame.indent := by
    intro frame member
    obtain ⟨inside, deeper⟩ := mem_frames member
    exact ⟨legible frame.node inside, Int.le_trans nonneg deeper⟩
  obtain ⟨signs, newlines⟩ := read_lines shown clear
  have alone : Shallow indent [] := by
    intro tree first
    cases first
  rw [read, Sink.text, Text.tokens_join_lines newlines, List.dropLast_concat, signs,
    foldr_attach_frames n indent alone]
  rfl

/-- Legible trees that print the same text, at indents that are not negative and without a fault,
stand at one indent and are one tree but for the marks. They have one content at each place, with the
attributes in the same order, and are equal. -/
theorem printed_text_determines_tree {a b : Node} {i j : Int} (legibleLeft : a.Legible)
    (legibleRight : b.Legible) (left : 0 ≤ i) (right : 0 ≤ j)
    (doneLeft : (a.printTo i {}).fault = none) (doneRight : (b.printTo j {}).fault = none)
    (text : (a.printTo i {}).sink.text = (b.printTo j {}).sink.text) :
    i = j ∧ a.unmarked = b.unmarked ∧
      (∀ path, (a.at? path).map Node.content = (b.at? path).map Node.content) ∧
      (MarksNameTrees [a, b] → a.equal b = true) := by
  have readings := congrArg read text
  rw [read_printTo legibleLeft left doneLeft, read_printTo legibleRight right doneRight] at readings
  obtain ⟨indents, trees⟩ := Prod.mk.inj (Option.some.inj readings)
  refine ⟨indents, trees, ?_, ?_⟩
  · intro path
    have places := congrArg (fun n => (n.at? path).map Node.content) trees
    simpa [at?_unmarked, Function.comp_def] using places
  · intro marks
    rw [equal_eq_alike marks, ← alike_unmarked, trees]
    exact alike_refl _

/-- A text over an element without a name, whose attribute looks like the end of its tag, and over a
comment that stands twice and looks like one. -/
def trickyTree : Node :=
  ⟨3, .text "",
    [⟨1, .element { attributes := .ofPairs [("=", "/><p/>"), ("", " ")] }, [⟨0, .comment "--><", []⟩]⟩,
      ⟨0, .comment "--><", []⟩]⟩

/-- The same with the comment made twice. -/
def trickyCopy : Node :=
  ⟨4, .text "",
    [⟨2, .element { attributes := .ofPairs [("=", "/><p/>"), ("", " ")] }, [⟨5, .comment "--><", []⟩]⟩,
      ⟨6, .comment "--><", []⟩]⟩

theorem trickyCopy_of_text :
    trickyTree.Legible ∧ trickyCopy.Legible ∧
      (trickyTree.printTo 1 {}).fault = none ∧ (trickyCopy.printTo 1 {}).fault = none ∧
      (trickyTree.printTo 1 {}).sink.text = (trickyCopy.printTo 1 {}).sink.text ∧
      trickyTree.unmarked = trickyCopy.unmarked ∧ trickyTree.equal trickyCopy = true := by
  have legible : trickyTree.Legible := by decide +kernel
  have legible' : trickyCopy.Legible := by decide +kernel
  have done : (trickyTree.printTo 1 {}).fault = none := by decide +kernel
  have done' : (trickyCopy.printTo 1 {}).fault = none := by decide +kernel
  have text : (trickyTree.printTo 1 {}).sink.text = (trickyCopy.printTo 1 {}).sink.text := by
    decide +kernel
  have marks : MarksNameTrees [trickyTree, trickyCopy] := by
    simp [MarksNameTrees, trickyTree, trickyCopy, preorderAll, preorder]
  obtain ⟨_, trees, _, equal⟩ := printed_text_determines_tree legible legible' (by decide)
    (by decide) done done' text
  exact ⟨legible, legible', done, done', text, trees, equal marks⟩

end Node

end MarkupTree
