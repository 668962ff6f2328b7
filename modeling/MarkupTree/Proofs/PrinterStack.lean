import MarkupTree.Proofs.Beneath

/-!
# The stack of a printer

After each line the stack of a printer is known from the frame of this line alone: what follows from
the frame lies on what is beneath its place. So the frames that close an element are those of the
elements whose first line is written and whose last line is not, the outermost at the bottom, and the
opening frames are those of the children, if the line opened a node, and of the right siblings of the
place and of each place above it. A printer that meets no fault writes one line for each node and one
more for each element.
-/
namespace MarkupTree

/-- What the stack of a printer holds when the lines of some frames of a tree have been written. When
nothing is left on it, there has been a line for each node and one more for each element. -/
structure StackInvariant (n : Node) (indent : Int) (written stack : List Placed) : Prop where
  places : ∀ placed ∈ stack, n.at? placed.path = some placed.frame.node ∧
    placed.frame.indent = indent + 2 * placed.path.length
  /-- A closing frame belongs to an element that has been opened and not closed, and each element of
  this kind has one. -/
  unclosed : ∀ path x width, ⟨path, .closing x width⟩ ∈ stack ↔
    (∃ tag, x.content = .element tag) ∧ ⟨path, .opening x width⟩ ∈ written ∧
      ⟨path, .closing x width⟩ ∉ written
  levels : stack.Pairwise fun upper lower => lower.frame.indent ≤ upper.frame.indent
  /-- The closing frames belong to one place below another, each further in than the one before. -/
  nested : (stack.filter (!·.frame.opens)).Pairwise fun inner outer =>
    outer.path <+: inner.path ∧ outer.frame.indent < inner.frame.indent
  untouched : written = [] → stack = [⟨[], .opening n indent⟩]
  /-- When a node has been opened, its children wait above its closing frame and what is beneath. -/
  opened : ∀ path x width, written.getLast? = some ⟨path, .opening x width⟩ →
    stack = Placed.openings path (width + Line.indentStep) 0 x.children ++
      (Placed.closings path x width ++ n.beneath [] indent path)
  /-- The frames that wait to open a node are then those of its children and of the right siblings of
  its place and of all places above it. -/
  waiting : ∀ path x width, written.getLast? = some ⟨path, .opening x width⟩ →
    (stack.filter (·.frame.opens)).map (·.frame.node) = x.children ++ n.beyond path
  /-- When an element has been closed, nothing is left of its place. -/
  closed : ∀ path x width, written.getLast? = some ⟨path, .closing x width⟩ →
    stack = n.beneath [] indent path
  complete : stack = [] → written.length = n.walk.toList.length + n.tags.length

namespace Tracker.Writes
variable {σ ε : Type} {accept : Acceptor σ ε} {n x : Node} {indent width : Int} {path : Path}
  {sink : σ} {written : List Placed} {tracker : Tracker σ}

theorem eq_start {start : Tracker σ} (h : Writes accept start written tracker)
    (none : written = []) : tracker = start := by
  cases h with
  | nothing => rfl
  | line => exact absurd (List.append_eq_nil_iff.mp none).2 (List.cons_ne_nil _ _)

theorem stacked (h : Writes accept ⟨[⟨[], .opening n indent⟩], sink⟩ written tracker) :
    n.Stacked indent tracker.stack := by
  induction h with
  | nothing => exact .root n indent
  | line _ above _ ih =>
      rw [above] at ih
      rw [follow_of_stack above]
      exact ih.successors

/-- The frame of the last line gives way to those that follow from it. -/
theorem stack_eq (h : Writes accept ⟨[⟨[], .opening n indent⟩], sink⟩ written tracker)
    {top : Placed} (last : written.getLast? = some top) :
    tracker.stack = top.successors ++ n.beneath [] indent top.path := by
  cases h with
  | nothing => cases last
  | line earlier above _ =>
      rw [List.getLast?_concat] at last
      cases last
      have stacked := earlier.stacked
      rw [above] at stacked
      rw [follow_of_stack above]
      cases stacked with
      | cons _ under _ => rw [under]

/-- The frames that are written and those that are to be written are the frames of the tree. -/
theorem append_taken_eq_placedFrames
    (h : Writes accept ⟨[⟨[], .opening n indent⟩], sink⟩ written tracker) :
    written ++ tracker.stack.flatMap Placed.taken = n.placedFrames [] indent :=
  h.append_taken.trans (List.flatMap_singleton _ _)

theorem opening_mem (h : Writes accept ⟨[⟨[], .opening n indent⟩], sink⟩ written tracker)
    (waits : ⟨path, .closing x width⟩ ∈ tracker.stack) :
    (∃ tag, x.content = .element tag) ∧ ⟨path, .opening x width⟩ ∈ written := by
  induction h with
  | nothing => cases List.mem_singleton.mp waits
  | @line written tracker next top rest _ above _ ih =>
      rw [follow_of_stack above] at waits
      rcases List.mem_append.mp waits with pushed | old
      · obtain ⟨rfl, element⟩ := Placed.closing_mem_successors_iff.mp pushed
        exact ⟨element, List.mem_append_right _ List.mem_cons_self⟩
      · rw [above] at ih
        obtain ⟨element, earlier⟩ := ih (List.mem_cons_of_mem top old)
        exact ⟨element, List.mem_append_left _ earlier⟩

theorem closing_mem (h : Writes accept ⟨[⟨[], .opening n indent⟩], sink⟩ written tracker)
    {tag : Tag} (own : x.content = .element tag)
    (opened : ⟨path, .opening x width⟩ ∈ written) :
    ⟨path, .closing x width⟩ ∈ tracker.stack ∨ ⟨path, .closing x width⟩ ∈ written := by
  induction h with
  | nothing => cases opened
  | @line written tracker next top rest _ above _ ih =>
      rw [follow_of_stack above]
      rcases List.mem_append.mp opened with earlier | now
      · rcases ih earlier with waits | written
        · rw [above] at waits
          rcases List.mem_cons.mp waits with rfl | under
          · exact .inr (List.mem_append_right _ List.mem_cons_self)
          · exact .inl (List.mem_append_right _ under)
        · exact .inr (List.mem_append_left _ written)
      · left
        apply List.mem_append_left
        exact Placed.closing_mem_successors_iff.mpr ⟨(List.mem_singleton.mp now).symm, tag, own⟩

/-- A closing frame that waits has not been written, since no frame comes twice. -/
theorem closing_not_mem (h : Writes accept ⟨[⟨[], .opening n indent⟩], sink⟩ written tracker)
    (waits : ⟨path, .closing x width⟩ ∈ tracker.stack) :
    ⟨path, .closing x width⟩ ∉ written := by
  intro earlier
  have distinct := n.nodup_placedFrames [] indent
  rw [← h.append_taken_eq_placedFrames] at distinct
  have later : ⟨path, .closing x width⟩ ∈ tracker.stack.flatMap Placed.taken :=
    List.mem_flatMap.mpr ⟨_, waits, List.mem_cons_self⟩
  exact (List.nodup_append.mp distinct).2.2 _ earlier _ later rfl

theorem invariant (h : Writes accept ⟨[⟨[], .opening n indent⟩], sink⟩ written tracker) :
    StackInvariant n indent written tracker.stack := by
  have stacked := h.stacked
  constructor
  case places =>
    intro placed member
    exact ⟨(stacked.stands placed member).place, (stacked.stands placed member).width⟩
  case unclosed =>
    intro path x width
    constructor
    · intro waits
      obtain ⟨element, opened⟩ := h.opening_mem waits
      exact ⟨element, opened, h.closing_not_mem waits⟩
    · rintro ⟨⟨tag, own⟩, opened, unclosed⟩
      exact (h.closing_mem own opened).resolve_right unclosed
  case levels => exact stacked.pairwise.imp Placed.Over.indents
  case nested =>
    apply (stacked.pairwise.filter _).imp_of_mem
    intro inner outer _ member beneath
    have closes : outer.frame.opens = false := by simpa using (List.mem_filter.mp member).2
    exact beneath.closes closes
  case untouched =>
    intro none
    rw [h.eq_start none]
  case opened =>
    intro path x width last
    rw [h.stack_eq last, Placed.successors, List.append_assoc]
  case waiting =>
    intro path x width last
    rw [h.stack_eq last, Placed.successors, List.filter_append, List.filter_append,
      List.map_append, Placed.filter_opens_closings, List.append_nil, Placed.map_node_openings,
      Node.map_node_beneath]
  case closed =>
    intro path x width last
    rw [h.stack_eq last]
    rfl
  case complete =>
    intro empty
    have whole := h.append_taken_eq_placedFrames
    rw [empty, List.flatMap_nil, List.append_nil] at whole
    rw [whole, Node.length_placedFrames]

end Tracker.Writes

namespace Node
variable {σ ε : Type}

theorem fault_print_ne_unbracketed (accept : Acceptor σ ε) (n : Node) (indent : Int) (sink : σ) :
    (n.print accept indent sink).fault ≠ some .unbracketed := by
  rw [print_eq_writeAll]
  have ended := Line.ends_writeAll accept (n.lines indent) sink
  generalize Line.writeAll accept (n.lines indent) sink = outcome at ended
  intro fault
  cases ended with
  | complete delivered => cases fault
  | cut split delivered fails =>
      cases fails <;> cases fault

/-- Whatever the sink does, the stack of a printer keeps its invariant after each line, and the
printers that it comes to are those after each line. It never meets a frame that closes no element,
and without a fault it goes on until its stack is empty. -/
theorem printer_stack_keeps_invariant (accept : Acceptor σ ε) (n : Node) (indent : Int) (sink : σ) :
    let start : Tracker σ := ⟨[⟨[], .opening n indent⟩], sink⟩
    (∀ printer, Printer.Reaches accept ⟨[.opening n indent], sink⟩ printer ↔
      ∃ written tracker, Tracker.Writes accept start written tracker ∧
        tracker.printer = printer) ∧
    (∀ written tracker, Tracker.Writes accept start written tracker →
      StackInvariant n indent written tracker.stack ∧
      ∃ lines, written.map (·.frame.line?) = lines.map some ∧
        Line.Delivers accept lines sink tracker.sink) ∧
    (n.print accept indent sink).fault ≠ some .unbracketed ∧
    ((n.print accept indent sink).fault = none →
      ∃ written last, Tracker.Writes accept start written last ∧ last.stack = []) := by
  intro start
  refine ⟨?_, ?_, fault_print_ne_unbracketed accept n indent sink, ?_⟩
  · intro printer
    exact Tracker.reaches_iff start
  · intro written tracker writes
    exact ⟨writes.invariant, writes.delivers⟩
  · intro done
    have ended : (Printer.run accept start.printer).fault = none := done
    obtain ⟨last, writes, empty⟩ := Tracker.record_writes_to_end ended
    exact ⟨_, last, writes, empty⟩

/-- A comment over two elements, the first of which holds a text. -/
def outlined : Node :=
  ⟨3, .comment "c", [⟨2, .element { name := "q" }, [⟨0, .text "t", []⟩]⟩, ⟨1, .element, []⟩]⟩

theorem outlined_written_line_by_line :
    let start : Tracker Sink := ⟨[⟨[], .opening outlined (-3)⟩], {}⟩
    (∃ written tracker, Tracker.Writes Sink.accept start written tracker ∧
      written.map Placed.path = [[], [0]] ∧
      (tracker.stack.map fun placed => (placed.path, placed.frame.opens, placed.frame.indent)) =
        [([0, 0], true, 1), ([0], false, -1), ([1], true, -1)]) ∧
    (outlined.print Sink.accept (-3) {}).fault = none ∧
    ∃ written last, Tracker.Writes Sink.accept start written last ∧ last.stack = [] ∧
      written.length = 6 := by
  intro start
  obtain ⟨_, invariant, _, ends⟩ := printer_stack_keeps_invariant Sink.accept outlined (-3) {}
  have first : Tracker.Writes Sink.accept start _ _ := .line (.line .nothing rfl rfl) rfl rfl
  have done : (outlined.print Sink.accept (-3) {}).fault = none := by decide +kernel
  obtain ⟨written, last, writes, empty⟩ := ends done
  refine ⟨⟨_, _, first, rfl, ?_⟩, done, written, last, writes, empty, ?_⟩
  · rw [(invariant _ _ first).1.opened _ _ _ rfl]
    rfl
  · rw [(invariant _ _ writes).1.complete empty, toList_walk, tags, toList_walk]
    rfl

end Node

end MarkupTree
