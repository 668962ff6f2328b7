import MarkupTree.Printer
import MarkupTree.Proofs.Delivery
import Mathlib.Logic.Relation

/-!
# The printer writes the lines of the tree

A frame owes the lines of everything that follows from it, and a stack owes the lines of its frames
from the top down. Writing the line of the top frame takes just that line off what is owed, so the
printer is a pass over the lines of the tree, whatever the sink does.
-/
namespace MarkupTree

namespace Frame

/-- A frame that closes belongs to an element. -/
def Bracketed : Frame → Prop
  | opening _ _ => True
  | closing node _ => ∃ tag, node.content.tag? = some tag

/-- All lines that are written before the frame below comes up. -/
def lines : Frame → List Line
  | opening node indent => node.lines indent
  | closing node indent => Line.closings indent node.content

/-- Only an opening frame is followed by others: it opens the children, and closes an element. -/
theorem exists_of_mem_successors {frame next : Frame} (member : next ∈ frame.successors) :
    ∃ node indent, frame = opening node indent ∧
      ((∃ child ∈ node.children, next = opening child (indent + Line.indentStep)) ∨
        ∃ tag, node.content.tag? = some tag ∧ next = closing node indent) := by
  cases frame with
  | closing node indent => cases member
  | opening node indent =>
      refine ⟨node, indent, rfl, ?_⟩
      rw [successors] at member
      rcases List.mem_append.mp member with child | close
      · obtain ⟨n, held, same⟩ := List.mem_map.mp child
        exact .inl ⟨n, held, same.symm⟩
      · split at close
        · rename_i tag element
          exact .inr ⟨tag, element, List.mem_singleton.mp close⟩
        · cases close

theorem Bracketed.of_successor {frame next : Frame} (member : next ∈ frame.successors) :
    next.Bracketed := by
  obtain ⟨node, indent, _, ⟨child, _, rfl⟩ | ⟨tag, element, rfl⟩⟩ :=
    exists_of_mem_successors member
  · exact trivial
  · exact ⟨tag, element⟩

theorem flatMap_lines_openings (row : List Node) (indent : Int) :
    (row.map (opening · indent)).flatMap lines = Node.linesAll indent row := by
  rw [List.flatMap_map, Node.linesAll_eq_flatMap]
  rfl

theorem flatMap_lines_successors (node : Node) (indent : Int) :
    (opening node indent).successors.flatMap lines =
      Node.linesAll (indent + Line.indentStep) node.children ++
        Line.closings indent node.content := by
  rw [successors, List.flatMap_append, flatMap_lines_openings, Line.closings]
  cases element : node.content.tag? with
  | some tag => simp [lines, Line.closings, element]
  | none => rfl

/-- The line of a frame comes first, and the frames that follow from it owe all the others. -/
theorem lines_eq_cons {frame : Frame} (h : frame.Bracketed) :
    ∃ line, frame.line? = some line ∧ frame.lines = line :: frame.successors.flatMap lines := by
  cases frame with
  | opening node indent =>
      refine ⟨⟨indent, node.content.heading⟩, rfl, ?_⟩
      rw [flatMap_lines_successors, lines, node.lines_eq]
  | closing node indent =>
      obtain ⟨tag, element⟩ := h
      refine ⟨⟨indent, tag.closing⟩, ?_, ?_⟩
      · simp [line?, element]
      · simp [lines, Line.closings, element, successors]

end Frame

namespace Printer
variable {σ ε : Type} {accept : Acceptor σ ε}

def Bracketed (printer : Printer σ) : Prop := ∀ frame ∈ printer.stack, frame.Bracketed

def owed (printer : Printer σ) : List Line := printer.stack.flatMap Frame.lines

theorem step_finished {printer : Printer σ} {outcome : Outcome σ ε}
    (h : step accept printer = .finished outcome) :
    (printer.stack = [] ∧ outcome = { sink := printer.sink }) ∨
      ∃ frame rest fault, printer.stack = frame :: rest ∧
        frame.write accept printer.sink = .error fault ∧
        outcome = { sink := printer.sink, fault := some fault } := by
  obtain ⟨stack, sink⟩ := printer
  cases stack with
  | nil =>
      cases h
      exact .inl ⟨rfl, rfl⟩
  | cons frame rest =>
      rw [step] at h
      cases written : frame.write accept sink with
      | error fault =>
          rw [written] at h
          cases h
          exact .inr ⟨frame, rest, fault, rfl, written, rfl⟩
      | ok next =>
          rw [written] at h
          cases h

/-- The last step leaves the sink as it is. -/
theorem sink_of_finished {printer : Printer σ} {outcome : Outcome σ ε}
    (h : step accept printer = .finished outcome) : outcome.sink = printer.sink := by
  rcases step_finished h with ⟨_, rfl⟩ | ⟨_, _, _, _, _, rfl⟩
  · rfl
  · rfl

theorem step_running {printer next : Printer σ} (h : step accept printer = .running next) :
    ∃ frame rest, printer.stack = frame :: rest ∧
      frame.write accept printer.sink = .ok next.sink ∧ next.stack = frame.successors ++ rest := by
  obtain ⟨stack, sink⟩ := printer
  cases stack with
  | nil => cases h
  | cons frame rest =>
      rw [step] at h
      cases written : frame.write accept sink with
      | error fault =>
          rw [written] at h
          cases h
      | ok later =>
          rw [written] at h
          cases h
          exact ⟨frame, rest, rfl, written, rfl⟩

/-- The printers that a printer comes to, itself included. -/
def Reaches (accept : Acceptor σ ε) : Printer σ → Printer σ → Prop :=
  Relation.ReflTransGen fun printer next => step accept printer = .running next

/-- What every line keeps holds of all printers that a printer comes to. -/
theorem Reaches.invariant {P : Printer σ → Prop}
    (keeps : ∀ printer next, P printer → step accept printer = .running next → P next)
    {printer last : Printer σ} (h : Reaches accept printer last) (start : P printer) : P last := by
  induction h with
  | refl => exact start
  | tail _ next ih => exact keeps _ _ ih next

theorem bracketed_root (node : Node) (indent : Int) (sink : σ) :
    Bracketed ⟨[.opening node indent], sink⟩ := by
  intro frame member
  have root := List.mem_singleton.mp member
  subst root
  exact trivial

theorem owed_root (node : Node) (indent : Int) (sink : σ) :
    owed ⟨[.opening node indent], sink⟩ = node.lines indent :=
  List.flatMap_singleton _ _

/-- A frame that waits after a step has waited before it or follows from the frame just written. -/
theorem mem_stack_of_running {printer next : Printer σ} {frame : Frame}
    (h : step accept printer = .running next) (member : frame ∈ next.stack) :
    frame ∈ printer.stack ∨
      ∃ top : Frame, top.write accept printer.sink = .ok next.sink ∧ frame ∈ top.successors := by
  obtain ⟨top, rest, above, written, stack⟩ := step_running h
  rw [stack] at member
  rcases List.mem_append.mp member with pushed | old
  · exact .inr ⟨top, written, pushed⟩
  · left
    rw [above]
    exact List.mem_cons_of_mem top old

theorem Bracketed.of_running {printer next : Printer σ} (bracketed : printer.Bracketed)
    (h : step accept printer = .running next) : next.Bracketed := by
  intro frame member
  rcases mem_stack_of_running h member with old | ⟨top, _, pushed⟩
  · exact bracketed frame old
  · exact .of_successor pushed

/-- The next line that is owed is the one that the top frame writes. -/
theorem owed_of_top {printer : Printer σ} {frame : Frame} {rest : List Frame}
    (bracketed : printer.Bracketed) (top : printer.stack = frame :: rest)
    (accept : Acceptor σ ε) :
    ∃ line, printer.owed = line :: (frame.successors ++ rest).flatMap Frame.lines ∧
      frame.write accept printer.sink = line.write accept printer.sink := by
  have own : frame.Bracketed := by
    apply bracketed
    rw [top]
    exact List.mem_cons_self
  obtain ⟨line, first, lines⟩ := Frame.lines_eq_cons own
  refine ⟨line, ?_, ?_⟩
  · rw [owed, top, List.flatMap_cons, lines, List.cons_append, List.flatMap_append]
  · rw [Frame.write, first]

theorem writeAll_of_finished {printer : Printer σ} {outcome : Outcome σ ε}
    (bracketed : printer.Bracketed) (h : step accept printer = .finished outcome) :
    Line.writeAll accept printer.owed printer.sink = outcome := by
  rcases step_finished h with ⟨empty, rfl⟩ | ⟨frame, rest, fault, top, failed, rfl⟩
  · rw [owed, empty]
    rfl
  · obtain ⟨line, lines, write⟩ := owed_of_top bracketed top accept
    rw [lines]
    exact Line.writeAll_cons_of_error (write.symm.trans failed)

theorem writeAll_of_running {printer next : Printer σ} (bracketed : printer.Bracketed)
    (h : step accept printer = .running next) :
    Line.writeAll accept printer.owed printer.sink =
      Line.writeAll accept next.owed next.sink := by
  obtain ⟨frame, rest, top, written, stack⟩ := step_running h
  obtain ⟨line, lines, write⟩ := owed_of_top bracketed top accept
  rw [lines, owed, stack]
  exact Line.writeAll_cons_of_ok (write.symm.trans written)

theorem run_eq_writeAll {printer : Printer σ} (bracketed : printer.Bracketed) :
    run accept printer = Line.writeAll accept printer.owed printer.sink := by
  induction printer using run.induct accept with
  | case1 printer outcome last =>
      rw [run_of_finished last, writeAll_of_finished bracketed last]
  | case2 printer next first ih =>
      rw [run_of_running first, ih (bracketed.of_running first),
        writeAll_of_running bracketed first]

end Printer

namespace Node
variable {σ ε : Type}

theorem print_eq_writeAll (accept : Acceptor σ ε) (node : Node) (indent : Int) (sink : σ) :
    node.print accept indent sink = Line.writeAll accept (node.lines indent) sink := by
  rw [print, Printer.run_eq_writeAll (Printer.bracketed_root node indent sink),
    Printer.owed_root]

/-- Printing is a pass over the lines of the tree at any sink. It ends with the lines before the
first one that fails, for want of a margin or by the sink, and without a fault only if the sink has
taken all of them. -/
theorem print_leaves_lines_before_fault (accept : Acceptor σ ε) (node : Node) (indent : Int)
    (sink : σ) :
    node.print accept indent sink = Line.writeAll accept (node.lines indent) sink ∧
      (∀ outcome, node.print accept indent sink = outcome ↔
        Line.Ends accept (node.lines indent) sink outcome) ∧
      ((node.print accept indent sink).fault = none ↔
        ∃ last, Line.Delivers accept (node.lines indent) sink last) := by
  rw [print_eq_writeAll]
  refine ⟨rfl, ?_, Line.fault_writeAll_eq_none_iff⟩
  intro outcome
  exact Line.writeAll_eq_iff

end Node

end MarkupTree
