import MarkupTree.Node.Path
import MarkupTree.Proofs.Printing

/-!
# Frames at their places

A frame does not tell at which place its node stands, and a node that is held twice can have the same
frames at both places. A tracker follows the steps of a printer and keeps a path with each frame: the
root has the empty path, a frame that opens a child has one index more than the frame it follows from,
and a frame that closes an element has the path of the frame that opened it. Without the paths this is
the run of the printer, so what a tracker writes tells what its printer writes.
-/
namespace MarkupTree

namespace Frame

def node : Frame → Node
  | opening node _ => node
  | closing node _ => node

def indent : Frame → Int
  | opening _ indent => indent
  | closing _ indent => indent

def opens : Frame → Bool
  | opening _ _ => true
  | closing _ _ => false

def closings (node : Node) (indent : Int) : List Frame :=
  match node.content.tag? with
  | some _ => [closing node indent]
  | none => []

theorem eq_of_mem_closings {frame : Frame} {node : Node} {indent : Int}
    (member : frame ∈ closings node indent) : frame = .closing node indent := by
  unfold closings at member
  split at member
  · exact List.mem_singleton.mp member
  · cases member

theorem line_of_write {σ ε : Type} {accept : Acceptor σ ε} {frame : Frame} {sink next : σ}
    (h : frame.write accept sink = .ok next) :
    ∃ line, frame.line? = some line ∧ line.write accept sink = .ok next := by
  cases owed : frame.line? with
  | none =>
      rw [write, owed] at h
      cases h
  | some line =>
      rw [write, owed] at h
      exact ⟨line, rfl, h⟩

end Frame

/-- A frame with the path of its node. -/
structure Placed where
  path : Path
  frame : Frame

namespace Placed

/-- The frames that open the children of the node at a path, from the child at `index` on. -/
def openings (path : Path) (indent : Int) (index : Nat) : List Node → List Placed
  | [] => []
  | n :: rest => ⟨path ++ [index], .opening n indent⟩ :: openings path indent (index + 1) rest

/-- The frame that closes the node at a path, if it is an element. -/
def closings (path : Path) (node : Node) (indent : Int) : List Placed :=
  (Frame.closings node indent).map (Placed.mk path)

/-- The frames that take the place of a frame, with their paths. -/
def successors : Placed → List Placed
  | ⟨path, .opening node indent⟩ =>
      openings path (indent + Line.indentStep) 0 node.children ++ closings path node indent
  | ⟨_, .closing _ _⟩ => []

theorem map_frame_openings (path : Path) (indent : Int) (index : Nat) (row : List Node) :
    (openings path indent index row).map frame = row.map (.opening · indent) := by
  induction row generalizing index with
  | nil => rfl
  | cons n rest ih => rw [openings, List.map_cons, ih, List.map_cons]

theorem map_frame_closings (path : Path) (node : Node) (indent : Int) :
    (closings path node indent).map frame = Frame.closings node indent := by
  rw [closings, List.map_map]
  exact List.map_id _

theorem eq_of_mem_closings {placed : Placed} {path : Path} {node : Node} {indent : Int}
    (member : placed ∈ closings path node indent) : placed = ⟨path, .closing node indent⟩ := by
  obtain ⟨frame, close, rfl⟩ := List.mem_map.mp member
  rw [Frame.eq_of_mem_closings close]

theorem closings_of_element {x : Node} {tag : Tag} (own : x.content = .element tag) (path : Path)
    (width : Int) : closings path x width = [⟨path, .closing x width⟩] := by
  rw [closings, Frame.closings, own]
  rfl

theorem closings_of_none {x : Node} (own : x.content.tag? = none) (path : Path) (width : Int) :
    closings path x width = [] := by
  rw [closings, Frame.closings, own]
  rfl

theorem map_frame_successors (placed : Placed) :
    placed.successors.map frame = placed.frame.successors := by
  obtain ⟨path, frame⟩ := placed
  cases frame with
  | closing node indent => rfl
  | opening node indent =>
      rw [successors, List.map_append, map_frame_openings, map_frame_closings]
      rfl

end Placed

namespace Node

mutual

/-- The frames that are taken to print a tree whose root stands at a path, with their paths. -/
def placedFrames (path : Path) (indent : Int) : Node → List Placed
  | ⟨mark, content, children⟩ =>
      ⟨path, .opening ⟨mark, content, children⟩ indent⟩ ::
        (placedFramesFrom path (indent + Line.indentStep) 0 children ++
          Placed.closings path ⟨mark, content, children⟩ indent)

/-- The frames of the children of the node at a path, from the child at `index` on. -/
def placedFramesFrom (path : Path) (indent : Int) (index : Nat) : List Node → List Placed
  | [] => []
  | n :: rest =>
      placedFrames (path ++ [index]) indent n ++ placedFramesFrom path indent (index + 1) rest

end

theorem placedFrames_eq (path : Path) (indent : Int) (n : Node) :
    n.placedFrames path indent = ⟨path, .opening n indent⟩ ::
      (placedFramesFrom path (indent + Line.indentStep) 0 n.children ++
        Placed.closings path n indent) := by
  cases n; rw [placedFrames]

end Node

namespace Placed

/-- The frames that are taken before the one below comes up, this one included. -/
def taken : Placed → List Placed
  | ⟨path, .opening node indent⟩ => node.placedFrames path indent
  | ⟨path, .closing node indent⟩ => [⟨path, .closing node indent⟩]

theorem flatMap_taken_openings (path : Path) (indent : Int) (index : Nat) (row : List Node) :
    (openings path indent index row).flatMap taken =
      Node.placedFramesFrom path indent index row := by
  induction row generalizing index with
  | nil => rfl
  | cons n rest ih => rw [openings, List.flatMap_cons, ih, Node.placedFramesFrom, taken]

theorem flatMap_taken_closings (path : Path) (node : Node) (indent : Int) :
    (closings path node indent).flatMap taken = closings path node indent := by
  unfold closings Frame.closings
  split <;> rfl

theorem taken_eq_cons (placed : Placed) :
    placed.taken = placed :: placed.successors.flatMap taken := by
  obtain ⟨path, frame⟩ := placed
  cases frame with
  | opening node indent =>
      rw [successors, List.flatMap_append, flatMap_taken_openings, flatMap_taken_closings, taken,
        node.placedFrames_eq]
  | closing node indent => rfl

end Placed

/-- A printer that knows the path of each of its frames. -/
structure Tracker (σ : Type) where
  stack : List Placed
  sink : σ

namespace Tracker
variable {σ ε : Type} {accept : Acceptor σ ε} {start tracker last : Tracker σ}
  {written : List Placed}

def printer (tracker : Tracker σ) : Printer σ :=
  ⟨tracker.stack.map Placed.frame, tracker.sink⟩

/-- Every printer is that of a tracker, so what trackers tell of their printers holds of all. -/
theorem exists_of_printer (printer : Printer σ) :
    ∃ tracker : Tracker σ, tracker.printer = printer := by
  refine ⟨⟨printer.stack.map (Placed.mk []), printer.sink⟩, ?_⟩
  rw [Tracker.printer, List.map_map]
  exact congrArg (Printer.mk · printer.sink) (List.map_id _)

/-- The tracker after the printer has written the top frame and left the sink as given. -/
def follow (tracker : Tracker σ) (sink : σ) : Tracker σ :=
  match tracker.stack with
  | [] => ⟨[], sink⟩
  | top :: rest => ⟨top.successors ++ rest, sink⟩

theorem follow_of_stack {top : Placed} {rest : List Placed} (above : tracker.stack = top :: rest)
    (sink : σ) : tracker.follow sink = ⟨top.successors ++ rest, sink⟩ := by
  rw [follow, above]

theorem step_running {tracker : Tracker σ} {next : Printer σ}
    (h : Printer.step accept tracker.printer = .running next) :
    ∃ top rest, tracker.stack = top :: rest ∧
      top.frame.write accept tracker.sink = .ok next.sink ∧
      (tracker.follow next.sink).printer = next := by
  obtain ⟨frame, below, above, wrote, stack⟩ := Printer.step_running h
  obtain ⟨top, rest, own, rfl, rfl⟩ := List.map_eq_cons_iff.mp above
  refine ⟨top, rest, own, wrote, ?_⟩
  rw [follow_of_stack own, printer, List.map_append, Placed.map_frame_successors, ← stack]

/-- What a tracker comes to while the lines of some frames are written, in their order. -/
inductive Writes (accept : Acceptor σ ε) (start : Tracker σ) : List Placed → Tracker σ → Prop where
  | nothing : Writes accept start [] start
  | line {written : List Placed} {tracker : Tracker σ} {next : Printer σ} {top : Placed}
      {rest : List Placed} (earlier : Writes accept start written tracker)
      (above : tracker.stack = top :: rest)
      (step : Printer.step accept tracker.printer = .running next) :
      Writes accept start (written ++ [top]) (tracker.follow next.sink)

theorem Writes.head {next : Printer σ} {top : Placed} {rest : List Placed}
    (above : start.stack = top :: rest)
    (step : Printer.step accept start.printer = .running next)
    (h : Writes accept (start.follow next.sink) written last) :
    Writes accept start (top :: written) last := by
  induction h with
  | nothing => exact .line .nothing above step
  | line _ above' step' ih => exact .line ih above' step'

theorem Writes.reaches (h : Writes accept start written tracker) :
    Printer.Reaches accept start.printer tracker.printer := by
  induction h with
  | nothing => exact .refl
  | line _ _ step ih =>
      obtain ⟨_, _, _, _, same⟩ := step_running step
      rw [same]
      exact ih.tail step

/-- The printers that a printer comes to are those of its tracker. -/
theorem reaches_iff (start : Tracker σ) {printer : Printer σ} :
    Printer.Reaches accept start.printer printer ↔
      ∃ written tracker, Writes accept start written tracker ∧ tracker.printer = printer := by
  constructor
  · intro h
    induction h with
    | refl => exact ⟨[], start, .nothing, rfl⟩
    | tail _ first ih =>
        obtain ⟨written, tracker, writes, rfl⟩ := ih
        obtain ⟨top, rest, above, _, same⟩ := step_running first
        exact ⟨_, _, .line writes above first, same⟩
  · rintro ⟨written, tracker, writes, rfl⟩
    exact writes.reaches

/-- Each line that is written reaches the sink, in order. -/
theorem Writes.delivers (h : Writes accept start written tracker) :
    ∃ lines, written.map (·.frame.line?) = lines.map some ∧
      Line.Delivers accept lines start.sink tracker.sink := by
  induction h with
  | nothing => exact ⟨[], rfl, .nil _⟩
  | @line written tracker next top rest _ above step ih =>
      obtain ⟨lines, each, delivered⟩ := ih
      obtain ⟨_, _, above', wrote, _⟩ := step_running step
      cases above.symm.trans above'
      obtain ⟨line, owed, accepted⟩ := Frame.line_of_write wrote
      refine ⟨lines ++ [line], ?_, ?_⟩
      · rw [List.map_append, List.map_append, each, List.map_singleton, owed]
        rfl
      · rw [follow_of_stack above]
        exact delivered.concat accepted

/-- The frames that are written and those that are still to be taken are those that were to be taken
at the start. -/
theorem Writes.append_taken (h : Writes accept start written tracker) :
    written ++ tracker.stack.flatMap Placed.taken = start.stack.flatMap Placed.taken := by
  induction h with
  | nothing => exact List.nil_append _
  | line _ above _ ih =>
      rw [← ih, follow_of_stack above, above, List.flatMap_append, List.flatMap_cons,
        Placed.taken_eq_cons, List.append_assoc, List.singleton_append, List.cons_append]

/-- The frames whose lines are written, in order and with their paths. -/
def record (accept : Acceptor σ ε) (tracker : Tracker σ) : List Placed :=
  match _h : Printer.step accept tracker.printer with
  | .finished _ => []
  | .running next => tracker.stack.take 1 ++ record accept (tracker.follow next.sink)
termination_by tracker.printer.weight
decreasing_by
  obtain ⟨_, _, _, _, same⟩ := step_running _h
  rw [same]
  exact Printer.weight_step_lt _h

theorem record_of_finished {tracker : Tracker σ} {outcome : Outcome σ ε}
    (h : Printer.step accept tracker.printer = .finished outcome) :
    record accept tracker = [] := by
  rw [record]; split <;> simp_all

theorem record_of_running {tracker : Tracker σ} {next : Printer σ} {top : Placed}
    {rest : List Placed} (h : Printer.step accept tracker.printer = .running next)
    (above : tracker.stack = top :: rest) :
    record accept tracker = top :: record accept (tracker.follow next.sink) := by
  rw [record]; split <;> simp_all

/-- The recorded frames are written in turn, and then the run is at its end. -/
theorem record_writes (accept : Acceptor σ ε) (start : Tracker σ) :
    ∃ last, Writes accept start (record accept start) last ∧
      Printer.step accept last.printer = .finished (Printer.run accept start.printer) := by
  induction start using record.induct accept with
  | case1 start outcome ended =>
      rw [record_of_finished ended, Printer.run_of_finished ended]
      exact ⟨start, .nothing, ended⟩
  | case2 start next first ih =>
      obtain ⟨top, rest, above, _, same⟩ := step_running first
      obtain ⟨last, writes, ended⟩ := ih
      rw [same] at ended
      rw [record_of_running first above, Printer.run_of_running first]
      exact ⟨last, writes.head above first, ended⟩

/-- A run without a fault ends with an empty stack. -/
theorem record_writes_to_end (done : (Printer.run accept start.printer).fault = none) :
    ∃ last, Writes accept start (record accept start) last ∧ last.stack = [] := by
  obtain ⟨last, writes, ended⟩ := record_writes accept start
  rcases Printer.step_finished ended with ⟨empty, _⟩ | ⟨_, _, _, _, _, failed⟩
  · exact ⟨last, writes, List.map_eq_nil_iff.mp empty⟩
  · rw [failed] at done
    cases done

/-- A run that ends without a fault has taken all frames at their places. -/
theorem record_eq_flatMap (done : (Printer.run accept start.printer).fault = none) :
    record accept start = start.stack.flatMap Placed.taken := by
  obtain ⟨last, writes, empty⟩ := record_writes_to_end done
  rw [← writes.append_taken, empty, List.flatMap_nil, List.append_nil]

end Tracker

end MarkupTree
