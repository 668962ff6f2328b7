import MarkupTree.Proofs.Rendering
import MarkupTree.Proofs.Tracking

/-!
# The record of a print

A printer writes one line for each frame that it takes from its stack. The record of a run lists
these frames in order, so it tells the lines that open a node from those that close one, however they
are worded. It is the record of a tracker without the paths. A run without a fault records every frame
that follows from its stack: an opening frame for each node in document order, and a closing frame for
each element after everything below it.
-/
namespace MarkupTree

namespace Node

mutual

/-- The frames that are taken to print a tree whose root stands at a given indent. -/
def frames (indent : Int) : Node → List Frame
  | ⟨mark, content, children⟩ =>
      .opening ⟨mark, content, children⟩ indent ::
        (framesAll (indent + Line.indentStep) children ++
          Frame.closings ⟨mark, content, children⟩ indent)

def framesAll (indent : Int) : List Node → List Frame
  | [] => []
  | n :: rest => frames indent n ++ framesAll indent rest

end

theorem frames_eq (indent : Int) (n : Node) :
    n.frames indent = .opening n indent ::
      (framesAll (indent + Line.indentStep) n.children ++ Frame.closings n indent) := by
  cases n; rw [frames]

theorem framesAll_eq_flatMap (indent : Int) (row : List Node) :
    framesAll indent row = row.flatMap (frames indent) := by
  induction row with
  | nil => rfl
  | cons n rest ih => rw [framesAll, ih, List.flatMap_cons]

theorem map_line?_closings (node : Node) (indent : Int) :
    (Frame.closings node indent).map Frame.line? =
      (Line.closings indent node.content).map some := by
  unfold Frame.closings Line.closings
  cases element : node.content.tag? with
  | none => rfl
  | some tag => simp [Frame.line?, element]

theorem map_line?_framesAll {row : List Node}
    (each : ∀ n ∈ row, ∀ indent, (n.frames indent).map Frame.line? = (n.lines indent).map some)
    (indent : Int) : (framesAll indent row).map Frame.line? = (linesAll indent row).map some := by
  rw [framesAll_eq_flatMap, linesAll_eq_flatMap, List.map_flatMap, List.map_flatMap]
  apply List.flatMap_congr
  intro child member
  exact each child member indent

/-- The frames of a tree owe its lines. -/
theorem map_line?_frames (n : Node) (indent : Int) :
    (n.frames indent).map Frame.line? = (n.lines indent).map some := by
  induction n generalizing indent with
  | node mark content children ih =>
      rw [frames_eq, lines_eq, List.map_cons, List.map_append, map_line?_framesAll ih,
        map_line?_closings, List.map_cons, List.map_append]
      rfl

theorem map_frame_placedFramesFrom {row : List Node}
    (each : ∀ n ∈ row, ∀ path indent,
      (n.placedFrames path indent).map Placed.frame = n.frames indent)
    (path : Path) (indent : Int) (index : Nat) :
    (placedFramesFrom path indent index row).map Placed.frame = framesAll indent row := by
  induction row generalizing index with
  | nil => rfl
  | cons n rest ih =>
      obtain ⟨own, later⟩ := List.forall_mem_cons.mp each
      rw [placedFramesFrom, List.map_append, own, ih later, framesAll]

theorem map_frame_placedFrames (n : Node) (path : Path) (indent : Int) :
    (n.placedFrames path indent).map Placed.frame = n.frames indent := by
  induction n generalizing path indent with
  | node mark content children ih =>
      rw [placedFrames_eq, frames_eq, List.map_cons, List.map_append,
        map_frame_placedFramesFrom ih, Placed.map_frame_closings]

end Node

namespace Frame

/-- The text of the line that a frame owes, without the newline that ends it. -/
def text? (frame : Frame) : Option String := frame.line?.map Line.text

/-- The frames that are taken before the one below comes up, this one included. -/
def taken : Frame → List Frame
  | opening node indent => node.frames indent
  | closing node indent => [closing node indent]

end Frame

namespace Placed

theorem map_frame_taken (placed : Placed) : placed.taken.map frame = placed.frame.taken := by
  obtain ⟨path, frame⟩ := placed
  cases frame with
  | opening node indent => exact node.map_frame_placedFrames path indent
  | closing node indent => rfl

theorem map_frame_flatMap_taken (stack : List Placed) :
    (stack.flatMap taken).map frame = (stack.map frame).flatMap Frame.taken := by
  rw [List.map_flatMap, List.flatMap_map]
  apply List.flatMap_congr
  intro placed _
  exact placed.map_frame_taken

end Placed

theorem Frame.taken_eq_cons (frame : Frame) :
    frame.taken = frame :: frame.successors.flatMap taken := by
  have placed := congrArg (List.map Placed.frame) (Placed.taken_eq_cons ⟨[], frame⟩)
  rwa [List.map_cons, Placed.map_frame_taken, Placed.map_frame_flatMap_taken,
    Placed.map_frame_successors] at placed

namespace Printer
variable {σ ε : Type} {accept : Acceptor σ ε}

/-- The frames whose lines are written, in order. A frame whose line cannot be written is left out
and ends the record. -/
def record (accept : Acceptor σ ε) (printer : Printer σ) : List Frame :=
  match _h : step accept printer with
  | .finished _ => []
  | .running next => printer.stack.take 1 ++ record accept next
termination_by printer.weight
decreasing_by exact weight_step_lt ‹_›

theorem record_of_finished {printer : Printer σ} {outcome : Outcome σ ε}
    (h : step accept printer = .finished outcome) : record accept printer = [] := by
  rw [record]; split <;> simp_all

theorem record_of_running {printer next : Printer σ} {frame : Frame} {rest : List Frame}
    (h : step accept printer = .running next) (top : printer.stack = frame :: rest) :
    record accept printer = frame :: record accept next := by
  rw [record]; split <;> simp_all

end Printer

/-- A tracker records what its printer does. -/
theorem Tracker.map_frame_record {σ ε : Type} (accept : Acceptor σ ε) (tracker : Tracker σ) :
    (record accept tracker).map Placed.frame = Printer.record accept tracker.printer := by
  induction tracker using record.induct accept with
  | case1 tracker outcome last =>
      rw [record_of_finished last, Printer.record_of_finished last]
      rfl
  | case2 tracker next first ih =>
      obtain ⟨top, rest, above, _, same⟩ := step_running first
      have frames : tracker.printer.stack = top.frame :: rest.map Placed.frame := by
        rw [printer, above, List.map_cons]
      rw [record_of_running first above, Printer.record_of_running first frames, List.map_cons, ih,
        same]

namespace Printer
variable {σ ε : Type} {accept : Acceptor σ ε}

/-- A run that ends without a fault has taken all frames. -/
theorem record_eq_flatMap {printer : Printer σ} (done : (run accept printer).fault = none) :
    record accept printer = printer.stack.flatMap Frame.taken := by
  obtain ⟨tracker, rfl⟩ := Tracker.exists_of_printer printer
  rw [← Tracker.map_frame_record, Tracker.record_eq_flatMap done, Placed.map_frame_flatMap_taken]
  rfl

/-- Each recorded frame has a line, and these lines are what the sink has taken. -/
theorem delivers_record (accept : Acceptor σ ε) (printer : Printer σ) :
    ∃ lines, (record accept printer).map Frame.line? = lines.map some ∧
      Line.Delivers accept lines printer.sink (run accept printer).sink := by
  obtain ⟨tracker, rfl⟩ := Tracker.exists_of_printer printer
  obtain ⟨last, writes, ended⟩ := Tracker.record_writes accept tracker
  obtain ⟨lines, each, delivered⟩ := writes.delivers
  refine ⟨lines, ?_, ?_⟩
  · rw [← Tracker.map_frame_record, List.map_map]
    exact each
  · rw [sink_of_finished ended]
    exact delivered

/-- Each recorded frame has a line, and this line has a margin. -/
theorem margin_of_mem_record {printer : Printer σ} {frame : Frame}
    (member : frame ∈ record accept printer) :
    ∃ line margin, frame.line? = some line ∧ Margin.ofWidth line.indent = .ok margin := by
  obtain ⟨lines, each, delivered⟩ := delivers_record accept printer
  have owed := List.mem_map_of_mem (f := Frame.line?) member
  rw [each] at owed
  obtain ⟨line, written, own⟩ := List.mem_map.mp owed
  obtain ⟨margin, made⟩ := delivered.fit line written
  exact ⟨line, margin, own.symm, made⟩

/-- A run with a fault stops at a frame that cannot be written. The frames that were to be taken are
the recorded ones, this frame and those that are left. -/
theorem exists_frame_at_fault {printer : Printer σ} {fault : Fault ε}
    (h : (run accept printer).fault = some fault) :
    ∃ last frame rest, Reaches accept printer last ∧ last.stack = frame :: rest ∧
      printer.stack.flatMap Frame.taken =
        record accept printer ++ last.stack.flatMap Frame.taken ∧
      frame.write accept last.sink = .error fault := by
  obtain ⟨tracker, rfl⟩ := Tracker.exists_of_printer printer
  obtain ⟨last, writes, ended⟩ := Tracker.record_writes accept tracker
  have split := congrArg (List.map Placed.frame) writes.append_taken
  rw [List.map_append, Placed.map_frame_flatMap_taken, Placed.map_frame_flatMap_taken,
    Tracker.map_frame_record] at split
  rcases step_finished ended with ⟨_, outcome⟩ | ⟨frame, rest, cause, top, failed, outcome⟩
  · rw [outcome] at h
    cases h
  · rw [outcome] at h
    cases h
    exact ⟨last.printer, frame, rest, writes.reaches, top, split.symm, failed⟩

end Printer

namespace Node

/-- The record of printing a tree to an open sink without a limit. -/
def record (node : Node) (indent : Int) : List Frame :=
  Printer.record Sink.accept ⟨[.opening node indent], {}⟩

/-- The record of printing a tree to an open sink without a limit, each frame with its path. -/
def tracked (node : Node) (indent : Int) : List Placed :=
  Tracker.record Sink.accept ⟨[⟨[], .opening node indent⟩], {}⟩

theorem map_frame_tracked (node : Node) (indent : Int) :
    (node.tracked indent).map Placed.frame = node.record indent :=
  Tracker.map_frame_record Sink.accept _

theorem tracked_of_fault_none {node : Node} {indent : Int}
    (done : (node.printTo indent {}).fault = none) :
    node.tracked indent = node.placedFrames [] indent := by
  let start : Tracker Sink := ⟨[⟨[], .opening node indent⟩], {}⟩
  have whole : Tracker.record Sink.accept start = start.stack.flatMap Placed.taken :=
    Tracker.record_eq_flatMap done
  exact whole.trans (List.flatMap_singleton _ _)

theorem record_of_fault_none {node : Node} {indent : Int}
    (done : (node.printTo indent {}).fault = none) : node.record indent = node.frames indent := by
  rw [← map_frame_tracked, tracked_of_fault_none done, map_frame_placedFrames]

/-- The sink holds one line for each recorded frame, whether or not the printing went on to its
end. -/
theorem lines_printTo (node : Node) (indent : Int) :
    (node.printTo indent {}).sink.lines.map some = (node.record indent).map Frame.text? := by
  obtain ⟨lines, each, delivered⟩ :=
    Printer.delivers_record Sink.accept ⟨[.opening node indent], {}⟩
  have last : (node.printTo indent {}).sink = { taken := (lines.map Line.text).reverse ++ [] } :=
    Sink.eq_adding_of_delivers delivered
  have texts : (node.record indent).map Frame.text? =
      ((node.record indent).map Frame.line?).map (Option.map Line.text) := by
    rw [List.map_map]
    rfl
  rw [last, texts, record, each]
  simp [Sink.lines]

theorem printTo_of_margins {node : Node} {indent : Int}
    (made : ∀ line ∈ node.lines indent, ∃ margin, Margin.ofWidth line.indent = .ok margin) :
    (node.printTo indent {}).fault = none ∧
      (node.printTo indent {}).sink.lines = (node.lines indent).map Line.text := by
  rw [printTo_eq_of_margins made]
  refine ⟨rfl, ?_⟩
  rw [Sink.lines, List.append_nil, List.reverse_reverse]

theorem fault_printTo_of_fits {node : Node} {indent : Int} (fits : node.MarginsFit indent) :
    (node.printTo indent {}).fault = none :=
  (printTo_of_margins fits.of_line).1

end Node

end MarkupTree
