import MarkupTree.Proofs.DocumentOrder
import MarkupTree.Proofs.LineCount

/-!
# Where margins fail

A margin fails by the indent alone, and indents grow by one step from a parent to its children. A
tree that starts within bounds therefore fails at the first place that is too deep for the memory,
before any indent stops being a word, and it fails at an opening line: the line that closes an
element stands at the indent at which the element was opened.
-/
namespace MarkupTree

namespace Margin

theorem exists_ofWidth_iff {width : Int} :
    (∃ margin, ofWidth width = .ok margin) ↔ -wordBound ≤ width ∧ width < memoryBound := by
  constructor
  · rintro ⟨margin, made⟩
    unfold ofWidth at made
    split at made
    · cases made
    · rename_i word
      split at made
      · cases made
      · rename_i small
        omega
  · intro bounds
    have word : ¬ (width < -wordBound ∨ wordBound ≤ width) := by
      simp only [wordBound, memoryBound] at *
      omega
    refine ⟨spaces width.toNat, ?_⟩
    rw [ofWidth, if_neg word, if_neg (Int.not_le.mpr bounds.2)]

theorem ofWidth_eq_overflow {width : Int} (h : width < -wordBound ∨ wordBound ≤ width) :
    ofWidth width = .error .overflow :=
  if_pos h

theorem ofWidth_eq_outOfMemory {width : Int} (large : memoryBound ≤ width)
    (word : width < wordBound) : ofWidth width = .error .outOfMemory := by
  have inside : ¬ (width < -wordBound ∨ wordBound ≤ width) := by
    simp only [wordBound, memoryBound] at *
    omega
  rw [ofWidth, if_neg inside, if_pos large]

/-- Just beyond the margins that can be made, a margin fails for want of memory. -/
theorem outOfMemory_of_near {width : Int} {error : MarginError}
    (near : -wordBound ≤ width ∧ width < memoryBound + Line.indentStep)
    (unmade : ofWidth width = .error error) :
    memoryBound ≤ width ∧ error = .outOfMemory := by
  have large : memoryBound ≤ width := by
    apply Int.not_lt.mp
    intro small
    obtain ⟨margin, made⟩ := exists_ofWidth_iff.mpr ⟨near.1, small⟩
    rw [made] at unmade
    cases unmade
  have word : width < wordBound := by
    simp only [Line.indentStep, memoryBound, wordBound] at *
    omega
  rw [ofWidth_eq_outOfMemory large word] at unmade
  cases unmade
  exact ⟨large, rfl⟩

end Margin

namespace Node

mutual

/-- The depth of the deepest place of a tree. -/
def height : Node → Nat
  | ⟨_, _, children⟩ => heightBelow children

/-- The depth of the deepest place below a node with the given children. -/
def heightBelow : List Node → Nat
  | [] => 0
  | n :: rest => max (height n + 1) (heightBelow rest)

end

theorem height_eq (n : Node) : n.height = heightBelow n.children := by
  cases n; rw [height]

theorem height_lt_heightBelow {child : Node} {row : List Node} (member : child ∈ row) :
    child.height < heightBelow row := by
  induction row with
  | nil => cases member
  | cons n rest ih =>
      rw [heightBelow]
      rcases List.mem_cons.mp member with rfl | later
      · omega
      · have := ih later
        omega

theorem exists_height_of_heightBelow {row : List Node} (children : row ≠ []) :
    ∃ child ∈ row, heightBelow row = child.height + 1 := by
  induction row with
  | nil => exact absurd rfl children
  | cons n rest ih =>
      rw [heightBelow]
      rcases Nat.le_total (heightBelow rest) (n.height + 1) with first | later
      · exact ⟨n, List.mem_cons_self, Nat.max_eq_left first⟩
      · have others : rest ≠ [] := by
          rintro rfl
          rw [heightBelow] at later
          omega
        obtain ⟨child, held, high⟩ := ih others
        exact ⟨child, List.mem_cons_of_mem n held, (Nat.max_eq_right later).trans high⟩

theorem length_le_height {n : Node} {path : Path} (place : (n.at? path).isSome) :
    path.length ≤ n.height := by
  induction path generalizing n with
  | nil => exact Nat.zero_le _
  | cons index path ih =>
      rw [at?_cons, Option.isSome_bind, Option.any_eq_true] at place
      obtain ⟨child, held, below⟩ := place
      have deeper := ih below
      have part := height_lt_heightBelow (List.mem_of_getElem? held)
      rw [height_eq, List.length_cons]
      omega

/-- Some place of a tree is as deep as the tree is high. -/
theorem exists_path_of_height (n : Node) :
    ∃ path, (n.at? path).isSome ∧ path.length = n.height := by
  induction n with
  | node mark content children ih =>
      rw [height_eq]
      by_cases leaf : children = []
      · subst leaf
        exact ⟨[], by simp, rfl⟩
      · obtain ⟨child, member, high⟩ := exists_height_of_heightBelow leaf
        obtain ⟨path, place, deep⟩ := ih child member
        obtain ⟨index, held⟩ := List.mem_iff_getElem?.mp member
        refine ⟨index :: path, ?_, ?_⟩
        · rw [at?_cons, held]
          exact place
        · rw [List.length_cons, deep, high]

end Node

namespace Frame

theorem of_closing_mem_successors {frame : Frame} {node : Node} {indent : Int}
    (member : closing node indent ∈ frame.successors) : frame = opening node indent := by
  obtain ⟨n, width, rfl, ⟨_, _, same⟩ | ⟨_, _, same⟩⟩ := exists_of_mem_successors member
  · cases same
  · cases same
    rfl

theorem of_opening_mem_successors {frame : Frame} {node : Node} {indent : Int}
    (member : opening node indent ∈ frame.successors) :
    ∃ parent width, frame = opening parent width ∧ indent = width + Line.indentStep := by
  obtain ⟨n, width, rfl, ⟨_, _, same⟩ | ⟨_, _, same⟩⟩ := exists_of_mem_successors member
  · cases same
    exact ⟨n, width, rfl, rfl⟩
  · cases same

theorem margin_of_write_opening {σ ε : Type} {accept : Acceptor σ ε} {node : Node} {indent : Int}
    {sink next : σ} (h : (opening node indent).write accept sink = .ok next) :
    ∃ margin, Margin.ofWidth indent = .ok margin := by
  obtain ⟨line, owed, written⟩ := line_of_write h
  obtain ⟨margin, made, _⟩ := Line.write_eq_ok_iff.mp written
  cases owed
  exact ⟨margin, made⟩

/-- Where the line is taken, a frame can only fail for want of a margin. -/
theorem exists_unmade_of_write {σ ε : Type} {accept : Acceptor σ ε} {frame : Frame} {sink : σ}
    {fault : Fault ε} (accepts : ∀ line, ∃ next, accept sink line = .ok next)
    (bracketed : frame.Bracketed) (h : frame.write accept sink = .error fault) :
    ∃ line error, frame.line? = some line ∧ Margin.ofWidth line.indent = .error error ∧
      fault = .margin error := by
  obtain ⟨line, owed, _⟩ := lines_eq_cons bracketed
  rw [write, owed] at h
  cases Line.write_eq_error_iff.mp h with
  | sink made refused =>
      obtain ⟨next, taken⟩ := accepts _
      rw [taken] at refused
      cases refused
  | @margin error unmade => exact ⟨line, error, owed, unmade, rfl⟩

end Frame

namespace Printer
variable {σ ε : Type} {accept : Acceptor σ ε} {printer next : Printer σ}

/-- Every frame that waits to close an element has a margin. -/
def ClosingsFit (printer : Printer σ) : Prop :=
  ∀ node indent, .closing node indent ∈ printer.stack →
    ∃ margin, Margin.ofWidth indent = .ok margin

/-- Every frame that waits to open a node is at most one step beyond the margins that can be
made. -/
def OpeningsNear (printer : Printer σ) : Prop :=
  ∀ node indent, .opening node indent ∈ printer.stack →
    -Margin.wordBound ≤ indent ∧ indent < Margin.memoryBound + Line.indentStep

theorem ClosingsFit.of_running (fit : printer.ClosingsFit)
    (h : step accept printer = .running next) : next.ClosingsFit := by
  intro node indent member
  rcases mem_stack_of_running h member with old | ⟨top, written, pushed⟩
  · exact fit node indent old
  · -- the line that opens the element has just been written with this margin
    rw [Frame.of_closing_mem_successors pushed] at written
    exact Frame.margin_of_write_opening written

theorem OpeningsNear.of_running (near : printer.OpeningsNear)
    (h : step accept printer = .running next) : next.OpeningsNear := by
  intro node indent member
  rcases mem_stack_of_running h member with old | ⟨top, written, pushed⟩
  · exact near node indent old
  · obtain ⟨parent, width, rfl, rfl⟩ := Frame.of_opening_mem_successors pushed
    have bounds := Margin.exists_ofWidth_iff.mp (Frame.margin_of_write_opening written)
    simp only [Line.indentStep]
    omega

theorem closingsFit_root (node : Node) (indent : Int) (sink : σ) :
    ClosingsFit ⟨[.opening node indent], sink⟩ := by
  intro n width member
  cases List.mem_singleton.mp member

theorem openingsNear_root {node : Node} {indent : Int} (low : -Margin.wordBound ≤ indent)
    (high : indent < Margin.memoryBound) (sink : σ) :
    OpeningsNear ⟨[.opening node indent], sink⟩ := by
  intro n width member
  cases List.mem_singleton.mp member
  rw [Line.indentStep]
  omega

end Printer

namespace Node
variable {σ ε : Type} {accept : Acceptor σ ε} {n : Node} {indent : Int} {sink : σ}

/-- A place that is too deep for a margin while all earlier places have one, and the lines before the
line that opens its node. -/
structure CutAt (n : Node) (indent : Int) (earlier : List (Path × Node)) (path : Path) (x : Node)
    (written : List Line) : Prop where
  place : ∃ later, n.places = earlier ++ (path, x) :: later
  shallow : ∀ place ∈ earlier, indent + 2 * place.1.length < Margin.memoryBound
  deep : Margin.memoryBound ≤ indent + 2 * path.length
  frames : ∃ before after,
    n.frames indent = before ++ .opening x (indent + 2 * path.length) :: after ∧
      before.filter Frame.opens = earlier.map (Frame.openingAt indent) ∧
      before.map Frame.line? = written.map some
  lines : ∃ rest,
    n.lines indent = written ++ ⟨indent + 2 * path.length, x.content.heading⟩ :: rest

/-- An opening frame opens a place, and the opening frames before it open the earlier places. -/
theorem exists_place_of_opening {before after : List Frame} {x : Node} {width : Int}
    (split : n.frames indent = before ++ .opening x width :: after) :
    ∃ earlier path later, n.places = earlier ++ (path, x) :: later ∧
      before.filter Frame.opens = earlier.map (Frame.openingAt indent) ∧
      width = indent + 2 * path.length := by
  have opened := n.filter_opens_frames indent
  rw [split, List.filter_append, List.filter_cons_of_pos rfl] at opened
  obtain ⟨earlier, others, places, first, rest⟩ := List.map_eq_append_iff.mp opened.symm
  obtain ⟨⟨path, y⟩, later, rfl, own, _⟩ := List.map_eq_cons_iff.mp rest
  cases own
  exact ⟨earlier, path, later, places, first.symm, rfl⟩

/-- The frames before a frame owe the lines before its line. -/
theorem lines_of_frames {before after : List Frame} {frame : Frame} {line : Line}
    {written : List Line} (split : n.frames indent = before ++ frame :: after)
    (owed : frame.line? = some line) (lines : before.map Frame.line? = written.map some) :
    ∃ rest, n.lines indent = written ++ line :: rest := by
  have all := n.map_line?_frames indent
  rw [split, List.map_append, List.map_cons, lines, owed] at all
  obtain ⟨first, others, parts, same, rest⟩ := List.map_eq_append_iff.mp all.symm
  obtain ⟨next, later, rfl, own, _⟩ := List.map_eq_cons_iff.mp rest
  obtain rfl : first = written := List.map_injective_iff.mpr (fun _ _ => Option.some.inj) same
  obtain rfl : next = line := Option.some.inj own
  exact ⟨later, parts⟩

theorem print_of_root_unmade {error : MarginError} (unmade : Margin.ofWidth indent = .error error)
    (accept : Acceptor σ ε) (n : Node) (sink : σ) :
    n.print accept indent sink = { sink, fault := some (.margin error) } := by
  rw [print_eq_writeAll, lines_eq]
  exact Line.writeAll_cons_of_error (Line.write_eq_error_iff.mpr (.margin unmade))

theorem closings_fit_of_reaches {printer : Printer σ}
    (h : Printer.Reaches accept ⟨[.opening n indent], sink⟩ printer) : printer.ClosingsFit :=
  h.invariant (fun _ _ => Printer.ClosingsFit.of_running) (Printer.closingsFit_root n indent sink)

/-- A place whose opening frame has been written has a margin. -/
theorem shallow_of_mem_record {printer : Printer σ} {place : Path × Node}
    (member : Frame.openingAt indent place ∈ Printer.record accept printer) :
    indent + 2 * place.1.length < Margin.memoryBound := by
  obtain ⟨line, margin, owed, made⟩ := Printer.margin_of_mem_record member
  cases owed
  exact (Margin.exists_ofWidth_iff.mp ⟨margin, made⟩).2

/-- Where every line is taken, a print stops at a frame that opens a node and has no memory for its
margin, and the frames that the tree still owes begin with this one. -/
theorem exists_opening_at_fault (accepts : ∀ sink line, ∃ next, accept sink line = .ok next)
    (low : -Margin.wordBound ≤ indent) (high : indent < Margin.memoryBound) {fault : Fault ε}
    (h : (n.print accept indent sink).fault = some fault) :
    fault = .margin .outOfMemory ∧ ∃ x width after, Margin.memoryBound ≤ width ∧
      n.frames indent =
        Printer.record accept ⟨[.opening n indent], sink⟩ ++ .opening x width :: after := by
  obtain ⟨last, frame, rest, reached, top, split, failed⟩ := Printer.exists_frame_at_fault h
  have bracketed : last.Bracketed :=
    reached.invariant (fun _ _ => Printer.Bracketed.of_running)
      (Printer.bracketed_root n indent sink)
  have near : last.OpeningsNear :=
    reached.invariant (fun _ _ => Printer.OpeningsNear.of_running)
      (Printer.openingsNear_root low high sink)
  have waits : frame ∈ last.stack := by
    rw [top]
    exact List.mem_cons_self
  obtain ⟨line, error, owed, unmade, rfl⟩ :=
    Frame.exists_unmade_of_write (accepts last.sink) (bracketed frame waits) failed
  cases frame with
  | closing x width =>
      obtain ⟨margin, made⟩ := closings_fit_of_reaches reached x width waits
      obtain ⟨tag, _, rfl⟩ := Option.map_eq_some_iff.mp owed
      rw [made] at unmade
      cases unmade
  | opening x width =>
      cases owed
      obtain ⟨deep, rfl⟩ := Margin.outOfMemory_of_near (near x width waits) unmade
      rw [List.flatMap_singleton, Frame.taken, top, List.flatMap_cons,
        (Frame.opening x width).taken_eq_cons, List.cons_append] at split
      exact ⟨rfl, x, width, _, deep, split⟩

theorem cutAt_of_fault (accepts : ∀ sink line, ∃ next, accept sink line = .ok next)
    (low : -Margin.wordBound ≤ indent) (high : indent < Margin.memoryBound) {fault : Fault ε}
    (h : (n.print accept indent sink).fault = some fault) :
    fault = .margin .outOfMemory ∧ ∃ earlier path x written,
      n.CutAt indent earlier path x written ∧
        Line.Delivers accept written sink (n.print accept indent sink).sink := by
  obtain ⟨outOfMemory, x, width, after, deep, split⟩ := exists_opening_at_fault accepts low high h
  obtain ⟨earlier, path, later, places, opened, rfl⟩ := exists_place_of_opening split
  obtain ⟨written, lines, delivered⟩ := Printer.delivers_record accept ⟨[.opening n indent], sink⟩
  refine ⟨outOfMemory, earlier, path, x, written, ?_, delivered⟩
  refine ⟨⟨later, places⟩, ?_, deep, ⟨_, _, split, opened, lines⟩, lines_of_frames split rfl lines⟩
  intro place before
  -- the earlier places are those whose opening frames are on the record
  apply shallow_of_mem_record
  apply List.mem_of_mem_filter
  rw [opened]
  exact List.mem_map_of_mem before

/-- Where every line is taken, a print fails exactly if the tree is too high for its indent. -/
theorem fault_iff_height (accepts : ∀ sink line, ∃ next, accept sink line = .ok next)
    (low : -Margin.wordBound ≤ indent) (high : indent < Margin.memoryBound) :
    (n.print accept indent sink).fault ≠ none ↔
      Margin.memoryBound ≤ indent + 2 * n.height := by
  constructor
  · intro failed
    obtain ⟨fault, h⟩ := Option.ne_none_iff_exists'.mp failed
    obtain ⟨_, earlier, path, x, written, cut, _⟩ := cutAt_of_fault accepts low high h
    obtain ⟨later, places⟩ := cut.place
    have found : n.at? path = some x := @at?_of_mem_places n (path, x) (by simp [places])
    have bound := length_le_height (Option.isSome_of_eq_some found)
    have deep := cut.deep
    omega
  · intro deep done
    obtain ⟨path, place, length⟩ := n.exists_path_of_height
    have member : path ∈ n.places.map Prod.fst := by
      rw [map_fst_places]
      exact mem_paths_iff.mpr place
    obtain ⟨deepest, listed, rfl⟩ := List.mem_map.mp member
    have taken : Frame.openingAt indent deepest ∈
        Printer.record accept ⟨[.opening n indent], sink⟩ := by
      rw [Printer.record_eq_flatMap done, List.flatMap_singleton]
      apply List.mem_of_mem_filter
      rw [Frame.taken, filter_opens_frames]
      exact List.mem_map_of_mem listed
    have shallow := shallow_of_mem_record taken
    omega

/-- A print fails at once if its indent is no word or too large for the memory. From any other
indent, and where every line is taken, it fails exactly if the tree is too high, and then for want of
memory. It stops at the line that opens the first place, in document order, that is too deep, and all
lines before that one are written. Whatever the sink does, a frame that is to close an element has a
margin. -/
theorem print_stops_at_first_deep_place (accept : Acceptor σ ε) (n : Node) (indent : Int)
    (sink : σ) :
    let outcome := n.print accept indent sink
    (indent < -Margin.wordBound ∨ Margin.wordBound ≤ indent →
        outcome = { sink, fault := some (.margin .overflow) }) ∧
      (Margin.memoryBound ≤ indent → indent < Margin.wordBound →
        outcome = { sink, fault := some (.margin .outOfMemory) }) ∧
      ((∀ sink line, ∃ next, accept sink line = .ok next) →
        -Margin.wordBound ≤ indent → indent < Margin.memoryBound →
          (outcome.fault ≠ none ↔ Margin.memoryBound ≤ indent + 2 * n.height) ∧
          ∀ fault, outcome.fault = some fault →
            fault = .margin .outOfMemory ∧ ∃ earlier path x written,
              n.CutAt indent earlier path x written ∧
                Line.Delivers accept written sink outcome.sink) ∧
      ∀ printer, Printer.Reaches accept ⟨[.opening n indent], sink⟩ printer →
        ∀ x width, .closing x width ∈ printer.stack →
          ∃ margin, Margin.ofWidth width = .ok margin := by
  intro outcome
  refine ⟨?_, ?_, ?_, ?_⟩
  · intro outside
    exact print_of_root_unmade (Margin.ofWidth_eq_overflow outside) accept n sink
  · intro large word
    exact print_of_root_unmade (Margin.ofWidth_eq_outOfMemory large word) accept n sink
  · intro accepts low high
    refine ⟨fault_iff_height accepts low high, ?_⟩
    intro fault h
    exact cutAt_of_fault accepts low high h
  · intro printer reached
    exact closings_fit_of_reaches reached

/-- An element over a finished element and over a text with a comment below it. -/
def threeLevels : Node :=
  ⟨0, .element { name := "a" },
    [⟨1, .element { name := "b" }, []⟩, ⟨2, .text "t", [⟨3, .comment "c", []⟩]⟩]⟩

/-- A sink that takes every line and only counts them. -/
def counting : Acceptor Nat Empty := fun count _ => .ok (count + 1)

theorem threeLevels_stops_at_comment :
    (∀ count line, ∃ next, counting count line = .ok next) ∧
      (threeLevels.print counting (Margin.memoryBound - 3) 0).fault =
        some (.margin .outOfMemory) ∧
      (threeLevels.print counting (Margin.memoryBound - 4) 0).fault ≠ none ∧
      (threeLevels.print counting (Margin.memoryBound - 5) 0).fault = none ∧
      threeLevels.print counting Margin.memoryBound 0 =
        { sink := 0, fault := some (.margin .outOfMemory) } ∧
      threeLevels.print counting (-Margin.wordBound - 1) 0 =
        { sink := 0, fault := some (.margin .overflow) } := by
  have accepts : ∀ count line, ∃ next, counting count line = .ok next :=
    fun count _ => ⟨count + 1, rfl⟩
  have high : threeLevels.height = 2 := by decide +kernel
  have stops := fun indent => print_stops_at_first_deep_place counting threeLevels indent 0
  have fails := fun indent low small => ((stops indent).2.2.1 accepts low small).1
  rw [high] at fails
  refine ⟨accepts, ?_, ?_, ?_, (stops _).2.1 (by decide) (by decide), (stops _).1 (by decide)⟩
  · have failed := (fails (Margin.memoryBound - 3) (by decide) (by decide)).mpr (by decide)
    obtain ⟨fault, h⟩ := Option.ne_none_iff_exists'.mp failed
    rw [h, (((stops _).2.2.1 accepts (by decide) (by decide)).2 fault h).1]
  · exact (fails (Margin.memoryBound - 4) (by decide) (by decide)).mpr (by decide)
  · exact not_not.mp (mt (fails (Margin.memoryBound - 5) (by decide) (by decide)).mp (by decide))

end Node

end MarkupTree
