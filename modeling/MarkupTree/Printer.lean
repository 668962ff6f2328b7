import MarkupTree.Line

/-!
# Printing with a stack

The printer keeps a stack of frames, each of which owes one line. The frame that closes an element
lies under the frames of its children, so it comes up when everything below the element has been
printed. The depth of a tree is no limit.
-/
namespace MarkupTree

/-- A line that is owed: the one that opens a node or the one that closes it. -/
inductive Frame where
  | opening (node : Node) (indent : Int)
  | closing (node : Node) (indent : Int)

namespace Frame

/-- The line a frame owes. Only an element can be closed. -/
def line? : Frame → Option Line
  | opening node indent => some ⟨indent, node.content.heading⟩
  | closing node indent => node.content.tag?.map fun tag => ⟨indent, tag.closing⟩

/-- The frames that take the place of a frame once its line is written, the next one first. -/
def successors : Frame → List Frame
  | opening node indent =>
      node.children.map (opening · (indent + Line.indentStep)) ++
        match node.content.tag? with
        | some _ => [closing node indent]
        | none => []
  | closing _ _ => []

/-- An upper bound for the lines that are owed by a frame and by the frames that follow from it. -/
def weight : Frame → Nat
  | opening node _ => 2 * node.size
  | closing _ _ => 1

def weightAll : List Frame → Nat
  | [] => 0
  | frame :: rest => frame.weight + weightAll rest

def write {σ ε : Type} (accept : Acceptor σ ε) (frame : Frame) (sink : σ) :
    Except (Fault ε) σ :=
  match frame.line? with
  | some line => line.write accept sink
  | none => .error .unbracketed

@[simp] theorem weightAll_append (a b : List Frame) :
    weightAll (a ++ b) = weightAll a + weightAll b := by
  induction a with
  | nil => simp [weightAll]
  | cons frame rest ih => simp [weightAll, ih, Nat.add_assoc]

theorem weightAll_openings (row : List Node) (indent : Int) :
    weightAll (row.map (opening · indent)) = 2 * Node.sizeAll row := by
  induction row with
  | nil => rfl
  | cons n rest ih =>
      simp only [List.map_cons, weightAll, ih, weight, Node.sizeAll]
      omega

theorem weightAll_successors_lt (frame : Frame) : weightAll frame.successors < frame.weight := by
  cases frame with
  | closing node indent => simp [successors, weightAll, weight]
  | opening node indent =>
      simp only [successors, weightAll_append, weightAll_openings, weight, node.size_eq]
      split
      · simp only [weightAll, weight]; omega
      · simp only [weightAll]; omega

end Frame

/-- A printer between two lines. -/
structure Printer (σ : Type) where
  stack : List Frame
  sink : σ

namespace Printer
variable {σ ε : Type}

inductive Progress (σ ε : Type) where
  | finished (outcome : Outcome σ ε)
  | running (printer : Printer σ)

def weight (printer : Printer σ) : Nat := Frame.weightAll printer.stack

/-- Writes the line of the next frame and puts the frames that follow from it on the stack. -/
def step (accept : Acceptor σ ε) : Printer σ → Progress σ ε
  | ⟨[], sink⟩ => .finished { sink }
  | ⟨frame :: rest, sink⟩ =>
      match frame.write accept sink with
      | .error fault => .finished { sink, fault := some fault }
      | .ok sink => .running ⟨frame.successors ++ rest, sink⟩

theorem weight_step_lt {accept : Acceptor σ ε} {printer next : Printer σ}
    (h : step accept printer = .running next) : next.weight < printer.weight := by
  obtain ⟨stack, sink⟩ := printer
  cases stack with
  | nil => cases h
  | cons frame rest =>
      simp only [step] at h
      split at h
      · cases h
      · cases h
        have := frame.weightAll_successors_lt
        simp only [weight, Frame.weightAll_append, Frame.weightAll]
        omega

/-- Writes line after line until one cannot be written or none is owed. -/
def run (accept : Acceptor σ ε) (printer : Printer σ) : Outcome σ ε :=
  match _h : step accept printer with
  | .finished outcome => outcome
  | .running next => run accept next
termination_by printer.weight
decreasing_by exact weight_step_lt ‹_›

theorem run_of_finished {accept : Acceptor σ ε} {printer : Printer σ} {outcome : Outcome σ ε}
    (h : step accept printer = .finished outcome) : run accept printer = outcome := by
  rw [run]; split <;> simp_all

theorem run_of_running {accept : Acceptor σ ε} {printer next : Printer σ}
    (h : step accept printer = .running next) : run accept printer = run accept next := by
  rw [run]; split <;> simp_all

end Printer

namespace Node

/-- Prints a tree to a sink, its root at a given indent. -/
def print {σ ε : Type} (accept : Acceptor σ ε) (node : Node) (indent : Int) (sink : σ) :
    Outcome σ ε :=
  Printer.run accept ⟨[.opening node indent], sink⟩

end Node

end MarkupTree
