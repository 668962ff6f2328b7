import MarkupTree.Margin
import MarkupTree.Node.Basic

/-!
# Lines of a printed tree

A printed tree has one line for each node, in document order, and a closing line for each element
after everything below it. A line keeps the width of its margin as an integer, since children stand
further right than their parent even where both margins are still empty.

Lines are written to a sink. A sink is any type with a function that takes a line or refuses it.
-/
namespace MarkupTree

/-- A line before its margin is made. -/
structure Line where
  indent : Int
  body : String
  deriving DecidableEq

/-- Why a tree was not printed to its end. -/
inductive Fault (ε : Type) where
  | margin (error : MarginError)
  | sink (error : ε)
  | unbracketed
  deriving DecidableEq

/-- The sink after printing, and what ended the printing early if something did. -/
structure Outcome (σ ε : Type) where
  sink : σ
  fault : Option (Fault ε) := none

/-- What a sink does with one line: it moves on, or refuses the line and stays. -/
abbrev Acceptor (σ ε : Type) := σ → String → Except ε σ

namespace Line

def indentStep : Int := 2

/-- The line that closes an element. Text and comments have none. -/
def closings (indent : Int) (content : Content) : List Line :=
  match content.tag? with
  | some tag => [⟨indent, tag.closing⟩]
  | none => []

/-- Writes one line. The margin is made first, so a sink never sees a line without one. -/
def write {σ ε : Type} (accept : Acceptor σ ε) (line : Line) (sink : σ) : Except (Fault ε) σ :=
  match Margin.ofWidth line.indent with
  | .error error => .error (.margin error)
  | .ok margin =>
      match accept sink (margin ++ line.body) with
      | .error error => .error (.sink error)
      | .ok sink => .ok sink

/-- Writes lines in order up to the first that cannot be written. -/
def writeAll {σ ε : Type} (accept : Acceptor σ ε) : List Line → σ → Outcome σ ε
  | [], sink => { sink }
  | line :: rest, sink =>
      match line.write accept sink with
      | .error fault => { sink, fault := some fault }
      | .ok sink => writeAll accept rest sink

end Line

namespace Node

mutual

/-- The lines of a tree whose root stands at a given indent. -/
def lines (indent : Int) : Node → List Line
  | ⟨_, content, children⟩ =>
      ⟨indent, content.heading⟩ ::
        (linesAll (indent + Line.indentStep) children ++ Line.closings indent content)

def linesAll (indent : Int) : List Node → List Line
  | [] => []
  | n :: rest => lines indent n ++ linesAll indent rest

end

theorem linesAll_eq_flatMap (indent : Int) (row : List Node) :
    linesAll indent row = row.flatMap (lines indent) := by
  induction row with
  | nil => rfl
  | cons n rest ih => simp [linesAll, ih]

theorem lines_eq (indent : Int) (n : Node) :
    n.lines indent = ⟨indent, n.content.heading⟩ ::
      (linesAll (indent + Line.indentStep) n.children ++ Line.closings indent n.content) := by
  cases n; rw [lines]

end Node

end MarkupTree
