import MarkupTree.Printer

/-!
# Sinks in memory

A sink collects lines. It may have room for a limited number of them, and it can be closed; a closed
sink is neither written nor read. A sink that has no room says so even when it is closed.
-/
namespace MarkupTree

inductive SinkError where
  | full
  | closed
  deriving DecidableEq

def SinkError.message : SinkError → String
  | full => "stream full"
  | closed => "I/O operation on closed file"

/-- The lines taken so far, the newest first, and the number of lines that can still be taken. A
sink without a number has no limit. -/
structure Sink where
  taken : List String := []
  room : Option Nat := none
  closed : Bool := false
  deriving DecidableEq

namespace Sink

def lines (sink : Sink) : List String := sink.taken.reverse

/-- The lines taken so far, each ended by a newline. -/
def text (sink : Sink) : String := String.join (sink.lines.map fun line => line ++ "\n")

/-- Takes one line, whatever newlines it has inside. -/
def accept (sink : Sink) (line : String) : Except SinkError Sink :=
  if sink.room = some 0 then .error .full
  else if sink.closed then .error .closed
  else .ok { sink with taken := line :: sink.taken, room := sink.room.map (· - 1) }

def read (sink : Sink) : Except SinkError String :=
  if sink.closed then .error .closed else .ok sink.text

def close (sink : Sink) : Sink := { sink with closed := true }

end Sink

namespace Node

def printTo (node : Node) (indent : Int) (sink : Sink) : Outcome Sink SinkError :=
  node.print Sink.accept indent sink

end Node

end MarkupTree
