import MarkupTree.Node.Walk
import MarkupTree.Sink

/-!
# Sessions

A session holds sinks and walks under names and serves one request after another. A request touches
only the sink or the walk that it names.
-/
namespace MarkupTree

/-- Named sinks and named walks. The two kinds of names are separate. -/
structure Session where
  sinks : InsertionMap Sink := ∅
  walks : InsertionMap Walk := ∅

inductive Request where
  | openSink (name : String) (room : Option Nat)
  | print (name : String) (node : Node) (indent : Int)
  | read (name : String)
  | close (name : String)
  | startWalk (name : String) (root : Node)
  | next (name : String) (count : Nat)

/-- What a session answers. A walk reports its end when fewer nodes came than were asked for. -/
inductive Reply where
  | done
  | text (content : String)
  | nodes (nodes : List Node) (ended : Bool)
  | fault (fault : Fault SinkError)
  | unknown (name : String)

namespace Session

/-- Serves one request. Printing keeps the lines before a fault in the sink. -/
def step (session : Session) : Request → Session × Reply
  | .openSink name room =>
      ({ session with sinks := session.sinks.insert name { room } }, .done)
  | .print name node indent =>
      match session.sinks.get? name with
      | none => (session, .unknown name)
      | some sink =>
          let outcome := node.printTo indent sink
          ({ session with sinks := session.sinks.insert name outcome.sink },
            match outcome.fault with
            | none => .done
            | some fault => .fault fault)
  | .read name =>
      match session.sinks.get? name with
      | none => (session, .unknown name)
      | some sink =>
          (session,
            match sink.read with
            | .ok content => .text content
            | .error error => .fault (.sink error))
  | .close name =>
      match session.sinks.get? name with
      | none => (session, .unknown name)
      | some sink => ({ session with sinks := session.sinks.insert name sink.close }, .done)
  | .startWalk name root =>
      ({ session with walks := session.walks.insert name root.walk }, .done)
  | .next name count =>
      match session.walks.get? name with
      | none => (session, .unknown name)
      | some walk =>
          let (nodes, walk) := walk.take count
          ({ session with walks := session.walks.insert name walk },
            .nodes nodes (nodes.length < count))

def run (session : Session) : List Request → Session × List Reply
  | [] => (session, [])
  | request :: rest =>
      let (session, reply) := session.step request
      let (session, replies) := run session rest
      (session, reply :: replies)

end Session

end MarkupTree
