import MarkupTree.Proofs.Rendering
import MarkupTree.Proofs.Schedules

/-!
# Prints that share a sink

A sink serves prints one after another and may be closed in between. Each print adds a beginning of
its lines, up to the first one that has no margin or is refused, and a failed print does not stop the
next. What the sink holds depends only on the prints before the first close: it is as much of their
lines as there is room for, where each print gives its lines up to the first without a margin.
-/
namespace MarkupTree

/-- Whether a line has a margin. -/
def Line.fits (line : Line) : Bool :=
  match Margin.ofWidth line.indent with
  | .ok _ => true
  | .error _ => false

theorem Line.fits_of_error {line : Line} {error : MarginError}
    (h : Margin.ofWidth line.indent = .error error) : line.fits = false := by
  rw [fits, h]

theorem Line.fits_of_ok {line : Line} {margin : String}
    (h : Margin.ofWidth line.indent = .ok margin) : line.fits = true := by
  rw [fits, h]

namespace Sink
variable {sink : Sink}

/-- As many of the lines as there is room for. -/
def within : Option Nat → List String → List String
  | none, lines => lines
  | some count, lines => lines.take count

theorem within_nil (room : Option Nat) : within room [] = [] := by
  cases room with
  | none => rfl
  | some count => exact List.take_nil

theorem within_cons {room : Option Nat} (left : room ≠ some 0) (line : String)
    (rest : List String) : within room (line :: rest) = line :: within (roomAfter room 1) rest := by
  cases room with
  | none => rfl
  | some count =>
      cases count with
      | zero => exact absurd rfl left
      | succ count => rfl

theorem within_append (room : Option Nat) (before after : List String) :
    within room (before ++ after) =
      within room before ++ within (roomAfter room (within room before).length) after := by
  cases room with
  | none => rfl
  | some count =>
      have left : count - (before.take count).length = count - before.length := by
        rw [List.length_take]
        omega
      simp only [within, roomAfter, Option.map_some, left, List.take_append]

theorem length_within_le (count : Nat) (lines : List String) :
    (within (some count) lines).length ≤ count :=
  List.length_take_le count lines

theorem lines_adding (sink : Sink) (added : List String) :
    (sink.adding added).lines = sink.lines ++ added := by
  simp [adding, lines]

/-- A sink that is full or closed refuses every line and stays as it is. -/
theorem writeAll_of_shut (shut : sink.room = some 0 ∨ sink.closed = true) (line : Line)
    (rest : List Line) :
    ∃ fault, Line.writeAll accept (line :: rest) sink = { sink, fault := some fault } := by
  cases written : line.write accept sink with
  | error fault => exact ⟨fault, Line.writeAll_cons_of_error written⟩
  | ok next =>
      obtain ⟨margin, _, taken⟩ := Line.write_eq_ok_iff.mp written
      obtain ⟨left, open', _⟩ := accept_eq_ok_iff.mp taken
      rcases shut with full | closed
      · exact absurd full left
      · rw [open'] at closed
        cases closed

/-- A tree has at least one line, so a sink that is full or closed refuses to print it. -/
theorem printTo_of_shut (shut : sink.room = some 0 ∨ sink.closed = true) (node : Node)
    (indent : Int) : ∃ fault, node.printTo indent sink = { sink, fault := some fault } := by
  rw [Node.printTo, Node.print_eq_writeAll, node.lines_eq]
  exact writeAll_of_shut shut _ _

/-- A pass adds a beginning of the lines to the sink, and all of them exactly if it has no fault. -/
theorem adding_of_ends {lines : List Line} {outcome : Outcome Sink SinkError}
    (h : Line.Ends accept lines sink outcome) :
    ∃ added, outcome.sink = sink.adding added ∧ added <+: lines.map Line.text ∧
      (added = lines.map Line.text ↔ outcome.fault = none) := by
  cases h with
  | complete delivered =>
      refine ⟨lines.map Line.text, eq_adding_of_delivers delivered, List.prefix_refl _, ?_⟩
      exact iff_of_true rfl rfl
  | @cut before after line last fault split delivered fails =>
      subst split
      refine ⟨before.map Line.text, eq_adding_of_delivers delivered, ?_, ?_⟩
      · rw [List.map_append]
        exact List.prefix_append _ _
      · apply iff_of_false
        · intro whole
          have lengths := congrArg List.length whole
          simp at lengths
        · simp

/-- What an open sink takes of some lines: those before the first without a margin, as far as there
is room. -/
theorem writeAll_of_open (open' : sink.closed = false) (lines : List Line) :
    (Line.writeAll accept lines sink).sink =
      sink.adding (within sink.room ((lines.takeWhile Line.fits).map Line.text)) := by
  induction lines generalizing sink with
  | nil => rw [List.takeWhile_nil, List.map_nil, within_nil, adding_nil]; rfl
  | cons line rest ih =>
      cases made : Margin.ofWidth line.indent with
      | error error =>
          have failed : line.write accept sink = .error (.margin error) :=
            Line.write_eq_error_iff.mpr (.margin made)
          rw [Line.writeAll_cons_of_error failed,
            List.takeWhile_cons_of_neg (by simp [Line.fits_of_error made]), List.map_nil,
            within_nil, adding_nil]
      | ok margin =>
          have text := Line.append_body_of_ofWidth made
          rw [List.takeWhile_cons_of_pos (Line.fits_of_ok made), List.map_cons]
          by_cases full : sink.room = some 0
          · obtain ⟨fault, refused⟩ := writeAll_of_shut (.inl full) line rest
            rw [refused, full, within, List.take_zero, adding_nil]
          · have taken : line.write accept sink = .ok (sink.adding [line.text]) := by
              apply Line.write_eq_ok_iff.mpr
              exact ⟨margin, made, accept_eq_ok_iff.mpr ⟨full, open', by rw [text]⟩⟩
            have still : (sink.adding [line.text]).closed = false := open'
            rw [Line.writeAll_cons_of_ok taken, ih still, within_cons full, adding_adding]
            rfl

end Sink

/-- What is asked of a sink that is shared. -/
inductive Call where
  | print (node : Node) (indent : Int)
  | close

namespace Call

def closes : Call → Bool
  | print _ _ => false
  | close => true

def request (name : String) : Call → Request
  | print node indent => .print name node indent
  | close => .close name

/-- The lines a call can add to a sink: those of its tree before the first one without a margin. -/
def writable : Call → List String
  | print node indent => ((node.lines indent).takeWhile Line.fits).map Line.text
  | close => []

def serve : Call → Sink → Outcome Sink SinkError
  | print node indent, sink => node.printTo indent sink
  | close, sink => { sink := sink.close }

def serveAll (calls : List Call) (sink : Sink) : Sink :=
  calls.foldl (fun sink call => (call.serve sink).sink) sink

/-- The calls before the first one that closes the sink. -/
def beforeClose (calls : List Call) : List Call := calls.takeWhile fun call => !call.closes

theorem beforeClose_of_open {calls : List Call} (open' : calls.any closes = false)
    (rest : List Call) : beforeClose (calls ++ rest) = calls ++ beforeClose rest := by
  apply List.takeWhile_append_of_pos
  intro call member
  simpa using List.any_eq_false.mp open' call member

theorem beforeClose_eq_self {calls : List Call} (open' : calls.any closes = false) :
    beforeClose calls = calls := by
  have all := beforeClose_of_open open' []
  rwa [List.append_nil, show beforeClose [] = [] from rfl, List.append_nil] at all

theorem beforeClose_of_closed {calls : List Call} (closed : calls.any closes = true)
    (rest : List Call) : beforeClose (calls ++ rest) = beforeClose calls := by
  induction calls with
  | nil => cases closed
  | cons call others ih =>
      cases call with
      | print node indent => exact congrArg (print node indent :: ·) (ih closed)
      | close => rfl

theorem beforeClose_append_close (calls rest : List Call) :
    beforeClose (calls ++ .close :: rest) = beforeClose calls := by
  induction calls with
  | nil => rfl
  | cons call others ih =>
      cases call with
      | print node indent => exact congrArg (print node indent :: ·) ih
      | close => rfl

end Call

namespace Sink

/-- The sink that a run of calls leaves if it had a given room at first. -/
structure After (room : Option Nat) (calls : List Call) (sink : Sink) : Prop where
  lines : sink.lines = within room ((Call.beforeClose calls).flatMap Call.writable)
  room : sink.room = roomAfter room sink.lines.length
  closed : sink.closed = calls.any Call.closes

variable {room : Option Nat} {calls : List Call} {sink : Sink}

theorem After.start (room : Option Nat) : After room [] { room } where
  lines := (within_nil room).symm
  room := by cases room <;> rfl
  closed := rfl

theorem After.close (h : After room calls sink) : After room (calls ++ [.close]) sink.close where
  lines := by
    rw [Call.beforeClose_append_close]
    exact h.lines
  room := h.room
  closed := by simp [Sink.close, Call.closes]

theorem After.print (h : After room calls sink) (node : Node) (indent : Int) :
    After room (calls ++ [.print node indent]) (node.printTo indent sink).sink := by
  have closes : (calls ++ [Call.print node indent]).any Call.closes = calls.any Call.closes := by
    simp [Call.closes]
  cases ended : calls.any Call.closes with
  | true =>
      have shut : sink.closed = true := h.closed.trans ended
      obtain ⟨fault, refused⟩ := printTo_of_shut (.inr shut) node indent
      rw [refused]
      constructor
      · rw [Call.beforeClose_of_closed ended, h.lines]
      · exact h.room
      · rw [closes, h.closed]
  | false =>
      have open' : sink.closed = false := h.closed.trans ended
      have lines := h.lines
      rw [Call.beforeClose_eq_self ended] at lines
      rw [Node.printTo, Node.print_eq_writeAll, writeAll_of_open open']
      constructor
      · have added : (Call.beforeClose [.print node indent]).flatMap Call.writable =
            (Call.print node indent).writable := List.append_nil _
        rw [lines_adding, Call.beforeClose_of_open ended, List.flatMap_append, added,
          within_append, ← lines, h.room]
        rfl
      · rw [lines_adding, adding, h.room, roomAfter_add, List.length_append]
      · rw [closes, ← h.closed]
        rfl

theorem After.serve (h : After room calls sink) (call : Call) :
    After room (calls ++ [call]) (call.serve sink).sink := by
  cases call with
  | print node indent => exact h.print node indent
  | close => exact h.close

theorem After.serveAll (h : After room calls sink) (more : List Call) :
    After room (calls ++ more) (Call.serveAll more sink) := by
  induction more generalizing calls sink with
  | nil => rwa [List.append_nil]
  | cons call rest ih =>
      have longer := ih (h.serve call)
      rwa [List.append_assoc, List.singleton_append] at longer

/-- What one more print adds after a run of calls, and when it has a fault. -/
theorem After.added (h : After room calls sink) (node : Node) (indent : Int) :
    ∃ added, (node.printTo indent sink).sink = sink.adding added ∧
      added <+: node.rendering indent ∧
      (added = node.rendering indent ↔ (node.printTo indent sink).fault = none) ∧
      (room = some sink.lines.length ∨ .close ∈ calls →
        added = [] ∧ (node.printTo indent sink).fault ≠ none) := by
  have ended := Line.ends_writeAll accept (node.lines indent) sink
  rw [← Node.print_eq_writeAll] at ended
  obtain ⟨added, grown, part, whole⟩ := adding_of_ends ended
  rw [Node.map_text_lines] at part whole
  refine ⟨added, grown, part, whole, ?_⟩
  intro late
  have shut : sink.room = some 0 ∨ sink.closed = true := by
    rcases late with full | closed
    · left
      rw [h.room, full, roomAfter, Option.map_some, Nat.sub_self]
    · right
      rw [h.closed]
      exact List.any_eq_true.mpr ⟨.close, closed, rfl⟩
  obtain ⟨fault, refused⟩ := printTo_of_shut shut node indent
  have lines := congrArg Sink.lines grown
  rw [← Node.printTo, refused, lines_adding] at lines
  rw [refused]
  exact ⟨List.self_eq_append_right.mp lines, by simp⟩

end Sink

/-- What a session answers to a print that ends like this. -/
def Outcome.reply (outcome : Outcome Sink SinkError) : Reply :=
  match outcome.fault with
  | none => .done
  | some fault => .fault fault

theorem Outcome.reply_eq_done_iff {outcome : Outcome Sink SinkError} :
    outcome.reply = .done ↔ outcome.fault = none := by
  unfold reply
  split <;> simp [*]

theorem Outcome.reply_cases (outcome : Outcome Sink SinkError) :
    outcome.reply = .done ∨ ∃ fault, outcome.reply = .fault fault := by
  unfold reply
  split
  · exact .inl rfl
  · exact .inr ⟨_, rfl⟩

theorem Outcome.exists_fault_of_ne_none {outcome : Outcome Sink SinkError}
    (h : outcome.fault ≠ none) : ∃ fault, outcome.reply = .fault fault := by
  obtain ⟨fault, some⟩ := Option.ne_none_iff_exists'.mp h
  refine ⟨fault, ?_⟩
  rw [reply, some]

namespace Session
variable {session : Session} {name : String} {sink : Sink}

theorem step_call (held : session.sinks.get? name = some sink) (call : Call) :
    session.step (call.request name) =
      ({ session with sinks := session.sinks.insert name (call.serve sink).sink },
        (call.serve sink).reply) := by
  cases call with
  | print node indent => simp only [Call.request, step, held]; rfl
  | close => simp only [Call.request, step, held]; rfl

theorem get?_run_calls (held : session.sinks.get? name = some sink) (calls : List Call) :
    (session.run (calls.map (Call.request name))).1.sinks.get? name =
      some (Call.serveAll calls sink) := by
  induction calls generalizing session sink with
  | nil => exact held
  | cons call rest ih =>
      rw [List.map_cons, run, step_call held]
      apply ih
      rw [InsertionMap.get?_insert, if_pos rfl]

theorem reply_to_call (held : session.sinks.get? name = some sink) (before after : List Call)
    (call : Call) :
    (session.run ((before ++ call :: after).map (Call.request name))).2[before.length]? =
      some (call.serve (Call.serveAll before sink)).reply := by
  have position : before.length =
      (session.run (before.map (Call.request name))).2.length := by
    rw [length_run, List.length_map]
  have reached := get?_run_calls held before
  rw [List.map_append, List.map_cons, run_append, position,
    List.getElem?_append_right (Nat.le_refl _), Nat.sub_self, run, step_call reached]
  rfl

/-- However prints and closes follow one another on a new sink, it holds as many lines as it has
room for of those that the prints before the first close can write, and a close freezes it. A single
print adds a beginning of its lines, all of them exactly if it has no fault. On a sink that is full
or closed every print has a fault and adds nothing. -/
theorem shared_sink_holds_first_lines (session : Session) (name : String) (room : Option Nat)
    (calls : List Call) :
    let served (calls : List Call) :=
      session.run (.openSink name room :: calls.map (Call.request name))
    let held (calls : List Call) := ((served calls).1.sinks.get? name).map Sink.lines
    held calls = some (Sink.within room ((Call.beforeClose calls).flatMap Call.writable)) ∧
      (∀ limit, room = some limit →
        ∀ lines, held calls = some lines → lines.length ≤ limit) ∧
      (∀ before after, calls = before ++ .close :: after → held calls = held before) ∧
      ∀ before node indent after, calls = before ++ .print node indent :: after →
        ∃ old added reply,
          held before = some old ∧
          held (before ++ [.print node indent]) = some (old ++ added) ∧
          (served calls).2[before.length + 1]? = some reply ∧
          added <+: node.rendering indent ∧
          (added = node.rendering indent ↔ reply = .done) ∧
          (reply = .done ∨ ∃ fault, reply = .fault fault) ∧
          (room = some old.length ∨ .close ∈ before → added = [] ∧ ∃ fault, reply = .fault fault) := by
  intro served held
  have opened : (session.step (.openSink name room)).1.sinks.get? name = some { room } := by
    rw [step, InsertionMap.get?_insert, if_pos rfl]
  have reached : ∀ part, Sink.After room part (Call.serveAll part { room }) :=
    (Sink.After.start room).serveAll
  have lines : ∀ part, held part = some (Call.serveAll part { room }).lines := by
    intro part
    exact congrArg (Option.map Sink.lines) (get?_run_calls opened part)
  have contents : ∀ part,
      held part = some (Sink.within room ((Call.beforeClose part).flatMap Call.writable)) := by
    intro part
    rw [lines, (reached part).lines]
  refine ⟨contents calls, ?_, ?_, ?_⟩
  · intro limit limited taken h
    rw [contents, limited] at h
    rw [← Option.some.inj h]
    exact Sink.length_within_le limit _
  · intro before after split
    rw [contents, contents, split, Call.beforeClose_append_close]
  · intro before node indent after split
    obtain ⟨added, grown, part, whole, late⟩ := (reached before).added node indent
    have reply : (served calls).2[before.length + 1]? =
        some ((Call.print node indent).serve (Call.serveAll before { room })).reply := by
      rw [split]
      exact reply_to_call opened before after (.print node indent)
    refine ⟨_, added, _, lines before, ?_, reply, part, ?_, ?_, ?_⟩
    · have next : Call.serveAll (before ++ [.print node indent]) { room } =
          (node.printTo indent (Call.serveAll before { room })).sink := by
        simp [Call.serveAll, Call.serve]
      rw [lines, next, grown, Sink.lines_adding]
    · rw [Outcome.reply_eq_done_iff]
      exact whole
    · exact Outcome.reply_cases _
    · intro shut
      obtain ⟨nothing, failed⟩ := late shut
      exact ⟨nothing, Outcome.exists_fault_of_ne_none failed⟩

/-- An element that holds a text. -/
def shortNote : Node := ⟨0, .element { name := "a" }, [⟨1, .text "t", []⟩]⟩

/-- A print, one that has no margin, one that is cut by a full sink, a close, and one after it. -/
def troubled : List Call :=
  [.print shortNote 0, .print shortNote Margin.wordBound, .print shortNote (-1), .close,
    .print shortNote 0]

theorem troubled_calls_fill_four_lines :
    let served := run {} (.openSink "s" (some 4) :: troubled.map (Call.request "s"))
    (served.1.sinks.get? "s").map Sink.lines = some ["<a>", "  t", "<a/>", "<a>"] ∧
      ∃ fault, served.2[5]? = some (.fault fault) := by
  obtain ⟨contents, _, _, prints⟩ := shared_sink_holds_first_lines {} "s" (some 4) troubled
  obtain ⟨old, added, reply, _, _, answered, _, _, _, late⟩ :=
    prints (troubled.take 4) shortNote 0 [] rfl
  have closed : Call.close ∈ troubled.take 4 := by simp [troubled]
  obtain ⟨_, fault, failed⟩ := late (.inr closed)
  refine ⟨contents.trans (by decide +kernel), fault, ?_⟩
  rw [← failed]
  exact answered

end Session

end MarkupTree
