import MarkupTree.Proofs.Preorder
import MarkupTree.Proofs.Record

/-!
# Equal trees are observed alike

Trees that are alike cannot be told apart by walking over them or by asking their tags, and they print
alike: two printers over such trees go through their frames in lockstep, stop at the same margin if
one cannot be made, and write lines that differ at most in the order of the attributes of an opening
tag.
-/
namespace MarkupTree

namespace Frame

/-- Frames of one sort at one indent, for trees that are alike. -/
inductive Alike : Frame → Frame → Prop where
  | opening {x y : Node} (indent : Int) (trees : x.alike y = true) :
      Alike (.opening x indent) (.opening y indent)
  | closing {x y : Node} (indent : Int) (trees : x.alike y = true) :
      Alike (.closing x indent) (.closing y indent)

/-- Frames that owe the same line, or that open elements with one name and the same attributes at
one indent. -/
inductive SameLine : Frame → Frame → Prop where
  | equal {f g : Frame} (line : f.line? = g.line?) : SameLine f g
  | reordered {x y : Node} {s t : Tag} (indent : Int) (left : x.content = .element s)
      (right : y.content = .element t) (name : s.name = t.name)
      (attributes : s.attributes.entries.Perm t.attributes.entries) :
      SameLine (.opening x indent) (.opening y indent)

theorem Alike.sameLine {f g : Frame} (h : Alike f g) : SameLine f g := by
  cases h with
  | @opening x y indent trees =>
      have contents := Node.same_content_of_alike trees
      obtain ⟨_, c, _⟩ := x
      obtain ⟨_, d, _⟩ := y
      cases contents with
      | text body => exact .equal rfl
      | comment body => exact .equal rfl
      | element tags =>
          apply SameLine.reordered indent rfl rfl tags.name
          exact InsertionMap.alike_iff_perm.mp (InsertionMap.alike_iff.mpr tags.attributes)
  | @closing x y indent trees =>
      have contents := Node.same_content_of_alike trees
      obtain ⟨_, c, _⟩ := x
      obtain ⟨_, d, _⟩ := y
      cases contents with
      | text body => exact .equal rfl
      | comment body => exact .equal rfl
      | element tags =>
          apply SameLine.equal
          simp [line?, Content.tag?, Tag.closing, tags.name]

theorem forall₂_closings {x y : Node} (h : x.alike y = true) (indent : Int) :
    List.Forall₂ Alike (closings x indent) (closings y indent) := by
  have contents := Node.same_content_of_alike h
  obtain ⟨_, c, _⟩ := x
  obtain ⟨_, d, _⟩ := y
  cases contents with
  | text body => exact .nil
  | comment body => exact .nil
  | element tags => exact .cons (.closing indent h) .nil

theorem Alike.successors {f g : Frame} (h : Alike f g) :
    List.Forall₂ Alike f.successors g.successors := by
  cases h with
  | closing indent trees => exact .nil
  | @opening x y indent trees =>
      apply List.rel_append
      · rw [List.forall₂_map_left_iff, List.forall₂_map_right_iff]
        apply (Node.alike_iff_root_children.mp trees).2.imp
        intro child other
        exact .opening _
      · exact forall₂_closings trees indent

theorem SameLine.indents {f g : Frame} (h : SameLine f g) :
    f.line?.map Line.indent = g.line?.map Line.indent := by
  cases h with
  | equal line => rw [line]
  | reordered indent left right name attributes => rfl

/-- An open sink refuses nothing, so only the indent decides whether a frame can be written. -/
theorem SameLine.write {f g : Frame} (h : SameLine f g) (left right : List String) :
    (∃ fault, f.write Sink.accept { taken := left } = .error fault ∧
        g.write Sink.accept { taken := right } = .error fault) ∨
      ∃ left' right', f.write Sink.accept { taken := left } = .ok { taken := left' } ∧
        g.write Sink.accept { taken := right } = .ok { taken := right' } := by
  have indents := h.indents
  rw [Frame.write, Frame.write]
  cases first : f.line? with
  | none =>
      rw [first, Option.map_none, eq_comm, Option.map_eq_none_iff] at indents
      rw [indents]
      exact .inl ⟨_, rfl, rfl⟩
  | some line =>
      rw [first, Option.map_some, eq_comm, Option.map_eq_some_iff] at indents
      obtain ⟨other, second, indent⟩ := indents
      simp only [second, Line.write, indent]
      cases Margin.ofWidth line.indent with
      | error error => exact .inl ⟨_, rfl, rfl⟩
      | ok margin => exact .inr ⟨_, _, rfl, rfl⟩

end Frame

namespace Printer

/-- Two printers that write to open sinks and have frames for trees that are alike. -/
structure Abreast (p q : Printer Sink) : Prop where
  frames : List.Forall₂ Frame.Alike p.stack q.stack
  left : ∃ taken, p.sink = { taken }
  right : ∃ taken, q.sink = { taken }

theorem Abreast.step {p q : Printer Sink} (h : Abreast p q) :
    (∃ o o', step Sink.accept p = .finished o ∧ step Sink.accept q = .finished o' ∧
        o.fault = o'.fault) ∨
      ∃ p' q', step Sink.accept p = .running p' ∧ step Sink.accept q = .running q' ∧
        Abreast p' q' := by
  obtain ⟨frames, ⟨left, openLeft⟩, ⟨right, openRight⟩⟩ := h
  obtain ⟨stack, sink⟩ := p
  obtain ⟨others, sink'⟩ := q
  subst openLeft openRight
  cases frames with
  | nil => exact .inl ⟨_, _, rfl, rfl, rfl⟩
  | @cons f g rest rest' top below =>
      rcases top.sameLine.write left right with ⟨fault, wf, wg⟩ | ⟨left', right', wf, wg⟩
      · refine .inl ⟨{ sink := { taken := left }, fault := some fault },
          { sink := { taken := right }, fault := some fault }, ?_, ?_, rfl⟩
        · rw [Printer.step, wf]
        · rw [Printer.step, wg]
      · refine .inr ⟨⟨f.successors ++ rest, { taken := left' }⟩,
          ⟨g.successors ++ rest', { taken := right' }⟩, ?_, ?_, ?_⟩
        · rw [Printer.step, wf]
        · rw [Printer.step, wg]
        · exact ⟨List.rel_append top.successors below, ⟨left', rfl⟩, ⟨right', rfl⟩⟩

/-- Printers abreast go through their frames in lockstep and end alike. -/
theorem Abreast.run {p q : Printer Sink} (h : Abreast p q) :
    (run Sink.accept p).fault = (run Sink.accept q).fault ∧
      List.Forall₂ Frame.Alike (record Sink.accept p) (record Sink.accept q) := by
  induction p using run.induct Sink.accept generalizing q with
  | case1 p outcome last =>
      rcases h.step with ⟨o, o', first, second, faults⟩ | ⟨p', q', first, _, _⟩
      · rw [run_of_finished first, run_of_finished second, record_of_finished first,
          record_of_finished second]
        exact ⟨faults, .nil⟩
      · rw [last] at first
        cases first
  | case2 p next going ih =>
      rcases h.step with ⟨o, o', first, _, _⟩ | ⟨p', q', first, second, abreast⟩
      · rw [going] at first
        cases first
      · rw [going] at first
        cases first
        obtain ⟨faults, records⟩ := ih abreast
        obtain ⟨f, rest, top, _, _⟩ := step_running going
        obtain ⟨g, rest', top', _, _⟩ := step_running second
        have tops := h.frames
        rw [top, top'] at tops
        rw [run_of_running going, run_of_running second, record_of_running going top,
          record_of_running second top']
        exact ⟨faults, .cons (List.forall₂_cons.mp tops).1 records⟩

end Printer

/-- Attributes in another order spell out a text of the same length. -/
theorem Tag.length_opening {s t : Tag} (name : s.name = t.name)
    (attributes : s.attributes.entries.Perm t.attributes.entries) :
    s.opening.length = t.opening.length := by
  have forms := (attributes.map fun entry => attributeForm entry.1 entry.2).flatMap_right
    String.toList
  have texts : s.attributeText.length = t.attributeText.length := by
    rw [attributeText, attributeText, ← String.length_toList, ← String.length_toList,
      String.toList_join, String.toList_join, forms.length_eq]
  simp [opening, name, texts]

theorem Frame.SameLine.length_text? {f g : Frame} (h : SameLine f g) :
    f.text?.map String.length = g.text?.map String.length := by
  cases h with
  | equal line => rw [text?, text?, line]
  | reordered indent left right name attributes =>
      simp [text?, line?, left, right, Line.text, Content.heading, Tag.length_opening name attributes]

theorem Sink.length_text {left right : Sink}
    (h : left.lines.map String.length = right.lines.map String.length) :
    left.text.length = right.text.length := by
  rw [text, text]
  generalize left.lines = lines at h
  generalize right.lines = others at h
  induction lines generalizing others with
  | nil =>
      rw [List.map_nil, eq_comm, List.map_eq_nil_iff] at h
      rw [h]
  | cons line rest ih =>
      cases others with
      | nil => cases h
      | cons other others =>
          obtain ⟨first, later⟩ := List.cons.inj h
          simp [first, ih others later]

namespace Node

/-- Two nodes that are equal, and whose tags have the same id and the same class tokens if they are
elements. -/
structure AnswerAlike (x y : Node) : Prop where
  equal : x.equal y = true
  ids : x.content.tag?.map Tag.id? = y.content.tag?.map Tag.id?
  classes : x.content.tag?.map Tag.classes = y.content.tag?.map Tag.classes

theorem answerAlike_of_alike {x y : Node} (marks : MarksNameTrees [x, y])
    (h : x.alike y = true) : AnswerAlike x y := by
  have equal : x.equal y = true := by rw [equal_eq_alike marks, h]
  have contents := same_content_of_alike h
  obtain ⟨_, c, _⟩ := x
  obtain ⟨_, d, _⟩ := y
  cases contents with
  | text body => exact ⟨equal, rfl, rfl⟩
  | comment body => exact ⟨equal, rfl, rfl⟩
  | element tags => exact ⟨equal, congrArg some tags.id?, congrArg some tags.classes⟩

theorem abreast_of_alike {a b : Node} (h : a.alike b = true) (indent : Int) :
    Printer.Abreast ⟨[.opening a indent], {}⟩ ⟨[.opening b indent], {}⟩ where
  frames := .cons (.opening indent h) .nil
  left := ⟨[], rfl⟩
  right := ⟨[], rfl⟩

theorem forall₂_answerAlike {a b : Node} (marks : MarksNameTrees [a, b])
    (h : a.alike b = true) : List.Forall₂ AnswerAlike a.walk.toList b.walk.toList := by
  rw [toList_walk, toList_walk]
  have nodes := forall₂_preorder_of_alike h
  refine List.forall₂_iff_zip.mpr ⟨nodes.length_eq, ?_⟩
  intro x y member
  obtain ⟨hx, hy⟩ := List.of_mem_zip member
  exact answerAlike_of_alike (marks.of_mem hx hy) (List.forall₂_zip nodes member)

theorem map_length_lines (n : Node) (indent : Int) :
    ((n.printTo indent {}).sink.lines.map String.length).map some =
      (n.record indent).map fun frame => frame.text?.map String.length := by
  have texts := congrArg (List.map (Option.map String.length)) (lines_printTo n indent)
  rw [List.map_map, List.map_map] at texts
  rw [List.map_map]
  exact texts

/-- Equal trees have walks of equal nodes with the same ids and classes. At any indent they print to
open sinks with the same fault after the same number of lines, and a line of one has the margin and
the text of the line of the other, up to the order of the attributes where it opens an element. -/
theorem equal_trees_observed_alike {a b : Node} (marks : MarksNameTrees [a, b])
    (equal : a.equal b = true) (indent : Int) :
    let left := a.printTo indent {}
    let right := b.printTo indent {}
    List.Forall₂ AnswerAlike a.walk.toList b.walk.toList ∧
      left.fault = right.fault ∧
      left.sink.lines.length = right.sink.lines.length ∧
      left.sink.lines.map some = (a.record indent).map Frame.text? ∧
      right.sink.lines.map some = (b.record indent).map Frame.text? ∧
      List.Forall₂ Frame.SameLine (a.record indent) (b.record indent) ∧
      left.sink.text.length = right.sink.text.length := by
  intro left right
  rw [equal_eq_alike marks] at equal
  obtain ⟨faults, records⟩ := (abreast_of_alike equal indent).run
  have same : List.Forall₂ Frame.SameLine (a.record indent) (b.record indent) :=
    records.imp fun f g => Frame.Alike.sameLine
  have lengths : left.sink.lines.map String.length = right.sink.lines.map String.length := by
    have frames : List.Forall₂ Eq ((a.record indent).map fun f => f.text?.map String.length)
        ((b.record indent).map fun g => g.text?.map String.length) := by
      rw [List.forall₂_map_left_iff, List.forall₂_map_right_iff]
      exact same.imp fun f g => Frame.SameLine.length_text?
    rw [List.forall₂_eq_eq_eq, ← map_length_lines, ← map_length_lines] at frames
    exact List.map_injective_iff.mpr (fun _ _ => Option.some.inj) frames
  refine ⟨forall₂_answerAlike marks equal, faults, ?_, lines_printTo a indent,
    lines_printTo b indent, same, Sink.length_text lengths⟩
  simpa using congrArg List.length lengths

/-- An element over a text that stands twice. -/
def repeatedLink : Node :=
  ⟨1, .element { name := "a", attributes := .ofPairs [("id", "x"), ("class", "u  v")] },
    [⟨0, .text "t", []⟩, ⟨0, .text "t", []⟩]⟩

/-- The same element with its attributes in another order. -/
def reorderedLink : Node :=
  ⟨2, .element { name := "a", attributes := .ofPairs [("class", "u  v"), ("id", "x")] },
    [⟨0, .text "t", []⟩, ⟨3, .text "t", []⟩]⟩

theorem links_observed_alike :
    MarksNameTrees [repeatedLink, reorderedLink] ∧ repeatedLink.equal reorderedLink = true ∧
      List.Forall₂ AnswerAlike repeatedLink.walk.toList reorderedLink.walk.toList ∧
      (repeatedLink.printTo (-1) {}).sink.text ≠ (reorderedLink.printTo (-1) {}).sink.text ∧
      (repeatedLink.printTo (-1) {}).sink.text.length =
        (reorderedLink.printTo (-1) {}).sink.text.length := by
  have marks : MarksNameTrees [repeatedLink, reorderedLink] := by
    simp [MarksNameTrees, repeatedLink, reorderedLink, preorderAll, preorder]
  have equal : repeatedLink.equal reorderedLink = true := by decide +kernel
  obtain ⟨answers, _, _, _, _, _, lengths⟩ := equal_trees_observed_alike marks equal (-1)
  exact ⟨marks, equal, answers, by decide +kernel, lengths⟩

end Node

end MarkupTree
