import MarkupTree.Proofs.Places
import MarkupTree.Proofs.Record
import MarkupTree.Proofs.Walking

/-!
# The lines of a print against the walk

A tree prints an opening line for each node that its walk hands out, in the same order, and a closing
line for each element among them. This fixes the number of lines, and with it the number of newlines,
as a line has only the newlines of the texts that it shows.
-/
namespace MarkupTree

namespace Text

/-- The number of newlines inside some texts. -/
def newlines (texts : List String) : Nat := (texts.flatMap String.toList).count '\n'

@[simp] theorem newlines_nil : newlines [] = 0 := rfl

@[simp] theorem newlines_cons (text : String) (rest : List String) :
    newlines (text :: rest) = text.toList.count '\n' + newlines rest := by
  rw [newlines, List.flatMap_cons, List.count_append, newlines]

@[simp] theorem newlines_append (before after : List String) :
    newlines (before ++ after) = newlines before + newlines after := by
  rw [newlines, List.flatMap_append, List.count_append, newlines, newlines]

theorem newlines_perm {left right : List String} (h : left.Perm right) :
    newlines left = newlines right :=
  (h.flatMap_right String.toList).count_eq '\n'

theorem count_join_lines (lines : List String) :
    (String.join (lines.map (· ++ "\n"))).toList.count '\n' = lines.length + newlines lines := by
  induction lines with
  | nil => rfl
  | cons line rest ih =>
      rw [List.map_cons, String.join_cons, String.toList_append, List.count_append, ih,
        String.toList_append, List.count_append, newlines_cons, List.length_cons]
      have own : "\n".toList.count '\n' = 1 := by decide
      omega

end Text

namespace Content

def body? : Content → Option String
  | text body | comment body => some body
  | element _ => none

end Content

namespace Tag

/-- The keys and values that the opening form of a tag spells out. -/
def attributeTexts (tag : Tag) : List String :=
  tag.attributes.entries.flatMap fun entry => [entry.1, entry.2]

theorem newlines_attributeForms (entries : List (String × String)) :
    Text.newlines (entries.map fun entry => attributeForm entry.1 entry.2) =
      Text.newlines (entries.flatMap fun entry => [entry.1, entry.2]) := by
  induction entries with
  | nil => rfl
  | cons entry rest ih =>
      have form : (attributeForm entry.1 entry.2).toList.count '\n' =
          entry.1.toList.count '\n' + entry.2.toList.count '\n' := by
        simp [attributeForm]
      rw [List.map_cons, Text.newlines_cons, form, ih, List.flatMap_cons, Text.newlines_append,
        Text.newlines_cons, Text.newlines_cons, Text.newlines_nil, Nat.add_zero]

theorem count_newline_opening (tag : Tag) :
    tag.opening.toList.count '\n' =
      tag.name.toList.count '\n' + Text.newlines tag.attributeTexts := by
  have attributes : tag.attributeText.toList.count '\n' = Text.newlines tag.attributeTexts := by
    rw [attributeTexts, ← newlines_attributeForms, attributeText, String.toList_join]
    rfl
  simp [opening, attributes]

end Tag

namespace Node

/-- What the line of a node shows behind its margin: the label, for a comment between its marks. -/
def shown (n : Node) : String :=
  match n.content with
  | .comment _ => "<!--" ++ n.label ++ "-->"
  | .text _ | .element _ => n.label

theorem heading_eq_shown (n : Node) : n.content.heading = n.shown := by
  obtain ⟨mark, content, children⟩ := n
  cases content <;> rfl

def openingLine (indent : Int) (place : Path × Node) : String :=
  Margin.padding (indent + 2 * place.1.length) ++ place.2.shown

def closingLine? (indent : Int) (place : Path × Node) : Option String :=
  place.2.content.tag?.map fun tag =>
    Margin.padding (indent + 2 * place.1.length) ++ "<" ++ tag.name ++ "/>"

end Node

namespace Frame

/-- The frame that opens the node of a place if the root stands at a given indent. -/
def openingAt (indent : Int) (place : Path × Node) : Frame :=
  .opening place.2 (indent + 2 * place.1.length)

def closingsAt (indent : Int) (place : Path × Node) : List Frame :=
  closings place.2 (indent + 2 * place.1.length)

/-- Seen from the parent, a place is one step further away and starts from a smaller indent. -/
theorem indent_of_child (indent : Int) (index : Nat) (path : Path) :
    indent + 2 * ((index :: path).length : Int) =
      indent + Line.indentStep + 2 * (path.length : Int) := by
  rw [List.length_cons, Line.indentStep]
  omega

theorem filter_opens_closings (node : Node) (indent : Int) :
    (closings node indent).filter opens = [] := by
  unfold closings
  split <;> rfl

theorem filter_closes_closings (node : Node) (indent : Int) :
    (closings node indent).filter (!·.opens) = closings node indent := by
  unfold closings
  split <;> rfl

theorem text?_openingAt (indent : Int) (place : Path × Node) :
    (openingAt indent place).text? = some (Node.openingLine indent place) := by
  simp [openingAt, text?, line?, Line.text, Node.openingLine, Node.heading_eq_shown]

theorem map_text?_closingsAt (indent : Int) (place : Path × Node) :
    (closingsAt indent place).map text? =
      (Node.closingLine? indent place).toList.map some := by
  rw [closingsAt, closings, Node.closingLine?]
  cases element : place.2.content.tag? with
  | none => rfl
  | some tag => simp [text?, line?, element, Line.text, Tag.closing, String.append_assoc]

end Frame

namespace Node

theorem filter_opens_framesAll {row : List Node}
    (each : ∀ n ∈ row, ∀ indent,
      (n.frames indent).filter Frame.opens = n.places.map (Frame.openingAt indent))
    (indent : Int) (index : Nat) :
    (framesAll (indent + Line.indentStep) row).filter Frame.opens =
      (placesFrom index row).map (Frame.openingAt indent) := by
  induction row generalizing index with
  | nil => rfl
  | cons n rest ih =>
      obtain ⟨own, later⟩ := List.forall_mem_cons.mp each
      have moved : (Frame.openingAt indent ∘ fun place => (index :: place.1, place.2)) =
          Frame.openingAt (indent + Line.indentStep) := by
        funext place
        exact congrArg (Frame.opening place.2) (Frame.indent_of_child indent index place.1)
      rw [framesAll, List.filter_append, placesFrom, List.map_append, List.map_map, moved, own,
        ih later]

theorem filter_opens_frames (n : Node) (indent : Int) :
    (n.frames indent).filter Frame.opens = n.places.map (Frame.openingAt indent) := by
  induction n generalizing indent with
  | node mark content children ih =>
      rw [frames_eq, List.filter_cons_of_pos rfl, List.filter_append, Frame.filter_opens_closings,
        List.append_nil, filter_opens_framesAll ih indent 0, places_eq, List.map_cons]
      simp [Frame.openingAt]

theorem filter_closes_framesAll {row : List Node}
    (each : ∀ n ∈ row, ∀ indent,
      ((n.frames indent).filter (!·.opens)).Perm (n.places.flatMap (Frame.closingsAt indent)))
    (indent : Int) (index : Nat) :
    ((framesAll (indent + Line.indentStep) row).filter (!·.opens)).Perm
      ((placesFrom index row).flatMap (Frame.closingsAt indent)) := by
  induction row generalizing index with
  | nil => exact .nil
  | cons n rest ih =>
      obtain ⟨own, later⟩ := List.forall_mem_cons.mp each
      have moved : (fun place => Frame.closingsAt indent (index :: place.1, place.2)) =
          Frame.closingsAt (indent + Line.indentStep) := by
        funext place
        exact congrArg (Frame.closings place.2) (Frame.indent_of_child indent index place.1)
      rw [framesAll, List.filter_append, placesFrom, List.flatMap_append, List.flatMap_map, moved]
      exact (own (indent + Line.indentStep)).append (ih later (index + 1))

theorem filter_closes_frames (n : Node) (indent : Int) :
    ((n.frames indent).filter (!·.opens)).Perm
      (n.places.flatMap (Frame.closingsAt indent)) := by
  induction n generalizing indent with
  | node mark content children ih =>
      -- the closing frame of the root comes last, but its place comes first
      have root : Frame.closingsAt indent ([], ⟨mark, content, children⟩) =
          Frame.closings ⟨mark, content, children⟩ indent := by
        simp [Frame.closingsAt]
      rw [frames_eq, List.filter_cons_of_neg (by simp [Frame.opens]), List.filter_append,
        Frame.filter_closes_closings, places_eq, List.flatMap_cons, root]
      apply List.perm_append_comm.trans
      exact (filter_closes_framesAll ih indent 0).append_left _

theorem count_newline_padding (width : Int) : (Margin.padding width).toList.count '\n' = 0 := by
  simp [Margin.padding, List.count_replicate]

theorem newlines_openingLines (indent : Int) (places : List (Path × Node)) :
    Text.newlines (places.map (openingLine indent)) =
      Text.newlines ((places.map Prod.snd).filterMap (·.content.body?)) +
        Text.newlines (((places.map Prod.snd).filterMap (·.content.tag?)).flatMap
          Tag.attributeTexts) +
        Text.newlines (((places.map Prod.snd).filterMap (·.content.tag?)).map Tag.name) := by
  induction places with
  | nil => rfl
  | cons place rest ih =>
      obtain ⟨path, mark, content, children⟩ := place
      rw [List.map_cons, Text.newlines_cons, ih]
      cases content <;>
        simp [openingLine, count_newline_padding, shown, label, Content.label, Content.body?,
          Content.tag?, Tag.count_newline_opening] <;>
        omega

theorem newlines_closingLines (indent : Int) (places : List (Path × Node)) :
    Text.newlines (places.filterMap (closingLine? indent)) =
      Text.newlines (((places.map Prod.snd).filterMap (·.content.tag?)).map Tag.name) := by
  induction places with
  | nil => rfl
  | cons place rest ih =>
      cases element : place.2.content.tag? with
      | none => simp [closingLine?, element, ih]
      | some tag => simp [closingLine?, element, ih, count_newline_padding]

theorem length_closingLines (indent : Int) (places : List (Path × Node)) :
    (places.filterMap (closingLine? indent)).length =
      ((places.map Prod.snd).filterMap (·.content.tag?)).length := by
  simp only [List.length_filterMap_eq_countP, List.countP_map, closingLine?, Option.isSome_map]
  rfl

theorem map_text?_opened {n : Node} {indent : Int}
    (done : (n.printTo indent {}).fault = none) :
    ((n.record indent).filter Frame.opens).map Frame.text? =
      n.places.map fun place => some (openingLine indent place) := by
  rw [record_of_fault_none done, filter_opens_frames, List.map_map]
  apply List.map_congr_left
  intro place _
  exact Frame.text?_openingAt indent place

theorem map_text?_closed {n : Node} {indent : Int}
    (done : (n.printTo indent {}).fault = none) :
    (((n.record indent).filter (!·.opens)).map Frame.text?).Perm
      ((n.places.filterMap (closingLine? indent)).map some) := by
  have texts : (n.places.flatMap (Frame.closingsAt indent)).map Frame.text? =
      (n.places.filterMap (closingLine? indent)).map some := by
    rw [List.map_flatMap, List.filterMap_eq_flatMap_toList, List.map_flatMap]
    apply List.flatMap_congr
    intro place _
    exact Frame.map_text?_closingsAt indent place
  rw [← texts, record_of_fault_none done]
  exact (n.filter_closes_frames indent).map _

theorem lines_printTo_perm {n : Node} {indent : Int}
    (done : (n.printTo indent {}).fault = none) :
    (n.printTo indent {}).sink.lines.Perm
      (n.places.map (openingLine indent) ++ n.places.filterMap (closingLine? indent)) := by
  have split := (List.filter_append_perm Frame.opens (n.record indent)).map Frame.text?
  rw [List.map_append, map_text?_opened done] at split
  have parts : ((n.printTo indent {}).sink.lines.map some).Perm
      ((n.places.map (openingLine indent) ++ n.places.filterMap (closingLine? indent)).map some) := by
    rw [lines_printTo, List.map_append, List.map_map]
    exact split.symm.trans ((map_text?_closed done).append_left _)
  exact (List.map_perm_map_iff fun _ _ => Option.some.inj).mp parts

/-- Without the closing lines, a print has one line for each node that the walk hands out, in the
same order and with the margin of its place. The closing lines are one for each element of the walk.
So both numbers of the walk give the number of lines, and the newlines of the print are one for each
line, those of all bodies, keys and values once, and those of the names of tags twice. -/
theorem printed_lines_follow_walk {n : Node} {indent : Int} (fits : n.MarginsFit indent) :
    let printed := n.record indent
    let sink := (n.printTo indent {}).sink
    let lineCount := n.walk.toList.length + n.tags.length
    sink.lines.map some = printed.map Frame.text? ∧
      (printed.filter Frame.opens).map Frame.text? =
        (n.places.map fun place => some (openingLine indent place)) ∧
      ((printed.filter (!·.opens)).map Frame.text?).Perm
        ((n.places.filterMap (closingLine? indent)).map some) ∧
      n.places.map Prod.snd = n.walk.toList ∧
      (∀ place ∈ n.places, n.at? place.1 = some place.2) ∧
      sink.lines.length = lineCount ∧
      sink.text.toList.count '\n' =
        lineCount + Text.newlines (n.walk.toList.filterMap (·.content.body?)) +
          Text.newlines (n.tags.flatMap Tag.attributeTexts) +
          2 * Text.newlines (n.tags.map Tag.name) := by
  intro printed sink lineCount
  have done := fault_printTo_of_fits fits
  have walked : n.places.map Prod.snd = n.walk.toList := by rw [map_snd_places, toList_walk]
  have elements : (n.places.map Prod.snd).filterMap (·.content.tag?) = n.tags := by
    rw [walked, tags]
  have lines := lines_printTo_perm done
  have count : sink.lines.length = n.walk.toList.length + n.tags.length := by
    rw [lines.length_eq, List.length_append, List.length_map, length_closingLines, elements,
      ← List.length_map Prod.snd, walked]
  refine ⟨lines_printTo n indent, map_text?_opened done, map_text?_closed done, walked, ?_, count, ?_⟩
  · intro place member
    exact at?_of_mem_places member
  · rw [Sink.text, Text.count_join_lines, count, Text.newlines_perm lines, Text.newlines_append,
      newlines_openingLines, newlines_closingLines, elements, walked]
    omega

/-- A text of two lines over an element and a comment that stands twice, with newlines in a name, in
a key and in the comment. -/
def multilineTree : Node :=
  ⟨3, .text "x\ny",
    [⟨2, .element { name := "a\nb", attributes := .ofPairs [("k\n", "v")] }, [⟨0, .comment "\n", []⟩]⟩,
      ⟨0, .comment "\n", []⟩]⟩

theorem newlines_of_multilineTree :
    multilineTree.MarginsFit (-1) ∧
      (multilineTree.printTo (-1) {}).sink.lines.length = 5 ∧
      (multilineTree.printTo (-1) {}).sink.text.toList.count '\n' = 11 := by
  have fits : multilineTree.MarginsFit (-1) := marginsFit_of_size (by decide) (by decide)
  obtain ⟨_, _, _, _, _, lines, newlines⟩ := printed_lines_follow_walk fits
  refine ⟨fits, ?_, ?_⟩
  · rw [lines]
    decide +kernel
  · rw [newlines]
    decide +kernel

end Node

end MarkupTree
