import MarkupTree.Proofs.Opening
import MarkupTree.Proofs.Record

/-!
# Lines are read back

A legible content fills one line, and it cannot be taken for a content of another kind or for the end
of an element: lines of the four sorts are told apart by how their bodies start and end. No legible
body starts with a space, so the spaces in front of it are the margin.
-/
namespace MarkupTree

/-- What the body of a line says: that a node opens, or that an element of some name closes. -/
inductive Sign where
  | opening (content : Content)
  | closing (name : String)

namespace Tag

/-- A tag whose forms are one line and are neither taken for a comment nor for each other. -/
structure Legible (tag : Tag) : Prop extends tag.Separable where
  uncommented : ¬ "!--".toList <+: tag.name.toList
  unclosed : tag.name.toList.getLast? ≠ some '/'
  name_line : '\n' ∉ tag.name.toList
  attribute_lines : ∀ entry ∈ tag.attributes.entries,
    '\n' ∉ entry.1.toList ∧ '\n' ∉ entry.2.toList

instance (tag : Tag) : Decidable tag.Legible :=
  decidable_of_iff (tag.Separable ∧ ¬ "!--".toList <+: tag.name.toList ∧
      tag.name.toList.getLast? ≠ some '/' ∧ '\n' ∉ tag.name.toList ∧
      ∀ entry ∈ tag.attributes.entries, '\n' ∉ entry.1.toList ∧ '\n' ∉ entry.2.toList)
    ⟨fun h => ⟨h.1, h.2.1, h.2.2.1, h.2.2.2.1, h.2.2.2.2⟩,
      fun h => ⟨h.toSeparable, h.uncommented, h.unclosed, h.name_line, h.attribute_lines⟩⟩

end Tag

namespace Content

/-- A content that fills one line. A text starts neither like a margin nor like a mark. -/
def Legible : Content → Prop
  | text body =>
      '\n' ∉ body.toList ∧ body.toList.head? ≠ some ' ' ∧ body.toList.head? ≠ some '<'
  | comment body => '\n' ∉ body.toList
  | element tag => tag.Legible

instance : (content : Content) → Decidable content.Legible
  | text body => inferInstanceAs (Decidable ('\n' ∉ body.toList ∧
      body.toList.head? ≠ some ' ' ∧ body.toList.head? ≠ some '<'))
  | comment body => inferInstanceAs (Decidable ('\n' ∉ body.toList))
  | element tag => inferInstanceAs (Decidable tag.Legible)

end Content

namespace Sign

/-- Reads the body of a line. What is read from a line that no legible tree prints is of no
account. -/
def read (body : List Char) : Sign :=
  if body.head? ≠ some '<' then .opening (.text (.ofList body))
  else if "<!--".toList <+: body then
    .opening (.comment (.ofList ((body.drop 4).take (body.length - 7))))
  else if "/>".toList <:+ body then .closing (.ofList ((body.drop 1).take (body.length - 3)))
  else .opening (.element (.read body.tail))

end Sign

namespace Tag

theorem toList_closing (tag : Tag) :
    tag.closing.toList = '<' :: (tag.name.toList ++ ['/', '>']) := by
  simp [closing]

/-- A name that does not start like a comment keeps its line from being one. -/
theorem Legible.not_comment {tag : Tag} (h : tag.Legible) {c : Char} (outside : c ∉ "!--".toList)
    (rest : List Char) : ¬ "<!--".toList <+: '<' :: (tag.name.toList ++ c :: rest) := by
  intro start
  have inner := (List.cons_prefix_cons.mp start).2
  exact h.uncommented ((Text.prefix_append_cons_iff outside).mp inner)

theorem getLast?_attributeText (tag : Tag) :
    tag.attributeText.toList = [] ∨ tag.attributeText.toList.getLast? = some '"' := by
  rw [attributeText, String.toList_join]
  induction tag.attributes.entries with
  | nil => exact .inl rfl
  | cons entry rest ih =>
      right
      have form : (attributeForm entry.1 entry.2).toList.getLast? = some '"' := by
        rw [attributeForm, String.toList_append]
        exact List.getLast?_concat
      rw [List.map_cons, List.flatMap_cons, List.getLast?_append, form]
      rcases ih with empty | last
      · rw [empty]
        rfl
      · rw [last]
        rfl

theorem Legible.not_closing {tag : Tag} (h : tag.Legible) :
    ¬ "/>".toList <:+ tag.opening.toList := by
  intro ending
  obtain ⟨before, split⟩ := ending
  have inner : (before ++ ['/']) ++ ['>'] =
      ('<' :: (tag.name.toList ++ tag.attributeText.toList)) ++ ['>'] := by
    rw [toList_opening] at split
    simpa using split
  have last : ('<' :: (tag.name.toList ++ tag.attributeText.toList)).getLast? = some '/' := by
    rw [← List.append_cancel_right inner, List.getLast?_append]
    rfl
  rw [List.getLast?_cons, Option.some_inj, List.getLast?_append] at last
  rcases tag.getLast?_attributeText with none | quote
  · rw [none] at last
    cases final : tag.name.toList.getLast? with
    | none => simp [final] at last
    | some c =>
        rw [final] at last
        exact h.unclosed (final.trans (congrArg some last))
  · rw [quote] at last
    simp at last

end Tag

namespace Sign

theorem read_closing {tag : Tag} (h : tag.Legible) :
    read tag.closing.toList = .closing tag.name := by
  have ending : "/>".toList <:+ '<' :: (tag.name.toList ++ ['/', '>']) :=
    ⟨'<' :: tag.name.toList, by simp⟩
  rw [tag.toList_closing, read, if_neg (by simp), if_neg (h.not_comment (by simp) ['>']),
    if_pos ending]
  simp

theorem read_heading {content : Content} (h : content.Legible) :
    read content.heading.toList = .opening content := by
  cases content with
  | text body =>
      have first : body.toList.head? ≠ some '<' := h.2.2
      rw [Content.heading, read, if_pos first, String.ofList_toList]
  | comment body =>
      have form : ("<!--" ++ body ++ "-->").toList =
          '<' :: ("!--".toList ++ body.toList ++ "-->".toList) := by
        simp
      have start : "<!--".toList <+: '<' :: ("!--".toList ++ body.toList ++ "-->".toList) :=
        ⟨body.toList ++ "-->".toList, by simp⟩
      rw [Content.heading, form, read, if_neg (by simp), if_pos start]
      simp
  | element tag =>
      have legible : tag.Legible := h
      have inner := Tag.read_opening legible.toSeparable
      obtain ⟨c, rest, behind, outside⟩ := tag.exists_stop
      have names : ∀ c ∈ "!--".toList, Tag.inName c = true := by simp [Tag.inName]
      have mark : c ∉ "!--".toList := by
        intro member
        rw [names c member] at outside
        cases outside
      have comment := legible.not_comment mark rest
      rw [← behind, ← tag.toList_opening] at comment
      rw [Content.heading, read, if_neg (by simp [tag.toList_opening]), if_neg comment,
        if_neg legible.not_closing, inner]

end Sign

namespace Content

theorem Legible.no_newline {content : Content} (h : content.Legible) :
    '\n' ∉ content.heading.toList := by
  cases content with
  | text body => exact h.1
  | comment body =>
      have line : '\n' ∉ body.toList := h
      simp [heading, line]
  | element tag =>
      have legible : tag.Legible := h
      have attributes : '\n' ∉ tag.attributeText.toList := by
        rw [Tag.attributeText, String.toList_join]
        intro member
        obtain ⟨form, listed, inside⟩ := List.mem_flatMap.mp member
        obtain ⟨entry, held, rfl⟩ := List.mem_map.mp listed
        have clean := legible.attribute_lines entry held
        simp [Tag.toList_attributeForm, clean.1, clean.2] at inside
      simp [heading, Tag.toList_opening, legible.name_line, attributes]

theorem Legible.no_space {content : Content} (h : content.Legible) :
    content.heading.toList.head? ≠ some ' ' := by
  cases content with
  | text body => exact h.2.1
  | comment body => simp [heading]
  | element tag => simp [heading, Tag.toList_opening]

end Content

namespace Line

/-- Reads a line as the width of its margin and what its body says. -/
def read (text : List Char) : Int × Sign :=
  ((text.takeWhile (· == ' ')).length, .read (text.dropWhile (· == ' ')))

theorem read_text {line : Line} (nonneg : 0 ≤ line.indent)
    (body : line.body.toList.head? ≠ some ' ') :
    read line.text.toList = (line.indent, .read line.body.toList) := by
  have all : ∀ c ∈ List.replicate (max 0 line.indent).toNat ' ', (c == ' ') = true := by
    intro c member
    rw [List.eq_of_mem_replicate member]
    rfl
  have stop : ∀ c ∈ line.body.toList.head?, (c == ' ') = false := by
    intro c first
    rw [beq_eq_false_iff_ne]
    rintro rfl
    exact body first
  have width : ((max 0 line.indent).toNat : Int) = line.indent := by omega
  rw [Line.text, Margin.padding, String.toList_append, String.toList_ofList, read,
    Text.takeWhile_append_of_stop all stop, Text.dropWhile_append_of_stop all stop,
    List.length_replicate, width]

end Line

namespace Frame

/-- What the line of a frame says. Only the frame of an element closes it. -/
def sign : Frame → Sign
  | opening node _ => .opening node.content
  | closing node _ => .closing ((node.content.tag?.map Tag.name).getD "")

theorem read_line {frame : Frame} {line : Line} (legible : frame.node.content.Legible)
    (owed : frame.line? = some line) :
    line.indent = frame.indent ∧ '\n' ∉ line.body.toList ∧ line.body.toList.head? ≠ some ' ' ∧
      Sign.read line.body.toList = frame.sign := by
  cases frame with
  | opening node indent =>
      cases owed
      exact ⟨rfl, legible.no_newline, legible.no_space, Sign.read_heading legible⟩
  | closing node indent =>
      obtain ⟨_, content, _⟩ := node
      cases content with
      | text body => cases owed
      | comment body => cases owed
      | element tag =>
          have own : tag.Legible := legible
          cases owed
          refine ⟨rfl, ?_, ?_, Sign.read_closing own⟩
          · simp [Tag.toList_closing, own.name_line]
          · simp [Tag.toList_closing]

/-- The line of a legible frame is one line and reads as what the frame says. -/
theorem read_text? {frame : Frame} {text : String} (legible : frame.node.content.Legible)
    (nonneg : 0 ≤ frame.indent) (shown : frame.text? = some text) :
    Line.read text.toList = (frame.indent, frame.sign) ∧ '\n' ∉ text.toList := by
  obtain ⟨line, owed, rfl⟩ := Option.map_eq_some_iff.mp shown
  obtain ⟨indent, newline, space, sign⟩ := read_line legible owed
  constructor
  · rw [Line.read_text (indent ▸ nonneg) space, indent, sign]
  · simp [Line.text, Margin.padding, newline]

end Frame

end MarkupTree
