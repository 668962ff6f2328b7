import MarkupTree.Proofs.PlacedFrames

/-!
# Printed lines are well bracketed

The line that opens an element is a left bracket and the line that closes one is a right bracket; the
other lines are none. A reader with a stack pairs them. The lines of a tree leave this stack as it was:
every closing line is paired with the line that opened the same element at the same place, and what
stands between the two are the lines of everything below that place.
-/
namespace MarkupTree

/-- What an item of a word is for a reader that pairs brackets. -/
inductive Bracket where
  | opens
  | closes
  | neither
  deriving DecidableEq

namespace Bracket
variable {α : Type} {bracket : α → Bracket} {P : α → α → Prop}

/-- Reads a word with a stack of the items that are open, the last one on top. The result is the
pairs, in the order in which they are closed, and the items that are still open. No result is given
for a word that closes more than is open. -/
def read (bracket : α → Bracket) : List α → List α → Option (List (α × α) × List α)
  | [], stack => some ([], stack)
  | item :: rest, stack =>
      match bracket item, stack with
      | .opens, stack => read bracket rest (item :: stack)
      | .neither, stack => read bracket rest stack
      | .closes, [] => none
      | .closes, top :: below =>
          (read bracket rest below).map fun (pairs, left) => ((top, item) :: pairs, left)

theorem read_of_opens {item : α} (sort : bracket item = .opens) (rest stack : List α) :
    read bracket (item :: rest) stack = read bracket rest (item :: stack) := by
  simp only [read, sort]

theorem read_of_neither {item : α} (sort : bracket item = .neither) (rest stack : List α) :
    read bracket (item :: rest) stack = read bracket rest stack := by
  simp only [read, sort]

theorem read_of_closes {item : α} (sort : bracket item = .closes) (rest : List α) (top : α)
    (below : List α) :
    read bracket (item :: rest) (top :: below) =
      (read bracket rest below).map fun (pairs, left) => ((top, item) :: pairs, left) := by
  simp only [read, sort]

theorem read_append {word stack left : List α} {pairs : List (α × α)}
    (first : read bracket word stack = some (pairs, left)) (other : List α) :
    read bracket (word ++ other) stack =
      (read bracket other left).map fun (others, last) => (pairs ++ others, last) := by
  fun_induction read bracket word stack generalizing pairs left with
  | case1 stack =>
      cases first
      simp
  | case2 item rest stack sort ih => rw [List.cons_append, read_of_opens sort, ih first]
  | case3 item rest stack sort ih => rw [List.cons_append, read_of_neither sort, ih first]
  | case4 item rest sort => cases first
  | case5 item rest top below sort ih =>
      obtain ⟨⟨others, last⟩, inner, same⟩ := Option.map_eq_some_iff.mp first
      cases same
      rw [List.cons_append, read_of_closes sort, ih inner, Option.map_map]
      rfl

/-- What closes in a word is what closes a pair, in this order. -/
theorem map_snd_of_read {word stack left : List α} {pairs : List (α × α)}
    (done : read bracket word stack = some (pairs, left)) :
    pairs.map Prod.snd = word.filter (bracket · = .closes) := by
  fun_induction read bracket word stack generalizing pairs left with
  | case1 stack =>
      cases done
      rfl
  | case2 item rest stack sort ih => rw [ih done, List.filter_cons_of_neg (by simp [sort])]
  | case3 item rest stack sort ih => rw [ih done, List.filter_cons_of_neg (by simp [sort])]
  | case4 item rest sort => cases done
  | case5 item rest top below sort ih =>
      obtain ⟨⟨others, last⟩, inner, same⟩ := Option.map_eq_some_iff.mp done
      cases same
      rw [List.map_cons, ih inner, List.filter_cons_of_pos (by simp [sort])]

/-- What opens in a word and what was open before opens a pair once or is left open. -/
theorem map_fst_append_perm_of_read {word stack left : List α} {pairs : List (α × α)}
    (done : read bracket word stack = some (pairs, left)) :
    (pairs.map Prod.fst ++ left).Perm (word.filter (bracket · = .opens) ++ stack) := by
  fun_induction read bracket word stack generalizing pairs left with
  | case1 stack =>
      cases done
      exact .refl _
  | case2 item rest stack sort ih =>
      rw [List.filter_cons_of_pos (by simp [sort]), List.cons_append]
      exact (ih done).trans List.perm_middle
  | case3 item rest stack sort ih =>
      rw [List.filter_cons_of_neg (by simp [sort])]
      exact ih done
  | case4 item rest sort => cases done
  | case5 item rest top below sort ih =>
      obtain ⟨⟨others, last⟩, inner, same⟩ := Option.map_eq_some_iff.mp done
      cases same
      rw [List.filter_cons_of_neg (by simp [sort]), List.map_cons, List.cons_append]
      exact ((ih inner).cons top).trans List.perm_middle.symm

/-- A word in which every item that opens has an item behind it that closes it, with a balanced word
between the two, and the two are as `P` asks. -/
inductive Balanced (bracket : α → Bracket) (P : α → α → Prop) : List α → Prop where
  | nil : Balanced bracket P []
  | skip {item : α} {rest : List α} (sort : bracket item = .neither)
      (later : Balanced bracket P rest) : Balanced bracket P (item :: rest)
  | pair {opener closer : α} {inside after : List α} (left : bracket opener = .opens)
      (right : bracket closer = .closes) (both : P opener closer)
      (inner : Balanced bracket P inside) (later : Balanced bracket P after) :
      Balanced bracket P (opener :: (inside ++ closer :: after))

theorem Balanced.append {word other : List α} (first : Balanced bracket P word)
    (second : Balanced bracket P other) : Balanced bracket P (word ++ other) := by
  induction first with
  | nil => exact second
  | skip sort _ ih => exact .skip sort ih
  | pair left right both inner _ _ ih =>
      rw [List.cons_append, List.append_assoc, List.cons_append]
      exact .pair left right both inner ih

/-- A balanced word is read to its end and leaves what was open before. -/
theorem Balanced.exists_read {word : List α} (h : Balanced bracket P word) :
    ∃ pairs : List (α × α), (∀ pair ∈ pairs, P pair.1 pair.2) ∧
      ∀ stack, read bracket word stack = some (pairs, stack) := by
  induction h with
  | nil => exact ⟨[], by simp, fun _ => rfl⟩
  | skip sort _ ih =>
      obtain ⟨pairs, each, whole⟩ := ih
      exact ⟨pairs, each, fun stack => by rw [read_of_neither sort, whole]⟩
  | @pair opener closer inside after left right both _ _ ih ih' =>
      obtain ⟨pairs, each, inner⟩ := ih
      obtain ⟨others, each', later⟩ := ih'
      refine ⟨pairs ++ (opener, closer) :: others, ?_, ?_⟩
      · rw [List.forall_mem_append, List.forall_mem_cons]
        exact ⟨each, both, each'⟩
      · intro stack
        rw [read_of_opens left, read_append (inner (opener :: stack)), read_of_closes right, later]
        rfl

end Bracket

namespace Placed

/-- An opening line opens a bracket if it is the line of an element. -/
def bracket (placed : Placed) : Bracket :=
  match placed.frame with
  | .opening node _ => if node.content.tag?.isSome then .opens else .neither
  | .closing _ _ => .closes

/-- The two frames of an element at a place. -/
inductive Twins : Placed → Placed → Prop where
  | element (path : Path) {x : Node} (width : Int) {tag : Tag} (own : x.content = .element tag) :
      Twins ⟨path, .opening x width⟩ ⟨path, .closing x width⟩

end Placed

namespace Node

theorem balanced_placedFramesFrom {row : List Node}
    (each : ∀ n ∈ row, ∀ path indent,
      Bracket.Balanced Placed.bracket Placed.Twins (n.placedFrames path indent))
    (path : Path) (indent : Int) (index : Nat) :
    Bracket.Balanced Placed.bracket Placed.Twins (placedFramesFrom path indent index row) := by
  induction row generalizing index with
  | nil => exact .nil
  | cons n rest ih =>
      obtain ⟨own, later⟩ := List.forall_mem_cons.mp each
      rw [placedFramesFrom]
      exact (own _ _).append (ih later (index + 1))

/-- The frames of a tree are balanced, and its brackets are those of its elements. -/
theorem balanced_placedFrames (n : Node) (path : Path) (indent : Int) :
    Bracket.Balanced Placed.bracket Placed.Twins (n.placedFrames path indent) := by
  induction n generalizing path indent with
  | node mark content children ih =>
      have below := balanced_placedFramesFrom ih path (indent + Line.indentStep) 0
      rw [placedFrames_eq]
      cases own : content.tag? with
      | none =>
          -- what stands below a text or a comment is read as if the node were not there
          rw [Placed.closings_of_none own, List.append_nil]
          exact .skip (by simp [Placed.bracket, own]) below
      | some tag =>
          have element : content = .element tag := Content.tag?_eq_some_iff.mp own
          rw [Placed.closings_of_element element]
          exact .pair (by simp [Placed.bracket, own]) rfl (.element path indent element) below .nil

/-- The frames between those of an element at a path, and the frames before and after these two. -/
structure Encloses (path : Path) (x : Node) (width : Int) (before inside after : List Placed) :
    Prop where
  lines : inside.map (·.frame.line?) =
    (linesAll (width + Line.indentStep) x.children).map some
  below : ∀ placed ∈ inside, ∃ index rest, placed.path = path ++ index :: rest
  deeper : ∀ placed ∈ inside, width < placed.frame.indent
  elsewhere : ∀ placed ∈ before ++ after, ¬ path <+: placed.path

/-- The frames of an element that stands at a place of a tree have the frames of its descendants
between them, and no other frame has its place there. -/
theorem exists_encloses {n x : Node} {path : Path} {tag : Tag} (place : n.at? path = some x)
    (own : x.content = .element tag) (indent : Int) :
    let width := indent + 2 * (path.length : Int)
    ∃ before inside after, n.placedFrames [] indent = before ++ ⟨path, .opening x width⟩ ::
        (inside ++ ⟨path, .closing x width⟩ :: after) ∧
      Encloses path x width before inside after := by
  intro width
  obtain ⟨before, after, split, elsewhere⟩ := exists_placedFrames_around place [] indent
  rw [List.nil_append] at split elsewhere
  refine ⟨before, placedFramesFrom path (width + Line.indentStep) 0 x.children, after, ?_, ?_⟩
  · rw [split, placedFrames_eq, Placed.closings_of_element own]
    simp [width]
  · constructor
    case lines =>
      have frames : (placedFramesFrom path (width + Line.indentStep) 0 x.children).map
          Placed.frame = framesAll (width + Line.indentStep) x.children :=
        map_frame_placedFramesFrom (fun n _ => map_frame_placedFrames n) _ _ _
      rw [← map_line?_framesAll fun n _ => map_line?_frames n, ← frames, List.map_map]
      rfl
    case below =>
      intro placed member
      obtain ⟨offset, rest, _, lower, _⟩ := path_of_mem_placedFramesFrom member
      exact ⟨0 + offset, rest, lower⟩
    case deeper =>
      intro placed member
      obtain ⟨_, rest, _, _, deep⟩ := path_of_mem_placedFramesFrom member
      rw [deep, Line.indentStep]
      omega
    case elsewhere => exact elsewhere

/-- The printed lines are well bracketed. Each recorded frame stands at its place, and a reader pairs
every frame that opens an element with one that closes it. The two of a pair are the lines of one
element at one place with one indent, the lines of its descendants stand between them and further in,
and no line before or after them belongs to this place or to one below it. -/
theorem printed_lines_bracketed {n : Node} {indent : Int} (fits : n.MarginsFit indent) :
    let word := n.tracked indent
    (n.printTo indent {}).fault = none ∧
      word.map Placed.frame = n.record indent ∧
      (n.printTo indent {}).sink.lines.map some = word.map (·.frame.text?) ∧
      (∀ placed ∈ word, n.at? placed.path = some placed.frame.node ∧
        placed.frame.indent = indent + 2 * placed.path.length) ∧
      ∃ pairs, Bracket.read Placed.bracket word [] = some (pairs, []) ∧
        (pairs.map Prod.fst).Perm (word.filter (Placed.bracket · = .opens)) ∧
        pairs.map Prod.snd = word.filter (Placed.bracket · = .closes) ∧
        ∀ opener closer, (opener, closer) ∈ pairs →
          ∃ (path : Path) (x : Node) (width : Int) (tag : Tag) (before inside after : List Placed),
            n.at? path = some x ∧ x.content = .element tag ∧
            opener = ⟨path, .opening x width⟩ ∧ closer = ⟨path, .closing x width⟩ ∧
            opener.frame.line? = some ⟨width, tag.opening⟩ ∧
            closer.frame.line? = some ⟨width, tag.closing⟩ ∧
            word = before ++ opener :: (inside ++ closer :: after) ∧
            Encloses path x width before inside after := by
  intro word
  have done := fault_printTo_of_fits fits
  have whole : word = n.placedFrames [] indent := tracked_of_fault_none done
  have stands : ∀ placed ∈ word, n.at? placed.path = some placed.frame.node ∧
      placed.frame.indent = indent + 2 * placed.path.length := by
    intro placed member
    rw [whole] at member
    obtain ⟨path, own, place, width⟩ := mem_placedFrames member
    rw [own, List.nil_append]
    exact ⟨place, width⟩
  obtain ⟨pairs, twins, all⟩ := (n.balanced_placedFrames [] indent).exists_read
  rw [← whole] at all
  have openers : (pairs.map Prod.fst).Perm (word.filter (Placed.bracket · = .opens)) := by
    simpa using Bracket.map_fst_append_perm_of_read (all [])
  refine ⟨done, n.map_frame_tracked indent, ?_, stands, pairs, all [], openers,
    Bracket.map_snd_of_read (all []), ?_⟩
  · rw [lines_printTo, ← map_frame_tracked, List.map_map]
    rfl
  · intro opener closer member
    have opened := openers.subset (List.mem_map_of_mem (f := Prod.fst) member)
    have both : Placed.Twins opener closer := twins _ member
    cases both with
    | @element path x width tag own =>
        obtain ⟨place, level⟩ := stands _ (List.mem_of_mem_filter opened)
        obtain ⟨before, inside, after, split, encloses⟩ := exists_encloses place own indent
        rw [← whole] at split
        rw [← show width = _ from level] at split encloses
        refine ⟨path, x, width, tag, before, inside, after, place, own, rfl, rfl, ?_, ?_, split,
          encloses⟩
        · rw [Frame.line?, own, Content.heading]
        · rw [Frame.line?, own, Content.tag?, Option.map_some]

/-- An element that holds one element twice, the second time under a comment, and a text that holds
an element. The lines of all these elements are alike. -/
def nested : Node :=
  let shared : Node := ⟨1, .element, [⟨0, .text "t", [⟨2, .element, []⟩]⟩]⟩
  ⟨4, .element, [shared, ⟨3, .comment "c", [shared]⟩]⟩

theorem nested_pairs :
    nested.MarginsFit (-3) ∧
      ∃ pairs, Bracket.read Placed.bracket (nested.tracked (-3)) [] = some (pairs, []) ∧
        pairs.map (fun (opener, closer) => (opener.path, closer.path)) =
          [([0, 0, 0], [0, 0, 0]), ([0], [0]), ([1, 0, 0, 0], [1, 0, 0, 0]), ([1, 0], [1, 0]),
            ([], [])] := by
  have fits : nested.MarginsFit (-3) := marginsFit_of_size (by decide) (by decide)
  obtain ⟨_, _, _, _, pairs, read, _⟩ := printed_lines_bracketed fits
  refine ⟨fits, pairs, read, ?_⟩
  have places : (Bracket.read Placed.bracket (nested.tracked (-3)) []).map
      (fun (pairs, _) => pairs.map fun (opener, closer) => (opener.path, closer.path)) =
      some [([0, 0, 0], [0, 0, 0]), ([0], [0]), ([1, 0, 0, 0], [1, 0, 0, 0]), ([1, 0], [1, 0]),
        ([], [])] := by
    decide +kernel
  rw [read] at places
  exact Option.some_inj.mp places

end Node

end MarkupTree
