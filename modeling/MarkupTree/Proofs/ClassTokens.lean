import MarkupTree.Proofs.Tokens
import MarkupTree.Tag
import Mathlib.Data.List.Induction

/-!
# Class tokens

The classes of an element are the stretches of its class attribute that reach from one space to the
next, where both ends of the attribute count as spaces. No other character ends a token. Cutting the
attribute into tokens loses nothing, so tokens that are joined by spaces come back as they were, and
an attribute that is put together from two brings the tokens of both. The classes list each token
once.
-/
namespace MarkupTree.Tag
variable {tag : Tag} {value : String}

/-- A row without repetition that has the members of another row, and so stands for their set. -/
structure Collects (row members : List String) : Prop where
  nodup : row.Nodup
  mem_iff : ∀ token, token ∈ row ↔ token ∈ members

theorem nodup_eraseDups (row : List String) : row.eraseDups.Nodup := by
  induction row using List.reverseRecOn with
  | nil => exact List.nodup_nil
  | append_singleton row token ih =>
      rw [List.eraseDups_append]
      by_cases known : token ∈ row
      · simpa [List.removeAll, known] using ih
      · have fresh : ∀ other ∈ row, ¬ other = token := fun _ held same => known (same ▸ held)
        simpa [List.removeAll, known, List.nodup_append, ih, List.eraseDups_cons] using fresh

theorem classes_collect_classTokens (tag : Tag) : Collects tag.classes tag.classTokens where
  nodup := (List.mergeSort_perm _ _).nodup_iff.mpr (nodup_eraseDups tag.classTokens)
  mem_iff _ := mem_classes

theorem classTokens_eq_tokens (present : tag.attributes.get? "class" = some value) :
    tag.classTokens = Text.tokens ' ' value := by
  rw [classTokens, classAttribute, present]
  rfl

theorem mem_classes_iff (present : tag.attributes.get? "class" = some value) {token : String} :
    token ∈ tag.classes ↔ token ∈ Text.tokens ' ' value := by
  rw [mem_classes, classTokens_eq_tokens present]

theorem classes_eq_nil_iff : tag.classes = [] ↔ tag.attributes.get? "class" = none := by
  have members : tag.classes = [] ↔ tag.classTokens = [] := by
    simp [List.eq_nil_iff_forall_not_mem, mem_classes]
  rw [members]
  cases present : tag.attributes.get? "class" with
  | none =>
      rw [classTokens, classAttribute, present]
      simp
  | some value => simp [classTokens_eq_tokens present, Text.tokens_ne_nil]

/-- The classes of an element with a class attribute are the texts without a space that stand
between two spaces once a space is put at both ends of the attribute. Whatever stands in the
attribute without a space lies within one class. The empty class comes from an empty attribute, from
a space at an end or from two spaces side by side. Only an element without the attribute has no
class. -/
theorem classes_are_enclosed_by_spaces (tag : Tag) :
    (∀ value, tag.attributes.get? "class" = some value →
      (∀ token : String, token ∈ tag.classes ↔
        ' ' ∉ token.toList ∧ (" " ++ token ++ " ").toList <:+: (" " ++ value ++ " ").toList) ∧
      (∀ part : String, ' ' ∉ part.toList → part.toList <:+: value.toList →
        ∃ token ∈ tag.classes, part.toList <:+: token.toList) ∧
      ("" ∈ tag.classes ↔ value = "" ∨ [' '] <+: value.toList ∨ [' '] <:+ value.toList ∨
        [' ', ' '] <:+: value.toList)) ∧
    (tag.classes = [] ↔ tag.attributes.get? "class" = none) := by
  refine ⟨?_, classes_eq_nil_iff⟩
  intro value present
  refine ⟨?_, ?_, ?_⟩
  · intro token
    rw [mem_classes_iff present, Text.mem_tokens_iff, Text.mem_splitOn_iff]
    simp [String.toList_append]
  · intro part clean inside
    obtain ⟨piece, member, within⟩ := Text.exists_mem_splitOn_of_infix clean inside
    refine ⟨String.ofList piece, ?_, ?_⟩
    · rwa [mem_classes_iff present, Text.mem_tokens_iff, String.toList_ofList]
    · rwa [String.toList_ofList]
  · rw [mem_classes_iff present, Text.mem_tokens_iff, String.toList_empty, Text.nil_mem_splitOn_iff,
      String.toList_eq_nil_iff]

/-- A link with a tab inside a class, which it has twice, and with spaces that enclose nothing. -/
def spacedLink : Tag := { name := "a", attributes := .ofPairs [("class", " a\tb  c a\tb ")] }

theorem classes_of_spacedLink :
    spacedLink.attributes.get? "class" = some " a\tb  c a\tb " ∧ "a\tb" ∈ spacedLink.classes ∧
      "b" ∉ spacedLink.classes ∧ "" ∈ spacedLink.classes ∧
      ∃ token ∈ spacedLink.classes, "\tb".toList <:+: token.toList := by
  have present : spacedLink.attributes.get? "class" = some " a\tb  c a\tb " := by decide +kernel
  obtain ⟨members, parts, empty⟩ := (classes_are_enclosed_by_spaces spacedLink).1 _ present
  refine ⟨present, ?_, ?_, ?_, ?_⟩
  · exact (members "a\tb").mpr (by decide +kernel)
  · exact mt (members "b").mp (by decide +kernel)
  · exact empty.mpr (by decide +kernel)
  · exact parts "\tb" (by decide +kernel) (by decide +kernel)

/-- Cutting a class attribute and joining by spaces undo each other. If the attribute joins tokens
without spaces, then these are the class tokens in their order and the classes are their set, and any
attribute joins its class tokens, of which there is at least one and none has a space. An attribute
of two parts with a space between them gives the union of their classes. -/
theorem class_tokens_round_trip :
    (∀ (tag : Tag) (ts : List String), ts ≠ [] → (∀ t ∈ ts, ' ' ∉ t.toList) →
      tag.attributes.get? "class" = some (Text.join ' ' ts) →
      tag.classTokens = ts ∧ Collects tag.classes ts) ∧
    (∀ (tag : Tag) (value : String), tag.attributes.get? "class" = some value →
      tag.classTokens ≠ [] ∧ (∀ t ∈ tag.classTokens, ' ' ∉ t.toList) ∧
        Text.join ' ' tag.classTokens = value ∧ Collects tag.classes tag.classTokens) ∧
    ∀ (left right whole : Tag) (v w : String), left.attributes.get? "class" = some v →
      right.attributes.get? "class" = some w →
      whole.attributes.get? "class" = some (v ++ " " ++ w) →
      whole.classTokens = left.classTokens ++ right.classTokens ∧
        Collects whole.classes (left.classes ++ right.classes) := by
  refine ⟨?_, ?_, ?_⟩
  · intro tag ts nonempty clean present
    have same : tag.classTokens = ts := by
      rw [classTokens_eq_tokens present, Text.tokens_join nonempty clean]
    refine ⟨same, ?_⟩
    rw [← same]
    exact classes_collect_classTokens tag
  · intro tag value present
    have collected := classes_collect_classTokens tag
    rw [classTokens_eq_tokens present] at collected ⊢
    refine ⟨Text.tokens_ne_nil ' ' value, ?_, Text.join_tokens ' ' value, collected⟩
    intro t member
    exact Text.not_mem_of_mem_tokens member
  · intro left right whole v w first second both
    have same : whole.classTokens = left.classTokens ++ right.classTokens := by
      rw [classTokens_eq_tokens first, classTokens_eq_tokens second, classTokens_eq_tokens both]
      exact Text.tokens_append ' ' v w
    refine ⟨same, (classes_collect_classTokens whole).nodup, ?_⟩
    intro t
    rw [List.mem_append, mem_classes, mem_classes, mem_classes, same, List.mem_append]

/-- An element with one class attribute. -/
def classed (value : String) : Tag := { name := "p", attributes := .ofPairs [("class", value)] }

theorem classed_round_trip :
    (classed "  a\tb a\tb ").classTokens = ["", "", "a\tb", "a\tb", ""] ∧
      Text.join ' ' (classed " b  ").classTokens = " b  " ∧
      Collects (classed ("a" ++ " " ++ "b a")).classes
        ((classed "a").classes ++ (classed "b a").classes) := by
  obtain ⟨joined, cut, put⟩ := class_tokens_round_trip
  refine ⟨?_, ?_, ?_⟩
  · exact (joined _ _ (by decide) (by decide +kernel) (by decide +kernel)).1
  · exact (cut _ " b  " (by decide +kernel)).2.2.1
  · refine (put (classed "a") (classed "b a") _ "a" "b a" ?_ ?_ ?_).2
    · decide +kernel
    · decide +kernel
    · decide +kernel

end MarkupTree.Tag
