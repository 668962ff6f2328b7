import MarkupTree.InsertionMap
import MarkupTree.Text.Tokens

/-!
# Tags of elements

The payload of an element is its name and its attributes in the order in which they were written.
The opening form spells out every attribute and escapes nothing, so it need not determine the tag.
-/
namespace MarkupTree

abbrev Attributes := InsertionMap String

structure Tag where
  name : String := ""
  attributes : Attributes := ∅

namespace Tag

def idAttribute : String := "id"

def classAttribute : String := "class"

/-- The only character that ends a class token. -/
def classSeparator : Char := ' '

def attributeForm (key value : String) : String := " " ++ key ++ "=\"" ++ value ++ "\""

def attributeText (tag : Tag) : String :=
  String.join (tag.attributes.entries.map fun entry => attributeForm entry.1 entry.2)

def opening (tag : Tag) : String := "<" ++ tag.name ++ tag.attributeText ++ ">"

/-- The form that closes an element, which repeats no attribute. -/
def closing (tag : Tag) : String := "<" ++ tag.name ++ "/>"

def id? (tag : Tag) : Option String := tag.attributes.get? idAttribute

/-- The class attribute cut into tokens, with empty and repeated ones. Without the attribute there
is no token at all, while an empty attribute has the empty token. -/
def classTokens (tag : Tag) : List String :=
  match tag.attributes.get? classAttribute with
  | none => []
  | some value => Text.tokens classSeparator value

/-- The set of class tokens, listed in the order of their characters. -/
def classes (tag : Tag) : List String :=
  tag.classTokens.eraseDups.mergeSort fun a b => decide (a ≤ b)

/-- Two tags are alike when they have one name and the same attributes in any order. -/
def alike (a b : Tag) : Bool := a.name == b.name && a.attributes.alike b.attributes

theorem mem_classes {tag : Tag} {token : String} :
    token ∈ tag.classes ↔ token ∈ tag.classTokens := by
  simp [classes, List.mem_mergeSort, List.mem_eraseDups]

end Tag

end MarkupTree
