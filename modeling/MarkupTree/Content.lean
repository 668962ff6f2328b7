import MarkupTree.Tag

/-!
# Contents of nodes

A node is text, an element or a comment. The label names a node; the first line of its printed form
differs from it only for a comment, which stands between comment marks there.
-/
namespace MarkupTree

inductive Content where
  | text (body : String := "")
  | element (tag : Tag := {})
  | comment (body : String := "")

namespace Content

def tag? : Content → Option Tag
  | element tag => some tag
  | text _ | comment _ => none

theorem tag?_eq_some_iff {content : Content} {tag : Tag} :
    content.tag? = some tag ↔ content = element tag := by
  cases content <;> simp [tag?]

def label : Content → String
  | text body | comment body => body
  | element tag => tag.opening

/-- The body of the line that opens the printed form of a node. -/
def heading : Content → String
  | text body => body
  | element tag => tag.opening
  | comment body => "<!--" ++ body ++ "-->"

/-- Two contents are alike when they are of one kind and hold the same text or tags that are
alike. -/
def alike : Content → Content → Bool
  | text a, text b | comment a, comment b => a == b
  | element a, element b => a.alike b
  | _, _ => false

end Content

end MarkupTree
