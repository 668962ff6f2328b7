import MarkupTree.Node.Path

/-!
# Building trees

Every node that is built takes the next unused mark, so distinct acts of building give distinct
nodes. Holding a node that is already built takes no mark, and it can be held in many places.
-/
namespace MarkupTree

/-- A construction that draws unused marks from a counter. -/
abbrev Build := StateM Nat

namespace Build

/-- A new node. Text and comments may have children too. -/
def node (content : Content) (children : List Node := []) : Build Node :=
  fun unused => (⟨unused, content, children⟩, unused + 1)

def text (body : String) : Build Node := node (.text body)

def comment (body : String) : Build Node := node (.comment body)

def element (name : String) (attributes : Attributes := ∅) (children : List Node := []) :
    Build Node :=
  node (.element { name, attributes }) children

/-- New texts under one new element, one for each body. -/
def texts (name : String) (bodies : List String) : Build Node := do
  let children ← bodies.mapM text
  element name ∅ children

/-- New elements on top of a node, the first level innermost. The element of a level holds the one
node below it `width` times. -/
def tower (tag : Nat → Tag) (width : Nat) (inner : Node) : Nat → Build Node
  | 0 => pure inner
  | level + 1 => do
      let below ← tower tag width inner level
      node (.element (tag (level + 1))) (List.replicate width below)

/-- New elements on top of a node, one child each and all with one tag. -/
def wrap (tag : Tag) (depth : Nat) (inner : Node) : Build Node :=
  tower (fun _ => tag) 1 inner depth

/-- The tree with another node at a place. The nodes above that place are built anew and all other
nodes are held as they were. A tree without that place is held as it was. -/
def replaceAt : Node → Path → Node → Build Node
  | _, [], replacement => pure replacement
  | n, index :: path, replacement =>
      match n.children[index]? with
      | none => pure n
      | some child => do
          let replaced ← replaceAt child path replacement
          node n.content (n.children.set index replaced)

end Build

end MarkupTree
