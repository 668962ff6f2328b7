import MarkupTree.Node.Equality

/-!
# Equality of values

Nodes, their contents and the tags of elements are values of five kinds, and foreign values may be
compared with them. A value answers only for its own kind and declines otherwise. If the left value
declines, the right one is asked, and if both decline the values are not equal.
-/
namespace MarkupTree

/-- The five kinds of values that a tree is made of. -/
inductive Kind where
  | node
  | text
  | comment
  | element
  | tag
  deriving DecidableEq

def Kind.name : Kind → String
  | node => "Node"
  | text => "Text"
  | comment => "Comment"
  | element => "Element"
  | tag => "ElementData"

def Content.kind : Content → Kind
  | text _ => .text
  | element _ => .element
  | comment _ => .comment

/-- Values that no tree is made of, with what each says about being equal to another one. -/
class Outside (φ : Type) where
  answer : φ → φ → Option Bool

/-- The usual values that no tree is made of. -/
inductive Foreign where
  | text (value : String)
  | number (value : Int)
  | nothing
  deriving DecidableEq

def Foreign.answer : Foreign → Foreign → Option Bool
  | text a, text b => some (a == b)
  | number a, number b => some (a == b)
  | nothing, nothing => some true
  | _, _ => none

instance : Outside Foreign := ⟨Foreign.answer⟩

/-- Anything that can stand on a side of a comparison. Any type may give the foreign values. -/
inductive Value (φ : Type := Foreign) where
  | node (node : Node)
  | content (content : Content)
  | tag (tag : Tag)
  | foreign (value : φ)

inductive HashError where
  | unhashable (kind : Kind)
  deriving DecidableEq

def HashError.message : HashError → String
  | unhashable kind => "unhashable type: '" ++ kind.name ++ "'"

namespace Value
variable {φ : Type}

def kind? : Value φ → Option Kind
  | node _ => some .node
  | content c => some c.kind
  | tag _ => some .tag
  | foreign _ => none

def label? : Value φ → Option String
  | node n => some n.label
  | content c => some c.label
  | tag t => some t.opening
  | foreign _ => none

/-- None of the five kinds can be hashed. -/
def hashError? (value : Value φ) : Option HashError := value.kind?.map .unhashable

variable [Outside φ]

/-- What a value says about being equal to another one. It declines to speak of another kind. -/
def answer : Value φ → Value φ → Option Bool
  | node a, node b => some (a.equal b)
  | content a, content b => if a.kind = b.kind then some (a.alike b) else none
  | tag a, tag b => some (a.alike b)
  | foreign a, foreign b => Outside.answer a b
  | _, _ => none

/-- What a value says about being different from another one, which negates its answer. -/
def denial (a b : Value φ) : Option Bool := (answer a b).map not

/-- Equality by the left answer, else the right one. Two values that both decline are not one. -/
def equal (a b : Value φ) : Bool := (answer a b <|> answer b a).getD false

/-- Difference by the left denial, else the right one. -/
def differs (a b : Value φ) : Bool := (denial a b <|> denial b a).getD true

end Value

end MarkupTree
