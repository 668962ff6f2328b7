/-!
# Separated tokens

A text is cut at each separator and nothing is dropped, so adjacent separators leave an empty token
between them and every text has at least one token.
-/
namespace MarkupTree.Text

/-- The pieces of a text between its separators, in order. -/
def tokens (separator : Char) (text : String) : List String :=
  (text.toList.splitOn separator).map String.ofList

/-- The tokens written one after another with a separator between neighbours. -/
def join (separator : Char) (tokens : List String) : String :=
  String.intercalate (String.singleton separator) tokens

@[simp] theorem tokens_empty (separator : Char) : tokens separator "" = [""] := by
  simp [tokens]

end MarkupTree.Text
