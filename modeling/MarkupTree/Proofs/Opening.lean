import MarkupTree.Proofs.Extensional
import MarkupTree.Proofs.Tokens

/-!
# Tags are read back from their opening forms

The name of a tag ends at the first space or closing bracket of its opening form. Behind it, quotes
alternate between the end of a key and the end of a value, so a tag whose name, keys and values keep
clear of these characters is determined by its opening form.
-/
namespace MarkupTree.Tag

/-- The characters that end names, keys and values in an opening form do not occur in them. -/
structure Separable (tag : Tag) : Prop where
  space : ' ' ∉ tag.name.toList
  bracket : '>' ∉ tag.name.toList
  quotes : ∀ entry ∈ tag.attributes.entries, '"' ∉ entry.1.toList ∧ '"' ∉ entry.2.toList

instance (tag : Tag) : Decidable tag.Separable :=
  decidable_of_iff (' ' ∉ tag.name.toList ∧ '>' ∉ tag.name.toList ∧
      ∀ entry ∈ tag.attributes.entries, '"' ∉ entry.1.toList ∧ '"' ∉ entry.2.toList)
    ⟨fun h => ⟨h.1, h.2.1, h.2.2⟩, fun h => ⟨h.space, h.bracket, h.quotes⟩⟩

def inName (c : Char) : Bool := c != ' ' && c != '>'

/-- The pieces between quotes, taken in pairs. A key stands between a space and an equals sign. -/
def readEntries : List (List Char) → List (String × String)
  | key :: value :: rest => (.ofList key.tail.dropLast, .ofList value) :: readEntries rest
  | _ => []

/-- The tag that is written behind an opening bracket. What is read from a text that no tag opens
with is of no account. -/
def read (text : List Char) : Tag where
  name := .ofList (text.takeWhile inName)
  attributes := .ofPairs (readEntries ((text.dropWhile inName).splitOn '"'))

/-- The pieces that the quotes of an attribute cut off. -/
def entryPieces (entry : String × String) : List (List Char) :=
  [' ' :: entry.1.toList ++ ['='], entry.2.toList]

theorem toList_attributeForm (key value : String) :
    (attributeForm key value).toList =
      ' ' :: (key.toList ++ ['='] ++ '"' :: (value.toList ++ ['"'])) := by
  simp [attributeForm]

theorem readEntries_pieces (entries : List (String × String)) (last : List Char) :
    readEntries (entries.flatMap entryPieces ++ [last]) = entries := by
  induction entries with
  | nil => rfl
  | cons entry rest ih => simp [entryPieces, readEntries, ih]

theorem splitOn_attributes {entries : List (String × String)}
    (quotes : ∀ entry ∈ entries, '"' ∉ entry.1.toList ∧ '"' ∉ entry.2.toList) {last : List Char}
    (clean : '"' ∉ last) :
    ((entries.map fun entry => attributeForm entry.1 entry.2).flatMap String.toList ++
      last).splitOn '"' = entries.flatMap entryPieces ++ [last] := by
  induction entries with
  | nil => exact List.splitOn_eq_singleton clean
  | cons entry rest ih =>
      obtain ⟨⟨key, value⟩, later⟩ := List.forall_mem_cons.mp quotes
      have opened : '"' ∉ ' ' :: entry.1.toList ++ ['='] := by simp [key]
      have form : ∀ tail, (attributeForm entry.1 entry.2).toList ++ tail =
          (' ' :: entry.1.toList ++ ['=']) ++ '"' :: (entry.2.toList ++ '"' :: tail) := by
        intro tail
        simp [toList_attributeForm]
      rw [List.map_cons, List.flatMap_cons, List.append_assoc, form,
        List.splitOn_append_cons_self_of_not_mem opened,
        List.splitOn_append_cons_self_of_not_mem value, ih later]
      rfl

theorem toList_opening (tag : Tag) :
    tag.opening.toList = '<' :: (tag.name.toList ++ (tag.attributeText.toList ++ ['>'])) := by
  simp [opening]

/-- Behind the name of an opening form comes a space or the closing bracket. -/
theorem exists_stop (tag : Tag) :
    ∃ c rest, tag.attributeText.toList ++ ['>'] = c :: rest ∧ inName c = false := by
  rw [attributeText, String.toList_join]
  cases tag.attributes.entries with
  | nil => exact ⟨'>', [], rfl, rfl⟩
  | cons entry rest =>
      rw [List.map_cons, List.flatMap_cons, toList_attributeForm, List.cons_append,
        List.cons_append]
      exact ⟨' ', _, rfl, rfl⟩

theorem read_opening {tag : Tag} (h : tag.Separable) : read tag.opening.toList.tail = tag := by
  have all : ∀ c ∈ tag.name.toList, inName c = true := by
    intro c member
    have space : c ≠ ' ' := fun same => h.space (same ▸ member)
    have bracket : c ≠ '>' := fun same => h.bracket (same ▸ member)
    simp [inName, space, bracket]
  have stop : ∀ c ∈ (tag.attributeText.toList ++ ['>']).head?, inName c = false := by
    obtain ⟨c, rest, behind, outside⟩ := tag.exists_stop
    intro first member
    rw [behind] at member
    cases member
    exact outside
  rw [toList_opening, List.tail_cons, read, Text.takeWhile_append_of_stop all stop,
    Text.dropWhile_append_of_stop all stop, attributeText, String.toList_join,
    splitOn_attributes h.quotes (by simp), readEntries_pieces, InsertionMap.ofPairs_entries,
    String.ofList_toList]

/-- Separable tags have one opening form exactly if they have one name and the same attributes in the
same order, and then they are alike. They are alike exactly if they have one name and the attributes
of one tag are those of the other in some order. -/
theorem separable_tag_read_off_opening {a b : Tag} (ha : a.Separable) (hb : b.Separable) :
    (a.opening = b.opening ↔
      a.name = b.name ∧ a.attributes.entries = b.attributes.entries) ∧
    (a.opening = b.opening → a.alike b = true) ∧
    (a.alike b = true ↔
      a.name = b.name ∧ a.attributes.entries.Perm b.attributes.entries) := by
  have whole : a.opening = b.opening → a = b := by
    intro same
    rw [← read_opening ha, ← read_opening hb, same]
  have alike : a.alike b = true ↔
      a.name = b.name ∧ a.attributes.entries.Perm b.attributes.entries := by
    rw [Tag.alike, Bool.and_eq_true, beq_iff_eq, InsertionMap.alike_iff_perm]
  refine ⟨?_, ?_, alike⟩
  · constructor
    · intro same
      rw [whole same]
      exact ⟨rfl, rfl⟩
    · rintro ⟨name, entries⟩
      rw [opening, opening, attributeText, attributeText, name, entries]
  · intro same
    rw [alike, whole same]
    exact ⟨rfl, .refl _⟩

/-- A name with a quote, a key that looks like a closed tag, an empty key and a value of two lines. -/
def quotedName : Tag := ⟨"a\"<", .ofPairs [("k=/>", ""), ("", "u =\n> v")]⟩

def quotedNameReordered : Tag := ⟨"a\"<", .ofPairs [("", "u =\n> v"), ("k=/>", "")]⟩

theorem quotedName_alike_reordered :
    quotedName.Separable ∧ quotedNameReordered.Separable ∧
      quotedName.alike quotedNameReordered = true ∧
      quotedName.opening ≠ quotedNameReordered.opening := by
  have left : quotedName.Separable := by decide +kernel
  have right : quotedNameReordered.Separable := by decide +kernel
  obtain ⟨one, _, alike⟩ := separable_tag_read_off_opening left right
  refine ⟨left, right, alike.mpr ⟨rfl, .swap _ _ _⟩, ?_⟩
  rw [ne_eq, one]
  decide +kernel

end MarkupTree.Tag
