import MarkupTree.Text.Tokens
import MarkupTree.Proofs.Pieces

/-!
# Cutting texts

Cutting a text into tokens and joining tokens without the separator undo each other. A text that is
read up to the first character that cannot belong to a piece gives that piece and what follows it.
-/
namespace MarkupTree.Text

section Tokens
variable {separator : Char} {token text : String}

theorem mem_tokens_iff :
    token ∈ tokens separator text ↔ token.toList ∈ text.toList.splitOn separator := by
  rw [tokens, List.mem_map]
  constructor
  · rintro ⟨piece, member, rfl⟩
    rwa [String.toList_ofList]
  · intro member
    exact ⟨token.toList, member, String.ofList_toList⟩

theorem not_mem_of_mem_tokens (h : token ∈ tokens separator text) : separator ∉ token.toList :=
  not_mem_of_mem_splitOn (mem_tokens_iff.mp h)

theorem tokens_ne_nil (separator : Char) (text : String) : tokens separator text ≠ [] := by
  simp [tokens]

/-- No text is lost when it is cut into tokens. -/
theorem join_tokens (separator : Char) (text : String) :
    join separator (tokens separator text) = text := by
  rw [← String.toList_inj, join, String.toList_intercalate, String.toList_singleton, tokens,
    List.map_map]
  have back : (String.toList ∘ String.ofList) = id := funext fun _ => String.toList_ofList
  rw [back, List.map_id, List.intercalate_splitOn]

theorem tokens_append (separator : Char) (left right : String) :
    tokens separator (left ++ String.singleton separator ++ right) =
      tokens separator left ++ tokens separator right := by
  have parts : (left ++ String.singleton separator ++ right).toList =
      left.toList ++ separator :: right.toList := by simp
  rw [tokens, parts, List.splitOn_append_cons_self, List.map_append]
  rfl

theorem tokens_join {ts : List String} (nonempty : ts ≠ [])
    (clean : ∀ t ∈ ts, separator ∉ t.toList) : tokens separator (join separator ts) = ts := by
  have pieces : ∀ piece ∈ ts.map String.toList, separator ∉ piece := by
    intro piece member
    obtain ⟨t, held, rfl⟩ := List.mem_map.mp member
    exact clean t held
  have some : ts.map String.toList ≠ [] := by simpa using nonempty
  rw [tokens, join, String.toList_intercalate, String.toList_singleton,
    List.splitOn_intercalate separator pieces some, List.map_map]
  simp

end Tokens

/-- Lines that are ended by newlines are joined by newlines before an empty last line. -/
theorem join_lines (lines : List String) :
    String.join (lines.map (· ++ "\n")) = join '\n' (lines ++ [""]) := by
  induction lines with
  | nil => simp [join]
  | cons line rest ih =>
      rw [List.map_cons, String.join_cons, ih, join, join, List.cons_append,
        String.intercalate_cons_of_ne_nil (by simp)]
      rfl

theorem tokens_join_lines {lines : List String} (clean : ∀ line ∈ lines, '\n' ∉ line.toList) :
    tokens '\n' (String.join (lines.map (· ++ "\n"))) = lines ++ [""] := by
  rw [join_lines, tokens_join (by simp)]
  intro line member
  rcases List.mem_append.mp member with held | last
  · exact clean line held
  · simp [List.mem_singleton.mp last]

variable {α : Type} {inside : α → Bool} {piece rest : List α}

theorem takeWhile_append_of_stop (all : ∀ a ∈ piece, inside a = true)
    (stop : ∀ a ∈ rest.head?, inside a = false) : (piece ++ rest).takeWhile inside = piece := by
  rw [List.takeWhile_append_of_pos all]
  cases rest with
  | nil => simp
  | cons a rest => simp [stop a rfl]

theorem dropWhile_append_of_stop (all : ∀ a ∈ piece, inside a = true)
    (stop : ∀ a ∈ rest.head?, inside a = false) : (piece ++ rest).dropWhile inside = rest := by
  rw [List.dropWhile_append_of_pos all]
  cases rest with
  | nil => simp
  | cons a rest => simp [stop a rfl]

/-- What a text starts with is settled before a character that it does not contain. -/
theorem prefix_append_cons_iff {start : List α} {a : α} (absent : a ∉ start) :
    start <+: piece ++ a :: rest ↔ start <+: piece := by
  constructor
  · intro h
    rcases List.prefix_or_prefix_of_prefix h (List.prefix_append piece (a :: rest)) with inner | outer
    · exact inner
    · obtain ⟨more, rfl⟩ := outer
      cases more with
      | nil => simp
      | cons b more =>
          have same : b = a := (List.cons_prefix_cons.mp ((List.prefix_append_right_inj piece).mp h)).1
          simp [same] at absent
  · intro h
    exact h.trans (List.prefix_append piece _)

end MarkupTree.Text
