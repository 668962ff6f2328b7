import Mathlib.Tactic.Common

/-!
# Pieces of a text between separators

Cutting a text at each separator gives the stretches that reach from one separator to the next,
where both ends of the text count as separators. A part that avoids the separator lies in a single
piece, and an empty piece comes from an end or from two separators side by side.
-/
namespace MarkupTree.Text
variable {α : Type} {a : α} {piece part text : List α}

theorem cons_intercalate {pieces : List (List α)} (some : pieces ≠ []) :
    a :: [a].intercalate pieces = pieces.flatMap (a :: ·) := by
  induction pieces with
  | nil => exact absurd rfl some
  | cons piece rest ih =>
      cases rest with
      | nil => simp
      | cons next rest =>
          rw [List.intercalate_cons_cons, List.flatMap_cons, ← ih (List.cons_ne_nil next rest)]
          simp

theorem eq_nil_of_prefix_cons {rest : List α} (clean : a ∉ part) (h : part <+: a :: rest) :
    part = [] := by
  cases part with
  | nil => rfl
  | cons b part =>
      have same : b = a := (List.cons_prefix_cons.mp h).1
      exact absurd (same ▸ List.mem_cons_self) clean

/-- A part without the separator does not reach across it. -/
theorem infix_append_cons_iff {left right : List α} (clean : a ∉ part) :
    part <:+: left ++ a :: right ↔ part <:+: left ∨ part <:+: right := by
  constructor
  · intro inside
    rcases List.infix_append_iff.mp inside with early | late | ⟨front, back, rfl, ending, start⟩
    · exact .inl early
    · rcases List.infix_cons_iff.mp late with start | late
      · rw [eq_nil_of_prefix_cons clean start]
        exact .inl List.nil_infix
      · exact .inr late
    · rw [List.mem_append, not_or] at clean
      rw [eq_nil_of_prefix_cons clean.2 start, List.append_nil]
      exact .inl ending.isInfix
  · rintro (early | late)
    · exact early.trans (List.prefix_append left _).isInfix
    · exact late.trans ⟨left ++ [a], [], by simp⟩

/-- What has neighbours on both sides is neither the first nor the last. -/
theorem mem_of_between {x first last : α} {before inner after : List α} (front : before ≠ [])
    (back : after ≠ []) (h : before ++ x :: after = first :: inner ++ [last]) : x ∈ inner := by
  obtain ⟨b, before, rfl⟩ := List.exists_cons_of_ne_nil front
  rw [← List.dropLast_concat_getLast back, List.cons_append, List.cons_append,
    ← List.cons_append (a := x), ← List.append_assoc] at h
  have same := (List.append_inj' (List.cons.inj h).2 rfl).1
  simp [← same]

theorem exists_piece_of_infix_intercalate (clean : a ∉ part) {pieces : List (List α)}
    (some : pieces ≠ []) (inside : part <:+: [a].intercalate pieces) :
    ∃ piece ∈ pieces, part <:+: piece := by
  induction pieces with
  | nil => exact absurd rfl some
  | cons piece rest ih =>
      cases rest with
      | nil => exact ⟨piece, List.mem_singleton_self piece, by simpa using inside⟩
      | cons next rest =>
          rw [List.intercalate_cons_cons, List.append_assoc, List.singleton_append,
            infix_append_cons_iff clean] at inside
          rcases inside with own | later
          · exact ⟨piece, List.mem_cons_self, own⟩
          · obtain ⟨other, member, within⟩ := ih (List.cons_ne_nil next rest) later
            exact ⟨other, List.mem_cons_of_mem piece member, within⟩

variable [BEq α] [LawfulBEq α]

theorem not_mem_of_mem_splitOn (h : piece ∈ text.splitOn a) : a ∉ piece := by
  induction text generalizing piece with
  | nil =>
      rw [List.splitOn_nil, List.mem_singleton] at h
      simp [h]
  | cons c rest ih =>
      rw [List.splitOn_cons_eq_if_modifyHead] at h
      split at h
      · rcases List.mem_cons.mp h with rfl | later
        · exact List.not_mem_nil
        · exact ih later
      · rename_i other
        obtain ⟨first, more, pieces⟩ := List.exists_cons_of_ne_nil (List.splitOn_ne_nil a rest)
        rw [pieces] at ih h
        rcases List.mem_cons.mp h with rfl | later
        · have apart : a ≠ c := fun same => other (by simp [same])
          rw [List.mem_cons, not_or]
          exact ⟨apart, ih List.mem_cons_self⟩
        · exact ih (List.mem_cons_of_mem first later)

theorem cons_eq_flatMap_splitOn (a : α) (text : List α) :
    a :: text = (text.splitOn a).flatMap (a :: ·) := by
  rw [← cons_intercalate (List.splitOn_ne_nil a text), List.intercalate_splitOn]

theorem splitOn_enclosed (a : α) (text : List α) :
    (a :: text ++ [a]).splitOn a = [] :: text.splitOn a ++ [[]] := by
  rw [List.cons_append, ← List.nil_append (a :: (text ++ [a])), List.splitOn_append_cons_self,
    List.splitOn_append_cons_self, List.splitOn_nil]
  rfl

theorem exists_mem_splitOn_of_infix (clean : a ∉ part) (inside : part <:+: text) :
    ∃ piece ∈ text.splitOn a, part <:+: piece := by
  have whole : [a].intercalate (text.splitOn a) = text := List.intercalate_splitOn a
  rw [← whole] at inside
  exact exists_piece_of_infix_intercalate clean (List.splitOn_ne_nil a text) inside

theorem enclosed_of_mem_splitOn (h : piece ∈ text.splitOn a) :
    a :: piece ++ [a] <:+: a :: text ++ [a] := by
  obtain ⟨before, after, pieces⟩ := List.append_of_mem h
  -- behind the piece comes the next separator, or the one that is put at the end
  obtain ⟨rest, behind⟩ : ∃ rest, after.flatMap (a :: ·) ++ [a] = a :: rest := by
    cases after <;> simp
  refine ⟨before.flatMap (a :: ·), rest, ?_⟩
  rw [cons_eq_flatMap_splitOn a text, pieces, List.flatMap_append, List.flatMap_cons,
    List.append_assoc _ _ [a], List.append_assoc _ _ [a], behind]
  simp

theorem mem_splitOn_of_enclosed (clean : a ∉ piece)
    (h : a :: piece ++ [a] <:+: a :: text ++ [a]) : piece ∈ text.splitOn a := by
  obtain ⟨before, after, enclosed⟩ := h
  have around : before ++ (a :: piece ++ [a]) ++ after = before ++ a :: (piece ++ a :: after) := by
    simp
  have cut : before.splitOn a ++ piece :: after.splitOn a = [] :: text.splitOn a ++ [[]] := by
    rw [← splitOn_enclosed, ← enclosed, around, List.splitOn_append_cons_self,
      List.splitOn_append_cons_self_of_not_mem clean]
  -- the first and the last piece of the whole are the two that were put around the text
  exact mem_of_between (List.splitOn_ne_nil a before) (List.splitOn_ne_nil a after) cut

/-- The pieces of a text are what stands between neighbouring separators, where both ends of the
text count as separators. -/
theorem mem_splitOn_iff :
    piece ∈ text.splitOn a ↔ a ∉ piece ∧ a :: piece ++ [a] <:+: a :: text ++ [a] := by
  constructor
  · intro member
    exact ⟨not_mem_of_mem_splitOn member, enclosed_of_mem_splitOn member⟩
  · intro h
    exact mem_splitOn_of_enclosed h.1 h.2

theorem nil_mem_splitOn_iff :
    [] ∈ text.splitOn a ↔ text = [] ∨ [a] <+: text ∨ [a] <:+ text ∨ [a, a] <:+: text := by
  have start : [a, a] <+: a :: text ↔ [a] <+: text := by simp [List.cons_prefix_cons]
  have ending : [a, a] <:+ a :: text ++ [a] ↔ text = [] ∨ [a] <:+ text := by
    rw [← List.singleton_append (x := a), List.suffix_append_inj_of_length_eq rfl,
      List.suffix_cons_iff]
    simp
  rw [mem_splitOn_iff, List.singleton_append, List.infix_concat_iff, ending, List.infix_cons_iff,
    start]
  simp [or_assoc, or_left_comm (a := [a] <:+ text)]

end MarkupTree.Text
