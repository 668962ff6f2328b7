import MarkupTree.Content
import Mathlib.Data.List.Nodup
import Mathlib.Data.List.Perm.Subperm

/-!
# Maps, tags and contents by what they hold

Maps are compared by their sizes and by looking up the entries of the first one. Since keys are
distinct, this decides whether every key has the same value in both. Tags and contents are compared
through their maps, so neither the order of attributes nor the way they were written counts.
-/
namespace MarkupTree

namespace InsertionMap
variable {α : Type}

theorem get?_eq_some_iff {m : InsertionMap α} {key : String} {value : α} :
    m.get? key = some value ↔ (key, value) ∈ m.entries := by
  constructor
  · intro found
    obtain ⟨before, after, split, _⟩ := List.lookup_eq_some_iff.mp found
    simp [split]
  · intro member
    obtain ⟨before, after, split⟩ := List.append_of_mem member
    have distinct := m.keys_nodup
    rw [split, List.map_append, List.map_cons] at distinct
    apply List.lookup_eq_some_iff.mpr
    refine ⟨before, after, split, ?_⟩
    intro entry earlier
    have apart := (List.nodup_append.mp distinct).2.2 entry.1 (List.mem_map_of_mem earlier)
      key (by simp)
    simpa [bne_iff_ne] using apart.symm

theorem mem_keys_iff {m : InsertionMap α} {key : String} :
    key ∈ m.keys ↔ ∃ value, m.get? key = some value := by
  simp [keys, get?_eq_some_iff]

theorem get?_eq_none_iff {m : InsertionMap α} {key : String} :
    m.get? key = none ↔ key ∉ m.keys := by
  rw [mem_keys_iff, Option.eq_none_iff_forall_ne_some, not_exists]

theorem length_keys (m : InsertionMap α) : m.keys.length = m.size := by
  simp [keys, size]

theorem keys_perm_of_subset {a b : InsertionMap α} (sub : a.keys ⊆ b.keys)
    (size : a.size = b.size) : a.keys.Perm b.keys := by
  have within : a.keys.Subperm b.keys := List.subperm_of_subset a.keys_nodup sub
  have lengths : b.keys.length = a.keys.length := by rw [length_keys, length_keys, size]
  exact within.perm_of_length_le (Nat.le_of_eq lengths)

theorem alike_iff_size [BEq α] [LawfulBEq α] {a b : InsertionMap α} :
    a.alike b = true ↔
      a.size = b.size ∧ ∀ key value, a.get? key = some value → b.get? key = some value := by
  simp [alike, get?_eq_some_iff]

theorem alike_iff [BEq α] [LawfulBEq α] {a b : InsertionMap α} :
    a.alike b = true ↔ ∀ key, a.get? key = b.get? key := by
  rw [alike_iff_size]
  constructor
  · intro h key
    obtain ⟨size, carried⟩ := h
    have sub : a.keys ⊆ b.keys := by
      intro other present
      obtain ⟨value, found⟩ := mem_keys_iff.mp present
      exact mem_keys_iff.mpr ⟨value, carried other value found⟩
    cases found : a.get? key with
    | some value => exact (carried key value found).symm
    | none =>
        -- a key of `b` alone would make `b` larger
        have absent := get?_eq_none_iff.mp found
        rw [(keys_perm_of_subset sub size).mem_iff] at absent
        exact (get?_eq_none_iff.mpr absent).symm
  · intro same
    have keys : a.keys.Perm b.keys := by
      apply (List.perm_ext_iff_of_nodup a.keys_nodup b.keys_nodup).mpr
      intro key
      rw [← keys, ← keys, mem_keys_iff, mem_keys_iff, same key]
    constructor
    · rw [← length_keys, ← length_keys, keys.length_eq]
    · intro key value found
      exact (same key).symm.trans found

theorem put_of_not_mem {key : String} {value : α} {entries : List (String × α)}
    (absent : key ∉ entries.map Prod.fst) : put key value entries = entries ++ [(key, value)] := by
  induction entries with
  | nil => rfl
  | cons entry rest ih =>
      rw [List.map_cons, List.mem_cons, not_or] at absent
      rw [put, if_neg (Ne.symm absent.1), ih absent.2, List.cons_append]

theorem entries_foldl_insert {m : InsertionMap α} {pairs : List (String × α)}
    (distinct : ((m.entries ++ pairs).map Prod.fst).Nodup) :
    (pairs.foldl (fun m pair => m.insert pair.1 pair.2) m).entries = m.entries ++ pairs := by
  induction pairs generalizing m with
  | nil => rw [List.foldl_nil, List.append_nil]
  | cons pair rest ih =>
      have absent : pair.1 ∉ m.entries.map Prod.fst := by
        rw [List.map_append, List.map_cons] at distinct
        intro member
        exact (List.nodup_append.mp distinct).2.2 pair.1 member pair.1 (by simp) rfl
      have grown : (m.insert pair.1 pair.2).entries = m.entries ++ [pair] := put_of_not_mem absent
      rw [List.foldl_cons, ih]
      · rw [grown, List.append_assoc, List.singleton_append]
      · rwa [grown, List.append_assoc, List.singleton_append]

theorem entries_ofPairs {pairs : List (String × α)} (distinct : (pairs.map Prod.fst).Nodup) :
    (ofPairs pairs).entries = pairs :=
  entries_foldl_insert (m := ∅) distinct

/-- A map is built anew from its own entries. -/
theorem ofPairs_entries (m : InsertionMap α) : ofPairs m.entries = m :=
  ext_entries (entries_ofPairs m.keys_nodup)

theorem nodup_entries (m : InsertionMap α) : m.entries.Nodup :=
  List.Nodup.of_map Prod.fst m.keys_nodup

/-- Maps that are alike hold the same entries in some order. -/
theorem alike_iff_perm [BEq α] [LawfulBEq α] {a b : InsertionMap α} :
    a.alike b = true ↔ a.entries.Perm b.entries := by
  rw [alike_iff]
  constructor
  · intro same
    apply (List.perm_ext_iff_of_nodup a.nodup_entries b.nodup_entries).mpr
    intro entry
    rw [← get?_eq_some_iff, ← get?_eq_some_iff, same]
  · intro perm key
    apply Option.ext
    intro value
    rw [get?_eq_some_iff, get?_eq_some_iff, perm.mem_iff]

end InsertionMap

/-- Two tags are the same when they have one name and each attribute has one value in both. -/
structure Tag.Same (a b : Tag) : Prop where
  name : a.name = b.name
  attributes : ∀ key, a.attributes.get? key = b.attributes.get? key

theorem Tag.alike_iff {a b : Tag} : a.alike b = true ↔ a.Same b := by
  rw [Tag.alike, Bool.and_eq_true, beq_iff_eq, InsertionMap.alike_iff]
  constructor
  · intro h
    exact ⟨h.1, h.2⟩
  · intro h
    exact ⟨h.name, h.attributes⟩

theorem Tag.Same.symm {a b : Tag} (h : a.Same b) : b.Same a :=
  ⟨h.name.symm, fun key => (h.attributes key).symm⟩

theorem Tag.Same.trans {a b c : Tag} (h : a.Same b) (h' : b.Same c) : a.Same c :=
  ⟨h.name.trans h'.name, fun key => (h.attributes key).trans (h'.attributes key)⟩

theorem Tag.Same.id? {a b : Tag} (h : a.Same b) : a.id? = b.id? :=
  h.attributes idAttribute

theorem Tag.Same.classes {a b : Tag} (h : a.Same b) : a.classes = b.classes := by
  rw [Tag.classes, Tag.classTokens, h.attributes classAttribute]
  rfl

/-- Two contents are the same when they are of one kind and hold the same text or the same tag. -/
inductive Content.Same : Content → Content → Prop where
  | text (body : String) : Same (.text body) (.text body)
  | comment (body : String) : Same (.comment body) (.comment body)
  | element {a b : Tag} (tags : a.Same b) : Same (.element a) (.element b)

namespace Content

theorem Same.refl (c : Content) : c.Same c := by
  cases c with
  | text body => exact .text body
  | comment body => exact .comment body
  | element tag => exact .element ⟨rfl, fun _ => rfl⟩

theorem Same.symm {a b : Content} (h : a.Same b) : b.Same a := by
  cases h with
  | text body => exact .text body
  | comment body => exact .comment body
  | element tags => exact .element tags.symm

theorem Same.trans {a b c : Content} (h : a.Same b) (h' : b.Same c) : a.Same c := by
  cases h with
  | text body => exact h'
  | comment body => exact h'
  | element tags =>
      cases h' with
      | element tags' => exact .element (tags.trans tags')

theorem alike_of_same {a b : Content} (h : a.Same b) : a.alike b = true := by
  cases h with
  | text body => exact beq_self_eq_true body
  | comment body => exact beq_self_eq_true body
  | element tags => exact Tag.alike_iff.mpr tags

theorem alike_iff {a b : Content} : a.alike b = true ↔ a.Same b := by
  refine ⟨?_, alike_of_same⟩
  intro h
  cases a <;> cases b <;> simp only [alike, beq_iff_eq, Bool.false_eq_true] at h
  · subst h
    exact .text _
  · exact .element (Tag.alike_iff.mp h)
  · subst h
    exact .comment _

end Content

end MarkupTree
