import MarkupTree.Proofs.Extensional
import Mathlib.Data.List.Induction

/-!
# Maps written pair by pair

A map that is written from a list of pairs takes each value from the last pair with its key and the
place of each key from the first one. Two lists make maps that are alike exactly if they agree about
the last pair of every key, so neither the order of distinct keys nor a value that is overridden
later counts. What is printed or looked up keeps to the same rule.
-/
namespace MarkupTree

namespace InsertionMap
variable {α : Type} {pairs : List (String × α)} {key : String} {value : α}

/-- The pair of a key and a value stands in a row of pairs, and the key does not come again. -/
def LastPair (pairs : List (String × α)) (key : String) (value : α) : Prop :=
  ∃ before after, pairs = before ++ (key, value) :: after ∧ key ∉ after.map Prod.fst

/-- Keys that hold the same words as a row of words, in the order in which these first came. -/
structure FirstCome (words keys : List String) : Prop where
  mem_iff : ∀ key, key ∈ keys ↔ key ∈ words
  inOrder : keys.Pairwise fun key later => words.idxOf key < words.idxOf later

theorem ofPairs_concat (pairs : List (String × α)) (pair : String × α) :
    ofPairs (pairs ++ [pair]) = (ofPairs pairs).insert pair.1 pair.2 := by
  rw [ofPairs, List.foldl_append]
  rfl

/-- A key is looked up from the last pair backwards. -/
theorem get?_ofPairs (pairs : List (String × α)) (key : String) :
    (ofPairs pairs).get? key = pairs.reverse.lookup key := by
  -- the pair at the end is written last, so the induction takes pairs off there
  induction pairs using List.reverseRecOn with
  | nil => rfl
  | append_singleton pairs pair ih =>
      rw [ofPairs_concat, get?_insert, ih, List.reverse_append, List.reverse_singleton,
        List.singleton_append, ← lookup_cons_ite]

theorem forall_ne_key_iff :
    (∀ pair ∈ pairs, (key != pair.1) = true) ↔ key ∉ pairs.map Prod.fst := by
  rw [List.mem_map, not_exists]
  refine forall_congr' fun pair => ?_
  rw [bne_iff_ne, not_and, ne_comm]

theorem get?_ofPairs_eq_none_iff :
    (ofPairs pairs).get? key = none ↔ key ∉ pairs.map Prod.fst := by
  rw [get?_ofPairs, List.lookup_eq_none_iff, forall_ne_key_iff, List.map_reverse, List.mem_reverse]

theorem get?_ofPairs_eq_some_iff :
    (ofPairs pairs).get? key = some value ↔ LastPair pairs key value := by
  rw [get?_ofPairs, List.lookup_eq_some_iff]
  constructor
  · rintro ⟨after, before, split, absent⟩
    rw [forall_ne_key_iff] at absent
    refine ⟨before.reverse, after.reverse, ?_, ?_⟩
    · rw [← List.reverse_reverse pairs, split]
      simp
    · rwa [List.map_reverse, List.mem_reverse]
  · rintro ⟨before, after, rfl, absent⟩
    refine ⟨after.reverse, before.reverse, by simp, ?_⟩
    rwa [forall_ne_key_iff, List.map_reverse, List.mem_reverse]

/-- A pair that a later one overrides changes nothing. -/
theorem get?_ofPairs_of_overridden {before after : List (String × α)}
    (overridden : key ∈ after.map Prod.fst) (value : α) (other : String) :
    (ofPairs (before ++ (key, value) :: after)).get? other =
      (ofPairs (before ++ after)).get? other := by
  rw [get?_ofPairs, get?_ofPairs, List.reverse_append, List.reverse_append, List.reverse_cons,
    List.lookup_append, List.lookup_append, List.lookup_append, lookup_cons_ite]
  by_cases same : other = key
  -- a pair behind has this key too and is found before the overridden one
  · have found : after.reverse.lookup key ≠ none := by
      rw [← get?_ofPairs, ne_eq, get?_ofPairs_eq_none_iff, not_not]
      exact overridden
    obtain ⟨last, found⟩ := Option.ne_none_iff_exists'.mp found
    rw [same, found]
    rfl
  · rw [if_neg same, List.lookup_nil, Option.or_none]

namespace FirstCome
variable {words keys : List String} {word : String}

theorem inOrder_append (h : FirstCome words keys) (more : List String) :
    keys.Pairwise fun key later => (words ++ more).idxOf key < (words ++ more).idxOf later := by
  apply h.inOrder.imp_of_mem
  intro key later member member' earlier
  rwa [List.idxOf_append_of_mem ((h.mem_iff key).mp member),
    List.idxOf_append_of_mem ((h.mem_iff later).mp member')]

theorem again (h : FirstCome words keys) (known : word ∈ keys) :
    FirstCome (words ++ [word]) keys where
  mem_iff key := by
    rw [List.mem_append, List.mem_singleton, ← h.mem_iff]
    constructor
    · exact .inl
    · rintro (held | rfl)
      · exact held
      · exact known
  inOrder := h.inOrder_append [word]

theorem fresh (h : FirstCome words keys) (unknown : word ∉ keys) :
    FirstCome (words ++ [word]) (keys ++ [word]) where
  mem_iff key := by rw [List.mem_append, List.mem_append, h.mem_iff]
  inOrder := by
    rw [List.pairwise_append]
    refine ⟨h.inOrder_append [word], List.pairwise_singleton _ _, ?_⟩
    intro key member last isLast
    rw [List.mem_singleton.mp isLast]
    have held := (h.mem_iff key).mp member
    rw [List.idxOf_append_of_mem held,
      List.idxOf_append_of_notMem (mt (h.mem_iff word).mpr unknown)]
    exact Nat.lt_add_right _ (List.idxOf_lt_length_of_mem held)

end FirstCome

/-- Writing a pair keeps the keys in the order in which they first came. -/
theorem firstCome_insert {words : List String} {m : InsertionMap α} (h : FirstCome words m.keys)
    (key : String) (value : α) : FirstCome (words ++ [key]) (m.insert key value).keys := by
  rw [keys_insert]
  by_cases known : key ∈ m.keys
  · rw [if_pos known]
    exact h.again known
  · rw [if_neg known]
    exact h.fresh known

theorem firstCome_keys (pairs : List (String × α)) :
    FirstCome (pairs.map Prod.fst) (ofPairs pairs).keys := by
  induction pairs using List.reverseRecOn with
  | nil => exact ⟨fun _ => Iff.rfl, .nil⟩
  | append_singleton pairs pair ih =>
      rw [ofPairs_concat, List.map_append, List.map_singleton]
      exact firstCome_insert ih pair.1 pair.2

/-- Key by key, a map that is written from pairs holds the values of the last ones. -/
theorem forall₂_lastPair (pairs : List (String × α)) :
    List.Forall₂ (LastPair pairs) (ofPairs pairs).keys
      ((ofPairs pairs).entries.map Prod.snd) := by
  rw [keys, List.forall₂_map_left_iff, List.forall₂_map_right_iff, List.forall₂_same]
  intro entry member
  exact get?_ofPairs_eq_some_iff.mp (get?_eq_some_iff.mpr member)

theorem get?_ofPairs_eq_iff {pairs pairs' : List (String × α)} :
    (ofPairs pairs).get? key = (ofPairs pairs').get? key ↔
      key ∉ pairs.map Prod.fst ∧ key ∉ pairs'.map Prod.fst ∨
        ∃ value, LastPair pairs key value ∧ LastPair pairs' key value := by
  rw [← get?_ofPairs_eq_none_iff, ← get?_ofPairs_eq_none_iff]
  simp only [← get?_ofPairs_eq_some_iff]
  cases (ofPairs pairs).get? key <;> cases (ofPairs pairs').get? key <;> simp [eq_comm]

end InsertionMap

namespace Tag
open InsertionMap

/-- One tag can stand for the other in every comparison. -/
def ComparesLike (a b : Tag) : Prop :=
  ∀ other : Tag, a.alike other = b.alike other ∧ other.alike a = other.alike b

theorem Same.comparesLike {a b : Tag} (h : a.Same b) : a.ComparesLike b := by
  intro other
  constructor
  · rw [Bool.eq_iff_iff, alike_iff, alike_iff]
    exact ⟨h.symm.trans, h.trans⟩
  · rw [Bool.eq_iff_iff, alike_iff, alike_iff]
    exact ⟨fun same => same.trans h, fun same => same.trans h.symm⟩

/-- Tags whose attributes are written pair by pair are alike exactly if they have one name and agree
about the last pair of every key. Another order of distinct keys, or one more pair that a later one
overrides, makes no difference to any comparison. Tags that are alike have one id and the same
classes. -/
theorem alike_iff_same_last_pairs (name name' : String) (pairs pairs' : List (String × String)) :
    let left : Tag := ⟨name, .ofPairs pairs⟩
    let right : Tag := ⟨name', .ofPairs pairs'⟩
    (left.alike right = true ↔ name = name' ∧ ∀ key,
      key ∉ pairs.map Prod.fst ∧ key ∉ pairs'.map Prod.fst ∨
        ∃ value, LastPair pairs key value ∧ LastPair pairs' key value) ∧
    (∀ shuffled : List (String × String), (pairs.map Prod.fst).Nodup → shuffled.Perm pairs →
      ComparesLike ⟨name, .ofPairs shuffled⟩ left) ∧
    (∀ before after key value, pairs = before ++ after → key ∈ after.map Prod.fst →
      ComparesLike ⟨name, .ofPairs (before ++ (key, value) :: after)⟩ left) ∧
    (left.alike right = true → left.id? = right.id? ∧ left.classes = right.classes) := by
  intro left right
  refine ⟨?_, ?_, ?_, ?_⟩
  · rw [Tag.alike, Bool.and_eq_true, beq_iff_eq, InsertionMap.alike_iff]
    exact and_congr_right fun _ => forall_congr' fun key => get?_ofPairs_eq_iff
  · intro shuffled distinct perm
    have distinct' : (shuffled.map Prod.fst).Nodup := (perm.map Prod.fst).nodup_iff.mpr distinct
    have alike : (ofPairs shuffled).alike (ofPairs pairs) = true := by
      rw [alike_iff_perm, entries_ofPairs distinct, entries_ofPairs distinct']
      exact perm
    exact Same.comparesLike ⟨rfl, InsertionMap.alike_iff.mp alike⟩
  · rintro before after key value rfl overridden
    exact Same.comparesLike ⟨rfl, get?_ofPairs_of_overridden overridden value⟩
  · intro alike
    have same := Tag.alike_iff.mp alike
    exact ⟨same.id?, same.classes⟩

/-- An id that is overridden behind a class attribute. -/
def overriddenId : Tag := ⟨"a", .ofPairs [("id", "x"), ("class", "u  v"), ("id", "y")]⟩

/-- The same attributes without the first id. -/
def writtenOnce : Tag := ⟨"a", .ofPairs [("class", "u  v"), ("id", "y")]⟩

theorem overriddenId_comparesLike_writtenOnce :
    overriddenId.alike writtenOnce = true ∧
      overriddenId.attributeText ≠ writtenOnce.attributeText ∧
      overriddenId.id? = writtenOnce.id? ∧ overriddenId.classes = writtenOnce.classes ∧
      ComparesLike overriddenId writtenOnce ∧
      ComparesLike ⟨"a", .ofPairs [("id", "y"), ("class", "u  v")]⟩ writtenOnce := by
  have alike : overriddenId.alike writtenOnce = true := by decide +kernel
  obtain ⟨_, _, _, seen⟩ := alike_iff_same_last_pairs "a" "a"
    [("id", "x"), ("class", "u  v"), ("id", "y")] [("class", "u  v"), ("id", "y")]
  obtain ⟨_, shuffle, override, _⟩ := alike_iff_same_last_pairs "a" "a"
    [("class", "u  v"), ("id", "y")] []
  refine ⟨alike, by decide +kernel, (seen alike).1, (seen alike).2, ?_, ?_⟩
  · exact override [] [("class", "u  v"), ("id", "y")] "id" "x" rfl (by decide)
  · exact shuffle [("id", "y"), ("class", "u  v")] (by decide) (.swap _ _ _)

/-- The attributes that are written pair by pair are printed with each key once, in the order in
which the keys first came, and with the value of its last pair. The id is the value of the last pair
with its key. Writing the entries of the map again changes neither what is printed nor the id nor
the classes. -/
theorem attributeText_of_written_pairs (name : String) (pairs : List (String × String)) :
    let tag : Tag := ⟨name, .ofPairs pairs⟩
    let rewritten : Tag := ⟨name, .ofPairs tag.attributes.entries⟩
    (∃ keys values, FirstCome (pairs.map Prod.fst) keys ∧ keys.Nodup ∧
      List.Forall₂ (LastPair pairs) keys values ∧
      tag.attributeText = String.join
        (List.zipWith (fun key value => " " ++ key ++ "=\"" ++ value ++ "\"") keys values)) ∧
    (∀ value, tag.id? = some value ↔ LastPair pairs "id" value) ∧
    (tag.id? = none ↔ "id" ∉ pairs.map Prod.fst) ∧
    rewritten.attributeText = tag.attributeText ∧ rewritten.id? = tag.id? ∧
      rewritten.classes = tag.classes := by
  intro tag rewritten
  have same : rewritten = tag := congrArg (Tag.mk name) (ofPairs_entries tag.attributes)
  refine ⟨?_, ?_, ?_, ?_, ?_, ?_⟩
  · refine ⟨tag.attributes.keys, tag.attributes.entries.map Prod.snd, firstCome_keys pairs,
      tag.attributes.keys_nodup, forall₂_lastPair pairs, ?_⟩
    rw [attributeText, keys, List.zipWith_map, List.zipWith_self]
    rfl
  · intro value
    exact get?_ofPairs_eq_some_iff
  · exact get?_ofPairs_eq_none_iff
  · rw [same]
  · rw [same]
  · rw [same]

end Tag

end MarkupTree
