/-!
# Maps that remember insertion order

An `InsertionMap` holds entries under distinct string keys, in the order in which the keys first
came. Writing a key again replaces its value and keeps its place. `alike` compares two maps as finite
maps, so their order does not count.
-/
namespace MarkupTree

/-- Entries with distinct keys, oldest key first. -/
structure InsertionMap (α : Type) where
  entries : List (String × α) := []
  keys_nodup : (entries.map Prod.fst).Nodup := by simp

namespace InsertionMap
variable {α : Type}

/-- Replaces the entry of a key that is present, and otherwise adds one at the end. -/
def put (key : String) (value : α) : List (String × α) → List (String × α)
  | [] => [(key, value)]
  | (k, v) :: rest => if k = key then (k, value) :: rest else (k, v) :: put key value rest

theorem keys_put (key : String) (value : α) (entries : List (String × α)) :
    (put key value entries).map Prod.fst =
      if key ∈ entries.map Prod.fst then entries.map Prod.fst
      else entries.map Prod.fst ++ [key] := by
  induction entries with
  | nil => simp [put]
  | cons entry rest ih =>
      by_cases h : entry.1 = key
      · simp [put, h]
      · have h' : ¬ key = entry.1 := fun e => h e.symm
        simp only [put, h, if_false, List.map_cons, ih, List.mem_cons, h', false_or]
        split <;> simp

theorem lookup_cons_ite (key other : String) (value : α) (rest : List (String × α)) :
    ((key, value) :: rest).lookup other = if other = key then some value else rest.lookup other := by
  by_cases h : other = key
  · simp [h]
  · simp [List.lookup_cons, beq_false_of_ne h, h]

theorem lookup_put (key other : String) (value : α) (entries : List (String × α)) :
    (put key value entries).lookup other =
      if other = key then some value else entries.lookup other := by
  induction entries with
  | nil => simp [put, lookup_cons_ite]
  | cons entry rest ih =>
      obtain ⟨k, v⟩ := entry
      by_cases h : k = key
      · by_cases h' : other = key <;> simp [put, lookup_cons_ite, h, h']
      · by_cases h' : other = k
        · simp [put, h, h']
        · simp [put, lookup_cons_ite, h, h', ih]

instance : EmptyCollection (InsertionMap α) := ⟨{}⟩

instance : Inhabited (InsertionMap α) := ⟨∅⟩

def keys (m : InsertionMap α) : List String := m.entries.map Prod.fst

def size (m : InsertionMap α) : Nat := m.entries.length

def get? (m : InsertionMap α) (key : String) : Option α := m.entries.lookup key

def insert (m : InsertionMap α) (key : String) (value : α) : InsertionMap α where
  entries := put key value m.entries
  keys_nodup := by
    rw [keys_put]
    split
    · exact m.keys_nodup
    · rename_i absent
      exact List.nodup_append.2
        ⟨m.keys_nodup, by simp, fun a ha b hb e => absent (by simp_all)⟩

/-- The pairs written one by one, so the last value of a key stands at the key's first place. -/
def ofPairs (pairs : List (String × α)) : InsertionMap α :=
  pairs.foldl (fun m pair => m.insert pair.1 pair.2) ∅

/-- Two maps are alike when every key has the same value in both, wherever it stands. -/
def alike [BEq α] (a b : InsertionMap α) : Bool :=
  a.size == b.size && a.entries.all fun entry => b.get? entry.1 == some entry.2

theorem ext_entries {a b : InsertionMap α} (h : a.entries = b.entries) : a = b := by
  cases a; cases b; cases h; rfl

@[simp] theorem entries_empty : (∅ : InsertionMap α).entries = [] := rfl

@[simp] theorem get?_empty (key : String) : (∅ : InsertionMap α).get? key = none := rfl

theorem keys_insert (m : InsertionMap α) (key : String) (value : α) :
    (m.insert key value).keys = if key ∈ m.keys then m.keys else m.keys ++ [key] :=
  keys_put key value m.entries

theorem get?_insert (m : InsertionMap α) (key other : String) (value : α) :
    (m.insert key value).get? other = if other = key then some value else m.get? other :=
  lookup_put key other value m.entries

end InsertionMap

end MarkupTree
