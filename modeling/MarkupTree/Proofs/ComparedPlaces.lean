import MarkupTree.Proofs.Comparison
import MarkupTree.Proofs.DocumentOrder
import MarkupTree.Proofs.ProperParts
import Mathlib.Logic.Relation

/-!
# A comparison ends within the smaller tree

The two nodes of a pair on the stack stand at one place of both trees, and no pair stands above
another. A pair that is taken is followed by its children at most, so no place is compared twice and
no more pairs are taken than either tree has places. Children are put on the stack only if both nodes
have equally many, so with each pair the places left on the stack get fewer in both trees, and by
exactly one if the pair is not skipped.
-/
namespace MarkupTree

namespace Comparison
variable {same : Node → Node → Bool} {side : Node × Node → Node}

/-- The pairs that are taken from the stack, in order. -/
def taken (same : Node → Node → Bool) (pairs : Comparison) : List (Node × Node) :=
  match _h : step same pairs with
  | .settled _ => pairs.take 1
  | .remaining next => pairs.take 1 ++ taken same next
termination_by pairs.weight
decreasing_by exact weight_step_lt ‹_›

theorem taken_of_settled {pairs : Comparison} {equal : Bool}
    (h : step same pairs = .settled equal) : taken same pairs = pairs.take 1 := by
  rw [taken]; split <;> simp_all

theorem taken_of_remaining {pair : Node × Node} {rest next : Comparison}
    (h : step same (pair :: rest) = .remaining next) :
    taken same (pair :: rest) = pair :: taken same next := by
  rw [taken]; split <;> simp_all

/-- A comparison ends with its answer after as many pairs as it takes, and in no other way. -/
theorem settles_iff {pairs : Comparison} {count : Nat} {equal : Bool} :
    Settles same pairs count equal ↔
      count = (taken same pairs).length ∧ equal = run same pairs := by
  have only : ∀ {pairs : Comparison} {count : Nat} {equal : Bool},
      Settles same pairs count equal →
        count = (taken same pairs).length ∧ equal = run same pairs := by
    intro pairs count equal h
    induction h with
    | exhausted =>
        have last : step same [] = .settled true := rfl
        rw [taken_of_settled last, run_of_settled last]
        exact ⟨rfl, rfl⟩
    | settled last =>
        rw [taken_of_settled last, run_of_settled last]
        exact ⟨rfl, rfl⟩
    | remaining first _ ih =>
        obtain ⟨left, right, rest, rfl, _⟩ := step_remaining first
        rw [taken_of_remaining first, run_of_remaining first, ih.1, ih.2]
        exact ⟨rfl, rfl⟩
  refine ⟨only, ?_⟩
  rintro ⟨rfl, rfl⟩
  obtain ⟨count, settles⟩ := run_settles same pairs
  rwa [← (only settles).1]

/-- A side of all pairs: if the nodes of a pair have equally many children, the pairs of children
have the children of the node on this side. -/
def IsSide (side : Node × Node → Node) : Prop :=
  ∀ left right : Node, left.children.length = right.children.length →
    (left.children.zip right.children).map side = (side (left, right)).children

theorem isSide_fst : IsSide Prod.fst := fun _ _ lengths => List.map_fst_zip (Nat.le_of_eq lengths)

theorem isSide_snd : IsSide Prod.snd :=
  fun _ _ lengths => List.map_snd_zip (Nat.le_of_eq lengths.symm)

/-- The places left in the trees on one side of all pairs. -/
def weightOn (side : Node × Node → Node) (pairs : Comparison) : Nat :=
  Node.sizeAll (pairs.map side)

theorem weightOn_cons (side : Node × Node → Node) (pair : Node × Node) (rest : Comparison) :
    weightOn side (pair :: rest) = (side pair).size + weightOn side rest := rfl

/-- A pair that is not skipped leaves all places on its side but its own. -/
theorem weightOn_of_remaining (sided : IsSide side) {pairs next : Comparison}
    (h : step same pairs = .remaining next) :
    ∃ left right rest, pairs = (left, right) :: rest ∧
      (same left right = true ∧ next = rest ∨
        weightOn side next + 1 = weightOn side pairs) := by
  obtain ⟨left, right, rest, rfl, ⟨one, rfl⟩ | ⟨_, lengths, rfl⟩⟩ := step_remaining h
  · exact ⟨left, right, next, rfl, .inl ⟨one, rfl⟩⟩
  · refine ⟨left, right, rest, rfl, .inr ?_⟩
    rw [weightOn_cons, weightOn, List.map_append, Node.sizeAll_append, List.map_reverse,
      Node.sizeAll_reverse, sided left right lengths, (side (left, right)).size_eq, weightOn]
    omega

theorem weightOn_lt_of_remaining (sided : IsSide side) {pairs next : Comparison}
    (h : step same pairs = .remaining next) : weightOn side next < weightOn side pairs := by
  obtain ⟨left, right, rest, rfl, ⟨_, rfl⟩ | lighter⟩ := weightOn_of_remaining sided h
  · have positive := (side (left, right)).size_pos
    rw [weightOn_cons]
    omega
  · omega

/-- The stacks that a comparison comes to, the first one included. -/
def Reaches (same : Node → Node → Bool) : Comparison → Comparison → Prop :=
  Relation.ReflTransGen fun pairs next => step same pairs = .remaining next

theorem Reaches.length_le (sided : IsSide side) {pairs next : Comparison}
    (h : Reaches same pairs next) : next.length ≤ weightOn side pairs := by
  have lighter : weightOn side next ≤ weightOn side pairs := by
    induction h with
    | refl => exact Nat.le_refl _
    | tail _ first ih => exact (weightOn_lt_of_remaining sided first).le.trans ih
  calc
    next.length = (next.map side).length := (List.length_map side).symm
    _ ≤ weightOn side next := Node.length_le_sizeAll (next.map side)
    _ ≤ weightOn side pairs := lighter

/-- A comparison that skips nothing and finds no difference takes one pair for each place. -/
theorem length_taken_of_equal (sided : IsSide side) {pairs : Comparison}
    (equal : run same pairs = true)
    (apart : ∀ pair ∈ taken same pairs, same pair.1 pair.2 = false) :
    (taken same pairs).length = weightOn side pairs := by
  induction pairs using run.induct same with
  | case1 pairs answer last =>
      rw [run_of_settled last] at equal
      rcases step_settled last with ⟨rfl, _⟩ | ⟨_, _, _, _, rfl, _⟩
      · rw [taken_of_settled last]
        rfl
      · cases equal
  | case2 pairs next first ih =>
      obtain ⟨left, right, rest, rfl, progress⟩ := weightOn_of_remaining sided first
      rw [run_of_remaining first] at equal
      rw [taken_of_remaining first] at apart ⊢
      obtain ⟨top, others⟩ := List.forall_mem_cons.mp apart
      rcases progress with ⟨one, _⟩ | lighter
      · rw [one] at top
        cases top
      · rw [List.length_cons, ih equal others, lighter]

end Comparison

/-- Two nodes that are compared, with the path that leads to both. -/
structure Meeting where
  path : Path
  left : Node
  right : Node

namespace Meeting
variable {same : Node → Node → Bool} {m top other : Meeting} {rest meetings : List Meeting}

def pair (m : Meeting) : Node × Node := (m.left, m.right)

/-- The children of two nodes at a path meet one by one, from those at `index` on. -/
def children (path : Path) (index : Nat) : List Node → List Node → List Meeting
  | a :: left, b :: right => ⟨path ++ [index], a, b⟩ :: children path (index + 1) left right
  | _, _ => []

/-- The meetings that are still to be compared when a comparison goes on from the top one. -/
def follow (same : Node → Node → Bool) : List Meeting → List Meeting
  | [] => []
  | top :: rest =>
      if same top.left top.right then rest
      else (children top.path 0 top.left.children top.right.children).reverse ++ rest

/-- Both nodes stand where the path leads. -/
structure Stands (a b : Node) (m : Meeting) : Prop where
  left : a.at? m.path = some m.left
  right : b.at? m.path = some m.right

/-- Neither of two meetings stands at the place of the other or below it. -/
structure Apart (m other : Meeting) : Prop where
  below : ¬ m.path <+: other.path
  above : ¬ other.path <+: m.path

theorem Apart.symm (h : Apart m other) : Apart other m := ⟨h.above, h.below⟩

theorem Apart.child (h : Apart top other) {index : Nat} (own : m.path = top.path ++ [index]) :
    Apart m other := by
  have upper : top.path <+: m.path := own ▸ List.prefix_append _ _
  refine ⟨fun lower => h.below (upper.trans lower), ?_⟩
  intro lower
  rw [own, List.prefix_concat_iff] at lower
  rcases lower with here | higher
  · exact h.below (here ▸ List.prefix_append _ _)
  · exact h.above higher

theorem map_pair_children (path : Path) (index : Nat) (left right : List Node) :
    (children path index left right).map pair = left.zip right := by
  induction left generalizing index right with
  | nil => rfl
  | cons a left ih =>
      cases right with
      | nil => rfl
      | cons b right => rw [children, List.map_cons, ih, List.zip_cons_cons, pair]

theorem of_mem_children {path : Path} {index : Nat} {left right : List Node}
    (member : m ∈ children path index left right) :
    ∃ offset : Nat, left[offset]? = some m.left ∧ right[offset]? = some m.right ∧
      m.path = path ++ [index + offset] := by
  induction left generalizing index right with
  | nil => cases member
  | cons a left ih =>
      cases right with
      | nil => cases member
      | cons b right =>
          rcases List.mem_cons.mp member with rfl | later
          · exact ⟨0, rfl, rfl, rfl⟩
          · obtain ⟨offset, first, second, own⟩ := ih later
            refine ⟨offset + 1, first, second, ?_⟩
            rw [own, Nat.add_right_comm, Nat.add_assoc]

theorem pairwise_children (path : Path) (index : Nat) (left right : List Node) :
    (children path index left right).Pairwise Apart := by
  have siblings : ∀ i j : Nat, i ≠ j → ¬ path ++ [i] <+: path ++ [j] := by
    intro i j distinct start
    rw [List.prefix_append_right_inj, List.cons_prefix_cons] at start
    exact distinct start.1
  induction left generalizing index right with
  | nil => exact .nil
  | cons a left ih =>
      cases right with
      | nil => exact .nil
      | cons b right =>
          refine .cons ?_ (ih (index + 1) right)
          intro m member
          obtain ⟨offset, _, _, own⟩ := of_mem_children member
          constructor
          · rw [own]
            exact siblings _ _ (by omega)
          · rw [own]
            exact siblings _ _ (by omega)

theorem of_mem_follow (member : m ∈ follow same (top :: rest)) :
    m ∈ rest ∨ ∃ index, top.left.children[index]? = some m.left ∧
      top.right.children[index]? = some m.right ∧ m.path = top.path ++ [index] := by
  rw [follow] at member
  split at member
  · exact .inl member
  · rcases List.mem_append.mp member with pushed | old
    · obtain ⟨index, first, second, own⟩ := of_mem_children (List.mem_reverse.mp pushed)
      rw [Nat.zero_add] at own
      exact .inr ⟨index, first, second, own⟩
    · exact .inl old

theorem pairwise_follow (apart : (top :: rest).Pairwise Apart) :
    (follow same (top :: rest)).Pairwise Apart := by
  obtain ⟨first, others⟩ := List.pairwise_cons.mp apart
  rw [follow]
  split
  · exact others
  · refine List.pairwise_append.mpr ⟨?_, others, ?_⟩
    · exact List.pairwise_reverse.mpr ((pairwise_children _ _ _ _).imp Apart.symm)
    · intro m pushed old member
      obtain ⟨_, _, _, own⟩ := of_mem_children (List.mem_reverse.mp pushed)
      exact (first old member).child own

theorem Stands.follow {a b : Node} (stand : ∀ m ∈ top :: rest, m.Stands a b)
    (member : m ∈ follow same (top :: rest)) : m.Stands a b := by
  rcases of_mem_follow member with old | ⟨index, first, second, own⟩
  · exact stand m (List.mem_cons_of_mem top old)
  · have above := stand top List.mem_cons_self
    constructor
    · rw [own, Node.at?_append, above.left, Option.bind_some, Node.at?_cons, first,
        Option.bind_some, Node.at?_nil]
    · rw [own, Node.at?_append, above.right, Option.bind_some, Node.at?_cons, second,
        Option.bind_some, Node.at?_nil]

theorem step_remaining {next : Comparison}
    (h : Comparison.step same (meetings.map pair) = .remaining next) :
    ∃ top rest, meetings = top :: rest ∧ (follow same meetings).map pair = next := by
  cases meetings with
  | nil => cases h
  | cons top rest =>
      refine ⟨top, rest, rfl, ?_⟩
      simp only [List.map_cons, pair, Comparison.step] at h
      split at h
      · rename_i one
        cases h
        rw [follow, if_pos one]
      · split at h
        · cases h
        · split at h
          · cases h
          · rename_i two _ _
            cases h
            rw [follow, if_neg two, List.map_append, List.map_reverse, map_pair_children]

/-- The pairs that are taken from the stack, in order and with their paths. -/
def record (same : Node → Node → Bool) (meetings : List Meeting) : List Meeting :=
  match _h : Comparison.step same (meetings.map pair) with
  | .settled _ => meetings.take 1
  | .remaining _ => meetings.take 1 ++ record same (follow same meetings)
termination_by Comparison.weight (meetings.map pair)
decreasing_by
  obtain ⟨_, _, _, same⟩ := step_remaining _h
  rw [same]
  exact Comparison.weight_step_lt _h

theorem record_of_settled {equal : Bool}
    (h : Comparison.step same (meetings.map pair) = .settled equal) :
    record same meetings = meetings.take 1 := by
  rw [record]; split <;> simp_all

theorem record_of_remaining {next : Comparison}
    (h : Comparison.step same ((top :: rest).map pair) = .remaining next) :
    record same (top :: rest) = top :: record same (follow same (top :: rest)) := by
  rw [record]; split <;> simp_all

/-- Without the paths, the record is what the comparison takes. -/
theorem map_pair_record (same : Node → Node → Bool) (meetings : List Meeting) :
    (record same meetings).map pair = Comparison.taken same (meetings.map pair) := by
  induction meetings using record.induct same with
  | case1 meetings equal last =>
      rw [record_of_settled last, Comparison.taken_of_settled last, List.map_take]
  | case2 meetings next first ih =>
      obtain ⟨top, rest, rfl, left⟩ := step_remaining first
      rw [record_of_remaining first, List.map_cons, ih, left]
      exact (Comparison.taken_of_remaining first).symm

/-- What is recorded stands at the place of a meeting on the stack or below it. -/
theorem exists_above_of_mem_record (member : m ∈ record same meetings) :
    ∃ start ∈ meetings, start.path <+: m.path := by
  induction meetings using record.induct same with
  | case1 meetings equal last =>
      rw [record_of_settled last] at member
      exact ⟨m, List.mem_of_mem_take member, List.prefix_refl _⟩
  | case2 meetings next first ih =>
      obtain ⟨top, rest, rfl, _⟩ := step_remaining first
      rw [record_of_remaining first] at member
      rcases List.mem_cons.mp member with rfl | later
      · exact ⟨m, List.mem_cons_self, List.prefix_refl _⟩
      · obtain ⟨start, held, upper⟩ := ih later
        rcases of_mem_follow held with old | ⟨index, _, _, own⟩
        · exact ⟨start, List.mem_cons_of_mem top old, upper⟩
        · refine ⟨top, List.mem_cons_self, ?_⟩
          exact (own ▸ List.prefix_append _ _ : top.path <+: start.path).trans upper

/-- No place is compared twice. -/
theorem nodup_record (apart : meetings.Pairwise Apart) :
    ((record same meetings).map path).Nodup := by
  induction meetings using record.induct same with
  | case1 meetings equal last =>
      rw [record_of_settled last]
      cases meetings <;> simp
  | case2 meetings next first ih =>
      obtain ⟨top, rest, rfl, _⟩ := step_remaining first
      rw [record_of_remaining first]
      refine List.nodup_cons.mpr ⟨?_, ih (pairwise_follow apart)⟩
      intro again
      obtain ⟨m, member, own⟩ := List.mem_map.mp again
      obtain ⟨start, held, upper⟩ := exists_above_of_mem_record member
      rw [own] at upper
      rcases of_mem_follow held with old | ⟨index, _, _, lower⟩
      · exact ((List.pairwise_cons.mp apart).1 start old).above upper
      · have shorter := upper.length_le
        rw [lower, List.length_append, List.length_singleton] at shorter
        omega

theorem stands_of_mem_record {a b : Node} (stand : ∀ m ∈ meetings, m.Stands a b)
    (member : m ∈ record same meetings) : m.Stands a b := by
  induction meetings using record.induct same with
  | case1 meetings equal last =>
      rw [record_of_settled last] at member
      exact stand m (List.mem_of_mem_take member)
  | case2 meetings next first ih =>
      obtain ⟨top, rest, rfl, _⟩ := step_remaining first
      rw [record_of_remaining first] at member
      rcases List.mem_cons.mp member with rfl | later
      · exact stand m List.mem_cons_self
      · exact ih (fun _ => Stands.follow stand) later

end Meeting

namespace Node

/-- A comparison of two trees takes no more pairs than the smaller tree has places: each of them
stands at one place of both trees, and no two at the same one. Its stack is never longer than that
either. If the trees are equal and no pair is skipped, it takes one pair for each place. -/
theorem comparison_within_smaller_tree (a b : Node) :
    let taken := Comparison.taken same [(a, b)]
    let meetings := Meeting.record same [⟨[], a, b⟩]
    let smaller := min a.walk.toList.length b.walk.toList.length
    (∀ count answer, Comparison.Settles same [(a, b)] count answer ↔
      count = taken.length ∧ answer = a.equal b) ∧
    taken.length ≤ smaller ∧
    meetings.map Meeting.pair = taken ∧ (meetings.map Meeting.path).Nodup ∧
    (∀ m ∈ meetings, a.at? m.path = some m.left ∧ b.at? m.path = some m.right) ∧
    (∀ pairs, Comparison.Reaches same [(a, b)] pairs → pairs.length ≤ smaller) ∧
    (a.equal b = true → (∀ pair ∈ taken, same pair.1 pair.2 = false) →
      taken.length = a.walk.toList.length ∧ taken.length = b.walk.toList.length) := by
  intro taken meetings smaller
  have pairs : meetings.map Meeting.pair = taken := Meeting.map_pair_record same _
  have distinct : (meetings.map Meeting.path).Nodup :=
    Meeting.nodup_record (List.pairwise_singleton _ _)
  have stand : ∀ m ∈ meetings, m.Stands a b := by
    intro m member
    apply Meeting.stands_of_mem_record _ member
    intro root only
    rw [List.mem_singleton.mp only]
    exact ⟨at?_nil a, at?_nil b⟩
  -- the paths of the meetings are distinct places of any tree in which all of them stand
  have bound : ∀ n : Node, (∀ m ∈ meetings, (n.at? m.path).isSome) →
      taken.length ≤ n.walk.toList.length := by
    intro n places
    have inside : meetings.map Meeting.path ⊆ n.paths := by
      intro path member
      obtain ⟨m, held, rfl⟩ := List.mem_map.mp member
      exact mem_paths_iff.mpr (places m held)
    have short := (List.subperm_of_subset distinct inside).length_le
    rwa [List.length_map, length_paths, ← toList_walk, ← List.length_map Meeting.pair, pairs]
      at short
  have left : taken.length ≤ a.walk.toList.length :=
    bound a fun m member => Option.isSome_of_eq_some (stand m member).left
  have right : taken.length ≤ b.walk.toList.length :=
    bound b fun m member => Option.isSome_of_eq_some (stand m member).right
  have places : ∀ side : Node × Node → Node,
      Comparison.weightOn side [(a, b)] = (side (a, b)).walk.toList.length := by
    intro side
    rw [toList_walk, length_preorder]
    rfl
  refine ⟨fun _ _ => Comparison.settles_iff, Nat.le_min.mpr ⟨left, right⟩, pairs, distinct,
    fun m member => ⟨(stand m member).left, (stand m member).right⟩, ?_, ?_⟩
  · intro stack reached
    have first := reached.length_le Comparison.isSide_fst
    have second := reached.length_le Comparison.isSide_snd
    rw [places] at first second
    exact Nat.le_min.mpr ⟨first, second⟩
  · intro equal apart
    have first := Comparison.length_taken_of_equal Comparison.isSide_fst equal apart
    have second := Comparison.length_taken_of_equal Comparison.isSide_snd equal apart
    rw [places] at first second
    exact ⟨first, second⟩

/-- A paragraph over a text and a comment that holds an element. -/
def annotated : Node :=
  ⟨3, .element { name := "p" }, [⟨0, .text "t", []⟩, ⟨2, .comment "c", [⟨1, .element, []⟩]⟩]⟩

/-- A paragraph that looks the same and shares no node with the other one. -/
def annotatedCopy : Node :=
  ⟨7, .element { name := "p" }, [⟨4, .text "t", []⟩, ⟨6, .comment "c", [⟨5, .element, []⟩]⟩]⟩

theorem annotatedCopy_compared_in_full :
    annotated.equal annotatedCopy = true ∧
      (∀ pair ∈ Comparison.taken same [(annotated, annotatedCopy)],
        same pair.1 pair.2 = false) ∧
      (Comparison.taken same [(annotated, annotatedCopy)]).length = 4 ∧
      ∀ pairs, Comparison.Reaches same [(annotated, annotatedCopy)] pairs → pairs.length ≤ 4 := by
  have equal : annotated.equal annotatedCopy = true := by decide +kernel
  have apart : ∀ pair ∈ Comparison.taken same [(annotated, annotatedCopy)],
      same pair.1 pair.2 = false := by decide +kernel
  obtain ⟨_, _, _, _, _, short, full⟩ := comparison_within_smaller_tree annotated annotatedCopy
  have four : annotated.walk.toList.length = 4 := by rw [toList_walk]; rfl
  have four' : annotatedCopy.walk.toList.length = 4 := by rw [toList_walk]; rfl
  rw [four, four'] at short
  exact ⟨equal, apart, (full equal apart).1.trans four, short⟩

end Node

end MarkupTree
