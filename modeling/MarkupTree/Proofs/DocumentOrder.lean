import MarkupTree.Proofs.Places
import MarkupTree.Proofs.Structure
import MarkupTree.Proofs.Walking
import Mathlib.Data.List.Lex

/-!
# Document order is the order of paths

Paths are ordered by the first index at which they differ, and a path comes before the paths that
extend it. The paths of a tree are all its places in this order, each of them once, and a walk hands
out the nodes that they lead to. So a node comes before everything below it, and everything below a
child comes before the next child.
-/
namespace MarkupTree

/-- The lexicographic order of paths, in which a path comes before its extensions. -/
def Path.Before : Path → Path → Prop := List.Lex (· < ·)

namespace Path

theorem Before.asymm {p q : Path} (h : Before p q) : ¬ Before q p :=
  Std.Asymm.asymm (r := List.Lex (α := Nat) (· < ·)) p q h

theorem before_append {below : Path} (proper : below ≠ []) (path : Path) :
    Before path (path ++ below) := by
  obtain ⟨index, rest, rfl⟩ := List.exists_cons_of_ne_nil proper
  have root : Before [] (index :: rest) := List.Lex.nil
  have lower := List.Lex.append_left (· < ·) root path
  rwa [List.append_nil] at lower

theorem before_of_index_lt {i j : Nat} (h : i < j) (path left right : Path) :
    Before (path ++ i :: left) (path ++ j :: right) :=
  List.Lex.append_left (· < ·) (List.Lex.rel h) path

theorem nodup_of_pairwise_before {paths : List Path} (sorted : paths.Pairwise Before) :
    paths.Nodup := by
  apply sorted.imp
  intro p q before same
  subst same
  exact before.asymm before

/-- There is only one way to list some paths in order. -/
theorem eq_of_pairwise_before {paths others : List Path} (sorted : paths.Pairwise Before)
    (sorted' : others.Pairwise Before) (same : ∀ path, path ∈ paths ↔ path ∈ others) :
    paths = others := by
  have perm : paths.Perm others :=
    (List.perm_ext_iff_of_nodup (nodup_of_pairwise_before sorted)
      (nodup_of_pairwise_before sorted')).mpr same
  apply perm.eq_of_pairwise _ sorted sorted'
  intro p q _ _ before after
  exact absurd after before.asymm

/-- In a list in order, of two paths the one that is before the other comes first. -/
theorem sublist_of_before {paths : List Path} (sorted : paths.Pairwise Before) {p q : Path}
    (hp : p ∈ paths) (hq : q ∈ paths) (h : Before p q) : [p, q].Sublist paths := by
  obtain ⟨earlier, later, rfl⟩ := List.append_of_mem hq
  have apart := (List.pairwise_append.mp sorted).2.1
  rcases List.mem_append.mp hp with first | rest
  · exact (List.singleton_sublist.mpr first).append (List.singleton_sublist.mpr List.mem_cons_self)
  · rcases List.mem_cons.mp rest with rfl | last
    · exact absurd h h.asymm
    · exact absurd ((List.pairwise_cons.mp apart).1 p last) h.asymm

end Path

namespace Node

theorem paths_eq (n : Node) : n.paths = [] :: pathsFrom 0 n.children := by
  cases n; rw [paths]

theorem mem_pathsFrom_iff {row : List Node} {index : Nat} {path : Path} :
    path ∈ pathsFrom index row ↔
      ∃ offset child below, row[offset]? = some child ∧ below ∈ child.paths ∧
        path = (index + offset) :: below := by
  induction row generalizing index with
  | nil => simp [pathsFrom]
  | cons n rest ih =>
      rw [pathsFrom, List.mem_append, List.mem_map, ih]
      constructor
      · rintro (⟨below, here, rfl⟩ | ⟨offset, child, below, held, there, rfl⟩)
        · exact ⟨0, n, below, rfl, here, rfl⟩
        · refine ⟨offset + 1, child, below, held, there, ?_⟩
          rw [Nat.add_right_comm, Nat.add_assoc]
      · rintro ⟨offset, child, below, held, there, rfl⟩
        cases offset with
        | zero =>
            cases held
            exact .inl ⟨below, there, rfl⟩
        | succ offset =>
            refine .inr ⟨offset, child, below, held, there, ?_⟩
            rw [Nat.add_right_comm, Nat.add_assoc]

/-- The paths of a tree are all its places. -/
theorem mem_paths_iff {n : Node} {path : Path} : path ∈ n.paths ↔ (n.at? path).isSome := by
  induction n generalizing path with
  | node mark content children ih =>
      rw [paths_eq, List.mem_cons, mem_pathsFrom_iff]
      cases path with
      | nil => simp
      | cons index path =>
          rw [at?_cons, Option.isSome_bind, Option.any_eq_true]
          constructor
          · rintro (root | ⟨offset, child, below, held, there, same⟩)
            · cases root
            · rw [Nat.zero_add] at same
              obtain ⟨rfl, rfl⟩ := List.cons.inj same
              exact ⟨child, held, (ih child (List.mem_of_getElem? held)).mp there⟩
          · rintro ⟨child, held, there⟩
            refine .inr ⟨index, child, path, held, ?_, by rw [Nat.zero_add]⟩
            exact (ih child (List.mem_of_getElem? held)).mpr there

theorem pairwise_pathsFrom {row : List Node} (each : ∀ n ∈ row, n.paths.Pairwise Path.Before)
    (index : Nat) : (pathsFrom index row).Pairwise Path.Before := by
  induction row generalizing index with
  | nil => exact .nil
  | cons n rest ih =>
      obtain ⟨own, later⟩ := List.forall_mem_cons.mp each
      rw [pathsFrom]
      refine List.pairwise_append.mpr ⟨?_, ih later (index + 1), ?_⟩
      · apply List.pairwise_map.mpr
        exact own.imp List.Lex.cons
      · intro p hp q hq
        obtain ⟨below, _, rfl⟩ := List.mem_map.mp hp
        obtain ⟨offset, _, lower, _, _, rfl⟩ := mem_pathsFrom_iff.mp hq
        have earlier : index < index + 1 + offset := by omega
        exact List.Lex.rel earlier

/-- The paths of a tree are listed in order. -/
theorem pairwise_paths (n : Node) : n.paths.Pairwise Path.Before := by
  induction n with
  | node mark content children ih =>
      rw [paths_eq]
      refine .cons ?_ (pairwise_pathsFrom ih 0)
      intro path below
      obtain ⟨_, _, _, _, _, rfl⟩ := mem_pathsFrom_iff.mp below
      exact List.Lex.nil

theorem map_fst_placesFrom {row : List Node}
    (each : ∀ n ∈ row, n.places.map Prod.fst = n.paths) (index : Nat) :
    (placesFrom index row).map Prod.fst = pathsFrom index row := by
  induction row generalizing index with
  | nil => rfl
  | cons n rest ih =>
      obtain ⟨own, later⟩ := List.forall_mem_cons.mp each
      rw [placesFrom, pathsFrom, List.map_append, ih later (index + 1), List.map_map, ← own,
        List.map_map]
      rfl

theorem map_fst_places (n : Node) : n.places.map Prod.fst = n.paths := by
  induction n with
  | node mark content children ih =>
      rw [places_eq, paths_eq, List.map_cons, map_fst_placesFrom ih]

/-- Following the paths of a tree one after another gives its nodes in document order. -/
theorem map_at?_paths (n : Node) : n.paths.map n.at? = n.preorder.map some := by
  rw [← map_fst_places, ← map_snd_places, List.map_map, List.map_map]
  apply List.map_congr_left
  intro place member
  exact at?_of_mem_places member

theorem length_paths (n : Node) : n.paths.length = n.preorder.length := by
  rw [← map_fst_places, ← map_snd_places, List.length_map, List.length_map]

end Node

namespace Walk

/-- A walk ends when a number of nodes has been handed out and no other is left. -/
inductive Ends : Walk → Nat → Prop where
  | ended {walk rest : Walk} (last : walk.next = (none, rest)) : Ends walk 0
  | handed {walk rest : Walk} {node : Node} {count : Nat} (first : walk.next = (some node, rest))
      (others : Ends rest count) : Ends walk (count + 1)

theorem ends_length (walk : Walk) : walk.Ends walk.upcoming.length := by
  generalize left : walk.upcoming.length = count
  induction count generalizing walk with
  | zero =>
      rcases asked : walk.next with ⟨_ | node, rest⟩
      · exact .ended asked
      · rw [upcoming_of_some asked] at left
        cases left
  | succ count ih =>
      rcases asked : walk.next with ⟨_ | node, rest⟩
      · rw [(upcoming_of_none asked).1] at left
        cases left
      · rw [upcoming_of_some asked] at left
        exact .handed asked (ih rest (Nat.succ.inj left))

theorem ends_iff {walk : Walk} {count : Nat} :
    walk.Ends count ↔ count = walk.upcoming.length := by
  constructor
  · intro h
    induction h with
    | ended last => rw [(upcoming_of_none last).1, List.length_nil]
    | handed first _ ih => rw [upcoming_of_some first, List.length_cons, ih]
  · intro h
    rw [h]
    exact walk.ends_length

end Walk

namespace Node

/-- A walk follows all paths of the tree in their order, each of them once, and ends after that many
nodes. No other list of these paths is in order. The root comes first, a node comes before
everything below it, and what is below a child comes before what is below a later child. -/
theorem walk_follows_paths_in_order (n : Node) :
    n.walk.toList.map some = n.paths.map n.at? ∧
      (∀ path, path ∈ n.paths ↔ (n.at? path).isSome) ∧
      n.paths.Pairwise Path.Before ∧
      (∀ paths : List Path, paths.Pairwise Path.Before →
        (∀ path, path ∈ paths ↔ (n.at? path).isSome) →
        n.walk.toList.map some = paths.map n.at?) ∧
      n.paths.head? = some [] ∧
      n.paths.Nodup ∧
      (∀ path below, below ≠ [] → (n.at? (path ++ below)).isSome →
        [path, path ++ below].Sublist n.paths) ∧
      (∀ (path left right : Path) (i j : Nat), i < j →
        (n.at? (path ++ i :: left)).isSome → (n.at? (path ++ j :: right)).isSome →
        [path ++ i :: left, path ++ j :: right].Sublist n.paths) ∧
      ∀ count, n.walk.Ends count ↔ count = n.paths.length := by
  have sorted := n.pairwise_paths
  have walked : n.walk.toList.map some = n.paths.map n.at? := by
    rw [toList_walk, map_at?_paths]
  refine ⟨walked, fun _ => mem_paths_iff, sorted, ?_, ?_, Path.nodup_of_pairwise_before sorted, ?_,
    ?_, ?_⟩
  · intro paths sorted' all
    have only : paths = n.paths := by
      apply Path.eq_of_pairwise_before sorted' sorted
      intro path
      rw [all, mem_paths_iff]
    rw [walked, only]
  · rw [paths_eq, List.head?_cons]
  · intro path below proper place
    have above : (n.at? path).isSome := by
      rw [at?_append] at place
      exact Option.isSome_of_isSome_bind place
    exact Path.sublist_of_before sorted (mem_paths_iff.mpr above) (mem_paths_iff.mpr place)
      (Path.before_append proper path)
  · intro path left right i j lower first second
    exact Path.sublist_of_before sorted (mem_paths_iff.mpr first) (mem_paths_iff.mpr second)
      (Path.before_of_index_lt lower path left right)
  · intro count
    rw [Walk.ends_iff, Walk.upcoming_walk, length_paths]

/-- An element that holds one text twice, with a comment below the text. -/
def twins : Node :=
  ⟨2, .element { name := "p" },
    [⟨1, .text "t", [⟨0, .comment "c", []⟩]⟩, ⟨1, .text "t", [⟨0, .comment "c", []⟩]⟩]⟩

theorem walk_over_twins :
    List.Pairwise Path.Before [[], [0], [0, 0], [1], [1, 0]] ∧
      twins.walk.toList.map some = [[], [0], [0, 0], [1], [1, 0]].map twins.at? ∧
      [[0, 0], [1]].Sublist twins.paths ∧ twins.walk.Ends 5 := by
  have listed : twins.paths = [[], [0], [0, 0], [1], [1, 0]] := rfl
  obtain ⟨_, all, sorted, only, _, _, _, later, ends⟩ := walk_follows_paths_in_order twins
  rw [listed] at all sorted
  refine ⟨sorted, only _ sorted all, ?_, (ends 5).mpr rfl⟩
  exact later [] [0] [] 0 1 (by decide) rfl rfl

end Node

end MarkupTree
