import MarkupTree.Node.Walk
import Mathlib.Tactic.Common

/-!
# Walks hand out the preorder

What is still to come of a walk is the preorder of its frontier. A request takes nodes off its front,
and in between the walk knows the children of the last node only by that node. An account of a walk
takes each request apart into its two acts, reading children and popping the stack, and keeps a
record of both.
-/
namespace MarkupTree

namespace Walk

def upcoming (walk : Walk) : List Node := Node.preorderAll walk.frontier

theorem upcoming_walk (root : Node) : root.walk.upcoming = root.preorder := by
  simp [upcoming, Node.walk, ofRoot, frontier, Node.preorderAll]

theorem preorderAll_append (a b : List Node) :
    Node.preorderAll (a ++ b) = Node.preorderAll a ++ Node.preorderAll b := by
  simp [Node.preorderAll_eq_flatMap]

theorem upcoming_of_none {walk rest : Walk} (h : walk.next = (none, rest)) :
    walk.upcoming = [] ∧ rest = {} := by
  unfold next at h
  split at h
  · rename_i done
    cases h
    rw [upcoming, done, Node.preorderAll]
    exact ⟨rfl, rfl⟩
  · cases h

theorem upcoming_of_some {walk rest : Walk} {node : Node} (h : walk.next = (some node, rest)) :
    walk.upcoming = node :: rest.upcoming := by
  obtain ⟨first, last⟩ := frontier_next h
  have after : rest.frontier = node.children ++ rest.stack := by rw [frontier, last]
  rw [upcoming, upcoming, first, after, Node.preorderAll, Node.preorder_eq, preorderAll_append,
    List.cons_append]

theorem fst_next (walk : Walk) : walk.next.1 = walk.upcoming.head? := by
  rcases asked : walk.next with ⟨_ | node, rest⟩
  · rw [(upcoming_of_none asked).1, List.head?_nil]
  · rw [upcoming_of_some asked, List.head?_cons]

theorem upcoming_next (walk : Walk) : walk.next.2.upcoming = walk.upcoming.tail := by
  rcases asked : walk.next with ⟨_ | node, rest⟩
  · obtain ⟨done, rfl⟩ := upcoming_of_none asked
    rw [done]
    rfl
  · rw [upcoming_of_some asked, List.tail_cons]

theorem takeOnto_spec (taken : List Node) (count : Nat) (walk : Walk) :
    (walk.takeOnto taken count).1 = taken.reverse ++ walk.upcoming.take count ∧
      (walk.takeOnto taken count).2.upcoming = walk.upcoming.drop count := by
  induction count generalizing taken walk with
  | zero => simp [takeOnto]
  | succ count ih =>
      rcases asked : walk.next with ⟨_ | node, rest⟩
      · obtain ⟨done, rfl⟩ := upcoming_of_none asked
        simp only [takeOnto, asked, done]
        exact ⟨(List.append_nil _).symm, rfl⟩
      · simp only [takeOnto, asked, upcoming_of_some asked]
        obtain ⟨handed, left⟩ := ih (node :: taken) rest
        refine ⟨?_, left⟩
        rw [handed, List.reverse_cons, List.append_assoc, List.singleton_append, List.take_succ_cons]

theorem fst_take (count : Nat) (walk : Walk) :
    (walk.take count).1 = walk.upcoming.take count :=
  (takeOnto_spec [] count walk).1

theorem upcoming_take (count : Nat) (walk : Walk) :
    (walk.take count).2.upcoming = walk.upcoming.drop count :=
  (takeOnto_spec [] count walk).2

theorem fold_eq_foldl {β : Type} (f : β → Node → β) (start : β) (walk : Walk) :
    walk.fold f start = walk.upcoming.foldl f start := by
  induction start, walk using fold.induct f with
  | case1 start walk rest done => rw [fold_of_none done, (upcoming_of_none done).1, List.foldl_nil]
  | case2 start walk node rest first ih =>
      rw [fold_of_some first, ih, upcoming_of_some first, List.foldl_cons]

end Walk

/-- A walk that is followed to its end lists the tree in document order. -/
theorem Node.toList_walk (root : Node) : root.walk.toList = root.preorder := by
  rw [Walk.toList, Walk.fold_eq_foldl, Walk.upcoming_walk, List.foldl_flip_cons_eq_append',
    List.append_nil, List.reverse_reverse]

/-- A walk with a record of the nodes it has popped and of those whose children it has read, the
oldest first. -/
structure Account where
  walk : Walk
  popped : List Node := []
  read : List Node := []

namespace Account

/-- Reads the children of the node handed out last and puts them on the stack. -/
def resume (account : Account) : Account :=
  match account.walk.last with
  | none => account
  | some node =>
      { account with
        walk := { stack := node.children ++ account.walk.stack }
        read := account.read ++ [node] }

/-- Pops a node to hand it out, unless the stack is empty. -/
def pop (account : Account) : Option Node × Account :=
  match account.walk.stack with
  | [] => (none, account)
  | node :: rest =>
      (some node,
        { account with
          walk := { last := some node, stack := rest }
          popped := account.popped ++ [node] })

def next (account : Account) : Option Node × Account := account.resume.pop

def advance : Nat → Account → Account
  | 0, account => account
  | count + 1, account =>
      match account.next with
      | (none, account) => account
      | (some _, account) => advance count account

def advanceAll : List Nat → Account → Account
  | [], account => account
  | count :: rest, account => advanceAll rest (account.advance count)

def total : List Nat → Nat
  | [] => 0
  | count :: rest => count + total rest

theorem next_erases (account : Account) :
    (account.next.1, account.next.2.walk) = account.walk.next := by
  obtain ⟨⟨last, stack⟩, popped, read⟩ := account
  cases last with
  | none => cases stack <;> rfl
  | some node =>
      simp only [next, resume, pop, Walk.next, Walk.frontier]
      cases node.children ++ stack <;> rfl

theorem fst_next (account : Account) : account.next.1 = account.walk.upcoming.head? := by
  rw [← Walk.fst_next, ← next_erases]

theorem upcoming_next (account : Account) :
    account.next.2.walk.upcoming = account.walk.upcoming.tail := by
  rw [← Walk.upcoming_next, ← next_erases]

theorem next_acts (account : Account) :
    account.next.2.popped = account.popped ++ account.next.1.toList ∧
      account.next.2.read = account.read ++ account.walk.last.toList ∧
      account.next.2.walk.last = account.next.1 := by
  obtain ⟨⟨last, stack⟩, popped, read⟩ := account
  cases last with
  | none => cases stack <;> simp [next, resume, pop]
  | some node =>
      simp only [next, resume, pop]
      cases node.children ++ stack <;> simp

theorem walk_advance (count : Nat) (account : Account) (taken : List Node) :
    (account.advance count).walk = (account.walk.takeOnto taken count).2 := by
  induction count generalizing account taken with
  | zero => rfl
  | succ count ih =>
      have erased := account.next_erases
      rcases asked : account.next with ⟨_ | node, later⟩
      · rw [asked] at erased
        simp only [advance, asked, Walk.takeOnto, ← erased]
      · rw [asked] at erased
        simp only [advance, asked, Walk.takeOnto, ← erased]
        exact ih later (node :: taken)

/-- What has been done when a number of nodes has been asked for, whether or not there were so many.
Every node asked for was popped, and the children of the last one have not been read. -/
structure After (root : Node) (asked : Nat) (account : Account) : Prop where
  popped : account.popped = root.preorder.take asked
  read : account.read = root.preorder.take (asked - 1)
  unread : account.read ++ account.walk.last.toList = root.preorder.take asked
  upcoming : account.walk.upcoming = root.preorder.drop asked

variable {root : Node} {asked : Nat} {account : Account}

theorem After.start (root : Node) : After root 0 { walk := root.walk } where
  popped := rfl
  read := rfl
  unread := rfl
  upcoming := Walk.upcoming_walk root

theorem After.handed (h : After root asked account) : account.next.1 = root.preorder[asked]? := by
  rw [fst_next, h.upcoming, List.head?_drop]

theorem After.next (h : After root asked account) : After root (asked + 1) account.next.2 := by
  obtain ⟨popped, read, last⟩ := account.next_acts
  have handed := h.handed
  constructor
  · rw [popped, h.popped, handed, List.take_add_one]
  · rw [read, h.unread, Nat.add_sub_cancel]
  · rw [read, h.unread, last, handed, List.take_add_one]
  · rw [upcoming_next, h.upcoming, List.tail_drop]

/-- A walk that has found its end stays as it is, however many nodes are asked for. -/
theorem After.ended (h : After root asked account) (done : root.preorder.length < asked)
    (more : Nat) : After root (asked + more) account := by
  have all : ∀ count, root.preorder.length ≤ count → root.preorder.take count = root.preorder := by
    intro count enough
    exact List.take_of_length_le enough
  constructor
  · rw [h.popped, all asked (by omega), all (asked + more) (by omega)]
  · rw [h.read, all (asked - 1) (by omega), all (asked + more - 1) (by omega)]
  · rw [h.unread, all asked (by omega), all (asked + more) (by omega)]
  · rw [h.upcoming, List.drop_of_length_le (by omega), List.drop_of_length_le (by omega)]

theorem After.advance (h : After root asked account) (count : Nat) :
    After root (asked + count) (account.advance count) := by
  induction count generalizing asked account with
  | zero => exact h
  | succ count ih =>
      have later := h.next
      have handed := h.handed
      have sum : asked + (count + 1) = asked + 1 + count := by omega
      rw [sum]
      rcases request : account.next with ⟨_ | node, rest⟩
      · rw [request] at later handed
        have done := List.getElem?_eq_none_iff.mp handed.symm
        simp only [Account.advance, request]
        exact later.ended (by omega) count
      · rw [request] at later
        simp only [Account.advance, request]
        exact ih later

theorem After.advanceAll (h : After root asked account) (counts : List Nat) :
    After root (asked + total counts) (account.advanceAll counts) := by
  induction counts generalizing asked account with
  | nil => exact h
  | cons count rest ih =>
      rw [total, ← Nat.add_assoc]
      exact ih (h.advance count)

end Account

end MarkupTree
