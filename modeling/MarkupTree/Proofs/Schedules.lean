import MarkupTree.Session
import MarkupTree.Proofs.Walking

/-!
# Walks under a schedule

Several walks are started and then served in any order. What a walk replies depends on the numbers
of nodes asked of it alone: it hands out its preorder in portions of these sizes, whatever is asked
of the other walks in between, over the same nodes or not.
-/
namespace MarkupTree

/-- Requests for nodes, each with the name of a walk and a number of nodes. -/
abbrev Schedule := List (String × Nat)

namespace Schedule

def requests (schedule : Schedule) : List Request :=
  schedule.map fun entry => .next entry.1 entry.2

def sizes (name : String) : Schedule → List Nat
  | [] => []
  | (other, count) :: rest => if other = name then count :: sizes name rest else sizes name rest

def asked (name : String) (schedule : Schedule) : Nat := Account.total (schedule.sizes name)

/-- Those replies to a schedule that answer requests for one walk. -/
def repliesTo (name : String) : Schedule → List Reply → List Reply
  | (other, _) :: rest, reply :: replies =>
      if other = name then reply :: repliesTo name rest replies else repliesTo name rest replies
  | _, _ => []

end Schedule

def Reply.handed : Reply → List Node
  | nodes ns _ => ns
  | done | text _ | fault _ | unknown _ => []

namespace Walk

/-- The replies of a walk to requests for given numbers of nodes, and the walk that is left. -/
def serve : List Nat → Walk → List Reply × Walk
  | [], walk => ([], walk)
  | count :: rest, walk =>
      let nodes := (walk.take count).1
      let (replies, left) := serve rest (walk.take count).2
      (.nodes nodes (nodes.length < count) :: replies, left)

theorem handed_serve (counts : List Nat) (walk : Walk) :
    (walk.serve counts).1.flatMap Reply.handed = walk.upcoming.take (Account.total counts) := by
  induction counts generalizing walk with
  | nil => rfl
  | cons count rest ih =>
      rw [serve, List.flatMap_cons, ih, Reply.handed, fst_take, upcoming_take, Account.total,
        List.take_add]

theorem upcoming_serve (counts : List Nat) (walk : Walk) :
    (walk.serve counts).2.upcoming = walk.upcoming.drop (Account.total counts) := by
  induction counts generalizing walk with
  | nil => rfl
  | cons count rest ih => rw [serve, ih, upcoming_take, Account.total, List.drop_drop]

theorem walk_advanceAll (counts : List Nat) (account : Account) :
    (account.advanceAll counts).walk = (account.walk.serve counts).2 := by
  induction counts generalizing account with
  | nil => rfl
  | cons count rest ih => rw [Account.advanceAll, ih, account.walk_advance count [], serve, take]

end Walk

namespace Session

/-- A session in which a walk has been started over each of the named roots. -/
def walking (roots : InsertionMap Node) : Session :=
  (run {} (roots.entries.map fun entry => .startWalk entry.1 entry.2)).1

theorem run_append (session : Session) (before after : List Request) :
    session.run (before ++ after) =
      (((session.run before).1.run after).1,
        (session.run before).2 ++ ((session.run before).1.run after).2) := by
  induction before generalizing session with
  | nil => rfl
  | cons request rest ih => simp only [List.cons_append, run, ih]

theorem length_run (session : Session) (requests : List Request) :
    (session.run requests).2.length = requests.length := by
  induction requests generalizing session with
  | nil => rfl
  | cons request rest ih => simp only [run, List.length_cons, ih]

variable {session : Session} {name : String} {walk : Walk}

theorem step_next (started : session.walks.get? name = some walk) (count : Nat) :
    session.step (.next name count) =
      ({ session with walks := session.walks.insert name (walk.take count).2 },
        .nodes (walk.take count).1 ((walk.take count).1.length < count)) := by
  simp only [step, started]

theorem step_next_own (started : session.walks.get? name = some walk) (count : Nat) :
    (session.step (.next name count)).1.walks.get? name = some (walk.take count).2 := by
  rw [step_next started, InsertionMap.get?_insert, if_pos rfl]

theorem step_next_other {other : String} (apart : name ≠ other) (count : Nat) :
    (session.step (.next other count)).1.walks.get? name = session.walks.get? name := by
  cases found : session.walks.get? other with
  | none => simp only [step, found]
  | some walk => rw [step_next found, InsertionMap.get?_insert, if_neg apart]

theorem run_schedule (started : session.walks.get? name = some walk) (schedule : Schedule) :
    schedule.repliesTo name (session.run schedule.requests).2 =
        (walk.serve (schedule.sizes name)).1 ∧
      (session.run schedule.requests).1.walks.get? name =
        some (walk.serve (schedule.sizes name)).2 := by
  induction schedule generalizing session walk with
  | nil => exact ⟨rfl, started⟩
  | cons entry rest ih =>
      obtain ⟨other, count⟩ := entry
      rw [Schedule.requests, List.map_cons, run]
      by_cases own : other = name
      · subst own
        obtain ⟨replies, left⟩ := ih (step_next_own started count)
        simp only [Schedule.repliesTo, Schedule.sizes, if_pos, Walk.serve]
        refine ⟨?_, left⟩
        rw [step_next started] at replies ⊢
        exact congrArg _ replies
      · have kept : (session.step (.next other count)).1.walks.get? name = some walk := by
          rw [step_next_other (Ne.symm own), started]
        simp only [Schedule.repliesTo, Schedule.sizes, if_neg own]
        exact ih kept

theorem run_alone (started : session.walks.get? name = some walk) (counts : List Nat) :
    (session.run (counts.map (.next name))).2 = (walk.serve counts).1 := by
  induction counts generalizing session walk with
  | nil => rfl
  | cons count rest ih =>
      rw [List.map_cons, run, Walk.serve]
      have replies := ih (step_next_own started count)
      rw [step_next started] at replies ⊢
      exact congrArg _ replies

theorem get?_run_startWalk {entries : List (String × Node)}
    (distinct : (entries.map Prod.fst).Nodup) (session : Session) (name : String) :
    (session.run (entries.map fun entry => .startWalk entry.1 entry.2)).1.walks.get? name =
      ((entries.lookup name).map Node.walk <|> session.walks.get? name) := by
  induction entries generalizing session with
  | nil => simp [run]
  | cons entry rest ih =>
      obtain ⟨key, root⟩ := entry
      obtain ⟨absent, distinct⟩ := List.nodup_cons.mp distinct
      rw [List.map_cons, run]
      simp only [step, ih distinct, InsertionMap.lookup_cons_ite, InsertionMap.get?_insert]
      split
      · rename_i same
        subst same
        have none : rest.lookup name = none := by
          rw [List.lookup_eq_none_iff]
          intro other member
          have apart : name ≠ other.1 := by
            intro same
            apply absent
            exact List.mem_map.mpr ⟨other, member, same.symm⟩
          simpa using apart
        rw [none]
        rfl
      · rfl

theorem get?_walking {roots : InsertionMap Node} {root : Node}
    (started : roots.get? name = some root) :
    (walking roots).walks.get? name = some root.walk := by
  have found : roots.entries.lookup name = some root := started
  rw [walking, get?_run_startWalk roots.keys_nodup, found]
  rfl

theorem reply_to_request (started : session.walks.get? name = some walk) (before after : Schedule)
    (count : Nat) :
    let nodes := (walk.upcoming.drop (Schedule.asked name before)).take count
    (session.run (Schedule.requests (before ++ (name, count) :: after))).2[before.length]? =
      some (.nodes nodes (nodes.length < count)) := by
  obtain ⟨_, reached⟩ := run_schedule started before
  have position : before.length = (session.run before.requests).2.length := by
    rw [length_run, Schedule.requests, List.length_map]
  have portion := Walk.fst_take count (walk.serve (before.sizes name)).2
  rw [Walk.upcoming_serve] at portion
  rw [Schedule.requests, List.map_append, List.map_cons, ← Schedule.requests, run_append, position,
    List.getElem?_append_right (Nat.le_refl _), Nat.sub_self, run, step_next reached]
  simp only [List.getElem?_cons_zero]
  rw [portion]
  rfl

theorem length_portion_lt_iff (nodes : List Node) (skipped count : Nat) :
    ((nodes.drop skipped).take count).length < count ↔ nodes.length - skipped < count := by
  rw [List.length_take, List.length_drop]
  omega

/-- However requests for several walks are interleaved, a walk hands out the first nodes of the
preorder of its root, as many as were asked of it altogether or all there are. Each request gets the
next portion, which falls short only if no more nodes are left, and the replies are those of a
session that has only this walk. One node is popped for each node handed out, and the children of
the last node asked for are not read. -/
theorem walks_follow_preorder {roots : InsertionMap Node} {name : String} {root : Node}
    (started : roots.get? name = some root) (schedule : Schedule) :
    let served := (walking roots).run schedule.requests
    let replies := schedule.repliesTo name served.2
    let account := Account.advanceAll (schedule.sizes name) { walk := root.walk }
    replies.flatMap Reply.handed =
        root.preorder.take (min (schedule.asked name) root.preorder.length) ∧
      (∀ before count after, schedule = before ++ (name, count) :: after →
        let nodes := (root.preorder.drop (Schedule.asked name before)).take count
        served.2[before.length]? = some (.nodes nodes (nodes.length < count)) ∧
          (nodes.length < count ↔ root.preorder.length - Schedule.asked name before < count) ∧
          (root.preorder.length ≤ Schedule.asked name before → nodes = [])) ∧
      replies = ((walking (InsertionMap.insert ∅ name root)).run
        ((schedule.sizes name).map (.next name))).2 ∧
      served.1.walks.get? name = some account.walk ∧
      account.popped = replies.flatMap Reply.handed ∧
      account.read = root.preorder.take (schedule.asked name - 1) := by
  intro served replies account
  have walk := get?_walking started
  obtain ⟨answers, left⟩ := run_schedule walk schedule
  have handed : replies.flatMap Reply.handed = root.preorder.take (schedule.asked name) := by
    calc replies.flatMap Reply.handed
      _ = (root.walk.serve (schedule.sizes name)).1.flatMap Reply.handed := congrArg _ answers
      _ = root.walk.upcoming.take (schedule.asked name) := Walk.handed_serve _ _
      _ = root.preorder.take (schedule.asked name) := by rw [Walk.upcoming_walk]
  have acts : Account.After root (0 + schedule.asked name) account :=
    (Account.After.start root).advanceAll _
  rw [Nat.zero_add] at acts
  refine ⟨?_, ?_, ?_, ?_, ?_, acts.read⟩
  · rw [handed, List.take_eq_take_iff]
    omega
  · intro before count after split
    subst split
    refine ⟨?_, length_portion_lt_iff _ _ _, ?_⟩
    · rw [← Walk.upcoming_walk]
      exact reply_to_request walk before after count
    · intro done
      rw [List.drop_of_length_le done, List.take_nil]
  · have single : (InsertionMap.insert ∅ name root).get? name = some root := by
      rw [InsertionMap.get?_insert, if_pos rfl]
    rw [run_alone (get?_walking single)]
    exact answers
  · rw [Walk.walk_advanceAll]
    exact left
  · rw [acts.popped, handed]

/-- A comment that holds one text twice. -/
def pairOfOne : Node := ⟨1, .comment "c", [⟨0, .text "x", []⟩, ⟨0, .text "x", []⟩]⟩

/-- Two walks over one node and a third over a part of it. -/
def overlapping : InsertionMap Node :=
  .ofPairs [("all", pairOfOne), ("again", pairOfOne), ("part", ⟨0, .text "x", []⟩)]

/-- A schedule that asks beyond the end, for nothing, and after the end. -/
def mixed : Schedule :=
  [("all", 1), ("again", 2), ("all", 0), ("part", 5), ("again", 9), ("all", 1), ("again", 1)]

theorem overlapping_walks_follow_preorder :
    overlapping.get? "again" = some pairOfOne ∧
      (mixed.repliesTo "again" ((walking overlapping).run mixed.requests).2).flatMap Reply.handed =
        pairOfOne.preorder := by
  have started : overlapping.get? "again" = some pairOfOne := rfl
  refine ⟨started, ?_⟩
  rw [(walks_follow_preorder started mixed).1]
  rfl

end Session

end MarkupTree
