import MarkupTree.Line
import Mathlib.Tactic.Common

/-!
# Lines on their way to a sink

A pass over lines ends in one of two ways. Either the sink has taken every line, or it has taken the
lines before some line whose margin cannot be made or which it refuses. The two ways exclude each
other, so how a pass ends says all about it.
-/
namespace MarkupTree.Line

variable {σ ε : Type}

/-- A sink takes lines in order, each of them once and behind its margin, and nothing else. -/
inductive Delivers (accept : Acceptor σ ε) : List Line → σ → σ → Prop where
  | nil (sink : σ) : Delivers accept [] sink sink
  | cons {line : Line} {rest : List Line} {margin : String} {sink next last : σ}
      (made : Margin.ofWidth line.indent = .ok margin)
      (taken : accept sink (margin ++ line.body) = .ok next)
      (others : Delivers accept rest next last) : Delivers accept (line :: rest) sink last

/-- Why a line does not reach a sink. The sink is asked only if there is a margin. -/
inductive Fails (accept : Acceptor σ ε) (line : Line) (sink : σ) : Fault ε → Prop where
  | margin {error : MarginError} (unmade : Margin.ofWidth line.indent = .error error) :
      Fails accept line sink (.margin error)
  | sink {margin : String} {error : ε} (made : Margin.ofWidth line.indent = .ok margin)
      (refused : accept sink (margin ++ line.body) = .error error) :
      Fails accept line sink (.sink error)

/-- How a pass over lines ends. A fault leaves exactly the lines before the failing one. -/
inductive Ends (accept : Acceptor σ ε) (lines : List Line) (sink : σ) : Outcome σ ε → Prop where
  | complete {last : σ} (delivered : Delivers accept lines sink last) :
      Ends accept lines sink { sink := last }
  | cut {before after : List Line} {line : Line} {last : σ} {fault : Fault ε}
      (split : lines = before ++ line :: after) (delivered : Delivers accept before sink last)
      (fails : Fails accept line last fault) :
      Ends accept lines sink { sink := last, fault := some fault }

variable {accept : Acceptor σ ε}

theorem write_eq_ok_iff {line : Line} {sink next : σ} :
    line.write accept sink = .ok next ↔
      ∃ margin, Margin.ofWidth line.indent = .ok margin ∧
        accept sink (margin ++ line.body) = .ok next := by
  unfold write
  split
  · rename_i unmade
    simp [unmade]
  · rename_i margin made
    split
    · rename_i refused
      simp [made, refused]
    · rename_i taken
      simp [made, taken]

theorem write_eq_error_iff {line : Line} {sink : σ} {fault : Fault ε} :
    line.write accept sink = .error fault ↔ Fails accept line sink fault := by
  constructor
  · intro h
    unfold write at h
    split at h
    · rename_i unmade
      cases h
      exact .margin unmade
    · rename_i made
      split at h
      · rename_i refused
        cases h
        exact .sink made refused
      · cases h
  · intro h
    cases h with
    | margin unmade => simp [write, unmade]
    | sink made refused => simp [write, made, refused]

theorem writeAll_cons_of_ok {line : Line} {rest : List Line} {sink next : σ}
    (written : line.write accept sink = .ok next) :
    writeAll accept (line :: rest) sink = writeAll accept rest next := by
  rw [writeAll, written]

theorem writeAll_cons_of_error {line : Line} {rest : List Line} {sink : σ} {fault : Fault ε}
    (failed : line.write accept sink = .error fault) :
    writeAll accept (line :: rest) sink = { sink, fault := some fault } := by
  rw [writeAll, failed]

theorem writeAll_of_delivers {before : List Line} {sink last : σ}
    (h : Delivers accept before sink last) (after : List Line) :
    writeAll accept (before ++ after) sink = writeAll accept after last := by
  induction h with
  | nil sink => rfl
  | cons made taken others ih =>
      rw [List.cons_append, writeAll_cons_of_ok (write_eq_ok_iff.mpr ⟨_, made, taken⟩), ih]

theorem Delivers.concat {lines : List Line} {line : Line} {sink next last : σ}
    (h : Delivers accept lines sink next) (written : line.write accept next = .ok last) :
    Delivers accept (lines ++ [line]) sink last := by
  induction h with
  | nil sink =>
      obtain ⟨margin, made, taken⟩ := write_eq_ok_iff.mp written
      exact .cons made taken (.nil last)
  | cons made taken _ ih => exact .cons made taken (ih written)

theorem Delivers.fit {lines : List Line} {sink last : σ} (h : Delivers accept lines sink last) :
    ∀ line ∈ lines, ∃ margin, Margin.ofWidth line.indent = .ok margin := by
  induction h with
  | nil sink =>
      intro line member
      cases member
  | cons made _ _ ih =>
      intro line member
      rcases List.mem_cons.mp member with rfl | later
      · exact ⟨_, made⟩
      · exact ih line later

theorem ends_writeAll (accept : Acceptor σ ε) (lines : List Line) (sink : σ) :
    Ends accept lines sink (writeAll accept lines sink) := by
  induction lines generalizing sink with
  | nil => exact .complete (.nil sink)
  | cons line rest ih =>
      cases written : line.write accept sink with
      | error fault =>
          have split : line :: rest = [] ++ line :: rest := rfl
          rw [writeAll_cons_of_error written]
          exact .cut split (.nil sink) (write_eq_error_iff.mp written)
      | ok next =>
          obtain ⟨margin, made, taken⟩ := write_eq_ok_iff.mp written
          have later := ih next
          rw [writeAll_cons_of_ok written]
          generalize writeAll accept rest next = outcome at later
          cases later with
          | complete delivered => exact .complete (.cons made taken delivered)
          | @cut before after failing last fault split delivered fails =>
              have longer : line :: rest = (line :: before) ++ failing :: after := by
                rw [split, List.cons_append]
              exact .cut longer (.cons made taken delivered) fails

theorem writeAll_of_ends {lines : List Line} {sink : σ} {outcome : Outcome σ ε}
    (h : Ends accept lines sink outcome) : writeAll accept lines sink = outcome := by
  cases h with
  | complete delivered =>
      have all := writeAll_of_delivers delivered []
      rwa [List.append_nil] at all
  | cut split delivered fails =>
      subst split
      rw [writeAll_of_delivers delivered,
        writeAll_cons_of_error (write_eq_error_iff.mpr fails)]

theorem writeAll_eq_iff {lines : List Line} {sink : σ} {outcome : Outcome σ ε} :
    writeAll accept lines sink = outcome ↔ Ends accept lines sink outcome := by
  constructor
  · intro h
    subst h
    exact ends_writeAll accept lines sink
  · exact writeAll_of_ends

theorem fault_writeAll_eq_none_iff {lines : List Line} {sink : σ} :
    (writeAll accept lines sink).fault = none ↔ ∃ last, Delivers accept lines sink last := by
  constructor
  · intro h
    have ended := ends_writeAll accept lines sink
    generalize writeAll accept lines sink = outcome at h ended
    cases ended with
    | complete delivered => exact ⟨_, delivered⟩
    | cut split delivered fails => cases h
  · intro h
    obtain ⟨last, delivered⟩ := h
    rw [writeAll_of_ends (.complete delivered)]

end MarkupTree.Line
