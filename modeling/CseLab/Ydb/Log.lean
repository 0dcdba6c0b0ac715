import CseLab.Ydb.Base

/-!
# What a transactional server has done

Both transactional servers log the calls that have returned and the transactions that have
committed; no step reads the log.  It determines what every transaction has done (`transcript`,
`history`) and the order in which the transactions committed (`commitOrder`).
-/

set_option autoImplicit false

namespace CseLab
namespace Ydb

open Serial

/-- What the log records. -/
inductive Event
  /-- A call has returned this status and, if it was a `get`, this value. -/
  | returned (id : TransactionId) (c : Call) (ret : Status) (out : Bytes)
  /-- A transaction has committed. -/
  | committed (id : TransactionId)
  deriving DecidableEq

/-- The call of `id` that `e` says has returned `ok`, with its output. -/
def Event.entry (id : TransactionId) : Event → Option (Call × Bytes)
  | .returned i c .ok out => if i = id ∧ (c.done out).isSome then some (c, out) else none
  | _ => none

/-- The reads and writes of `id` that have returned `ok`, in order, with their outputs. -/
def transcript (log : List Event) (id : TransactionId) : List (Call × Bytes) :=
  log.filterMap (Event.entry id)

/-- What `id` has done so far. -/
def history (log : List Event) (id : TransactionId) : List (Done ExtentId Bytes) :=
  doneOf (transcript log id)

/-- The transaction that `e` says has committed. -/
def Event.commit : Event → Option TransactionId
  | .committed id => some id
  | _ => none

/-- The transactions that have committed, in the order in which they have. -/
def commitOrder (log : List Event) : List TransactionId := log.filterMap Event.commit

@[simp] theorem transcript_nil (id : TransactionId) : transcript [] id = [] := rfl

@[simp] theorem commitOrder_nil : commitOrder [] = [] := rfl

theorem transcript_snoc (log : List Event) (e : Event) (id : TransactionId) :
    transcript (log ++ [e]) id = transcript log id ++ (e.entry id).toList := by
  rw [transcript, List.filterMap_append]
  cases h : e.entry id <;> simp [transcript, h]

theorem commitOrder_snoc (log : List Event) (e : Event) :
    commitOrder (log ++ [e]) = commitOrder log ++ e.commit.toList := by
  rw [commitOrder, List.filterMap_append]
  cases h : e.commit <;> simp [commitOrder, h]

@[simp] theorem transcript_committed (log : List Event) (i id : TransactionId) :
    transcript (log ++ [.committed i]) id = transcript log id := by
  simp [transcript_snoc, Event.entry]

@[simp] theorem commitOrder_returned (log : List Event) (i : TransactionId) (c : Call)
    (ret : Status) (out : Bytes) :
    commitOrder (log ++ [.returned i c ret out]) = commitOrder log := by
  simp [commitOrder_snoc, Event.commit]

@[simp] theorem commitOrder_committed (log : List Event) (i : TransactionId) :
    commitOrder (log ++ [.committed i]) = commitOrder log ++ [i] := by
  simp [commitOrder_snoc, Event.commit]

theorem transcript_returned_ne (log : List Event) {i id : TransactionId} (c : Call) (ret : Status)
    (out : Bytes) (h : id ≠ i) : transcript (log ++ [.returned i c ret out]) id =
      transcript log id := by
  cases ret <;> simp [transcript_snoc, Event.entry, Ne.symm h]

theorem transcript_returned_of_none (log : List Event) (i id : TransactionId) {c : Call}
    (ret : Status) {out : Bytes} (h : ret = .ok → c.done out = none) :
    transcript (log ++ [.returned i c ret out]) id = transcript log id := by
  cases ret <;> simp [transcript_snoc, Event.entry, h]

theorem history_returned_self (log : List Event) (i : TransactionId) {c : Call} {out : Bytes}
    {d : Done ExtentId Bytes} (h : c.done out = some d) :
    history (log ++ [.returned i c .ok out]) i = history log i ++ [d] := by
  simp [history, transcript_snoc, Event.entry, h, doneOf]

theorem transcript_done {log : List Event} {id : TransactionId} {p : Call × Bytes}
    (h : p ∈ transcript log id) : (p.1.done p.2).isSome := by
  obtain ⟨e, -, he⟩ := List.mem_filterMap.1 h
  cases e with
  | committed => exact absurd he (by simp [Event.entry])
  | returned i c ret out =>
    cases ret with
    | ok =>
      rw [Event.entry] at he
      split at he
      · rename_i hc
        rw [Option.some_inj] at he
        exact he ▸ hc.2
      · exact absurd he (by simp)
    | rpcerr | abort | transidinv => exact absurd he (by simp [Event.entry])

/-! ## The committed transactions -/

/-- What the committed transactions have done, in the order of their commits. -/
def committedHistories (log : List Event) : List (List (Done ExtentId Bytes)) :=
  (commitOrder log).map (history log)

/-- The calls of the committed transactions, in the order of their commits. -/
def committedCalls (log : List Event) : List (List Call) :=
  (commitOrder log).map fun id => (transcript log id).map Prod.fst

/-- A call that returns is none of a committed transaction's. -/
theorem committedHistories_returned {log : List Event} {id : TransactionId} {c : Call}
    {ret : Status} {out : Bytes}
    (h : id ∉ commitOrder log ∨ (ret = .ok → c.done out = none)) :
    committedHistories (log ++ [.returned id c ret out]) = committedHistories log := by
  rw [committedHistories, commitOrder_returned]
  refine List.map_congr_left fun u hu => ?_
  rw [history, history]
  rcases h with h | h
  · rw [transcript_returned_ne]
    rintro rfl
    exact h hu
  · rw [transcript_returned_of_none _ _ _ _ h]

theorem committedHistories_committed (log : List Event) (id : TransactionId) :
    committedHistories (log ++ [.committed id]) = committedHistories log ++ [history log id] := by
  have hsame : history (log ++ [.committed id]) = history log := by
    funext u
    rw [history, transcript_committed, history]
  rw [committedHistories, commitOrder_committed, hsame, List.map_append, List.map_singleton,
    committedHistories]

end Ydb
end CseLab
