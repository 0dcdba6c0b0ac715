import CseLab.Lib.Line
import CseLab.LockCache.Machine

/-!
# The cached-lock server, whatever its clients do

`lock_server_cache` alone, with messages from any clients in any order.  What a handler does to a
lock's `LockInfo` it does under the server's mutex, and that is one step; the `revoke` or `retry`
call that may follow changes nothing of the server's.  If the client to be called cannot be reached,
an `assert` fails and there is no server any more.

* `first_come_first_served` — who has been told to wait gets the lock in turn.
* `trusty_iff` — `release` does not ask who sends it, and `acquire` lets the client at the front of
  the queue have the lock, given back or not.  The server trusts the holder alone in just the runs
  where only the holder gives the lock back and the front client comes when there is no holder.

The handlers of the machine with the clients in it change the server in the same way
(`acquireHandler_server`, `releaseHandler_server`).
-/

set_option autoImplicit false

namespace CseLab
namespace LockCache

variable {C : Type} [DecidableEq C]

/-! ## The handlers -/

namespace ServerInfo

/-- `lock_server_cache::acquire` up to its `revoke` call: the answer, whether there is such a call,
and the new `LockInfo`. -/
def acquire (i : ServerInfo C) (id : C) : Option (Status × Bool × ServerInfo C) :=
  match i.state with
  | .free => some (.ok, false, ⟨.used, some id, i.waitingIds⟩)
  | .used => some (.retry, true, ⟨.toRevoke, i.acquiredId, i.waitingIds ++ [id]⟩)
  | .toRevoke =>
    match i.waitingIds with
    -- `*info->waitingIds.begin()` of an empty list
    | [] => none
    | w :: ws =>
      if w = id then
        if ws = [] then some (.ok, false, ⟨.used, some id, []⟩)
        else some (.ok, true, ⟨.toRevoke, some id, ws⟩)
      else some (.retry, false, ⟨.toRevoke, i.acquiredId, i.waitingIds ++ [id]⟩)

/-- `lock_server_cache::release` up to its `retry` call: whether there is such a call, and the new
`LockInfo`.  The sender makes no difference. -/
def release (i : ServerInfo C) : Option (Bool × ServerInfo C) :=
  match i.state with
  | .free => some (false, i)
  | .used => some (false, ⟨.free, none, i.waitingIds⟩)
  | .toRevoke =>
    match i.waitingIds with
    | [] => none
    | _ :: _ => some (true, ⟨.toRevoke, none, i.waitingIds⟩)

variable {i i' : ServerInfo C} {id : C} {ret : Status} {call : Bool}

/-- All that `acquire` can do. -/
theorem acquire_cases (h : i.acquire id = some (ret, call, i')) :
    (i.state = .free ∧ ret = .ok ∧ i' = ⟨.used, some id, i.waitingIds⟩) ∨
    (i.state = .used ∧ ret = .retry ∧ i' = ⟨.toRevoke, i.acquiredId, i.waitingIds ++ [id]⟩) ∨
    (i.state = .toRevoke ∧ ret = .ok ∧ ∃ ws, i.waitingIds = id :: ws ∧
      i' = ⟨if ws = [] then .used else .toRevoke, some id, ws⟩) ∨
    (i.state = .toRevoke ∧ ret = .retry ∧ i.waitingIds.head? ≠ some id ∧
      i' = ⟨.toRevoke, i.acquiredId, i.waitingIds ++ [id]⟩) := by
  rw [acquire] at h
  split at h
  · rename_i hs
    cases h
    exact .inl ⟨hs, rfl, rfl⟩
  · rename_i hs
    cases h
    exact .inr (.inl ⟨hs, rfl, rfl⟩)
  · rename_i hs
    split at h
    · cases h
    · rename_i w ws hw
      split at h
      · rename_i heq
        subst heq
        split at h
        · rename_i hnil
          cases h
          exact .inr (.inr (.inl ⟨hs, rfl, ws, hw, by rw [if_pos hnil, hnil]⟩))
        · rename_i hne
          cases h
          exact .inr (.inr (.inl ⟨hs, rfl, ws, hw, by rw [if_neg hne]⟩))
      · rename_i hne
        cases h
        refine .inr (.inr (.inr ⟨hs, rfl, ?_, rfl⟩))
        rw [hw]
        simpa using hne

omit [DecidableEq C] in
/-- All that `release` can do. -/
theorem release_cases (h : i.release = some (call, i')) :
    (i.state = .free ∧ i' = i) ∨ (i.state = .used ∧ i' = ⟨.free, none, i.waitingIds⟩) ∨
    (i.state = .toRevoke ∧ i' = ⟨.toRevoke, none, i.waitingIds⟩) := by
  rw [release] at h
  split at h
  · rename_i hs
    cases h
    exact .inl ⟨hs, rfl⟩
  · rename_i hs
    cases h
    exact .inr (.inl ⟨hs, rfl⟩)
  · rename_i hs
    split at h
    · cases h
    · cases h
      exact .inr (.inr ⟨hs, rfl⟩)

end ServerInfo

theorem acquireHandler_server {T : Type} [DecidableEq T] {s : State C T} {a : Thread C T}
    {ret : Status} {call : Bool} {i : ServerInfo C}
    (h : s.server.acquire a.1 = some (ret, call, i)) : (s.acquireHandler a).server = i := by
  have hcall : ∀ (s : State C T) ret, (s.callRevoke a ret).server = s.server := by
    intro s ret
    rw [State.callRevoke]
    split <;> rfl
  rcases ServerInfo.acquire_cases h with ⟨hs, -, rfl⟩ | ⟨hs, -, rfl⟩ | ⟨hs, -, ws, hw, rfl⟩ |
    ⟨hs, -, hne, rfl⟩
  · simp only [State.acquireHandler, hs, State.goto]
  · simp only [State.acquireHandler, hs, hcall]
  · simp only [State.acquireHandler, hs, hw, List.head?_cons, List.tail_cons, if_true]
    split
    · rename_i hnil
      rw [hnil]
      rfl
    · exact hcall _ _
  · simp only [State.acquireHandler, hs, if_neg hne, State.goto]

theorem releaseHandler_server {T : Type} [DecidableEq T] {s : State C T} {a : Thread C T}
    {pc : ReleaseCall C → Pc C} {call : Bool} {i : ServerInfo C}
    (h : s.server.release = some (call, i)) : (s.releaseHandler a pc).server = i := by
  have hhead : s.server.state = .toRevoke → s.server.waitingIds ≠ [] := by
    intro hs hnil
    simp only [ServerInfo.release, hs, hnil, reduceCtorEq] at h
  rcases ServerInfo.release_cases h with ⟨hs, rfl⟩ | ⟨hs, rfl⟩ | ⟨hs, rfl⟩
  · simp only [State.releaseHandler, hs, State.goto]
  · simp only [State.releaseHandler, hs, State.goto]
  · obtain ⟨w, ws, hw⟩ := List.exists_cons_of_ne_nil (hhead hs)
    simp only [State.releaseHandler, hs, hw, List.head?_cons, State.goto]

/-! ## The server -/

/-- A message that has been answered. -/
inductive Event (C : Type)
  | acquire (lid : ℕ) (id : C) (ret : Status)
  | release (lid : ℕ) (id : C)
  deriving DecidableEq

/-- `lockMap`, and what has been answered so far. -/
structure Server (C : Type) where
  lockMap : ℕ → ServerInfo C
  log : List (Event C)

/-- A message. -/
inductive Message (C : Type)
  | acquire (lid : ℕ) (id : C)
  | release (lid : ℕ) (id : C)
  deriving DecidableEq

namespace Server

/-- `lock_server_cache()`. -/
def start : Server C := ⟨fun _ => ⟨.free, none, []⟩, []⟩

/-- `acquire`; `bound` says whether `safebind` reaches the client to be called. -/
def acquire (s : Server C) (lid : ℕ) (id : C) (bound : Bool) : Option (Server C) :=
  match (s.lockMap lid).acquire id with
  | none => none
  | some (ret, call, i) =>
    if call && !bound then none
    else some ⟨Function.update s.lockMap lid i, s.log ++ [.acquire lid id ret]⟩

/-- `release`. -/
def release (s : Server C) (lid : ℕ) (id : C) (bound : Bool) : Option (Server C) :=
  match (s.lockMap lid).release with
  | none => none
  | some (call, i) =>
    if call && !bound then none
    else some ⟨Function.update s.lockMap lid i, s.log ++ [.release lid id]⟩

/-- One message; `none` where the server does not survive it. -/
def step (s : Server C) : Message C × Bool → Option (Server C)
  | (.acquire lid id, bound) => s.acquire lid id bound
  | (.release lid id, bound) => s.release lid id bound

variable {s s' : Server C} {lid lid' : ℕ} {id : C} {bound : Bool}

theorem acquire_eq_some (h : step s (.acquire lid id, bound) = some s') : ∃ ret call i,
    (s.lockMap lid).acquire id = some (ret, call, i) ∧
    s' = ⟨Function.update s.lockMap lid i, s.log ++ [.acquire lid id ret]⟩ := by
  rw [step, acquire] at h
  split at h
  · cases h
  · rename_i ret call i hi
    split at h
    · cases h
    · cases h
      exact ⟨ret, call, i, hi, rfl⟩

theorem release_eq_some (h : step s (.release lid id, bound) = some s') : ∃ call i,
    (s.lockMap lid).release = some (call, i) ∧
    s' = ⟨Function.update s.lockMap lid i, s.log ++ [.release lid id]⟩ := by
  rw [step, release] at h
  split at h
  · cases h
  · rename_i call i hi
    split at h
    · cases h
    · cases h
      exact ⟨call, i, hi, rfl⟩

/-! ## First come, first served -/

/-- What has been answered to those who ask for the lock `lid`. -/
def turns (lid : ℕ) (log : List (Event C)) : List (Turn C) :=
  log.filterMap fun
    | .acquire lid' id .retry => if lid' = lid then some (.queue id) else none
    | .acquire lid' id .ok => if lid' = lid then some (.serve id) else none
    | .release _ _ => none

/-- The queue is that of the answers given so far, each of them a fair one. -/
structure InLine (i : ServerInfo C) (ts : List (Turn C)) : Prop where
  toRevoke : i.waitingIds ≠ [] ↔ i.state = .toRevoke
  waiting : (line ts).waiting = i.waitingIds
  fair : Journal Turn.Fair ts

namespace InLine

variable {i i' : ServerInfo C} {ts : List (Turn C)} {ret : Status} {call : Bool}

theorem queue (h : InLine i ts) :
    InLine ⟨.toRevoke, i.acquiredId, i.waitingIds ++ [id]⟩ (ts ++ [.queue id]) where
  toRevoke := by simp
  waiting := by rw [line_snoc_queue, h.waiting]
  fair := h.fair.snoc trivial

theorem acquire (h : InLine i ts) (hi : i.acquire id = some (ret, call, i')) :
    InLine i' (ts ++ [match ret with | .ok => .serve id | .retry => .queue id]) := by
  rcases ServerInfo.acquire_cases hi with ⟨hs, rfl, rfl⟩ | ⟨hs, rfl, rfl⟩ |
    ⟨hs, rfl, ws, hw, rfl⟩ | ⟨hs, rfl, -, rfl⟩
  · -- a free lock, for which nobody waits
    have hnil : i.waitingIds = [] := by
      by_contra hne
      cases hs.symm.trans (h.toRevoke.1 hne)
    have hwait := h.waiting.trans hnil
    exact ⟨by simp [hnil], by rw [line_snoc_serve_nil hwait, h.waiting], h.fair.snoc (.inl hwait)⟩
  · exact h.queue
  · -- the front of the queue
    have hwait := h.waiting.trans hw
    refine ⟨?_, by rw [line_snoc_serve_cons hwait], h.fair.snoc (.inr ?_)⟩
    · by_cases hnil : ws = [] <;> simp [hnil]
    · rw [hwait, List.head?_cons]
  · exact h.queue

theorem release (h : InLine i ts) (hi : i.release = some (call, i')) : InLine i' ts := by
  rcases ServerInfo.release_cases hi with ⟨-, rfl⟩ | ⟨hs, rfl⟩ | ⟨hs, rfl⟩
  · exact h
  · have hnil : i.waitingIds = [] := by
      by_contra hne
      cases hs.symm.trans (h.toRevoke.1 hne)
    exact ⟨by simp [hnil], h.waiting, h.fair⟩
  · exact ⟨by simpa using h.toRevoke.2 hs, h.waiting, h.fair⟩

end InLine

theorem InLine.step {m : Message C × Bool} (h : InLine (s.lockMap lid) (turns lid s.log))
    (hs : step s m = some s') : InLine (s'.lockMap lid) (turns lid s'.log) := by
  rcases m with ⟨⟨lid', id⟩ | ⟨lid', id⟩, bound⟩
  · obtain ⟨ret, call, i, hi, rfl⟩ := acquire_eq_some hs
    rw [turns, List.filterMap_append, ← turns]
    by_cases heq : lid' = lid
    · subst heq
      have hi := h.acquire hi
      cases ret <;> simpa using hi
    · cases ret <;> simpa [heq, Function.update_of_ne (Ne.symm heq)] using h
  · obtain ⟨call, i, hi, rfl⟩ := release_eq_some hs
    rw [turns, List.filterMap_append, ← turns]
    by_cases heq : lid' = lid
    · subst heq
      simpa using h.release hi
    · simpa [Function.update_of_ne (Ne.symm heq)] using h

/-- **A lock is asked back exactly while somebody waits for it, and those that have been told to
wait get it in the order in which they have come, nobody before them.** -/
theorem first_come_first_served {as : List (Message C × Bool)} (h : Run step anyStep start as s)
    (lid : ℕ) :
    ((s.lockMap lid).waitingIds ≠ [] ↔ (s.lockMap lid).state = .toRevoke) ∧
    Journal Turn.Fair (turns lid s.log) ∧
    (line (turns lid s.log)).granted ++ (s.lockMap lid).waitingIds = queued (turns lid s.log) := by
  have hline : InLine (s.lockMap lid) (turns lid s.log) :=
    h.invariant (P := fun s => InLine (s.lockMap lid) (turns lid s.log))
      ⟨by simp [start], rfl, .nil⟩ fun _ _ _ hs _ hstep => hs.step hstep
  exact ⟨hline.toRevoke, hline.fair, hline.waiting ▸ granted_append_waiting hline.fair⟩

/-- Clients 1 and 2 wait while client 0 has the lock, and come back in the wrong order. -/
theorem first_come_first_served_example : ∃ as s, Run step anyStep (start : Server ℕ) as s ∧
    (line (turns 7 s.log)).granted = [1, 2] ∧ queued (turns 7 s.log) = [1, 2, 2] ∧
    (line (turns 7 s.log)).granted ++ (s.lockMap 7).waitingIds = queued (turns 7 s.log) := by
  obtain ⟨s, hs⟩ : ∃ s, execute step (start : Server ℕ)
      [(.acquire 7 0, true), (.acquire 7 1, true), (.acquire 7 2, true), (.release 7 0, true),
        (.acquire 7 2, true), (.acquire 7 1, true), (.release 7 1, true), (.acquire 7 2, true)] =
      some s := ⟨_, rfl⟩
  have hrun := Run.of_execute hs
  cases hs
  exact ⟨_, _, hrun, by decide, by decide, (first_come_first_served hrun 7).2.2⟩

/-! ## Trusting the holder alone -/

/-- Who has been given the lock `lid` and has not released it since. -/
def unreleased (lid : ℕ) (log : List (Event C)) : List C :=
  log.foldl (fun ids => fun
    | .acquire lid' id .ok => if lid' = lid then ids ++ [id] else ids
    | .acquire _ _ .retry => ids
    | .release lid' id => if lid' = lid then ids.filter (· ≠ id) else ids) []

/-- A release by another than the holder changes nothing, and `acquire` is answered `OK` only when
whoever has been given the lock has released it. -/
def Trusty (s : Server C) (m : Message C × Bool) : Prop :=
  ∀ s', step s m = some s' →
    match m.1 with
    | .acquire lid id =>
      s'.log = s.log ++ [.acquire lid id .ok] → unreleased lid s.log = []
    | .release lid id => (s.lockMap lid).acquiredId ≠ some id → s'.lockMap = s.lockMap

/-- Where there is a holder it is the holder who gives the lock back, and the client at the front of
the queue comes when there is none. -/
def Proper (s : Server C) (m : Message C × Bool) : Prop :=
  match m.1 with
  | .acquire lid id => (s.lockMap lid).state = .toRevoke →
    (s.lockMap lid).waitingIds.head? = some id → (s.lockMap lid).acquiredId = none
  | .release lid id => (s.lockMap lid).acquiredId = none ∨ (s.lockMap lid).acquiredId = some id

/-- The record of who has the lock is right. -/
structure Recorded (i : ServerInfo C) (ids : List C) : Prop where
  free : i.state = .free → i.acquiredId = none
  used : i.state = .used → i.acquiredId ≠ none
  unreleased : ids = i.acquiredId.toList

namespace Recorded

variable {i i' : ServerInfo C} {ids : List C} {ret : Status} {call : Bool}

/-- `acquire` is answered `OK` while another grant is not given back in just one case. -/
theorem acquire_ok (h : Recorded i ids) (hi : i.acquire id = some (ret, call, i')) :
    (ret = .ok → ids = []) ↔
      (i.state = .toRevoke → i.waitingIds.head? = some id → i.acquiredId = none) := by
  have hnil : ids = [] ↔ i.acquiredId = none := by
    rw [h.unreleased, Option.toList_eq_nil_iff]
  rw [hnil]
  rcases ServerInfo.acquire_cases hi with ⟨hs, rfl, -⟩ | ⟨hs, rfl, -⟩ | ⟨hs, rfl, ws, hw, -⟩ |
    ⟨hs, rfl, hne, -⟩
  · simp [hs, h.free hs]
  · simp [hs]
  · simp [hs, hw]
  · simp [hne]

theorem acquire (h : Recorded i ids) (hi : i.acquire id = some (ret, call, i'))
    (hok : ret = .ok → ids = []) :
    Recorded i' (match ret with | .ok => ids ++ [id] | .retry => ids) := by
  rcases ServerInfo.acquire_cases hi with ⟨-, rfl, rfl⟩ | ⟨-, rfl, rfl⟩ | ⟨-, rfl, ws, -, rfl⟩ |
    ⟨-, rfl, -, rfl⟩
  · exact ⟨by simp, fun _ => by simp, by simp [hok rfl]⟩
  · exact ⟨by simp, by simp, h.unreleased⟩
  · refine ⟨fun hs => ?_, fun _ => by simp, by simp [hok rfl]⟩
    by_cases hnil : ws = [] <;> simp [hnil] at hs
  · exact ⟨by simp, by simp, h.unreleased⟩

omit [DecidableEq C] in
/-- A release changes something just if there is a holder. -/
theorem release_eq (h : Recorded i ids) (hi : i.release = some (call, i')) :
    i' = i ↔ i.acquiredId = none := by
  obtain ⟨state, acquiredId, waitingIds⟩ := i
  rcases ServerInfo.release_cases hi with ⟨hs, rfl⟩ | ⟨hs, rfl⟩ | ⟨hs, rfl⟩
  · simpa using h.free hs
  · cases hs
    simpa using h.used rfl
  · cases hs
    simp [eq_comm]

theorem release (h : Recorded i ids) (hi : i.release = some (call, i'))
    (hid : i.acquiredId = none ∨ i.acquiredId = some id) :
    Recorded i' (ids.filter (· ≠ id)) := by
  have hids : ids.filter (· ≠ id) = [] := by
    rw [h.unreleased]
    rcases hid with hid | hid <;> simp [hid]
  rw [hids]
  rcases ServerInfo.release_cases hi with ⟨hs, rfl⟩ | ⟨-, rfl⟩ | ⟨-, rfl⟩
  · exact ⟨h.free, h.used, by rw [h.free hs]; rfl⟩
  · exact ⟨fun _ => rfl, by simp, rfl⟩
  · exact ⟨by simp, by simp, rfl⟩

end Recorded

theorem unreleased_snoc (log : List (Event C)) (e : Event C) : unreleased lid (log ++ [e]) =
    match e with
    | .acquire lid' id .ok => if lid' = lid then unreleased lid log ++ [id] else unreleased lid log
    | .acquire _ _ .retry => unreleased lid log
    | .release lid' id =>
      if lid' = lid then (unreleased lid log).filter (· ≠ id) else unreleased lid log := by
  rw [unreleased, List.foldl_append]
  rcases e with ⟨_, _, ⟨⟩ | ⟨⟩⟩ | ⟨_, _⟩ <;> rfl

/-- The records of all the locks. -/
def AllRecorded (s : Server C) : Prop :=
  ∀ lid, Recorded (s.lockMap lid) (unreleased lid s.log)

theorem AllRecorded.trusty_step {m : Message C × Bool} (h : AllRecorded s)
    (hs : step s m = some s') : Trusty s m ↔ Proper s m := by
  have hall : ∀ P : Server C → Prop, (∀ s', step s m = some s' → P s') ↔ P s' := by
    intro P
    rw [hs]
    simp
  rcases m with ⟨⟨lid, id⟩ | ⟨lid, id⟩, bound⟩
  · obtain ⟨ret, call, i, hi, rfl⟩ := acquire_eq_some hs
    rw [Trusty, hall]
    simpa [Proper] using (h lid).acquire_ok hi
  · obtain ⟨call, i, hi, rfl⟩ := release_eq_some hs
    rw [Trusty, hall]
    have hsame : Function.update s.lockMap lid i = s.lockMap ↔ (s.lockMap lid).acquiredId = none :=
      Function.update_eq_self_iff.trans ((h lid).release_eq hi)
    simp only [hsame, Proper]
    by_cases hid : (s.lockMap lid).acquiredId = some id <;> simp [hid]

theorem AllRecorded.step {m : Message C × Bool} (h : AllRecorded s) (hm : Proper s m)
    (hs : step s m = some s') : AllRecorded s' := by
  intro lid'
  rcases m with ⟨⟨lid, id⟩ | ⟨lid, id⟩, bound⟩
  · obtain ⟨ret, call, i, hi, rfl⟩ := acquire_eq_some hs
    rw [unreleased_snoc]
    by_cases heq : lid = lid'
    · subst heq
      have hi := (h lid).acquire hi (((h lid).acquire_ok hi).2 hm)
      cases ret <;> simpa using hi
    · cases ret <;> simpa [heq, Function.update_of_ne (Ne.symm heq)] using h lid'
  · obtain ⟨call, i, hi, rfl⟩ := release_eq_some hs
    rw [unreleased_snoc]
    by_cases heq : lid = lid'
    · subst heq
      simpa using (h lid).release hi hm
    · simpa [heq, Function.update_of_ne (Ne.symm heq)] using h lid'

/-- **The server trusts the holder alone in just the runs in which only the holder gives a lock back
and the front of the queue asks again when nobody holds it.** -/
theorem trusty_iff {as : List (Message C × Bool)} :
    Run step Trusty start as s ↔ Run step Proper start as s :=
  Run.congr (I := AllRecorded) (fun _ => ⟨fun _ => rfl, by simp [start], rfl⟩)
    (fun _ _ _ h hs => h.trusty_step hs) fun _ _ _ h hm hs => h.step hm hs

/-- Client 1 gives back the lock that client 0 has; and client 1, which waits for it, asks for it
once more. -/
theorem not_trusty :
    (∃ s, Run step anyStep (start : Server ℕ) [(.acquire 7 0, true)] s ∧
      ¬ Trusty s (.release 7 1, true)) ∧
    ∃ s, Run step anyStep (start : Server ℕ) [(.acquire 7 0, true), (.acquire 7 1, true)] s ∧
      ¬ Trusty s (.acquire 7 1, true) := by
  constructor
  · refine ⟨_, Run.of_execute rfl, fun h => ?_⟩
    have hmap := congrFun (h _ rfl (by decide)) 7
    exact absurd hmap (by decide)
  · refine ⟨_, Run.of_execute rfl, fun h => ?_⟩
    exact absurd (h _ rfl rfl) (by decide)

end Server
end LockCache
end CseLab
