import CseLab.Lib.Run
import Mathlib.Data.Finset.Basic
import Mathlib.Logic.Function.Basic

/-!
# The cached-lock server and its clients, one lock

`lock_server_cache` gives a lock to one client at a time, and `lock_client_cache` lets the threads
of a client share it until the server wants it back.  This module is everything that happens to one
lock id: the server's `LockInfo`, every client's `LockInfo`, and where each thread stands.

A section that runs under a mutex is one step.  Between two sections there are calls in flight, and
which of them arrives next is the scheduler's choice.  A call is made on behalf of a thread that
waits for the reply, and so is every call made while it is answered: an `acquire` may make the
server call `revoke`, the revoked client may then call `release` and the server, for that, `retry`
at a third client.  The program point of the thread at the far end says how far the whole chain has
come.

`pthread_cond_signal` wakes one of the threads that wait, whichever the scheduler likes, and a
thread that waits may wake up without having been signalled.

The clients are of any type `C`, the threads of a client of any type `T`.
-/

set_option autoImplicit false

namespace CseLab
namespace LockCache

/-! ## Tables -/

/-- `LockState` of the server. -/
inductive ServerState
  | free
  | used
  | toRevoke
  deriving DecidableEq

/-- `LockInfo` of the server; `none` stands for the empty id.  A lock that is not in the server's
map is one with the initial `LockInfo`. -/
structure ServerInfo (C : Type) where
  state : ServerState
  acquiredId : Option C
  waitingIds : List C
  deriving DecidableEq

/-- `LockState` of a client. -/
inductive ClientState
  | none
  | free
  | acquiring
  | used
  | releasing
  deriving DecidableEq

/-- `LockInfo` of a client; a condition variable is the set of the threads that wait for it. -/
structure ClientInfo (T : Type) where
  state : ClientState
  lockCond : Finset T
  retryCond : Finset T
  toRevoke : Bool
  toRetry : Bool
  deriving DecidableEq

/-- `LockInfo()` of a client. -/
def ClientInfo.new {T : Type} : ClientInfo T := ⟨.none, ∅, ∅, false, false⟩

/-- What the server's `acquire` returns. -/
inductive Status
  | ok
  | retry
  deriving DecidableEq

/-! ## Program points -/

/-- How far a client's `release` call has come. -/
inductive ReleaseCall (C : Type)
  /-- On its way to the server. -/
  | request
  /-- The server's `retry` call is on its way to `id`. -/
  | retry (id : C)
  /-- The reply to that is on its way to the server. -/
  | retryReply
  /-- The reply is on its way to the client. -/
  | reply
  deriving DecidableEq

/-- How far the server's `revoke` call has come. -/
inductive RevokeCall (C : Type)
  /-- On its way to the client. -/
  | request
  /-- The client's `release` call is on its way. -/
  | releasing (r : ReleaseCall C)
  /-- The reply is on its way to the server. -/
  | reply
  deriving DecidableEq

/-- Where a thread stands. -/
inductive Pc (C : Type)
  /-- Not in a call, and without the lock. -/
  | idle
  /-- In `acquire`, waiting for `lockCond`. -/
  | lockWait
  /-- Woken, and about to look at the state again. -/
  | lockWoken
  /-- The `acquire` call is on its way to the server. -/
  | acquireRequest
  /-- The server will answer `ret`, and calls `revoke` at `id` first. -/
  | revoke (ret : Status) (id : C) (v : RevokeCall C)
  /-- The answer `ret` is on its way. -/
  | acquireReply (ret : Status)
  /-- Waiting for `retryCond`. -/
  | retryWait
  /-- Woken, and about to look at `toRetry` again. -/
  | retryWoken
  /-- With the lock: `acquire` has returned and `release` has not been entered. -/
  | inside
  /-- In `release`, giving the lock back to the server. -/
  | release (r : ReleaseCall C)
  deriving DecidableEq

/-- A thread of a client. -/
abbrev Thread (C T : Type) := C × T

/-- One lock, at the server, at the clients and in flight. -/
structure State (C T : Type) where
  server : ServerInfo C
  clients : C → Option (ClientInfo T)
  threads : Thread C T → Pc C
  /-- An `assert` has failed. -/
  failed : Bool

variable {C T : Type}

/-- Nobody has asked for the lock. -/
def State.start : State C T where
  server := ⟨.free, none, []⟩
  clients := fun _ => none
  threads := fun _ => .idle
  failed := false

namespace State

/-- A client's `LockInfo`, the initial one before there is any. -/
def info (s : State C T) (c : C) : ClientInfo T := (s.clients c).getD .new

variable [DecidableEq C] [DecidableEq T]

/-! ## Parts of a step -/

/-- The thread `a` goes on to `pc`. -/
def goto (s : State C T) (a : Thread C T) (pc : Pc C) : State C T :=
  { s with threads := Function.update s.threads a pc }

/-- A client's `LockInfo` becomes `i`. -/
def setInfo (s : State C T) (c : C) (i : ClientInfo T) : State C T :=
  { s with clients := Function.update s.clients c (some i) }

/-- `pthread_cond_signal(&info->lockCond)` at client `c` wakes `w`, or nobody if nobody waits. -/
def signalLock (s : State C T) (c : C) : Option T → Option (State C T)
  | none => if (s.info c).lockCond = ∅ then some s else none
  | some t =>
    if t ∈ (s.info c).lockCond then
      some ((s.setInfo c { s.info c with lockCond := (s.info c).lockCond.erase t }).goto (c, t)
        .lockWoken)
    else none

/-- `pthread_cond_signal(&info->retryCond)`. -/
def signalRetry (s : State C T) (c : C) : Option T → Option (State C T)
  | none => if (s.info c).retryCond = ∅ then some s else none
  | some t =>
    if t ∈ (s.info c).retryCond then
      some ((s.setInfo c { s.info c with retryCond := (s.info c).retryCond.erase t }).goto (c, t)
        .retryWoken)
    else none

/-! ## `lock_client_cache` -/

/-- `acquire` looks at the state, when it is called and whenever `lockCond` has woken it. -/
def lockSection (s : State C T) (a : Thread C T) : State C T :=
  let i := s.info a.1
  match i.state with
  | .none => (s.setInfo a.1 { i with state := .acquiring }).goto a .acquireRequest
  | .free => (s.setInfo a.1 { i with state := .used }).goto a .inside
  | _ => (s.setInfo a.1 { i with lockCond := insert a.2 i.lockCond }).goto a .lockWait

/-- `acquire` looks at `toRetry`, when the server has answered `RETRY` and whenever `retryCond` has
woken it. -/
def retrySection (s : State C T) (a : Thread C T) : State C T :=
  let i := s.info a.1
  if i.toRetry then (s.setInfo a.1 { i with toRetry := false }).goto a .acquireRequest
  else (s.setInfo a.1 { i with retryCond := insert a.2 i.retryCond }).goto a .retryWait

/-- The server's answer to `acquire` arrives. -/
def acquired (s : State C T) (a : Thread C T) : Status → State C T
  | .ok => (s.setInfo a.1 { s.info a.1 with state := .used }).goto a .inside
  | .retry => s.retrySection a

/-- `release`. -/
def releaseSection (s : State C T) (a : Thread C T) (w : Option T) : Option (State C T) :=
  match s.clients a.1 with
  | none => some (s.goto a .idle)
  | some i =>
    if i.toRevoke ∨ i.state = .releasing then
      some ((s.setInfo a.1 { i with toRevoke := false }).goto a (.release .request))
    else if i.state = .used then
      ((s.setInfo a.1 { i with state := .free }).goto a .idle).signalLock a.1 w
    else (s.goto a .idle).signalLock a.1 w

/-- The reply to a `release` call of client `c` arrives, and its thread goes on to `pc`. -/
def released (s : State C T) (c : C) (w : Option T) (a : Thread C T) (pc : Pc C) :
    Option (State C T) :=
  ((s.setInfo c { s.info c with state := .none }).goto a pc).signalLock c w

/-- `revoke_handler` at client `id`. -/
def revokeHandler (s : State C T) (a : Thread C T) (ret : Status) (id : C) : State C T :=
  match s.clients id with
  | none => s.goto a (.revoke ret id .reply)
  | some i =>
    match i.state with
    | .free =>
      (s.setInfo id { i with state := .releasing }).goto a (.revoke ret id (.releasing .request))
    | .used => (s.setInfo id { i with state := .releasing }).goto a (.revoke ret id .reply)
    | _ => (s.setInfo id { i with toRevoke := true }).goto a (.revoke ret id .reply)

/-- `retry_handler` at client `id`, after which the call is at `pc`. -/
def retryHandler (s : State C T) (a : Thread C T) (id : C) (pc : Pc C) (w : Option T) :
    Option (State C T) :=
  match s.clients id with
  | none => some { s with failed := true }
  | some i => ((s.setInfo id { i with toRetry := true }).goto a pc).signalRetry id w

/-! ## `lock_server_cache` -/

/-- The server will answer `ret`, and calls `revoke` at the client that has the lock first. -/
def callRevoke (s : State C T) (a : Thread C T) (ret : Status) : State C T :=
  match s.server.acquiredId with
  | none => { s with failed := true }
  | some id => s.goto a (.revoke ret id .request)

/-- `lock_server_cache::acquire`, called by thread `a`. -/
def acquireHandler (s : State C T) (a : Thread C T) : State C T :=
  let i := s.server
  match i.state with
  | .free => { s with server := ⟨.used, some a.1, i.waitingIds⟩ }.goto a (.acquireReply .ok)
  | .used =>
    { s with server := ⟨.toRevoke, i.acquiredId, i.waitingIds ++ [a.1]⟩ }.callRevoke a .retry
  | .toRevoke =>
    if i.waitingIds.head? = some a.1 then
      if i.waitingIds.tail = [] then
        { s with server := ⟨.used, some a.1, []⟩ }.goto a (.acquireReply .ok)
      else { s with server := ⟨.toRevoke, some a.1, i.waitingIds.tail⟩ }.callRevoke a .ok
    else
      { s with server := ⟨.toRevoke, i.acquiredId, i.waitingIds ++ [a.1]⟩ }.goto a
        (.acquireReply .retry)

/-- `lock_server_cache::release`, by a call whose points are `pc`. -/
def releaseHandler (s : State C T) (a : Thread C T) (pc : ReleaseCall C → Pc C) : State C T :=
  let i := s.server
  match i.state with
  | .free => s.goto a (pc .reply)
  | .used => { s with server := ⟨.free, none, i.waitingIds⟩ }.goto a (pc .reply)
  | .toRevoke =>
    match i.waitingIds.head? with
    | none => { s with failed := true }
    | some id => { s with server := ⟨.toRevoke, none, i.waitingIds⟩ }.goto a (pc (.retry id))

/-! ## What happens next on a chain of calls -/

/-- A `release` call of client `c` goes on; its points are `pc`, and `done` is what comes after it.
-/
def resumeRelease (s : State C T) (a : Thread C T) (c : C) (pc : ReleaseCall C → Pc C)
    (done : Pc C) (w : Option T) : ReleaseCall C → Option (State C T)
  | .request => some (s.releaseHandler a pc)
  | .retry id => s.retryHandler a id (pc .retryReply) w
  | .retryReply => some (s.goto a (pc .reply))
  | .reply => s.released c w a done

/-- The next section on the chain of calls made for thread `a`. -/
def resume (s : State C T) (a : Thread C T) (w : Option T) : Option (State C T) :=
  match s.threads a with
  | .idle | .lockWait | .retryWait | .inside => none
  | .lockWoken => some (s.lockSection a)
  | .acquireRequest => some (s.acquireHandler a)
  | .revoke ret id .request => some (s.revokeHandler a ret id)
  | .revoke ret id (.releasing r) =>
    s.resumeRelease a id (fun r => .revoke ret id (.releasing r)) (.revoke ret id .reply) w r
  | .revoke ret _ .reply => some (s.goto a (.acquireReply ret))
  | .acquireReply ret => some (s.acquired a ret)
  | .retryWoken => some (s.retrySection a)
  | .release r => s.resumeRelease a a.1 .release .idle w r

/-- A thread that waits wakes up without having been signalled. -/
def wake (s : State C T) (a : Thread C T) : Option (State C T) :=
  let i := s.info a.1
  match s.threads a with
  | .lockWait =>
    some ((s.setInfo a.1 { i with lockCond := i.lockCond.erase a.2 }).goto a .lockWoken)
  | .retryWait =>
    some ((s.setInfo a.1 { i with retryCond := i.retryCond.erase a.2 }).goto a .retryWoken)
  | _ => none

end State

/-! ## The machine -/

/-- What the scheduler may do next; `w` is whom a signal wakes, if the section has one. -/
inductive Action (C T : Type)
  /-- A thread without the lock calls `acquire`. -/
  | acquire (a : Thread C T)
  /-- A thread with the lock calls `release`. -/
  | release (a : Thread C T) (w : Option T)
  | resume (a : Thread C T) (w : Option T)
  | wake (a : Thread C T)
  deriving DecidableEq

/-- One action. -/
def step [DecidableEq C] [DecidableEq T] (s : State C T) : Action C T → Option (State C T)
  | .acquire a => if s.failed = false ∧ s.threads a = .idle then some (s.lockSection a) else none
  | .release a w =>
    if s.failed = false ∧ s.threads a = .inside then s.releaseSection a w else none
  | .resume a w => if s.failed = false then s.resume a w else none
  | .wake a => if s.failed = false then s.wake a else none

end LockCache
end CseLab
