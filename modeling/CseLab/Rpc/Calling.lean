import CseLab.Lib.Cond
import CseLab.Lib.Refcount
import CseLab.Rpc.Call

/-!
# The threads of a client

Any number of threads call through one `rpcc`, which has one connection at a time: each takes a
reference to it, sends its request, and waits for the reply or a deadline; if the connection has
died by then it sends once more on the next.  The poll thread brings the replies, and `cancel` makes
all calls fail that are under way and waits until they are gone.

`call1` is cut where it locks and unlocks, and `connection::send` in two where it may sleep: until
the peer has taken what is sent, or the connection has died.  Time does not pass: a deadline may be
over at any time, and which is the last one is told when it is set.
-/

set_option autoImplicit false

namespace CseLab
namespace Rpc

/-- `rpc_const::timeout_failure`. -/
def timeoutFailure : ℤ := -1

/-- `rpc_const::cancel_failure`. -/
def cancelFailure : ℤ := -7

/-- What a client makes of a `connection`. -/
structure Chan where
  refno : ℕ
  dead : Bool
  /-- It has been deleted. -/
  freed : Bool

/-- Where a call is in `call1`; `final` is that its last deadline is set. -/
inductive Stage
  /-- About to get the connection. -/
  | connecting (final : Bool)
  | sending (final : Bool)
  /-- In `connection::send`, its bytes not all taken. -/
  | writing (final : Bool)
  /-- About to set the next deadline and to look whether it is done. -/
  | deciding (final : Bool)
  /-- In `pthread_cond_timedwait`. -/
  | asleep (final : Bool)
  /-- It has been woken and is about to look again. -/
  | woken (final : Bool)
  /-- The deadline is over. -/
  | expired (final : Bool)
  /-- About to leave `calls_`. -/
  | leaving
  /-- About to return, with what is in `ca`. -/
  | left (ca : Caller)

/-- `pthread_cond_signal` and `pthread_cond_broadcast` on `ca.c`, on which only its own thread
waits. -/
def Stage.wake : Stage → Stage
  | .asleep final => .woken final
  | stage => stage

structure Thread where
  xid : ℕ
  ch : Option ℕ
  stage : Stage

def Thread.wake (t : Thread) : Thread := { t with stage := t.stage.wake }

inductive ClientFault
  /-- A connection is touched that has been deleted. -/
  | freed
  /-- `VERIFY(refno_>=0)`. -/
  | negative
  /-- `VERIFY(calls_.size() == 0)`. -/
  | outstanding
  deriving DecidableEq

/-- `rpcc` with the threads in it. -/
structure Client where
  retrans : Bool
  rpcc : Rpcc
  destroy_wait : Bool
  destroy_wait_c : Cond ℕ
  chan : Option ℕ
  conn : ℕ → Chan
  /-- How many connections there have been. -/
  next : ℕ
  threads : List Thread
  /-- `~rpcc` has run. -/
  destroyed : Bool
  /-- For the record: what each call has returned. -/
  returned : List (ℕ × ℤ)
  /-- For the record: the replies that have come to a call in `calls_`. -/
  received : List (ℕ × ℤ)
  /-- For the record: the calls that `cancel` has made fail. -/
  cancelled : List ℕ
  fault : Option ClientFault

namespace Client

def new (retrans : Bool) : Client :=
  { retrans := retrans, rpcc := .start, destroy_wait := false, destroy_wait_c := .init,
    chan := none, conn := fun _ => ⟨0, true, true⟩, next := 0, threads := [], destroyed := false,
    returned := [], received := [], cancelled := [], fault := none }

/-! ## The connection -/

def use (s : Client) (c : ℕ) : Except ClientFault Chan :=
  if (s.conn c).freed = true then .error .freed else .ok (s.conn c)

def setConn (s : Client) (c : ℕ) (conn : Chan) : Client :=
  { s with conn := Function.update s.conn c conn }

/-- `connection::closeconn`. -/
def closeconn (s : Client) (c : ℕ) : Except ClientFault Client := do
  let conn ← s.use c
  return s.setConn c { conn with dead := true }

/-- `connection::incref`. -/
def incref (s : Client) (c : ℕ) : Except ClientFault Client := do
  let conn ← s.use c
  return s.setConn c { conn with refno := conn.refno + 1 }

/-- `connection::decref`. -/
def decref (s : Client) (c : ℕ) : Except ClientFault Client := do
  let conn ← s.use c
  if conn.refno = 0 then throw .negative
  return s.setConn c { conn with
    refno := conn.refno - 1
    freed := conn.refno - 1 = 0 && conn.dead }

/-- A call gives up the connection it has, if it has one. -/
def giveUp (s : Client) : Option ℕ → Except ClientFault Client
  | none => return s
  | some c => s.decref c

/-- `chan_ = connect_to_dst(..)`, which may fail. -/
def connectToDst (s : Client) (succ : Bool) : Client :=
  if succ = true then
    { s with conn := Function.update s.conn s.next ⟨1, false, false⟩, next := s.next + 1,
             chan := some s.next }
  else { s with chan := none }

/-- The first half of `get_refconn`: a new connection if there is none or it is dead. -/
def renew (s : Client) (succ : Bool) : Except ClientFault Client :=
  match s.chan with
  | none => return s.connectToDst succ
  | some c => do
    let conn ← s.use c
    if conn.dead = true then
      let s ← s.decref c
      return s.connectToDst succ
    else return s

/-- The second half: what `*ch` was is given up for the connection, if there is one. -/
def swap (s : Client) (ch : Option ℕ) : Except ClientFault (Option ℕ × Client) :=
  match s.chan with
  | none => return (ch, s)
  | some c => do
    let s ← s.giveUp ch
    let s ← s.incref c
    return (some c, s)

/-! ## `call1` -/

/-- A thread that was taken out goes back. -/
def goto (s : Client) (t : Thread) (stage : Stage) : Client :=
  { s with threads := { t with stage := stage } :: s.threads }

/-- The call is done. -/
def isDone (s : Client) (xid : ℕ) : Bool := (s.rpcc.calls xid).any fun ca => ca.intret.isSome

/-- `calls_.size() > 0`; the keys are below `xid_`. -/
def outstanding (s : Client) : Bool :=
  (List.range s.rpcc.xid).any fun xid => (s.rpcc.calls xid).isSome

/-- The beginning; where the call is refused nothing changes. -/
def enter (s : Client) (bind : Bool) : Client :=
  if bind = s.rpcc.bind_done then s
  else if s.destroy_wait = true then s
  else { s with
    rpcc := s.rpcc.enter bind
    threads := ⟨s.rpcc.xid, none, .connecting false⟩ :: s.threads }

/-- `get_refconn`. -/
def connect (s : Client) (t : Thread) (final succ : Bool) : Except ClientFault Client := do
  let s ← s.renew succ
  let (ch, s) ← s.swap t.ch
  return s.goto { t with ch := ch } (.sending final)

/-- `ch->send`, which comes back at once if the connection is dead. -/
def send (s : Client) (t : Thread) (final : Bool) : Except ClientFault Client :=
  match t.ch with
  | none => return s.goto t (.deciding final)
  | some c => do
    let conn ← s.use c
    return s.goto t (if conn.dead = true then .deciding final else .writing final)

/-- `ch->send` comes back. -/
def sent (s : Client) (t : Thread) (final : Bool) : Except ClientFault Client :=
  match t.ch with
  | none => return s.goto t (.deciding final)
  | some c => do
    let _ ← s.use c
    return s.goto t (.deciding final)

/-- The connection of a call has died. -/
def broken (s : Client) (t : Thread) : Bool := t.ch.all fun c => (s.conn c).dead

/-- The loop ends after the last deadline, or the next is set, which may be the last. -/
def sleep (s : Client) (t : Thread) (final last : Bool) : Client :=
  if final = true ∨ s.isDone t.xid = true then s.goto t .leaving else s.goto t (.asleep last)

/-- Look again after `pthread_cond_timedwait`, which has timed out or not. -/
def wakeUp (s : Client) (t : Thread) (final timeout : Bool) : Client :=
  if s.isDone t.xid = true then s.goto t .leaving
  else s.goto t (if timeout = true then .expired final else .asleep final)

/-- Once more on a new connection if this one is dead. -/
def retry (s : Client) (t : Thread) (final : Bool) : Except ClientFault Client :=
  if s.retrans = false then return s.goto t (.deciding final)
  else
    match t.ch with
    | none => return s.goto t (.connecting final)
    | some c => do
      let conn ← s.use c
      return s.goto t (if conn.dead = true then .connecting final else .deciding final)

/-- The call leaves `calls_`; `i` is whom the signal wakes. -/
def leave (s : Client) (t : Thread) (i : ℕ) : Option Client :=
  (s.rpcc.calls t.xid).bind fun ca =>
    (if s.destroy_wait = true then s.destroy_wait_c.signal i else some s.destroy_wait_c).map
      fun c => ({ s with
        rpcc := { s.rpcc with
          calls := Function.update s.rpcc.calls t.xid none
          xid_rep_window := updateXidRep t.xid s.rpcc.xid_rep_window }
        destroy_wait_c := c }).goto t (.left ca)

/-- The call returns; `bind` remembers that it has succeeded. -/
def ret (s : Client) (t : Thread) (ca : Caller) : Except ClientFault Client := do
  let s ← s.giveUp t.ch
  return { s with
    returned := s.returned ++ [(t.xid, ca.intret.getD timeoutFailure)]
    rpcc := { s.rpcc with bind_done := s.rpcc.bind_done || ca.bind && ca.intret == some 0 } }

/-! ## The other threads -/

/-- `rpcc::got_pdu`. -/
def gotPdu (s : Client) (xid : ℕ) (ret : ℤ) : Client :=
  { s with
    rpcc := s.rpcc.gotPdu xid ret
    threads := s.threads.map fun t => if t.xid = xid then t.wake else t
    received := if (s.rpcc.calls xid).isSome = true then s.received ++ [(xid, ret)]
      else s.received }

/-- The loop of `rpcc::cancel` over `calls_`. -/
def failAll (s : Client) : Client :=
  { s with
    rpcc := { s.rpcc with calls := fun xid =>
      (s.rpcc.calls xid).map fun ca => { ca with intret := some cancelFailure } }
    threads := s.threads.map Thread.wake
    cancelled :=
      ((List.range s.rpcc.xid).filter fun xid => (s.rpcc.calls xid).isSome) ++ s.cancelled }

/-- Its second loop: the thread `n` waits while there are calls, and returns when there are none. -/
def await (s : Client) (n : ℕ) : Client :=
  if s.outstanding = true then
    { s with destroy_wait := true, destroy_wait_c := s.destroy_wait_c.wait n }
  else s

/-- `chan_` is closed and given up. -/
def hangUp (s : Client) : Except ClientFault Client :=
  match s.chan with
  | none => return s
  | some c => do
    let s ← s.closeconn c
    s.decref c

/-- `~rpcc`. -/
def destroy (s : Client) : Except ClientFault Client := do
  let s ← s.hangUp
  if s.outstanding = true then throw .outstanding
  return { s with chan := none, destroyed := true }

/-! ## Steps -/

inductive Step
  | call1 (bind : Bool)
  /-- `get_refconn` by the `j`-th thread. -/
  | connect (j : ℕ) (succ : Bool)
  | send (j : ℕ)
  /-- The peer has taken all that the `j`-th thread sends. -/
  | sent (j : ℕ)
  /-- The `j`-th thread finds its connection dead in `connection::send`. -/
  | unsent (j : ℕ)
  | sleep (j : ℕ) (last : Bool)
  /-- `ca.c` wakes up for no reason. -/
  | spurious (j : ℕ)
  | wakeUp (j : ℕ)
  /-- `pthread_cond_timedwait` times out. -/
  | timeout (j : ℕ)
  | retry (j : ℕ)
  | leave (j i : ℕ)
  | ret (j : ℕ)
  | gotPdu (xid : ℕ) (ret : ℤ)
  | cancel (n : ℕ)
  /-- `destroy_wait_c_` wakes up for no reason. -/
  | wake (i : ℕ)
  /-- `cancel` goes on. -/
  | resume (i : ℕ)
  /-- Reading from a connection fails, or writing to it. -/
  | die (c : ℕ)
  | destroy

/-- A step of the `j`-th thread. -/
def runThread (s : Client) (t : Thread) : Stage → Step → Option (Except ClientFault Client)
  | .connecting final, .connect _ succ => some (s.connect t final succ)
  | .sending final, .send _ => some (s.send t final)
  | .writing final, .sent _ => some (s.sent t final)
  | .writing final, .unsent _ => if s.broken t = true then some (s.sent t final) else none
  | .deciding final, .sleep _ last => some (.ok (s.sleep t final last))
  | .asleep final, .spurious _ => some (.ok (s.goto t (.woken final)))
  | .asleep final, .timeout _ => some (.ok (s.wakeUp t final true))
  | .woken final, .wakeUp _ => some (.ok (s.wakeUp t final false))
  | .expired final, .retry _ => some (s.retry t final)
  | .leaving, .leave _ i => (s.leave t i).map .ok
  | .left ca, .ret _ => some (s.ret t ca)
  | _, _ => none

/-- Whose step it is. -/
def Step.thread : Step → Option ℕ
  | .connect j _ => some j
  | .send j => some j
  | .sent j => some j
  | .unsent j => some j
  | .sleep j _ => some j
  | .spurious j => some j
  | .wakeUp j => some j
  | .timeout j => some j
  | .retry j => some j
  | .leave j _ => some j
  | .ret j => some j
  | _ => none

def run (s : Client) (a : Step) : Option (Except ClientFault Client) :=
  match a with
  | .call1 bind => some (.ok (s.enter bind))
  | .gotPdu xid ret => some (.ok (s.gotPdu xid ret))
  | .cancel n => some (.ok (s.failAll.await n))
  | .wake i => (s.destroy_wait_c.wake i).map fun c => .ok { s with destroy_wait_c := c }
  | .resume i =>
    (s.destroy_wait_c.resume i).map fun (n, c) => .ok ({ s with destroy_wait_c := c }.await n)
  | .die c => some (.ok (s.setConn c { s.conn c with dead := true }))
  | .destroy => some s.destroy
  | a => a.thread.bind fun j => (pick s.threads j).bind fun (t, threads) =>
    ({ s with threads := threads }).runThread t t.stage a

def step (s : Client) (a : Step) : Option Client :=
  match s.fault with
  | some _ => none
  | none =>
    if s.destroyed = true then none
    else (s.run a).map fun
      | .ok s' => s'
      | .error f => { s with fault := some f }

/-- What the users of an `rpcc` are asked for: that they delete it when no thread is in it. -/
def Proper (s : Client) : Step → Prop
  | .destroy => s.threads.isEmpty = true ∧ s.destroy_wait_c.waiters.isEmpty = true
  | _ => True

instance (s : Client) (a : Step) : Decidable (s.Proper a) := by
  cases a <;> unfold Proper <;> infer_instance

/-- Nobody cancels while another waits for it. -/
def OneCancel (s : Client) : Step → Prop
  | .cancel _ => s.destroy_wait_c.waiters.isEmpty = true
  | a => s.Proper a

instance (s : Client) (a : Step) : Decidable (s.OneCancel a) := by
  cases a with
  | cancel n => exact instDecidableEqBool s.destroy_wait_c.waiters.isEmpty true
  | destroy => exact inferInstanceAs (Decidable (s.Proper .destroy))
  | call1 | connect | send | sent | unsent | sleep | spurious | wakeUp | timeout | retry | leave
    | ret | gotPdu | wake | resume | die => exact .isTrue trivial

/-- Nobody wakes up for no reason. -/
def NoWake (_ : Client) : Step → Prop
  | .wake _ => False
  | _ => True

instance (s : Client) (a : Step) : Decidable (s.NoWake a) := by
  cases a with
  | wake i => exact .isFalse id
  | call1 | connect | send | sent | unsent | sleep | spurious | wakeUp | timeout | retry | leave
    | ret | gotPdu | cancel | resume | die | destroy => exact .isTrue trivial

end Client

end Rpc
end CseLab
