import CseLab.Lib.OrdMap
import CseLab.Lib.Run
import CseLab.Lib.Search
import CseLab.Ydb.Log
import Mathlib.Data.Nat.Basic

/-!
# The two-phase-locking server, one lock call at a time

`ydb_server_2pl` gives every transaction a `TContent`, the values of the extents it has locked.  The
first access to an extent takes the extent's lock (`checkAcquire`), a commit writes what has been
written to the store, and a commit or an abort gives all the locks back (`finishT`).  Two more locks
protect the server's own tables: `tMapLockId` the map of transactions, `lockInfosLockId` the array
`lockInfos`, which says for every extent's lock who owns it and who waits for it.  From that array
`hasPath` works out whether waiting would close a circle of waits, in which case the requester is
aborted.

A transaction that waits for a lock is a *follower*.  When `finishT` finds followers it keeps
`lockInfosLockId` and gives only the extent's lock back; the follower that gets it goes on with
`lockInfosLockId` held and gives that back itself.

Every `lc->acquire`, `lc->release` and store call is one step of the model, and so is the code
between two of them that works on `lockInfos`.  `Pc` is where a call stands.  `locks` says of every
lock on whose behalf it is held; the lock server itself knows only whether it is free.  A failed
`VERIFY` or `assert`, or a `hasPath` that does not return, kills the server: `dead`.

Calls of one transaction come one after another, transaction ids start at 1.
-/

set_option autoImplicit false

namespace CseLab
namespace Ydb
namespace TwoPL

/-- `ydb_server_2pl::lockInfosLockId`. -/
def lockInfosLockId : LockId := maxKey + 1

/-! ## Tables -/

/-- `TValueStatus`. -/
inductive TValueStatus
  | read
  | write
  deriving DecidableEq

/-- What a transaction has of an extent it has locked. -/
structure TValue where
  value : Bytes
  status : TValueStatus
  deriving DecidableEq

/-- `TContent`. -/
abbrev TContent := OrdMap ExtentId TValue

/-- `LockInfo`: `none` stands for the end iterator, and the list of followers has the latest one in
front. -/
structure LockInfo where
  owner : Option TransactionId
  followers : List TransactionId
  deriving DecidableEq

/-- The calls that access an extent. -/
inductive Op
  | get (key : Bytes)
  | set (key value : Bytes)
  | del (key : Bytes)
  deriving DecidableEq

namespace Op

def call : Op → Call
  | .get key => .get key
  | .set key value => .set key value
  | .del key => .del key

/-- The extent, whose lock has the same number. -/
def eid : Op → ExtentId
  | .get key | .set key _ | .del key => hash key

/-- What `write` is called with; a `get` writes nothing. -/
def written : Op → Option Bytes
  | .get _ => none
  | .set _ value => some value
  | .del _ => some []

/-- What the access did when it returned `out`. -/
def done (op : Op) (out : Bytes) : Serial.Done ExtentId Bytes :=
  match op.written with
  | none => .get op.eid out
  | some value => .put op.eid value

@[simp] theorem done_call (op : Op) (out : Bytes) : op.call.done out = some (op.done out) := by
  cases op <;> rfl

theorem eid_lt (op : Op) : op.eid < maxKey := by
  cases op <;> exact hash_lt _

end Op

/-- Why `finishT` is run. -/
inductive Why
  | commit
  | abort
  /-- For the requester of a lock whose wait would close a circle. -/
  | victim (op : Op)
  deriving DecidableEq

/-- The call that ends with it. -/
def Why.call : Why → Call
  | .commit => .transactionCommit
  | .abort => .transactionAbort
  | .victim op => op.call

/-- What that call returns. -/
def Why.status : Why → Status
  | .commit | .abort => .ok
  | .victim _ => .abort

/-! ## Program points -/

/-- What a call does next. -/
inductive Pc
  /-- Every call: acquire `tMapLockId`. -/
  | findAcq (c : Call)
  /-- Look the transaction up and release it. -/
  | findRel (c : Call)
  /-- `checkAcquire`: acquire `lockInfosLockId`. -/
  | infoAcq (op : Op)
  /-- Look at the owner. -/
  | infoCode (op : Op)
  /-- There is one: release `lockInfosLockId`. -/
  | infoRelF (op : Op)
  /-- Acquire the extent's lock, as a follower. -/
  | dataAcqF (op : Op)
  /-- Become owner instead of follower. -/
  | followCode (op : Op)
  /-- Release `lockInfosLockId`. -/
  | followRel (op : Op)
  /-- There was none: release `lockInfosLockId`. -/
  | infoRelO (op : Op)
  /-- Acquire the extent's lock, as its recorded owner. -/
  | dataAcqO (op : Op)
  /-- `get`: read the store. -/
  | fetch (key : Bytes)
  /-- Acquire `tMapLockId`. -/
  | insAcq (op : Op) (e : TValue)
  /-- Enter the value and release it. -/
  | insRel (op : Op) (e : TValue)
  /-- `transaction_commit`: the entries the loop has not come to yet. -/
  | put (rem : List (ExtentId × TValue))
  /-- `finishT`, at lock `lid` and with `rem` to follow: acquire `lockInfosLockId`. -/
  | finAcq (w : Why) (lid : LockId) (rem : List LockId)
  /-- Clear the owner and look for followers. -/
  | finCode (w : Why) (lid : LockId) (rem : List LockId)
  /-- There are none: release `lockInfosLockId`. -/
  | finInfoRel (w : Why) (lid : LockId) (rem : List LockId)
  /-- Release `lid`. -/
  | finDataRel (w : Why) (lid : LockId) (rem : List LockId)
  /-- Acquire `tMapLockId`. -/
  | eraseAcq (w : Why)
  /-- Erase the transaction and release it. -/
  | eraseRel (w : Why)
  deriving DecidableEq

/-- On whose behalf a lock is held. -/
inductive Holder
  | thread (id : TransactionId)
  /-- `lockInfosLockId` only: the follower that gets this lock next. -/
  | heir (lid : LockId)
  deriving DecidableEq

/-- The server, the lock server and the store behind it, the calls in progress and the log. -/
structure State where
  nextTransactionId : TransactionId
  tMap : TransactionId → Option TContent
  lockInfos : LockId → LockInfo
  locks : LockId → Option Holder
  store : IdealStore
  calls : TransactionId → Option Pc
  dead : Bool
  log : List Event

/-- A new server. -/
def State.start : State where
  nextTransactionId := 1
  tMap := fun _ => none
  lockInfos := fun _ => ⟨none, []⟩
  locks := fun _ => none
  store := IdealStore.fresh
  calls := fun _ => none
  dead := false
  log := []

namespace State

/-! ## Parts of a step -/

/-- The call `c` of transaction `id` returns. -/
def reply (s : State) (id : TransactionId) (c : Call) (ret : Status) (out : Bytes) : State :=
  { s with
    calls := Function.update s.calls id none
    log := s.log ++ [.returned id c ret out] }

/-- The call of transaction `id` goes on to `pc`. -/
def goto (s : State) (id : TransactionId) (pc : Pc) : State :=
  { s with calls := Function.update s.calls id (some pc) }

/-- The contents of transaction `id` become `m`. -/
def setContent (s : State) (id : TransactionId) (m : TContent) : State :=
  { s with tMap := Function.update s.tMap id (some m) }

/-- `lc->acquire(lid)` returns, to `id`; it blocks while the lock is held. -/
def acquire (s : State) (id : TransactionId) (lid : LockId) : Option State :=
  match s.locks lid with
  | none => some { s with locks := Function.update s.locks lid (some (.thread id)) }
  | some _ => none

/-- `lc->release(lid)`: the lock server refuses when the lock is free, and `VERIFY` fails. -/
def release (s : State) (lid : LockId) : State :=
  match s.locks lid with
  | none => { s with dead := true }
  | some _ => { s with locks := Function.update s.locks lid none }

/-- `lockInfos[lid]` becomes `li`. -/
def setInfo (s : State) (lid : LockId) (li : LockInfo) : State :=
  { s with lockInfos := Function.update s.lockInfos lid li }

/-- If `lockInfosLockId` is held on behalf of `h`, it is held on behalf of `h'` from now on. -/
def handOver (s : State) (h h' : Holder) : State :=
  if s.locks lockInfosLockId = some h then
    { s with locks := Function.update s.locks lockInfosLockId (some h') }
  else s

/-! ## `ydb_server_2pl` -/

/-- The transactions `hasPath` goes on to from `t`: the followers of the locks `t` has. -/
def waitersOf (s : State) (t : TransactionId) : List TransactionId :=
  match s.tMap t with
  | none => []
  | some m => m.keys.flatMap fun lid => (s.lockInfos lid).followers

/-- `ydb_server_2pl::hasPath`, at most `fuel` deep. -/
def hasPath (s : State) (fuel : ℕ) (start stop : TransactionId) : Option Bool :=
  search s.waitersOf (fun t => decide (t = stop)) fuel start

/-- `begin`, as one step: nothing it does is seen before it releases `tMapLockId`. -/
def begin (s : State) : Option State :=
  if s.dead = false ∧ s.locks tMapLockId = none ∧ s.nextTransactionId < intMax then
    some { s with
      nextTransactionId := s.nextTransactionId + 1
      tMap := Function.update s.tMap s.nextTransactionId
        (some ((s.tMap s.nextTransactionId).getD OrdMap.empty)) }
  else none

/-- A call arrives. -/
def call (s : State) (id : TransactionId) (c : Call) : Option State :=
  if s.dead = false ∧ s.calls id = none then some (s.goto id (.findAcq c)) else none

/-- `finishT` comes to the locks `lids`. -/
def finishT (s : State) (id : TransactionId) (w : Why) : List LockId → State
  | [] => s.goto id (.eraseAcq w)
  | lid :: rem => s.goto id (.finAcq w lid rem)

/-- `finishT` with `hasLock`: the first round finds `lockInfosLockId` held. -/
def finishTHasLock (s : State) (id : TransactionId) (w : Why) : List LockId → State
  | [] => s.goto id (.eraseAcq w)
  | lid :: rem => s.goto id (.finCode w lid rem)

/-- `get` and `write`, once the transaction has been found. -/
def access (s : State) (id : TransactionId) (m : TContent) (op : Op) : State :=
  match m.find op.eid, op.written with
  | none, _ => s.goto id (.infoAcq op)
  | some e, none => s.reply id op.call .ok e.value
  | some _, some value =>
    (s.setContent id (m.set op.eid ⟨value, .write⟩)).reply id op.call .ok []

/-- A call goes on with its transaction, whose contents are `m`. -/
def found (s : State) (id : TransactionId) (m : TContent) : Call → State
  | .get key => s.access id m (.get key)
  | .set key value => s.access id m (.set key value)
  | .del key => s.access id m (.del key)
  | .transactionCommit => { s.goto id (.put m.entries) with log := s.log ++ [.committed id] }
  | .transactionAbort => s.finishT id .abort m.keys

/-- The part of `checkAcquire` that looks at the owner. -/
def checkOwner (s : State) (id : TransactionId) (m : TContent) (op : Op) : State :=
  let li := s.lockInfos op.eid
  match li.owner with
  | none => (s.setInfo op.eid { li with owner := some id }).goto id (.infoRelO op)
  | some owner =>
    match s.hasPath s.nextTransactionId.toNat id owner with
    | none => { s with dead := true }
    | some true => s.finishTHasLock id (.victim op) m.keys
    | some false =>
      (s.setInfo op.eid { li with followers := id :: li.followers }).goto id (.infoRelF op)

/-- `get` and `write` go on with the extent's lock in hand. -/
def locked (s : State) (id : TransactionId) : Op → State
  | .get key => s.goto id (.fetch key)
  | .set key value => s.goto id (.insAcq (.set key value) ⟨value, .write⟩)
  | .del key => s.goto id (.insAcq (.del key) ⟨[], .write⟩)

/-- One round of the loop of `transaction_commit`. -/
def putEntry (store : IdealStore) (p : ExtentId × TValue) : IdealStore :=
  match p.2.status with
  | .read => store
  | .write => if p.2.value.length ≠ 0 then store.put p.1 p.2.value else store.remove p.1

/-- The next step of a call at `pc` whose transaction has the contents `m`. -/
def resumeAt (s : State) (id : TransactionId) (m : TContent) : Pc → Option State
  | .findAcq c => (s.acquire id tMapLockId).map fun s => s.goto id (.findRel c)
  | .findRel c => some ((s.release tMapLockId).found id m c)
  | .infoAcq op => (s.acquire id lockInfosLockId).map fun s => s.goto id (.infoCode op)
  | .infoCode op => some (s.checkOwner id m op)
  | .infoRelF op => some ((s.release lockInfosLockId).goto id (.dataAcqF op))
  | .dataAcqF op => (s.acquire id op.eid).map fun s =>
      (s.handOver (.heir op.eid) (.thread id)).goto id (.followCode op)
  | .followCode op =>
    let li := s.lockInfos op.eid
    if id ∈ li.followers then
      some ((s.setInfo op.eid ⟨some id, li.followers.erase id⟩).goto id (.followRel op))
    else some { s with dead := true }
  | .followRel op => some ((s.release lockInfosLockId).locked id op)
  | .infoRelO op => some ((s.release lockInfosLockId).goto id (.dataAcqO op))
  | .dataAcqO op => (s.acquire id op.eid).map fun s => s.locked id op
  | .fetch key => some (s.goto id (.insAcq (.get key) ⟨s.store (hash key), .read⟩))
  | .insAcq op e => (s.acquire id tMapLockId).map fun s => s.goto id (.insRel op e)
  | .insRel op e => some (((s.setContent id (m.insert op.eid e)).release tMapLockId).reply id
      op.call .ok (if op.written = none then e.value else []))
  | .put [] => some (s.finishT id .commit m.keys)
  | .put (p :: rem) => some { s.goto id (.put rem) with store := putEntry s.store p }
  | .finAcq w lid rem =>
    (s.acquire id lockInfosLockId).map fun s => s.goto id (.finCode w lid rem)
  | .finCode w lid rem =>
    let li := s.lockInfos lid
    let s' := s.setInfo lid { li with owner := none }
    if li.followers = [] then some (s'.goto id (.finInfoRel w lid rem))
    else some ((s'.handOver (.thread id) (.heir lid)).goto id (.finDataRel w lid rem))
  | .finInfoRel w lid rem => some ((s.release lockInfosLockId).goto id (.finDataRel w lid rem))
  | .finDataRel w lid rem => some ((s.release lid).finishT id w rem)
  | .eraseAcq w => (s.acquire id tMapLockId).map fun s => s.goto id (.eraseRel w)
  | .eraseRel w => some (({ s with tMap := Function.update s.tMap id none }.release
      tMapLockId).reply id w.call w.status [])

/-- A call of a transaction that is not in `tMap`. -/
def resumeUnknown (s : State) (id : TransactionId) : Pc → Option State
  | .findAcq c => (s.acquire id tMapLockId).map fun s => s.goto id (.findRel c)
  | .findRel c => some ((s.release tMapLockId).reply id c .transidinv [])
  | _ => none

/-- The next step of the call transaction `id` has in progress. -/
def resume (s : State) (id : TransactionId) : Option State :=
  match s.dead, s.calls id, s.tMap id with
  | true, _, _ => none
  | false, none, _ => none
  | false, some pc, none => s.resumeUnknown id pc
  | false, some pc, some m => s.resumeAt id m pc

/-! ## What a step leaves alone -/

theorem acquire_cases {s s' : State} {id : TransactionId} {lid : LockId}
    (h : s.acquire id lid = some s') : s.locks lid = none ∧
      s' = { s with locks := Function.update s.locks lid (some (.thread id)) } := by
  rw [acquire] at h
  split at h
  · rename_i hfree
    rw [Option.some_inj] at h
    exact ⟨hfree, h.symm⟩
  · exact absurd h (by simp)

/-- The counter and the store are what they were. -/
structure Frame (s s' : State) : Prop where
  next : s'.nextTransactionId = s.nextTransactionId
  store : s'.store = s.store

namespace Frame

variable {s s' s₁ : State} {id : TransactionId} {m : TContent} {pc : Pc}

theorem trans (h : Frame s s₁) (h' : Frame s₁ s') : Frame s s' :=
  ⟨h'.next.trans h.next, h'.store.trans h.store⟩

theorem goto (s : State) (id : TransactionId) (pc : Pc) : Frame s (s.goto id pc) := ⟨rfl, rfl⟩

theorem reply (s : State) (id : TransactionId) (c : Call) (ret : Status) (out : Bytes) :
    Frame s (s.reply id c ret out) :=
  ⟨rfl, rfl⟩

theorem release (s : State) (lid : LockId) : Frame s (s.release lid) := by
  rw [State.release]
  split <;> exact ⟨rfl, rfl⟩

theorem handOver (s : State) (h h' : Holder) : Frame s (s.handOver h h') := by
  rw [State.handOver]
  split <;> exact ⟨rfl, rfl⟩

theorem finishT (s : State) (id : TransactionId) (w : Why) (lids : List LockId) :
    Frame s (s.finishT id w lids) := by
  cases lids <;> exact ⟨rfl, rfl⟩

theorem finishTHasLock (s : State) (id : TransactionId) (w : Why) (lids : List LockId) :
    Frame s (s.finishTHasLock id w lids) := by
  cases lids <;> exact ⟨rfl, rfl⟩

theorem locked (s : State) (id : TransactionId) (op : Op) : Frame s (s.locked id op) := by
  cases op <;> exact ⟨rfl, rfl⟩

theorem access (s : State) (id : TransactionId) (m : TContent) (op : Op) :
    Frame s (s.access id m op) := by
  rw [State.access]
  split <;> exact ⟨rfl, rfl⟩

theorem found (s : State) (id : TransactionId) (m : TContent) (c : Call) :
    Frame s (s.found id m c) := by
  cases c with
  | get | set | del => exact access s id m _
  | transactionCommit => exact ⟨rfl, rfl⟩
  | transactionAbort => exact finishT s id _ _

theorem checkOwner (s : State) (id : TransactionId) (m : TContent) (op : Op) :
    Frame s (s.checkOwner id m op) := by
  rw [State.checkOwner]
  split
  · exact ⟨rfl, rfl⟩
  · split
    · exact ⟨rfl, rfl⟩
    · exact finishTHasLock s id _ _
    · exact ⟨rfl, rfl⟩

theorem acquire {lid : LockId} {f : State → State} (hf : ∀ s, Frame s (f s))
    (h : (s.acquire id lid).map f = some s') : Frame s s' := by
  obtain ⟨s₁, h₁, rfl⟩ := Option.map_eq_some_iff.1 h
  obtain ⟨-, rfl⟩ := acquire_cases h₁
  have htake :
      Frame s { s with locks := Function.update s.locks lid (some (.thread id)) } := ⟨rfl, rfl⟩
  exact htake.trans (hf _)

/-- A call goes on, other than with the loop of a commit. -/
theorem resumeAt (hpc : ∀ rem, pc ≠ .put rem) (h : s.resumeAt id m pc = some s') :
    Frame s s' := by
  cases pc with
  | findAcq | infoAcq | insAcq | finAcq | eraseAcq => exact acquire (fun s => goto s id _) h
  | dataAcqF => exact acquire (fun s => (handOver s _ _).trans (goto _ id _)) h
  | dataAcqO op => exact acquire (fun s => locked s id op) h
  | findRel c => exact Option.some_inj.1 h ▸ (release s _).trans (found _ id m c)
  | infoCode op => exact Option.some_inj.1 h ▸ checkOwner s id m op
  | followRel op => exact Option.some_inj.1 h ▸ (release s _).trans (locked _ id op)
  | infoRelF | infoRelO | finInfoRel =>
    exact Option.some_inj.1 h ▸ (release s _).trans (goto _ id _)
  | finDataRel w lid rem => exact Option.some_inj.1 h ▸ (release s lid).trans (finishT _ id w rem)
  | insRel op e =>
    have hset : Frame s (s.setContent id (m.insert op.eid e)) := ⟨rfl, rfl⟩
    exact Option.some_inj.1 h ▸ hset.trans ((release _ _).trans (reply _ id _ _ _))
  | eraseRel w =>
    have hset : Frame s { s with tMap := Function.update s.tMap id none } := ⟨rfl, rfl⟩
    exact Option.some_inj.1 h ▸ hset.trans ((release _ _).trans (reply _ id _ _ _))
  | fetch => exact Option.some_inj.1 h ▸ goto s id _
  | followCode op =>
    rw [State.resumeAt] at h
    split at h <;> exact Option.some_inj.1 h ▸ ⟨rfl, rfl⟩
  | finCode w lid rem =>
    rw [State.resumeAt] at h
    split at h
    · exact Option.some_inj.1 h ▸ ⟨rfl, rfl⟩
    · have hset : Frame s (s.setInfo lid { s.lockInfos lid with owner := none }) := ⟨rfl, rfl⟩
      exact Option.some_inj.1 h ▸ hset.trans ((handOver _ _ _).trans (goto _ id _))
  | put rem => exact absurd rfl (hpc rem)

theorem resumeUnknown (h : s.resumeUnknown id pc = some s') : Frame s s' := by
  cases pc with
  | findAcq => exact acquire (fun s => goto s id _) h
  | findRel c => exact Option.some_inj.1 h ▸ (release s _).trans (reply _ id c _ _)
  | _ => cases h

/-- Only the loop of a commit touches the store, and no call the counter. -/
theorem resume (h : s.resume id = some s') :
    Frame s s' ∨ (∃ rem, s.calls id = some (.put rem)) ∧
      s'.nextTransactionId = s.nextTransactionId := by
  rw [State.resume] at h
  split at h
  · cases h
  · cases h
  · exact .inl (resumeUnknown h)
  next pc m _ hcall _ =>
    by_cases hput : ∃ rem, pc = .put rem
    · obtain ⟨rem, rfl⟩ := hput
      refine .inr ⟨⟨rem, hcall⟩, ?_⟩
      cases rem with
      | nil => exact Option.some_inj.1 h ▸ (finishT s id _ _).next
      | cons => exact Option.some_inj.1 h ▸ rfl
    · exact .inl (resumeAt (not_exists.1 hput) h)

end Frame

end State

/-! ## The machine -/

/-- What the scheduler may do next. -/
inductive Action
  | begin
  | call (id : TransactionId) (c : Call)
  | resume (id : TransactionId)
  deriving DecidableEq

/-- One action. -/
def step (s : State) : Action → Option State
  | .begin => s.begin
  | .call id c => s.call id c
  | .resume id => s.resume id

end TwoPL
end Ydb
end CseLab
