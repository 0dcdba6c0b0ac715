import CseLab.Ydb.TwoPL.Server

/-!
# The server as strict two-phase locking

What the server does to the store and to the extents' locks, with everything else taken away: no
`lockInfos`, no `lockInfosLockId` and no `tMapLockId`, and a transaction is merely in one of the
phases of two-phase locking.  It takes locks one at a time and keeps them, commits by writing what
it has, and gives the locks back at the end, one at a time.

`Data.Step` is that protocol, and `refines` says that every step of the server is, seen as `Data`,
some steps of it — whatever becomes of `lockInfosLockId` on the way.
-/

set_option autoImplicit false

namespace CseLab
namespace Ydb
namespace TwoPL

open Relation

/-! ## The protocol -/

/-- What a transaction is about. -/
inductive Phase
  /-- Between calls, or before its call has found it. -/
  | idle
  /-- Without the lock of an extent it wants. -/
  | wanting (op : Op)
  /-- With it. -/
  | having (op : Op)
  /-- With the value it will have of the extent. -/
  | entering (op : Op) (e : TValue)
  /-- Committing, with these entries to look at. -/
  | committing (rem : List (ExtentId × TValue))
  /-- Ending, with these locks still to be given back. -/
  | finishing (w : Why) (kept : List LockId)
  deriving DecidableEq

/-- The phases from which `finishT` is reached. -/
def Phase.Ends : Phase → Why → Prop
  | .committing rem, w => rem = [] ∧ w = .commit
  | .idle, w => w = .abort
  | .wanting op, w => w = .victim op
  | _, _ => False

/-- The transactions, the locks of the extents, the store and the log. -/
structure Data where
  nextTransactionId : TransactionId
  tMap : TransactionId → Option TContent
  phase : TransactionId → Phase
  locks : LockId → Option TransactionId
  store : IdealStore
  log : List Event

/-- One step of two-phase locking. -/
inductive Data.Step (d : Data) : Data → Prop
  | begin (h : d.nextTransactionId < intMax) :
      Step d { d with
        nextTransactionId := d.nextTransactionId + 1
        tMap := Function.update d.tMap d.nextTransactionId
          (some ((d.tMap d.nextTransactionId).getD OrdMap.empty)) }
  | reject {id : TransactionId} (c : Call) (hid : d.tMap id = none) (hph : d.phase id = .idle) :
      Step d { d with log := d.log ++ [.returned id c .transidinv []] }
  | read {id : TransactionId} {m : TContent} {op : Op} {e : TValue} (hid : d.tMap id = some m)
      (hph : d.phase id = .idle) (he : m.find op.eid = some e) (hw : op.written = none) :
      Step d { d with log := d.log ++ [.returned id op.call .ok e.value] }
  | write {id : TransactionId} {m : TContent} {op : Op} {e : TValue} {value : Bytes}
      (hid : d.tMap id = some m) (hph : d.phase id = .idle) (he : m.find op.eid = some e)
      (hw : op.written = some value) :
      Step d { d with
        tMap := Function.update d.tMap id (some (m.set op.eid ⟨value, .write⟩))
        log := d.log ++ [.returned id op.call .ok []] }
  | want {id : TransactionId} {m : TContent} {op : Op} (hid : d.tMap id = some m)
      (hph : d.phase id = .idle) (he : m.find op.eid = none) :
      Step d { d with phase := Function.update d.phase id (.wanting op) }
  | lock {id : TransactionId} {m : TContent} {op : Op} (hid : d.tMap id = some m)
      (hph : d.phase id = .wanting op) (hfree : d.locks op.eid = none) :
      Step d { d with
        phase := Function.update d.phase id (.having op)
        locks := Function.update d.locks op.eid (some id) }
  | enter {id : TransactionId} {m : TContent} {op : Op} {value : Bytes} (hid : d.tMap id = some m)
      (hph : d.phase id = .having op) (hw : op.written = some value) :
      Step d { d with phase := Function.update d.phase id (.entering op ⟨value, .write⟩) }
  | fetch {id : TransactionId} {m : TContent} {op : Op} (hid : d.tMap id = some m)
      (hph : d.phase id = .having op) (hw : op.written = none) :
      Step d { d with
        phase := Function.update d.phase id (.entering op ⟨d.store op.eid, .read⟩) }
  | insert {id : TransactionId} {m : TContent} {op : Op} {e : TValue} (hid : d.tMap id = some m)
      (hph : d.phase id = .entering op e) :
      Step d { d with
        tMap := Function.update d.tMap id (some (m.insert op.eid e))
        phase := Function.update d.phase id .idle
        log := d.log ++ [.returned id op.call .ok (if op.written = none then e.value else [])] }
  | commit {id : TransactionId} {m : TContent} (hid : d.tMap id = some m)
      (hph : d.phase id = .idle) :
      Step d { d with
        phase := Function.update d.phase id (.committing m.entries)
        log := d.log ++ [.committed id] }
  | put {id : TransactionId} {m : TContent} {p : ExtentId × TValue}
      {rem : List (ExtentId × TValue)} (hid : d.tMap id = some m)
      (hph : d.phase id = .committing (p :: rem)) :
      Step d { d with
        phase := Function.update d.phase id (.committing rem)
        store := State.putEntry d.store p }
  | finish {id : TransactionId} {m : TContent} {w : Why} (hid : d.tMap id = some m)
      (hw : (d.phase id).Ends w) :
      Step d { d with phase := Function.update d.phase id (.finishing w m.keys) }
  | unlock {id : TransactionId} {m : TContent} {w : Why} {lid : LockId} {kept : List LockId}
      (hid : d.tMap id = some m) (hph : d.phase id = .finishing w (lid :: kept)) :
      Step d { d with
        phase := Function.update d.phase id (.finishing w kept)
        locks := Function.update d.locks lid none }
  | erase {id : TransactionId} {m : TContent} {w : Why} (hid : d.tMap id = some m)
      (hph : d.phase id = .finishing w []) :
      Step d { d with
        tMap := Function.update d.tMap id none
        phase := Function.update d.phase id .idle
        log := d.log ++ [.returned id w.call w.status []] }

/-! ## The server seen this way -/

/-- The phase of a transaction whose call stands at `pc`. -/
def Pc.phase : Pc → Phase
  | .findAcq _ | .findRel _ => .idle
  | .infoAcq op | .infoCode op | .infoRelF op | .dataAcqF op | .infoRelO op | .dataAcqO op =>
    .wanting op
  | .followCode op | .followRel op => .having op
  | .fetch key => .having (.get key)
  | .insAcq op e | .insRel op e => .entering op e
  | .put rem => .committing rem
  | .finAcq w lid rem | .finCode w lid rem | .finInfoRel w lid rem | .finDataRel w lid rem =>
    .finishing w (lid :: rem)
  | .eraseAcq w | .eraseRel w => .finishing w []

/-- The transaction on whose behalf a lock is held. -/
def Holder.id? : Holder → Option TransactionId
  | .thread id => some id
  | .heir _ => none

namespace State

/-- The server as `Data`. -/
def data (s : State) : Data where
  nextTransactionId := s.nextTransactionId
  tMap := s.tMap
  phase id := (s.calls id).elim .idle Pc.phase
  locks lid := if lid < maxKey then (s.locks lid).bind Holder.id? else none
  store := s.store
  log := s.log

theorem phase_of_calls {s : State} {id : TransactionId} {pc : Pc} (h : s.calls id = some pc) :
    s.data.phase id = pc.phase := by
  simp [data, h]

@[simp] theorem data_goto (s : State) (id : TransactionId) (pc : Pc) :
    (s.goto id pc).data = { s.data with phase := Function.update s.data.phase id pc.phase } := by
  have hphase : (s.goto id pc).data.phase = Function.update s.data.phase id pc.phase := by
    funext u
    by_cases hu : u = id
    · subst hu
      simp [data, goto]
    · simp [data, goto, hu]
  rw [← hphase]
  rfl

@[simp] theorem data_reply (s : State) (id : TransactionId) (c : Call) (ret : Status)
    (out : Bytes) : (s.reply id c ret out).data = { s.data with
      phase := Function.update s.data.phase id .idle
      log := s.data.log ++ [.returned id c ret out] } := by
  have hphase : (s.reply id c ret out).data.phase = Function.update s.data.phase id .idle := by
    funext u
    by_cases hu : u = id
    · subst hu
      simp [data, reply]
    · simp [data, reply, hu]
  rw [← hphase]
  rfl

@[simp] theorem data_setContent (s : State) (id : TransactionId) (m : TContent) :
    (s.setContent id m).data = { s.data with tMap := Function.update s.data.tMap id (some m) } :=
  rfl

@[simp] theorem data_setInfo (s : State) (lid : LockId) (li : LockInfo) :
    (s.setInfo lid li).data = s.data := rfl

@[simp] theorem data_dead (s : State) (b : Bool) : { s with dead := b }.data = s.data := rfl

theorem data_locks (s : State) (lid : LockId) (h : Option Holder) :
    { s with locks := Function.update s.locks lid h }.data = { s.data with
      locks := Function.update s.data.locks lid
        (if lid < maxKey then h.bind Holder.id? else none) } := by
  have hlocks : { s with locks := Function.update s.locks lid h }.data.locks =
      Function.update s.data.locks lid (if lid < maxKey then h.bind Holder.id? else none) := by
    funext l
    by_cases hl : l = lid
    · subst hl
      simp [data]
    · simp [data, hl]
  rw [← hlocks]
  rfl

theorem data_locks_of_le (s : State) {lid : LockId} (hlid : maxKey ≤ lid) (h : Option Holder) :
    { s with locks := Function.update s.locks lid h }.data = s.data := by
  have hnone : s.data.locks lid = none := by simp [data, Nat.not_lt.2 hlid]
  rw [data_locks, if_neg (Nat.not_lt.2 hlid), ← hnone, Function.update_eq_self]

@[simp] theorem data_release (s : State) (lid : LockId) :
    (s.release lid).data = { s.data with locks := Function.update s.data.locks lid none } := by
  rw [release]
  split
  · rename_i hfree
    have hnone : s.data.locks lid = none := by simp [data, hfree]
    rw [data_dead, ← hnone, Function.update_eq_self]
  · rw [data_locks]
    simp

theorem data_release_of_le (s : State) {lid : LockId} (hlid : maxKey ≤ lid) :
    (s.release lid).data = s.data := by
  have hnone : s.data.locks lid = none := by simp [data, Nat.not_lt.2 hlid]
  rw [data_release, ← hnone, Function.update_eq_self]

@[simp] theorem data_handOver (s : State) (h h' : Holder) : (s.handOver h h').data = s.data := by
  rw [handOver]
  split
  · exact data_locks_of_le s (Nat.le_succ maxKey) _
  · rfl

/-! ## Refinement -/

/-- A step that leaves the transaction in its phase is no step of the protocol. -/
theorem data_goto_same {s s₁ : State} {id : TransactionId} {pc pc' : Pc} (hdata : s₁.data = s.data)
    (hcall : s.calls id = some pc) (hph : pc'.phase = pc.phase) :
    ReflTransGen Data.Step s.data (s₁.goto id pc').data := by
  rw [data_goto, hdata, hph, ← phase_of_calls hcall, Function.update_eq_self]

/-- The locks of the server's own tables are no locks of the protocol. -/
theorem data_acquire_table {s s' : State} {id : TransactionId} {lid : LockId} {pc pc' : Pc}
    (hcall : s.calls id = some pc) (hlid : maxKey ≤ lid)
    (h : (s.acquire id lid).map (fun s => s.goto id pc') = some s') (hph : pc'.phase = pc.phase) :
    ReflTransGen Data.Step s.data s'.data := by
  obtain ⟨s₁, h₁, rfl⟩ := Option.map_eq_some_iff.1 h
  obtain ⟨-, rfl⟩ := acquire_cases h₁
  exact data_goto_same (data_locks_of_le s hlid _) hcall hph

theorem data_release_table {s : State} {id : TransactionId} {lid : LockId} {pc pc' : Pc}
    (hcall : s.calls id = some pc) (hlid : maxKey ≤ lid) (hph : pc'.phase = pc.phase) :
    ReflTransGen Data.Step s.data ((s.release lid).goto id pc').data :=
  data_goto_same (data_release_of_le s hlid) hcall hph

theorem data_access {s s₁ : State} {id : TransactionId} {m : TContent} {pc : Pc} (op : Op)
    (hdata : s₁.data = s.data) (hid : s.tMap id = some m) (hcall : s.calls id = some pc)
    (hph : pc.phase = .idle) : ReflTransGen Data.Step s.data (s₁.access id m op).data := by
  have hidle := (phase_of_calls hcall).trans hph
  have hsame : Function.update s.data.phase id .idle = s.data.phase := by
    rw [← hidle, Function.update_eq_self]
  rw [access]
  split
  · rename_i he
    rw [data_goto, hdata]
    exact .single (.want hid hidle he)
  · rename_i e he hw
    rw [data_reply, hdata, hsame]
    exact .single (.read hid hidle he hw)
  · rename_i e value he hw
    rw [data_reply, data_setContent, hdata]
    simp only [hsame]
    exact .single (.write hid hidle he hw)

theorem data_finishT {s : State} {id : TransactionId} {w : Why} {kept : List LockId} :
    (s.finishT id w kept).data =
      { s.data with phase := Function.update s.data.phase id (.finishing w kept) } := by
  cases kept <;> exact data_goto ..

theorem data_finishTHasLock {s : State} {id : TransactionId} {w : Why} {kept : List LockId} :
    (s.finishTHasLock id w kept).data =
      { s.data with phase := Function.update s.data.phase id (.finishing w kept) } := by
  cases kept <;> exact data_goto ..

theorem data_found {s s₁ : State} {id : TransactionId} {m : TContent} {pc : Pc} (c : Call)
    (hdata : s₁.data = s.data) (hid : s.tMap id = some m) (hcall : s.calls id = some pc)
    (hph : pc.phase = .idle) : ReflTransGen Data.Step s.data (s₁.found id m c).data := by
  have hidle := (phase_of_calls hcall).trans hph
  cases c with
  | get key | set key value | del key => exact data_access _ hdata hid hcall hph
  | transactionCommit =>
    have hfound : (s₁.found id m .transactionCommit).data = { s.data with
        phase := Function.update s.data.phase id (.committing m.entries)
        log := s.data.log ++ [.committed id] } := by
      rw [← hdata]
      exact congrArg (fun d : Data => { d with log := s₁.data.log ++ [Event.committed id] })
        (data_goto s₁ id (.put m.entries))
    rw [hfound]
    exact .single (.commit hid hidle)
  | transactionAbort =>
    rw [found, data_finishT, hdata]
    refine .single (.finish hid ?_)
    rw [hidle]
    rfl

/-- The extent's lock in hand, a write has its value as well. -/
theorem data_locked {s s₁ : State} {id : TransactionId} {m : TContent} {op : Op}
    (hid : s₁.tMap id = some m)
    (h : ReflTransGen Data.Step s.data
      { s₁.data with phase := Function.update s₁.data.phase id (.having op) }) :
    ReflTransGen Data.Step s.data (s₁.locked id op).data := by
  -- a write's value follows at once
  have henter : ∀ value, op.written = some value → ReflTransGen Data.Step s.data
      { s₁.data with
        phase := Function.update s₁.data.phase id (.entering op ⟨value, .write⟩) } := by
    intro value hw
    have hstep := Data.Step.enter (d := { s₁.data with
      phase := Function.update s₁.data.phase id (.having op) }) hid (by simp) hw
    simp only [Function.update_idem] at hstep
    exact h.tail hstep
  cases op with
  | get key => rwa [locked, data_goto]
  | set key value =>
    rw [locked, data_goto]
    exact henter value rfl
  | del key =>
    rw [locked, data_goto]
    exact henter [] rfl

theorem data_checkOwner {s : State} {id : TransactionId} {m : TContent} {op : Op}
    (hid : s.tMap id = some m) (hcall : s.calls id = some (.infoCode op)) :
    ReflTransGen Data.Step s.data (s.checkOwner id m op).data := by
  rw [checkOwner]
  split
  · exact data_goto_same rfl hcall rfl
  · split
    · exact .refl
    · rw [data_finishTHasLock]
      refine .single (.finish hid ?_)
      rw [phase_of_calls hcall]
      rfl
    · exact data_goto_same rfl hcall rfl

theorem data_resumeAt {s s' : State} {id : TransactionId} {m : TContent} {pc : Pc}
    (hid : s.tMap id = some m) (hcall : s.calls id = some pc)
    (h : s.resumeAt id m pc = some s') : ReflTransGen Data.Step s.data s'.data := by
  have hph := phase_of_calls hcall
  have htable : maxKey ≤ tMapLockId := Nat.le_refl _
  have hinfos : maxKey ≤ lockInfosLockId := Nat.le_succ _
  cases pc with
  | findAcq | insAcq | eraseAcq => exact data_acquire_table hcall htable h rfl
  | infoAcq | finAcq => exact data_acquire_table hcall hinfos h rfl
  | findRel c =>
    rw [resumeAt, Option.some_inj] at h
    exact h ▸ data_found c (data_release_of_le s htable) hid hcall rfl
  | infoCode op =>
    rw [resumeAt, Option.some_inj] at h
    exact h ▸ data_checkOwner hid hcall
  | infoRelF | infoRelO | finInfoRel =>
    rw [resumeAt, Option.some_inj] at h
    exact h ▸ data_release_table hcall hinfos rfl
  | dataAcqF op =>
    obtain ⟨s₁, h₁, rfl⟩ := Option.map_eq_some_iff.1 h
    obtain ⟨hfree, rfl⟩ := acquire_cases h₁
    rw [data_goto, data_handOver, data_locks, if_pos op.eid_lt]
    exact .single (.lock hid hph (by simp [data, hfree]))
  | followCode op =>
    rw [resumeAt] at h
    split at h
    · rw [Option.some_inj] at h
      exact h ▸ data_goto_same rfl hcall rfl
    · rw [Option.some_inj] at h
      exact h ▸ .refl
  | followRel op =>
    rw [resumeAt, Option.some_inj] at h
    subst h
    refine data_locked (m := m) ?_ ?_
    · rw [release]
      split <;> exact hid
    · have hph : s.data.phase id = .having op := hph
      rw [data_release_of_le s hinfos, ← hph, Function.update_eq_self]
  | dataAcqO op =>
    obtain ⟨s₁, h₁, rfl⟩ := Option.map_eq_some_iff.1 h
    obtain ⟨hfree, rfl⟩ := acquire_cases h₁
    refine data_locked (m := m) hid ?_
    rw [data_locks, if_pos op.eid_lt]
    exact .single (.lock hid hph (by simp [data, hfree]))
  | fetch key =>
    rw [resumeAt, Option.some_inj] at h
    subst h
    rw [data_goto]
    exact .single (.fetch hid hph rfl)
  | insRel op e =>
    rw [resumeAt, Option.some_inj] at h
    subst h
    rw [data_reply, data_release_of_le _ htable, data_setContent]
    exact .single (.insert hid hph)
  | put rem =>
    cases rem with
    | nil =>
      rw [resumeAt, Option.some_inj] at h
      subst h
      rw [data_finishT]
      refine .single (.finish hid ?_)
      rw [hph]
      exact ⟨rfl, rfl⟩
    | cons p rem =>
      rw [resumeAt, Option.some_inj] at h
      subst h
      have hput : { s.goto id (.put rem) with store := putEntry s.store p }.data = { s.data with
          phase := Function.update s.data.phase id (.committing rem)
          store := putEntry s.data.store p } := by
        exact congrArg (fun d : Data => { d with store := putEntry s.data.store p })
          (data_goto s id (.put rem))
      rw [hput]
      exact .single (.put hid hph)
  | finCode w lid rem =>
    rw [resumeAt] at h
    split at h
    · rw [Option.some_inj] at h
      exact h ▸ data_goto_same rfl hcall rfl
    · rw [Option.some_inj] at h
      exact h ▸ data_goto_same (data_handOver _ _ _) hcall rfl
  | finDataRel w lid rem =>
    rw [resumeAt, Option.some_inj] at h
    subst h
    rw [data_finishT, data_release]
    exact .single (.unlock hid hph)
  | eraseRel w =>
    rw [resumeAt, Option.some_inj] at h
    subst h
    rw [data_reply, data_release_of_le _ htable]
    exact .single (.erase hid hph)

theorem data_resumeUnknown {s s' : State} {id : TransactionId} {pc : Pc}
    (hid : s.tMap id = none) (hcall : s.calls id = some pc)
    (h : s.resumeUnknown id pc = some s') : ReflTransGen Data.Step s.data s'.data := by
  have htable : maxKey ≤ tMapLockId := Nat.le_refl _
  cases pc with
  | findAcq => exact data_acquire_table hcall htable h rfl
  | findRel c =>
    have hidle : s.data.phase id = .idle := phase_of_calls hcall
    rw [resumeUnknown, Option.some_inj] at h
    subst h
    rw [data_reply, data_release_of_le s htable, ← hidle, Function.update_eq_self]
    exact .single (.reject c hid hidle)
  | _ => exact absurd h (by simp [resumeUnknown])

end State

/-- **Whatever the server does, it does two-phase locking.** -/
theorem refines {s s' : State} {a : Action} (h : step s a = some s') :
    ReflTransGen Data.Step s.data s'.data := by
  cases a with
  | begin =>
    rw [step, State.begin] at h
    split at h
    · rename_i hok
      rw [Option.some_inj] at h
      exact h ▸ .single (.begin hok.2.2)
    · exact absurd h (by simp)
  | call id c =>
    rw [step, State.call] at h
    split at h
    · rename_i hok
      rw [Option.some_inj] at h
      have hidle : s.data.phase id = .idle := by simp [State.data, hok.2]
      rw [← h, State.data_goto, Pc.phase, ← hidle, Function.update_eq_self]
    · exact absurd h (by simp)
  | resume id =>
    rw [step, State.resume] at h
    split at h
    · exact absurd h (by simp)
    · exact absurd h (by simp)
    · rename_i pc hdead hcall hid
      exact State.data_resumeUnknown hid hcall h
    · rename_i pc m hdead hcall hid
      exact State.data_resumeAt hid hcall h

end TwoPL
end Ydb
end CseLab
