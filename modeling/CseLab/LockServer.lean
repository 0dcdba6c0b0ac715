import CseLab.Lib.Run
import Mathlib.Data.Finset.Basic
import Mathlib.Logic.Function.Basic

/-!
# The plain lock server

`lock_server` keeps the waiting on its own side: an `acquire` that finds the lock taken blocks in
`pthread_cond_wait` until the holder's `release` signals the lock's condition variable.

Between taking the mutex and giving it up, at the end of a handler or by waiting, a handler is
alone, and that is one step.  The handlers are run by threads of any type `T`.
`pthread_cond_signal` wakes at least one of the threads that wait if there is one, and which ones is
the scheduler's choice; a thread may also wake up without having been signalled.  Between its waking
up and its looking at `is_free` again anything may happen, a newcomer's `acquire` of the same lock
included.

* `acquires_releases` is the server's safety: what has been granted and not yet given back.
* `no_lost_wakeup` is why a blocked `acquire` is not forgotten.
-/

set_option autoImplicit false

namespace CseLab
namespace LockServer

/-! ## The tables -/

/-- `lock_protocol::lockid_t`. -/
abbrev LockId := ℕ

/-- The values of `lock_protocol::status` that the server returns. -/
inductive Status
  | OK
  | RPCERR
  deriving DecidableEq

/-- `Lock`; the condition variable is the set of the threads that wait for it. -/
structure Lock (T : Type) where
  isFree : Bool
  clt : ℤ
  cond : Finset T
  deriving DecidableEq

/-- Where a thread stands. -/
inductive Pc
  /-- Not in `acquire`. -/
  | idle
  /-- In `acquire(clt, lid)`, blocked in `pthread_cond_wait`. -/
  | waiting (clt : ℤ) (lid : LockId)
  /-- Woken there, and about to look at `is_free` again. -/
  | woken (clt : ℤ) (lid : LockId)
  deriving DecidableEq

/-- A call that has returned. -/
inductive Returned
  | acquire (clt : ℤ) (lid : LockId) (ret : Status)
  | release (clt : ℤ) (lid : LockId) (ret : Status)
  deriving DecidableEq

/-- The server's map, its threads, and the calls that have returned, in that order. -/
structure State (T : Type) where
  lockMap : LockId → Option (Lock T)
  threads : T → Pc
  log : List Returned

variable {T : Type}

/-- `lock_server()`. -/
def State.start : State T := ⟨fun _ => none, fun _ => .idle, []⟩

/-! ## The handlers -/

section Step

variable [DecidableEq T]

/-- The lock is `clt`'s, and the thread that asked for it returns. -/
def grant (s : State T) (t : T) (clt : ℤ) (lid : LockId) (cond : Finset T) : State T where
  lockMap := Function.update s.lockMap lid (some ⟨false, clt, cond⟩)
  threads := Function.update s.threads t .idle
  log := s.log ++ [.acquire clt lid .OK]

/-- `pthread_cond_wait`. -/
def wait (s : State T) (t : T) (clt : ℤ) (lid : LockId) (l : Lock T) : State T where
  lockMap := Function.update s.lockMap lid (some { l with cond := insert t l.cond })
  threads := Function.update s.threads t (.waiting clt lid)
  log := s.log

@[simp]
theorem grant_threads (s : State T) (t : T) (clt : ℤ) (lid : LockId) (cond : Finset T) :
    (grant s t clt lid cond).threads = Function.update s.threads t .idle := rfl

@[simp]
theorem wait_threads (s : State T) (t : T) (clt : ℤ) (lid : LockId) (l : Lock T) :
    (wait s t clt lid l).threads = Function.update s.threads t (.waiting clt lid) := rfl

/-- `acquire(clt, lid)`, from its start to its end or to the first `pthread_cond_wait`. -/
def acquire (s : State T) (t : T) (clt : ℤ) (lid : LockId) : State T :=
  match s.lockMap lid with
  | none => grant s t clt lid ∅
  | some l => if l.isFree then grant s t clt lid l.cond else wait s t clt lid l

/-- The loop in `acquire`, from a return of `pthread_cond_wait` to the end or to the next one.  Map
entries are never erased, so that the one the thread had found is the one that is there. -/
def resume (s : State T) (t : T) (clt : ℤ) (lid : LockId) : Option (State T) :=
  match s.lockMap lid with
  | none => none
  | some l => some (if l.isFree then grant s t clt lid l.cond else wait s t clt lid l)

/-- The thread is about to look again. -/
def Pc.wakeUp : Pc → Pc
  | .waiting clt lid => .woken clt lid
  | pc => pc

/-- The threads of `woken` are no longer in `pthread_cond_wait`. -/
def wakeAll (threads : T → Pc) (woken : Finset T) (t : T) : Pc :=
  if t ∈ woken then (threads t).wakeUp else threads t

/-- `woken` is what a `pthread_cond_signal` may wake where the threads of `cond` wait. -/
def Signalled (cond woken : Finset T) : Prop := woken ⊆ cond ∧ (cond.Nonempty → woken.Nonempty)

instance (cond woken : Finset T) : Decidable (Signalled cond woken) :=
  inferInstanceAs (Decidable (_ ∧ _))

/-- What the test at the start of `release` lets through. -/
def Lock.heldBy (l : Lock T) (clt : ℤ) : Prop := l.clt = clt ∧ ¬ l.isFree

instance (l : Lock T) (clt : ℤ) : Decidable (l.heldBy clt) := inferInstanceAs (Decidable (_ ∧ _))

/-- `release(clt, lid)` where it refuses. -/
def refuse (s : State T) (clt : ℤ) (lid : LockId) : State T :=
  { s with log := s.log ++ [.release clt lid .RPCERR] }

/-- `release(clt, lid)` where it does not; its signal wakes `woken`. -/
def free (s : State T) (clt : ℤ) (lid : LockId) (l : Lock T) (woken : Finset T) : State T where
  lockMap := Function.update s.lockMap lid (some ⟨true, l.clt, l.cond \ woken⟩)
  threads := wakeAll s.threads woken
  log := s.log ++ [.release clt lid .OK]

@[simp]
theorem free_threads (s : State T) (clt : ℤ) (lid : LockId) (l : Lock T) (woken : Finset T) :
    (free s clt lid l woken).threads = wakeAll s.threads woken := rfl

/-- `release(clt, lid)`; where it signals, it wakes `woken`. -/
def release (s : State T) (clt : ℤ) (lid : LockId) (woken : Finset T) : Option (State T) :=
  match s.lockMap lid with
  | none => some (refuse s clt lid)
  | some l =>
    if l.heldBy clt then
      if Signalled l.cond woken then some (free s clt lid l woken) else none
    else some (refuse s clt lid)

/-- The thread has woken up without having been signalled. -/
def wokenUp (s : State T) (t : T) (clt : ℤ) (lid : LockId) (l : Lock T) : State T where
  lockMap := Function.update s.lockMap lid (some { l with cond := l.cond.erase t })
  threads := Function.update s.threads t (.woken clt lid)
  log := s.log

@[simp]
theorem wokenUp_threads (s : State T) (t : T) (clt : ℤ) (lid : LockId) (l : Lock T) :
    (wokenUp s t clt lid l).threads = Function.update s.threads t (.woken clt lid) := rfl

/-- What the scheduler can choose. -/
inductive Action (T : Type)
  /-- The thread takes up a call `acquire(clt, lid)`. -/
  | acquire (t : T) (clt : ℤ) (lid : LockId)
  /-- A call `release(clt, lid)` is answered. -/
  | release (clt : ℤ) (lid : LockId) (woken : Finset T)
  | wake (t : T)
  | resume (t : T)

/-- **One step of the server.** -/
def step (s : State T) : Action T → Option (State T)
  | .acquire t clt lid => if s.threads t = .idle then some (acquire s t clt lid) else none
  | .release clt lid woken => release s clt lid woken
  | .wake t =>
    match s.threads t with
    | .waiting clt lid => (s.lockMap lid).map (wokenUp s t clt lid)
    | _ => none
  | .resume t =>
    match s.threads t with
    | .woken clt lid => resume s t clt lid
    | _ => none

/-! ## What a step can do -/

/-- A thread gets the lock: the lock was not there, or it was free. -/
inductive Granted (s : State T) (t : T) (clt : ℤ) (lid : LockId) : State T → Prop
  | new (h : s.lockMap lid = none) : Granted s t clt lid (grant s t clt lid ∅)
  | free {l : Lock T} (h : s.lockMap lid = some l) (hfree : l.isFree) :
      Granted s t clt lid (grant s t clt lid l.cond)

/-- **What a step can do**, by what it does to the lock. -/
inductive Effect (s : State T) : State T → Prop
  | grant {t : T} {clt : ℤ} {lid : LockId} {s' : State T}
      (hpc : s.threads t = .idle ∨ s.threads t = .woken clt lid)
      (h : Granted s t clt lid s') : Effect s s'
  | wait {t : T} {clt : ℤ} {lid : LockId} {l : Lock T}
      (hpc : s.threads t = .idle ∨ s.threads t = .woken clt lid)
      (h : s.lockMap lid = some l) (hused : ¬ l.isFree) : Effect s (wait s t clt lid l)
  | free {clt : ℤ} {lid : LockId} {l : Lock T} {woken : Finset T} (h : s.lockMap lid = some l)
      (hheld : l.heldBy clt) (hw : Signalled l.cond woken) : Effect s (free s clt lid l woken)
  | refuse {clt : ℤ} {lid : LockId} (h : ∀ l ∈ s.lockMap lid, ¬ l.heldBy clt) :
      Effect s (refuse s clt lid)
  | wake {t : T} {clt : ℤ} {lid : LockId} {l : Lock T} (hpc : s.threads t = .waiting clt lid)
      (h : s.lockMap lid = some l) : Effect s (wokenUp s t clt lid l)

theorem acquire_effect {s : State T} {t : T} {clt : ℤ} {lid : LockId}
    (hpc : s.threads t = .idle) : Effect s (acquire s t clt lid) := by
  rw [acquire]
  cases h : s.lockMap lid with
  | none => exact .grant (.inl hpc) (.new h)
  | some l =>
    by_cases hfree : l.isFree
    · simp only [hfree, if_true]
      exact .grant (.inl hpc) (.free h hfree)
    · simp only [hfree]
      exact .wait (.inl hpc) h hfree

theorem resume_effect {s s' : State T} {t : T} {clt : ℤ} {lid : LockId}
    (hpc : s.threads t = .woken clt lid) (hs : resume s t clt lid = some s') : Effect s s' := by
  rw [resume] at hs
  cases h : s.lockMap lid with
  | none => simp only [h, reduceCtorEq] at hs
  | some l =>
    simp only [h, Option.some.injEq] at hs
    subst hs
    by_cases hfree : l.isFree
    · simp only [hfree, if_true]
      exact .grant (.inr hpc) (.free h hfree)
    · simp only [hfree]
      exact .wait (.inr hpc) h hfree

/-- A release that the test refuses answers `RPCERR` and leaves everything as it is. -/
theorem release_refused {s : State T} {clt : ℤ} {lid : LockId}
    (h : ∀ l ∈ s.lockMap lid, ¬ l.heldBy clt) (woken : Finset T) :
    release s clt lid woken = some (refuse s clt lid) := by
  rw [release]
  cases hl : s.lockMap lid with
  | none => rfl
  | some l => simp only [h l hl, if_false]

theorem release_effect {s s' : State T} {clt : ℤ} {lid : LockId} {woken : Finset T}
    (hs : release s clt lid woken = some s') : Effect s s' := by
  by_cases hheld : ∃ l ∈ s.lockMap lid, l.heldBy clt
  · obtain ⟨l, h, hheld⟩ := hheld
    simp only [release, Option.mem_def.1 h, hheld, if_true, Option.ite_none_right_eq_some,
      Option.some.injEq] at hs
    obtain ⟨hw, rfl⟩ := hs
    exact .free h hheld hw
  · have hno : ∀ l ∈ s.lockMap lid, ¬ l.heldBy clt := fun l h hl => hheld ⟨l, h, hl⟩
    rw [release_refused hno, Option.some_inj] at hs
    exact hs ▸ .refuse hno

theorem step_effect {s s' : State T} {a : Action T} (hs : step s a = some s') : Effect s s' := by
  cases a with
  | acquire t clt lid =>
    simp only [step, Option.ite_none_right_eq_some, Option.some.injEq] at hs
    exact hs.2 ▸ acquire_effect hs.1
  | release clt lid woken => exact release_effect hs
  | wake t =>
    cases hpc : s.threads t with
    | waiting clt lid =>
      simp only [step, hpc, Option.map_eq_some_iff] at hs
      obtain ⟨l, h, rfl⟩ := hs
      exact .wake hpc h
    | _ => simp only [step, hpc, reduceCtorEq] at hs
  | resume t =>
    cases hpc : s.threads t with
    | woken clt lid =>
      simp only [step, hpc] at hs
      exact resume_effect hpc hs
    | _ => simp only [step, hpc, reduceCtorEq] at hs

/-! ## What has been granted and not given back -/

end Step

/-- The clients whose `acquire` of the lock has returned `OK`, in the order of the returns. -/
def acquirers (lid : LockId) (log : List Returned) : List ℤ :=
  log.filterMap fun
    | .acquire clt lid' .OK => if lid' = lid then some clt else none
    | _ => none

/-- The clients whose `release` of the lock has returned `OK`. -/
def releasers (lid : LockId) (log : List Returned) : List ℤ :=
  log.filterMap fun
    | .release clt lid' .OK => if lid' = lid then some clt else none
    | _ => none

/-- The client the lock is recorded to be taken by. -/
def Lock.holder (l : Lock T) : Option ℤ := if l.isFree then none else some l.clt

/-- The same, of the map's entry if there is one. -/
def State.holder (s : State T) (lid : LockId) : Option ℤ := (s.lockMap lid).bind Lock.holder

/-- What the map says about the lock is what the calls that have returned add up to. -/
structure Settled (lid : LockId) (holder : Option ℤ) (log : List Returned) : Prop where
  balance : (acquirers lid log).length =
    (releasers lid log).length + if holder.isSome then 1 else 0
  last : ∀ clt ∈ holder, (acquirers lid log).getLast? = some clt

namespace Settled

variable {lid lid' : LockId} {holder : Option ℤ} {log : List Returned} {clt : ℤ}

theorem other_acquire {ret : Status} (h : Settled lid holder log) (hne : lid' ≠ lid) :
    Settled lid holder (log ++ [.acquire clt lid' ret]) := by
  have ha : acquirers lid (log ++ [.acquire clt lid' ret]) = acquirers lid log := by
    cases ret <;> simp [acquirers, List.filterMap_append, hne]
  have hr : releasers lid (log ++ [.acquire clt lid' ret]) = releasers lid log := by
    simp [releasers, List.filterMap_append]
  exact ⟨ha ▸ hr ▸ h.balance, ha ▸ h.last⟩

theorem other_release {ret : Status} (h : Settled lid holder log)
    (hne : lid' ≠ lid ∨ ret = .RPCERR) :
    Settled lid holder (log ++ [.release clt lid' ret]) := by
  have ha : acquirers lid (log ++ [.release clt lid' ret]) = acquirers lid log := by
    simp [acquirers, List.filterMap_append]
  have hr : releasers lid (log ++ [.release clt lid' ret]) = releasers lid log := by
    rcases hne with hne | rfl
    · cases ret <;> simp [releasers, List.filterMap_append, hne]
    · simp [releasers, List.filterMap_append]
  exact ⟨ha ▸ hr ▸ h.balance, ha ▸ h.last⟩

theorem acquired (h : Settled lid none log) :
    Settled lid (some clt) (log ++ [.acquire clt lid .OK]) := by
  have ha : acquirers lid (log ++ [.acquire clt lid .OK]) = acquirers lid log ++ [clt] := by
    simp [acquirers, List.filterMap_append]
  have hr : releasers lid (log ++ [.acquire clt lid .OK]) = releasers lid log := by
    simp [releasers, List.filterMap_append]
  refine ⟨?_, fun c hc => ?_⟩
  · have hbalance := h.balance
    simp only [Option.isSome_none, Bool.false_eq_true, if_false] at hbalance
    rw [ha, hr, List.length_append, hbalance]
    rfl
  · rw [ha, List.getLast?_concat]
    exact hc

theorem released (h : Settled lid (some clt) log) :
    Settled lid none (log ++ [.release clt lid .OK]) := by
  have ha : acquirers lid (log ++ [.release clt lid .OK]) = acquirers lid log := by
    simp [acquirers, List.filterMap_append]
  have hr : releasers lid (log ++ [.release clt lid .OK]) = releasers lid log ++ [clt] := by
    simp [releasers, List.filterMap_append]
  refine ⟨?_, fun c hc => absurd hc (by simp)⟩
  have hbalance := h.balance
  simp only [Option.isSome_some, if_true] at hbalance
  rw [ha, hr, List.length_append, hbalance]
  rfl

end Settled

section Safety

variable [DecidableEq T] {s s' : State T} {as : List (Action T)}

omit [DecidableEq T] in
theorem holder_update (s : State T) (m : LockId → Option (Lock T)) (lid lid' : LockId)
    (l : Option (Lock T)) (hm : s.lockMap = Function.update m lid l) :
    s.holder lid' = if lid' = lid then l.bind Lock.holder else (m lid').bind Lock.holder := by
  rw [State.holder, hm, Function.update_apply]
  split <;> rfl

theorem settled_grant {t : T} {clt : ℤ} {lid : LockId}
    (hinv : ∀ lid, Settled lid (s.holder lid) s.log) (hg : Granted s t clt lid s') (lid' : LockId) :
    Settled lid' (s'.holder lid') s'.log := by
  have hnone : s.holder lid = none := by
    cases hg with
    | new h => rw [State.holder, h]; rfl
    | free h hfree => rw [State.holder, h]; exact if_pos hfree
  obtain ⟨cond, rfl⟩ : ∃ cond, s' = grant s t clt lid cond := by
    cases hg with
    | new h => exact ⟨_, rfl⟩
    | free h hfree => exact ⟨_, rfl⟩
  rw [holder_update _ s.lockMap lid lid' _ rfl]
  split
  next heq =>
    subst heq
    exact (hnone ▸ hinv lid').acquired
  next hne => exact (hinv lid').other_acquire (Ne.symm hne)

theorem settled_step (hinv : ∀ lid, Settled lid (s.holder lid) s.log) (h : Effect s s')
    (lid' : LockId) : Settled lid' (s'.holder lid') s'.log := by
  cases h with
  | grant hpc hg => exact settled_grant hinv hg lid'
  | @wait t clt lid l hpc hl hused =>
    have hsame : (wait s t clt lid l).holder lid' = s.holder lid' := by
      rw [holder_update _ s.lockMap lid lid' _ rfl]
      split
      next heq => rw [heq, State.holder, hl]; rfl
      next hne => rfl
    exact hsame ▸ hinv lid'
  | @free clt lid l woken hl hheld hw =>
    rw [holder_update _ s.lockMap lid lid' _ rfl]
    split
    next heq =>
      subst heq
      have hsome : s.holder lid' = some clt := by
        rw [State.holder, hl, ← hheld.1]
        exact if_neg hheld.2
      exact (hsome ▸ hinv lid').released
    next hne => exact (hinv lid').other_release (.inl (Ne.symm hne))
  | refuse hno => exact (hinv lid').other_release (.inr rfl)
  | @wake t clt lid l hpc hl =>
    have hsame : (wokenUp s t clt lid l).holder lid' = s.holder lid' := by
      rw [holder_update _ s.lockMap lid lid' _ rfl]
      split
      next heq => rw [heq, State.holder, hl]; rfl
      next hne => rfl
    exact hsame ▸ hinv lid'

theorem settled_run (h : Run step anyStep State.start as s) :
    ∀ lid, Settled lid (s.holder lid) s.log :=
  h.invariant (fun _ => ⟨rfl, fun _ hc => absurd hc (by simp [State.holder, State.start])⟩)
    fun _ _ _ hinv _ hs => settled_step hinv (step_effect hs)

/-- **The lock is a lock**: the acquires that have returned `OK` are one more than the releases that
have where the lock is recorded taken, and then by the client of the last of them, and as many where
it is free or not there.  A release by anybody else answers `RPCERR` and changes nothing. -/
theorem acquires_releases (h : Run step anyStep State.start as s) (lid : LockId) :
    ((∀ l ∈ s.lockMap lid, l.isFree) →
      ((acquirers lid s.log).length : ℤ) - (releasers lid s.log).length = 0) ∧
    (∀ l ∈ s.lockMap lid, ¬ l.isFree →
      ((acquirers lid s.log).length : ℤ) - (releasers lid s.log).length = 1 ∧
      (acquirers lid s.log).getLast? = some l.clt) ∧
    ∀ clt woken, (∀ l ∈ s.lockMap lid, l.clt ≠ clt ∨ l.isFree) →
      step s (.release clt lid woken) =
        some { s with log := s.log ++ [.release clt lid .RPCERR] } := by
  have hinv := settled_run h lid
  refine ⟨fun hfree => ?_, fun l hl hused => ?_, fun clt woken hno => ?_⟩
  · have hnone : s.holder lid = none := Option.bind_eq_none_iff.2 fun l hl => if_pos (hfree l hl)
    have hbalance := hinv.balance
    simp only [hnone, Option.isSome_none, Bool.false_eq_true, if_false, Nat.add_zero] at hbalance
    omega
  · have hsome : s.holder lid = some l.clt := by
      rw [State.holder, Option.mem_def.1 hl]
      exact if_neg hused
    have hbalance := hinv.balance
    simp only [hsome, Option.isSome_some, if_true] at hbalance
    exact ⟨by omega, hinv.last l.clt hsome⟩
  · refine release_refused (fun l hl hheld => ?_) woken
    rcases hno l hl with hne | hfree
    · exact hne hheld.1
    · exact hheld.2 hfree

/-- Two clients block, and the holder releases; before the one that is woken looks, a fourth client
takes the lock.  The woken one waits again, and is woken again by the next release. -/
def barged : List (Action ℕ) :=
  [.acquire 0 1 7, .acquire 1 2 7, .acquire 2 3 7, .release 1 7 {1}, .acquire 3 4 7, .resume 1,
    .release 4 7 {1}]

theorem acquires_releases_barged : ∃ s, Run step anyStep State.start barged s ∧
    s.lockMap 7 = some ⟨true, 4, {2}⟩ ∧
    ((acquirers 7 s.log).length : ℤ) - (releasers 7 s.log).length = 0 := by
  have hrun : (execute step State.start barged).map (fun s => s.lockMap 7) =
      some (some ⟨true, 4, {2}⟩) := by decide +kernel
  obtain ⟨s, hs, hlock⟩ := Option.map_eq_some_iff.1 hrun
  refine ⟨s, .of_execute hs, hlock, (acquires_releases (.of_execute hs) 7).1 fun l hl => ?_⟩
  obtain rfl := Option.some_inj.1 (hlock.symm.trans hl)
  rfl

/-! ## Nobody is forgotten -/

/-- Some thread has been woken for the lock, and has not looked at it since. -/
def OnItsWay (threads : T → Pc) (lid : LockId) : Prop := ∃ t clt, threads t = .woken clt lid

/-- Who waits is where a signal finds it, and where a free lock is waited for somebody is on the way
to it. -/
structure Inv (s : State T) : Prop where
  queued : ∀ t clt lid, s.threads t = .waiting clt lid → ∃ l ∈ s.lockMap lid, t ∈ l.cond
  blocked : ∀ lid, ∀ l ∈ s.lockMap lid, ∀ t ∈ l.cond, ∃ clt, s.threads t = .waiting clt lid
  repaid : ∀ lid, ∀ l ∈ s.lockMap lid, l.isFree → l.cond.Nonempty → OnItsWay s.threads lid

omit [DecidableEq T] in
theorem inv_start : Inv (State.start : State T) where
  queued _ _ _ h := Pc.noConfusion h
  blocked _ _ h := by simp [State.start] at h
  repaid _ _ h := by simp [State.start] at h

omit [DecidableEq T] in
/-- An entry after one of the entries has been put anew. -/
theorem mem_update {m : LockId → Option (Lock T)} {lid lid' : LockId} {l l' : Lock T}
    (h : l ∈ Function.update m lid (some l') lid') :
    (lid' = lid ∧ l = l') ∨ (lid' ≠ lid ∧ l ∈ m lid') := by
  rw [Function.update_apply] at h
  split at h
  next heq => exact .inl ⟨heq, (Option.mem_some_iff.1 h).symm⟩
  next hne => exact .inr ⟨hne, h⟩

omit [DecidableEq T] in
/-- Only the condition variable of the lock that is put anew has changed, and only by `t`. -/
theorem Inv.queued_update {t : T} {lid : LockId} {l' : Lock T} (hinv : Inv s)
    (hcond : ∀ l ∈ s.lockMap lid, ∀ t' ∈ l.cond, t' ≠ t → t' ∈ l'.cond) {t' : T} (hne : t' ≠ t)
    {clt : ℤ} {lid' : LockId} (ht' : s.threads t' = .waiting clt lid') :
    ∃ l ∈ Function.update s.lockMap lid (some l') lid', t' ∈ l.cond := by
  obtain ⟨l, hl, hmem⟩ := hinv.queued t' clt lid' ht'
  rw [Function.update_apply]
  split
  next heq => exact ⟨l', rfl, hcond l (heq ▸ hl) t' hmem hne⟩
  next => exact ⟨l, hl, hmem⟩

omit [DecidableEq T] in
/-- A thread that runs is in no condition variable. -/
theorem Inv.not_mem (hinv : Inv s) {t : T} (hrun : ∀ clt lid, s.threads t ≠ .waiting clt lid)
    {lid : LockId} {l : Lock T} (hl : l ∈ s.lockMap lid) : t ∉ l.cond := fun hmem =>
  (hinv.blocked lid l hl t hmem).elim fun clt hpc => hrun clt lid hpc

omit [DecidableEq T] in
theorem running {t : T} {clt : ℤ} {lid : LockId}
    (hpc : s.threads t = .idle ∨ s.threads t = .woken clt lid) (clt' : ℤ) (lid' : LockId) :
    s.threads t ≠ .waiting clt' lid' := by
  rcases hpc with h | h <;> rw [h] <;> exact Pc.noConfusion

/-- Who is on the way to a lock stays on it while others move. -/
theorem OnItsWay.update {t : T} {pc : Pc} {lid : LockId} (h : OnItsWay s.threads lid)
    (hpc : ∀ clt, s.threads t ≠ .woken clt lid) :
    OnItsWay (Function.update s.threads t pc) lid := by
  obtain ⟨t', clt, ht'⟩ := h
  have hne : t' ≠ t := fun heq => hpc clt (heq ▸ ht')
  exact ⟨t', clt, by rw [Function.update_of_ne hne, ht']⟩

/-- A thread takes the lock. -/
theorem inv_grant {t : T} {clt : ℤ} {lid : LockId} {cond : Finset T} (hinv : Inv s)
    (hpc : s.threads t = .idle ∨ s.threads t = .woken clt lid)
    (hcond : ∀ t', t' ∈ cond ↔ ∃ l ∈ s.lockMap lid, t' ∈ l.cond) :
    Inv (grant s t clt lid cond) where
  queued t' clt' lid' ht' := by
    have hne : t' ≠ t := by
      rintro rfl
      rw [grant_threads, Function.update_self] at ht'
      exact Pc.noConfusion ht'
    rw [grant_threads, Function.update_of_ne hne] at ht'
    exact hinv.queued_update (fun l hl t' hmem _ => (hcond t').2 ⟨l, hl, hmem⟩) hne ht'
  blocked lid' l hl t' ht' := by
    obtain ⟨l₀, hl₀, hmem₀⟩ : ∃ l₀ ∈ s.lockMap lid', t' ∈ l₀.cond := by
      rcases mem_update hl with ⟨rfl, rfl⟩ | ⟨-, hl⟩
      · exact (hcond t').1 ht'
      · exact ⟨l, hl, ht'⟩
    have hne : t' ≠ t := fun heq => hinv.not_mem (running hpc) hl₀ (heq ▸ hmem₀)
    rw [grant_threads, Function.update_of_ne hne]
    exact hinv.blocked lid' l₀ hl₀ t' hmem₀
  repaid lid' l hl hfree hsome := by
    rcases mem_update hl with ⟨rfl, rfl⟩ | ⟨hlid, hl⟩
    · exact absurd hfree (by simp)
    · refine (hinv.repaid lid' l hl hfree hsome).update fun clt' hw => ?_
      rcases hpc with h | h
      · exact Pc.noConfusion (h.symm.trans hw)
      · exact hlid (Pc.woken.inj (h.symm.trans hw)).2.symm

/-- A thread finds the lock taken. -/
theorem inv_wait {t : T} {clt : ℤ} {lid : LockId} {l : Lock T} (hinv : Inv s)
    (hpc : s.threads t = .idle ∨ s.threads t = .woken clt lid) (hl : s.lockMap lid = some l)
    (hused : ¬ l.isFree) : Inv (wait s t clt lid l) where
  queued t' clt' lid' ht' := by
    by_cases hne : t' = t
    · subst hne
      rw [wait_threads, Function.update_self, Pc.waiting.injEq] at ht'
      obtain ⟨-, rfl⟩ := ht'
      exact ⟨_, Function.update_self .., Finset.mem_insert_self ..⟩
    · rw [wait_threads, Function.update_of_ne hne] at ht'
      refine hinv.queued_update (fun l' hl' t' hmem _ => ?_) hne ht'
      obtain rfl := Option.some_inj.1 (hl.symm.trans hl')
      exact Finset.mem_insert_of_mem hmem
  blocked lid' l' hl' t' ht' := by
    by_cases hne : t' = t
    · subst hne
      rcases mem_update hl' with ⟨rfl, rfl⟩ | ⟨-, hl'⟩
      · exact ⟨clt, Function.update_self ..⟩
      · exact absurd ht' (hinv.not_mem (running hpc) hl')
    · rw [wait_threads, Function.update_of_ne hne]
      rcases mem_update hl' with ⟨rfl, rfl⟩ | ⟨-, hl'⟩
      · exact hinv.blocked _ l hl t' ((Finset.mem_insert.1 ht').resolve_left hne)
      · exact hinv.blocked _ l' hl' t' ht'
  repaid lid' l' hl' hfree hsome := by
    rcases mem_update hl' with ⟨rfl, rfl⟩ | ⟨hlid, hl'⟩
    · exact absurd hfree hused
    · refine (hinv.repaid lid' l' hl' hfree hsome).update fun clt' hw => ?_
      rcases hpc with h | h
      · exact Pc.noConfusion (h.symm.trans hw)
      · exact hlid (Pc.woken.inj (h.symm.trans hw)).2.symm

/-- The holder gives the lock back, and wakes somebody if anybody waits. -/
theorem inv_free {clt : ℤ} {lid : LockId} {l : Lock T} {woken : Finset T} (hinv : Inv s)
    (hl : s.lockMap lid = some l) (hw : Signalled l.cond woken) :
    Inv (free s clt lid l woken) where
  queued t clt' lid' ht := by
    rw [free_threads, wakeAll] at ht
    split at ht
    next hmem =>
      cases hpc : s.threads t <;> rw [hpc] at ht <;> exact Pc.noConfusion ht
    next hnot =>
      obtain ⟨l₀, hl₀, hmem⟩ := hinv.queued t clt' lid' ht
      by_cases heq : lid' = lid
      · subst heq
        obtain rfl := Option.some_inj.1 (hl.symm.trans hl₀)
        exact ⟨_, Function.update_self .., Finset.mem_sdiff.2 ⟨hmem, hnot⟩⟩
      · exact ⟨l₀, (Function.update_of_ne heq ..).trans hl₀, hmem⟩
  blocked lid' l' hl' t ht := by
    obtain ⟨l₀, hl₀, hmem, hnot⟩ : ∃ l₀ ∈ s.lockMap lid', t ∈ l₀.cond ∧ t ∉ woken := by
      rcases mem_update hl' with ⟨rfl, rfl⟩ | ⟨hne, hl'⟩
      · exact ⟨l, hl, Finset.mem_sdiff.1 ht⟩
      · refine ⟨l', hl', ht, fun hmem => ?_⟩
        obtain ⟨clt₁, h₁⟩ := hinv.blocked lid l hl t (hw.1 hmem)
        obtain ⟨clt₂, h₂⟩ := hinv.blocked lid' l' hl' t ht
        exact hne (Pc.waiting.inj (h₂.symm.trans h₁)).2
    rw [free_threads, wakeAll, if_neg hnot]
    exact hinv.blocked lid' l₀ hl₀ t hmem
  repaid lid' l' hl' hfree hsome := by
    rcases mem_update hl' with ⟨rfl, rfl⟩ | ⟨hne, hl'⟩
    · obtain ⟨t, ht⟩ := hw.2 (hsome.mono Finset.sdiff_subset)
      obtain ⟨clt', hpc⟩ := hinv.blocked _ l hl t (hw.1 ht)
      exact ⟨t, clt', by rw [free_threads, wakeAll, if_pos ht, hpc, Pc.wakeUp]⟩
    · obtain ⟨t, clt', hpc⟩ := hinv.repaid lid' l' hl' hfree hsome
      refine ⟨t, clt', ?_⟩
      rw [free_threads, wakeAll]
      split
      next => rw [hpc]; rfl
      next => exact hpc

/-- A thread wakes up of its own accord. -/
theorem inv_wake {t : T} {clt : ℤ} {lid : LockId} {l : Lock T} (hinv : Inv s)
    (hpc : s.threads t = .waiting clt lid) (hl : s.lockMap lid = some l) :
    Inv (wokenUp s t clt lid l) where
  queued t' clt' lid' ht' := by
    have hne : t' ≠ t := by
      rintro rfl
      rw [wokenUp_threads, Function.update_self] at ht'
      exact Pc.noConfusion ht'
    rw [wokenUp_threads, Function.update_of_ne hne] at ht'
    refine hinv.queued_update (fun l' hl' t' hmem hne => ?_) hne ht'
    obtain rfl := Option.some_inj.1 (hl.symm.trans hl')
    exact Finset.mem_erase.2 ⟨hne, hmem⟩
  blocked lid' l' hl' t' ht' := by
    obtain ⟨hne, l₀, hl₀, hmem⟩ : t' ≠ t ∧ ∃ l₀ ∈ s.lockMap lid', t' ∈ l₀.cond := by
      rcases mem_update hl' with ⟨rfl, rfl⟩ | ⟨hlid, hl'⟩
      · obtain ⟨hne, hmem⟩ := Finset.mem_erase.1 ht'
        exact ⟨hne, l, hl, hmem⟩
      · refine ⟨fun heq => ?_, l', hl', ht'⟩
        obtain ⟨clt', h⟩ := hinv.blocked lid' l' hl' t' ht'
        exact hlid (Pc.waiting.inj ((heq ▸ h).symm.trans hpc)).2
    rw [wokenUp_threads, Function.update_of_ne hne]
    exact hinv.blocked lid' l₀ hl₀ t' hmem
  repaid lid' l' hl' hfree hsome := by
    rcases mem_update hl' with ⟨rfl, rfl⟩ | ⟨hlid, hl'⟩
    · exact ⟨t, clt, Function.update_self ..⟩
    · refine (hinv.repaid lid' l' hl' hfree hsome).update fun clt' hw => ?_
      exact Pc.noConfusion (hpc.symm.trans hw)

theorem inv_step (hinv : Inv s) (h : Effect s s') : Inv s' := by
  cases h with
  | grant hpc hg =>
    cases hg with
    | new h => exact inv_grant hinv hpc fun t' => by simp [h]
    | free h hfree => exact inv_grant hinv hpc fun t' => by simp [h]
  | wait hpc h hused => exact inv_wait hinv hpc h hused
  | free h hheld hw => exact inv_free hinv h hw
  | refuse hno => exact ⟨hinv.queued, hinv.blocked, hinv.repaid⟩
  | wake hpc h => exact inv_wake hinv hpc h

theorem inv_run (h : Run step anyStep State.start as s) : Inv s :=
  h.invariant inv_start fun _ _ _ hinv _ hs => inv_step hinv (step_effect hs)

/-- **No wake-up is lost**: where a lock is free and an `acquire` of it is blocked, some thread has
been woken for the lock, and it is granted the lock if it is the next to look. -/
theorem no_lost_wakeup (h : Run step anyStep State.start as s) {lid : LockId} {l : Lock T}
    (hl : s.lockMap lid = some l) (hfree : l.isFree) {t : T} {clt : ℤ}
    (hblocked : s.threads t = .waiting clt lid) :
    ∃ t' clt', s.threads t' = .woken clt' lid ∧
      step s (.resume t') = some (grant s t' clt' lid l.cond) := by
  have hinv := inv_run h
  obtain ⟨l', hl', hmem⟩ := hinv.queued t clt lid hblocked
  obtain rfl := Option.some_inj.1 (hl.symm.trans hl')
  obtain ⟨t', clt', hpc⟩ := hinv.repaid lid l hl hfree ⟨t, hmem⟩
  refine ⟨t', clt', hpc, ?_⟩
  simp only [step, hpc, resume, hl, hfree, if_true]

theorem no_lost_wakeup_barged : ∃ s, Run step anyStep State.start barged s ∧
    s.threads 2 = .waiting 3 7 ∧ ∃ t' clt', s.threads t' = .woken clt' 7 := by
  have hrun : (execute step State.start barged).map (fun s => (s.lockMap 7, s.threads 2)) =
      some (some ⟨true, 4, {2}⟩, .waiting 3 7) := by decide +kernel
  obtain ⟨s, hs, hend⟩ := Option.map_eq_some_iff.1 hrun
  obtain ⟨hlock, hwait⟩ := Prod.mk.inj hend
  obtain ⟨t', clt', hpc, -⟩ := no_lost_wakeup (.of_execute hs) hlock rfl hwait
  exact ⟨s, .of_execute hs, hwait, t', clt', hpc⟩

end Safety

end LockServer
end CseLab
