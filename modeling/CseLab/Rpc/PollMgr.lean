import CseLab.Lib.Cond
import CseLab.Lib.Run
import CseLab.Rpc.SelectAio

/-!
# The thread that calls the callbacks

One thread of the process, the poll thread, goes round `wait_loop`: it waits for descriptors that
are ready and calls what is registered for them.  All others register and remove callbacks, each
with the mutex; the poll thread calls without it.  `block_remove_fd` therefore waits for the poll
thread to come round, so that when it has returned no callback of the descriptor is running or will
be called.  A step is a section with the mutex, or what the poll thread does between two of its
looks at what others may change.

* `removed_is_silent`: what `block_remove_fd` promises.
* `removal_completes`: the poll thread does come round.
* `watched_is_served`: a descriptor is not overlooked because the poll thread waits already.
* `poll_thread_sound`: the poll thread fails no assertion and calls no null pointer.
-/

set_option autoImplicit false

namespace CseLab
namespace Rpc

variable {τ κ : Type*}

/-- `MAX_POLL_FDS`. -/
def maxPollFds : ℕ := 128

/-- Where the poll thread is in `wait_loop`; `rs` and `ws` are what is left of `readable` and
`writable`. -/
inductive PollPc (κ : Type*)
  /-- At the top, without the mutex. -/
  | top
  /-- In `wait_ready`, before it has copied the sets. -/
  | entered
  /-- In `select`. -/
  | waiting (sets : SelectAio.Sets)
  /-- In one of the two loops. -/
  | serving (rs ws : List ℕ)
  /-- It has seen that a callback is registered for `fd`, and will look again to call it. -/
  | tested (fd : ℕ) (rs ws : List ℕ)
  /-- In a callback for `fd`. -/
  | inside (fd : ℕ) (cb : κ) (rs ws : List ℕ)

/-- The descriptors that the poll thread may still call a callback for. -/
def PollPc.Holds (fd : ℕ) : PollPc κ → Prop
  | .top => False
  | .entered => False
  | .waiting sets => sets.Has fd
  | .serving rs ws => fd ∈ rs ∨ fd ∈ ws
  | .tested fd' rs ws => fd = fd' ∨ fd ∈ rs ∨ fd ∈ ws
  | .inside fd' _ rs ws => fd = fd' ∨ fd ∈ rs ∨ fd ∈ ws

/-- Between its look at `pending_change` and the return of `select`. -/
def PollPc.Asks : PollPc κ → Prop
  | .entered => True
  | .waiting _ => True
  | _ => False

def PollPc.isInside : PollPc κ → Bool
  | .inside .. => true
  | _ => false

/-- `PollMgr` and its thread; the callers of `block_remove_fd` are told apart by a `τ`. -/
structure PollMgr (τ κ : Type*) where
  callbacks : ℕ → Option κ
  aio : SelectAio
  pending_change : Bool
  changedone_c : Cond (τ × ℕ)
  pc : PollPc κ
  /-- For the record: `block_remove_fd` has returned, and `add_callback` has not been called. -/
  removed : ℕ → Bool
  /-- An assertion has failed, or a null pointer has been called. -/
  fault : Bool

namespace PollMgr

/-- `PollMgr::PollMgr`. -/
def new (pipefd : ℕ) : PollMgr τ κ :=
  { callbacks := fun _ => none, aio := .new pipefd, pending_change := false, changedone_c := .init,
    pc := .top, removed := fun _ => false, fault := false }

def addCallback [DecidableEq κ] (s : PollMgr τ κ) (fd : ℕ) (flag : PollFlag) (ch : κ) :
    PollMgr τ κ :=
  if maxPollFds ≤ fd then { s with fault := true }
  else
    let s := { s with aio := s.aio.watchFd fd flag, removed := Function.update s.removed fd false }
    if s.callbacks fd = none ∨ s.callbacks fd = some ch then
      { s with callbacks := Function.update s.callbacks fd (some ch) }
    else { s with fault := true }

/-- `block_remove_fd` up to where it waits. -/
def blockRemoveFd (s : PollMgr τ κ) (t : τ) (fd : ℕ) : PollMgr τ κ :=
  match s.aio.unwatchFd fd .rdwr with
  | none => { s with fault := true }
  | some (aio, _) =>
    { s with aio := aio, pending_change := true, changedone_c := s.changedone_c.wait (t, fd) }

/-- The rest of `block_remove_fd`. -/
def removeDone (s : PollMgr τ κ) (j : ℕ) : Option (PollMgr τ κ) :=
  (s.changedone_c.resume j).map fun ((_, fd), c) =>
    { s with changedone_c := c, callbacks := Function.update s.callbacks fd none,
             removed := Function.update s.removed fd true }

def delCallback (s : PollMgr τ κ) (fd : ℕ) (flag : PollFlag) : PollMgr τ κ :=
  match s.aio.unwatchFd fd flag with
  | none => { s with fault := true }
  | some (aio, gone) =>
    { s with aio := aio,
             callbacks := if gone = true then Function.update s.callbacks fd none else s.callbacks }

def hasCallback [DecidableEq κ] (s : PollMgr τ κ) (fd : ℕ) (flag : PollFlag) (c : κ) : Bool :=
  if s.callbacks fd = none ∨ s.callbacks fd ≠ some c then false else s.aio.isWatched fd flag

inductive Step (τ κ : Type*)
  | addCallback (fd : ℕ) (flag : PollFlag) (ch : κ)
  | delCallback (fd : ℕ) (flag : PollFlag)
  | blockRemoveFd (t : τ) (fd : ℕ)
  /-- The `j`-th call of `block_remove_fd` that has been woken gets the mutex. -/
  | removeDone (j : ℕ)
  /-- The poll thread looks at `pending_change`. -/
  | check
  /-- It copies the sets. -/
  | copy
  /-- `select` returns, with what can be read or written. -/
  | select (r w : ℕ → Bool)
  /-- `select` returns with `EINTR`. -/
  | interrupted
  /-- The poll thread goes on to the next descriptor and looks for a callback. -/
  | test
  | call
  /-- A callback returns. -/
  | return
  /-- `pthread_cond_wait` returns although nobody has signalled. -/
  | spurious (j : ℕ)

/-- A step of the poll thread. -/
def Step.isPoll : Step τ κ → Bool
  | .check => true
  | .copy => true
  | .select .. => true
  | .interrupted => true
  | .test => true
  | .call => true
  | .return => true
  | _ => false

/-- The section at the top of `wait_loop`. -/
def check (s : PollMgr τ κ) : PollMgr τ κ :=
  if s.pending_change = true then
    { s with pc := .entered, pending_change := false, changedone_c := s.changedone_c.broadcast }
  else { s with pc := .entered }

/-- On to the loops, if there is anything for them. -/
def serve (readable writable : List ℕ) : PollPc κ :=
  if readable = [] ∧ writable = [] then .top else .serving readable writable

/-- `wait_ready` from where `select` returns. -/
def wakeUp (s : PollMgr τ κ) (sets : SelectAio.Sets) : PollMgr τ κ :=
  match s.aio.waitReady sets with
  | none => { s with fault := true }
  | some (aio, readable, writable) =>
    { s with aio := aio, pc := serve readable writable }

/-- Whether there is a callback for `fd`. -/
def lookFor (s : PollMgr τ κ) (fd : ℕ) (rs ws : List ℕ) : PollMgr τ κ :=
  { s with pc := if (s.callbacks fd).isSome then .tested fd rs ws else .serving rs ws }

/-- The poll thread goes on to the next descriptor. -/
def test (s : PollMgr τ κ) : List ℕ → List ℕ → PollMgr τ κ
  | fd :: rs, ws => s.lookFor fd rs ws
  | [], fd :: ws => s.lookFor fd [] ws
  | [], [] => { s with pc := .top }

/-- The second look at the callback. -/
def call (s : PollMgr τ κ) (fd : ℕ) (rs ws : List ℕ) : PollMgr τ κ :=
  match s.callbacks fd with
  | none => { s with fault := true }
  | some cb => { s with pc := .inside fd cb rs ws }

def run [DecidableEq κ] (s : PollMgr τ κ) : Step τ κ → Option (PollMgr τ κ)
  | .addCallback fd flag ch => some (s.addCallback fd flag ch)
  | .delCallback fd flag => some (s.delCallback fd flag)
  | .blockRemoveFd t fd => some (s.blockRemoveFd t fd)
  | .removeDone j => s.removeDone j
  | .spurious j => (s.changedone_c.wake j).map fun c => { s with changedone_c := c }
  | .check => match s.pc with
    | .top => some s.check
    | _ => none
  | .copy => match s.pc with
    | .entered => some { s with pc := .waiting s.aio.sets }
    | _ => none
  | .select r w => match s.pc with
    | .waiting sets =>
      if (s.aio.select sets r w).ready = true then some (s.wakeUp (s.aio.select sets r w)) else none
    | _ => none
  | .interrupted => match s.pc with
    | .waiting _ => some { s with pc := .top }
    | _ => none
  | .test => match s.pc with
    | .serving rs ws => some (s.test rs ws)
    | _ => none
  | .call => match s.pc with
    | .tested fd rs ws => some (s.call fd rs ws)
    | _ => none
  | .return => match s.pc with
    | .inside _ _ rs ws => some { s with pc := .serving rs ws }
    | _ => none

def step [DecidableEq κ] (s : PollMgr τ κ) (a : Step τ κ) : Option (PollMgr τ κ) :=
  if s.fault = true then none else s.run a

/-- What the callers keep to: the pipe is not theirs, a descriptor that is being removed is not
added, and `del_callback` is called by callbacks.  No wakeup is spurious. -/
def Proper (s : PollMgr τ κ) : Step τ κ → Prop
  | .addCallback fd _ _ => fd ≠ s.aio.pipefd ∧ ∀ x ∈ s.changedone_c.waiters, x.2 ≠ fd
  | .delCallback fd _ => fd ≠ s.aio.pipefd ∧ s.pc.isInside = true
  | .blockRemoveFd _ fd => fd ≠ s.aio.pipefd
  | .spurious _ => False
  | _ => True

instance (s : PollMgr τ κ) : ∀ a, Decidable (s.Proper a)
  | .addCallback .. | .delCallback .. => inferInstanceAs (Decidable (_ ∧ _))
  | .blockRemoveFd _ fd => inferInstanceAs (Decidable (fd ≠ _))
  | .spurious _ => inferInstanceAs (Decidable False)
  | .removeDone _ | .check | .copy | .select .. | .interrupted | .test | .call | .return =>
    inferInstanceAs (Decidable True)

/-- The least of it: the pipe is not taken out of the sets. -/
def PipeStays (s : PollMgr τ κ) : Step τ κ → Prop
  | .delCallback fd _ | .blockRemoveFd _ fd => fd ≠ s.aio.pipefd
  | _ => True

instance (s : PollMgr τ κ) : ∀ a, Decidable (s.PipeStays a)
  | .delCallback fd _ | .blockRemoveFd _ fd => inferInstanceAs (Decidable (fd ≠ _))
  | .addCallback .. | .spurious _ | .removeDone _ | .check | .copy | .select .. | .interrupted
  | .test | .call | .return => inferInstanceAs (Decidable True)

variable {s s' : PollMgr τ κ} {t : τ} {fd pipefd j : ℕ} {flag : PollFlag} {ch : κ}

/-! ## What the callers do -/

theorem addCallback_cases [DecidableEq κ] (s : PollMgr τ κ) (fd : ℕ) (flag : PollFlag) (ch : κ) :
    s.addCallback fd flag ch = { s with fault := true } ∨
    (fd < maxPollFds ∧ ∃ callbacks fault, s.addCallback fd flag ch =
        { s with aio := s.aio.watchFd fd flag, removed := Function.update s.removed fd false,
                 callbacks := callbacks, fault := fault } ∧
      (∀ x, x ≠ fd → callbacks x = s.callbacks x) ∧
        (s.callbacks fd ≠ none → callbacks fd ≠ none)) := by
  rw [addCallback]
  split
  next => exact .inl rfl
  next hlt =>
    refine .inr ⟨Nat.lt_of_not_le hlt, ?_⟩
    dsimp only
    split
    · refine ⟨_, _, rfl, fun x hx => Function.update_of_ne hx .., fun _ => ?_⟩
      rw [Function.update_self]
      exact Option.some_ne_none ch
    · exact ⟨_, _, rfl, fun _ _ => rfl, id⟩

theorem delCallback_cases (hs : s.aio.Sound) (hfd : fd ≠ s.aio.pipefd) (flag : PollFlag) :
    s.delCallback fd flag = { s with fault := true } ∨
    ∃ aio callbacks, s.delCallback fd flag = { s with aio := aio, callbacks := callbacks } ∧
      aio.Sound ∧ aio.pipefd = s.aio.pipefd ∧ aio.sets.Within s.aio.sets ∧
        s.aio.bytes ≤ aio.bytes ∧ ∀ x, s.callbacks x = none → callbacks x = none := by
  rw [delCallback]
  split
  next => exact .inl rfl
  next aio gone hu =>
    obtain ⟨hsound, hpipefd, hwithin, hbytes, -, -⟩ := SelectAio.unwatchFd_spec hs hfd hu
    refine .inr
      ⟨aio, _, rfl, hsound, hpipefd, hwithin, hbytes ▸ Nat.le_add_right .., fun x hx => ?_⟩
    split
    · rcases eq_or_ne x fd with rfl | hne
      · exact Function.update_self ..
      · rwa [Function.update_of_ne hne]
    · exact hx

theorem blockRemoveFd_cases (hs : s.aio.Sound) (hfd : fd ≠ s.aio.pipefd) (t : τ) :
    ∃ aio, s.blockRemoveFd t fd = { s with aio := aio, pending_change := true,
                                           changedone_c := s.changedone_c.wait (t, fd) } ∧
      aio.Sound ∧ aio.pipefd = s.aio.pipefd ∧ aio.sets.Within s.aio.sets ∧
        aio.bytes = s.aio.bytes + 1 ∧ ¬ aio.Watched fd := by
  obtain ⟨aio, gone, hu⟩ : ∃ aio gone, s.aio.unwatchFd fd .rdwr = some (aio, gone) := ⟨_, _, rfl⟩
  obtain ⟨hsound, hpipefd, hwithin, hbytes, hgone, hrdwr⟩ := SelectAio.unwatchFd_spec hs hfd hu
  refine ⟨aio, ?_, hsound, hpipefd, hwithin, hbytes, hgone.1 (hrdwr rfl)⟩
  rw [blockRemoveFd, hu]

/-! ## What is watched -/

/-- What is kept of the sets, and of those that `select` waits for. -/
structure Watching (s : PollMgr τ κ) : Prop where
  sound : s.aio.Sound
  bound : ∀ fd, s.aio.Watched fd → fd < maxPollFds ∨ fd = s.aio.pipefd
  /-- What `select` waits for was watched. -/
  waiting : ∀ sets, s.pc = .waiting sets → sets.rfds s.aio.pipefd = true ∧
    (∀ fd, sets.Has fd → fd ≤ sets.high) ∧
      (sets.high < maxPollFds ∨ sets.high = s.aio.pipefd)
  /-- What is watched now is waited for, or there is something in the pipe. -/
  fresh : ∀ sets, s.pc = .waiting sets → s.aio.sets.Within sets ∨ 0 < s.aio.bytes

theorem Watching.new (pipefd : ℕ) : (PollMgr.new pipefd : PollMgr τ κ).Watching where
  sound := .new pipefd
  bound := fun fd hfd => .inr ((SelectAio.watched_new pipefd fd).1 hfd)
  waiting := fun sets h => by cases h
  fresh := fun sets h => by cases h

/-- The sets stay, and `select` is not called. -/
theorem Watching.same (h : s.Watching) (haio : s'.aio = s.aio)
    (hpc : ∀ sets, s'.pc = .waiting sets → s.pc = .waiting sets) : s'.Watching where
  sound := haio ▸ h.sound
  bound := haio ▸ h.bound
  waiting := fun sets hsets => haio ▸ h.waiting sets (hpc sets hsets)
  fresh := fun sets hsets => haio ▸ h.fresh sets (hpc sets hsets)

theorem Watching.addCallback [DecidableEq κ] (h : s.Watching) (fd : ℕ) (flag : PollFlag) (ch : κ) :
    (s.addCallback fd flag ch).Watching := by
  rcases s.addCallback_cases fd flag ch with heq | ⟨hlt, callbacks, fault, heq, -, -⟩
  · rw [heq]
    exact h.same rfl fun _ => id
  · rw [heq]
    exact
      { sound := h.sound.watchFd fd flag
        bound := fun x hx => by
          rw [SelectAio.pipefd_watchFd]
          rcases (s.aio.watched_watchFd fd x flag).1 hx with rfl | hx
          · exact .inl hlt
          · exact h.bound x hx
        waiting := fun sets hsets => by
          rw [SelectAio.pipefd_watchFd]
          exact h.waiting sets hsets
        fresh := fun _ _ => .inr (by rw [SelectAio.bytes_watchFd]; exact Nat.succ_pos _) }

/-- What is taken out of the sets hurts nobody. -/
theorem Watching.unwatch (h : s.Watching) (hsound : s'.aio.Sound)
    (hpipefd : s'.aio.pipefd = s.aio.pipefd) (hwithin : s'.aio.sets.Within s.aio.sets)
    (hbytes : s.aio.bytes ≤ s'.aio.bytes) (hpc : s'.pc = s.pc) : s'.Watching where
  sound := hsound
  bound := fun x hx => hpipefd ▸ h.bound x (hwithin.has hx)
  waiting := fun sets hsets => hpipefd ▸ h.waiting sets (hpc ▸ hsets)
  fresh := fun sets hsets => (h.fresh sets (hpc ▸ hsets)).imp
    (fun hin => ⟨fun x hx => hin.rfds x (hwithin.rfds x hx),
      fun x hx => hin.wfds x (hwithin.wfds x hx)⟩)
    fun hpos => Nat.lt_of_lt_of_le hpos hbytes

theorem Watching.delCallback (h : s.Watching) (hfd : fd ≠ s.aio.pipefd) (flag : PollFlag) :
    (s.delCallback fd flag).Watching := by
  rcases delCallback_cases h.sound hfd flag with
    heq | ⟨aio, callbacks, heq, hsound, hpipefd, hwithin, hbytes, -⟩
  · rw [heq]
    exact h.same rfl fun _ => id
  · rw [heq]
    exact h.unwatch hsound hpipefd hwithin hbytes rfl

theorem Watching.blockRemoveFd (h : s.Watching) (hfd : fd ≠ s.aio.pipefd) (t : τ) :
    (s.blockRemoveFd t fd).Watching := by
  obtain ⟨aio, heq, hsound, hpipefd, hwithin, hbytes, -⟩ := blockRemoveFd_cases h.sound hfd t
  rw [heq]
  exact h.unwatch hsound hpipefd hwithin (hbytes ▸ Nat.le_succ _) rfl

/-- `select` is called with what is watched. -/
theorem Watching.copy (h : s.Watching) :
    ({ s with pc := .waiting s.aio.sets } : PollMgr τ κ).Watching where
  sound := h.sound
  bound := h.bound
  waiting := fun sets hx => by
    obtain rfl := PollPc.waiting.inj hx
    exact ⟨h.sound.pipe, h.sound.le_high, h.bound _ h.sound.high⟩
  fresh := fun sets hx => by
    obtain rfl := PollPc.waiting.inj hx
    exact .inl ⟨fun _ => id, fun _ => id⟩

/-! ## What is kept -/

structure Inv (s : PollMgr τ κ) : Prop extends s.Watching where
  pending : s.changedone_c.asleep ≠ [] → s.pending_change = true
  /-- The poll thread does not wait when somebody waits for it. -/
  byte : s.changedone_c.asleep ≠ [] → s.pc.Asks → 0 < s.aio.bytes
  unwatched : ∀ x ∈ s.changedone_c.waiters, ¬ s.aio.Watched x.2
  woken : ∀ x ∈ s.changedone_c.woken, ¬ s.pc.Holds x.2
  removed : ∀ fd, s.removed fd = true →
    ¬ s.aio.Watched fd ∧ s.callbacks fd = none ∧ ¬ s.pc.Holds fd
  tested : ∀ fd rs ws, s.pc = .tested fd rs ws → s.callbacks fd ≠ none

theorem Inv.new (pipefd : ℕ) : (PollMgr.new pipefd : PollMgr τ κ).Inv where
  toWatching := .new pipefd
  pending := fun hne => absurd rfl hne
  byte := fun hne => absurd rfl hne
  unwatched := fun x hx => absurd hx List.not_mem_nil
  woken := fun x hx => absurd hx List.not_mem_nil
  removed := fun fd h => Bool.noConfusion h
  tested := fun fd rs ws h => by cases h

theorem Inv.addCallback [DecidableEq κ] (h : s.Inv)
    (hwait : ∀ x ∈ s.changedone_c.waiters, x.2 ≠ fd) (flag : PollFlag) (ch : κ) :
    (s.addCallback fd flag ch).Inv := by
  have hwatching := h.toWatching.addCallback fd flag ch
  rcases s.addCallback_cases fd flag ch with heq | ⟨-, callbacks, fault, heq, hother, hsame⟩
  · rw [heq]
    exact { h with }
  · rw [heq] at hwatching ⊢
    have hwatched : ∀ x, x ≠ fd → ¬ s.aio.Watched x → ¬ (s.aio.watchFd fd flag).Watched x :=
      fun x hne hnot hx => hnot (((s.aio.watched_watchFd fd x flag).1 hx).resolve_left hne)
    exact
      { h with
        toWatching := hwatching
        byte := fun _ _ => by
          rw [SelectAio.bytes_watchFd]
          exact Nat.succ_pos _
        unwatched := fun x hx => hwatched _ (hwait x hx) (h.unwatched x hx)
        removed := fun x hx => by
          obtain ⟨hne, hx⟩ := SelectAio.of_update_false hx
          obtain ⟨hw, hc, hp⟩ := h.removed x hx
          exact ⟨hwatched x hne hw, (hother x hne).trans hc, hp⟩
        tested := fun x rs ws hx => by
          rcases eq_or_ne x fd with rfl | hne
          · exact hsame (h.tested x rs ws hx)
          · exact fun hnone => h.tested x rs ws hx ((hother x hne).symm.trans hnone) }

theorem Inv.unwatch {aio : SelectAio} (h : s.Inv) (hsound : aio.Sound)
    (hpipefd : aio.pipefd = s.aio.pipefd) (hwithin : aio.sets.Within s.aio.sets)
    (hbytes : s.aio.bytes ≤ aio.bytes) : ({ s with aio := aio } : PollMgr τ κ).Inv where
  toWatching := h.toWatching.unwatch hsound hpipefd hwithin hbytes rfl
  pending := h.pending
  byte := fun hne ha => Nat.lt_of_lt_of_le (h.byte hne ha) hbytes
  unwatched := fun x hx hw => h.unwatched x hx (hwithin.has hw)
  woken := h.woken
  removed := fun x hx =>
    have ⟨hw, hc⟩ := h.removed x hx
    ⟨fun hx => hw (hwithin.has hx), hc⟩
  tested := h.tested

theorem Inv.delCallback (h : s.Inv) (hfd : fd ≠ s.aio.pipefd) (hin : s.pc.isInside = true)
    (flag : PollFlag) : (s.delCallback fd flag).Inv := by
  rcases delCallback_cases h.sound hfd flag with
    heq | ⟨aio, callbacks, heq, hsound, hpipefd, hwithin, hbytes, hnone⟩
  · rw [heq]
    exact { h with }
  · rw [heq]
    have haio := h.unwatch hsound hpipefd hwithin hbytes
    exact
      { haio with
        removed := fun x hx =>
          have ⟨hw, hc, hp⟩ := haio.removed x hx
          ⟨hw, hnone x hc, hp⟩
        tested := fun x rs ws hx => by
          change s.pc = _ at hx
          rw [hx] at hin
          cases hin }

theorem Inv.blockRemoveFd (h : s.Inv) (hfd : fd ≠ s.aio.pipefd) (t : τ) :
    (s.blockRemoveFd t fd).Inv := by
  obtain ⟨aio, heq, hsound, hpipefd, hwithin, hbytes, hnot⟩ := blockRemoveFd_cases h.sound hfd t
  have haio := h.unwatch hsound hpipefd hwithin (hbytes ▸ Nat.le_succ _)
  rw [heq]
  exact
    { haio with
      pending := fun _ => rfl
      byte := fun _ _ => hbytes ▸ Nat.succ_pos _
      unwatched := fun x hx => by
        rcases List.mem_cons.1 ((Cond.waiters_wait ..).mem_iff.1 hx) with rfl | hx
        · exact hnot
        · exact haio.unwatched x hx }

theorem Inv.removeDone (h : s.Inv) (hs : s.removeDone j = some s') : s'.Inv := by
  obtain ⟨⟨⟨t, fd⟩, c⟩, hc, rfl⟩ := Option.map_eq_some_iff.1 hs
  obtain ⟨hasleep, hwoken⟩ := Cond.resume_cases hc
  have hmem : (t, fd) ∈ s.changedone_c.woken := hwoken.mem_iff.2 List.mem_cons_self
  exact
    { h with
      pending := fun hne => h.pending (hasleep ▸ hne)
      byte := fun hne => h.byte (hasleep ▸ hne)
      unwatched := fun x hx =>
        h.unwatched x ((Cond.waiters_resume hc).mem_iff.2 (List.mem_cons_of_mem _ hx))
      woken := fun x hx => h.woken x (hwoken.mem_iff.2 (List.mem_cons_of_mem _ hx))
      removed := fun x hx => by
        change Function.update s.removed fd true x = true at hx
        show ¬ s.aio.Watched x ∧ Function.update s.callbacks fd none x = none ∧ ¬ s.pc.Holds x
        rcases eq_or_ne x fd with rfl | hne
        · exact ⟨h.unwatched _ (List.mem_append_right _ hmem), Function.update_self ..,
            h.woken _ hmem⟩
        · rw [Function.update_of_ne hne] at hx ⊢
          exact h.removed x hx
      tested := fun x rs ws hx => by
        have hne : x ≠ fd := by
          rintro rfl
          refine h.woken _ hmem ?_
          rw [hx]
          exact .inl rfl
        show Function.update s.callbacks fd none x ≠ none
        rw [Function.update_of_ne hne]
        exact h.tested x rs ws hx }

/-! ## What the poll thread does -/

theorem Inv.check (h : s.Inv) : s.check.Inv := by
  rw [PollMgr.check]
  split
  next hp =>
    exact
      { toWatching := h.toWatching.same rfl fun sets hx => by cases hx
        pending := fun hne => absurd rfl hne
        byte := fun hne => absurd rfl hne
        unwatched := fun x hx => h.unwatched x ((Cond.waiters_broadcast _).mem_iff.1 hx)
        woken := fun _ _ => id
        removed := fun x hx => ⟨(h.removed x hx).1, (h.removed x hx).2.1, id⟩
        tested := fun x rs ws hx => by cases hx }
  next hp =>
    exact
      { h with
        toWatching := h.toWatching.same rfl fun sets hx => by cases hx
        byte := fun hne => absurd (h.pending hne) hp
        woken := fun _ _ => id
        removed := fun x hx => ⟨(h.removed x hx).1, (h.removed x hx).2.1, id⟩
        tested := fun x rs ws hx => by cases hx }

theorem Inv.copy (h : s.Inv) (hpc : s.pc = .entered) :
    ({ s with pc := .waiting s.aio.sets } : PollMgr τ κ).Inv :=
  { h with
    toWatching := h.toWatching.copy
    byte := fun hne _ => h.byte hne (hpc ▸ trivial)
    woken := fun x hx => h.unwatched x (List.mem_append_right _ hx)
    removed := fun x hx => ⟨(h.removed x hx).1, (h.removed x hx).2.1, (h.removed x hx).1⟩
    tested := fun x rs ws hx => by cases hx }

/-- The poll thread goes on and has no more in hand than before. -/
theorem Inv.goto (h : s.Inv) {pc : PollPc κ} (hsub : ∀ fd, pc.Holds fd → s.pc.Holds fd)
    (hasks : ¬ pc.Asks) (htested : ∀ fd rs ws, pc = .tested fd rs ws → s.callbacks fd ≠ none) :
    ({ s with pc := pc } : PollMgr τ κ).Inv :=
  { h with
    toWatching := h.toWatching.same rfl fun sets hx =>
      absurd (by rw [show pc = _ from hx]; trivial) hasks
    byte := fun _ ha => absurd ha hasks
    woken := fun x hx hp => h.woken x hx (hsub _ hp)
    removed := fun x hx =>
      have ⟨hw, hc, hnot⟩ := h.removed x hx
      ⟨hw, hc, fun hp => hnot (hsub _ hp)⟩
    tested := htested }

theorem Inv.top (h : s.Inv) : ({ s with pc := .top } : PollMgr τ κ).Inv :=
  h.goto (fun _ => False.elim) id fun fd rs ws hx => by cases hx

theorem Inv.lookFor (h : s.Inv) (fd : ℕ) (rs ws : List ℕ)
    (hsub : ∀ x, x = fd ∨ x ∈ rs ∨ x ∈ ws → s.pc.Holds x) : (s.lookFor fd rs ws).Inv := by
  rw [PollMgr.lookFor]
  split
  next hsome =>
    refine h.goto hsub id fun x rs' ws' hx => ?_
    obtain ⟨rfl, -, -⟩ := PollPc.tested.inj hx
    exact Option.isSome_iff_ne_none.1 hsome
  next => exact h.goto (fun x hx => hsub x (.inr hx)) id fun x rs' ws' hx => by cases hx

/-- Nothing of what it looks for changes what is watched. -/
theorem Watching.test (h : s.Watching) (rs ws : List ℕ) : (s.test rs ws).Watching := by
  have hlook : ∀ fd rs ws, (s.lookFor fd rs ws).Watching := fun fd rs ws => by
    refine h.same rfl fun sets hx => ?_
    change (if _ then _ else _) = _ at hx
    split at hx <;> cases hx
  cases rs with
  | cons fd rs => exact hlook fd rs ws
  | nil =>
    cases ws with
    | cons fd ws => exact hlook fd [] ws
    | nil => exact h.same rfl fun sets hx => by cases hx

theorem Inv.test (h : s.Inv) {rs ws : List ℕ} (hpc : s.pc = .serving rs ws) :
    (s.test rs ws).Inv := by
  have hsub : ∀ x, x ∈ rs ∨ x ∈ ws → s.pc.Holds x := fun x hx => by rwa [hpc]
  cases rs with
  | cons fd rs =>
    refine h.lookFor fd rs ws fun x hx => hsub x ?_
    rcases hx with rfl | hx | hx
    · exact .inl List.mem_cons_self
    · exact .inl (List.mem_cons_of_mem _ hx)
    · exact .inr hx
  | nil =>
    cases ws with
    | cons fd ws =>
      refine h.lookFor fd [] ws fun x hx => hsub x ?_
      rcases hx with rfl | hx | hx
      · exact .inr List.mem_cons_self
      · exact .inl hx
      · exact .inr (List.mem_cons_of_mem _ hx)
    | nil => exact h.top

/-- The loops have what `wait_ready` has found. -/
theorem mem_serve (readable writable : List ℕ) (fd : ℕ) :
    ((∃ rs ws, (serve readable writable : PollPc κ) = .serving rs ws ∧ fd ∈ rs) ↔ fd ∈ readable) ∧
      ((∃ rs ws, (serve readable writable : PollPc κ) = .serving rs ws ∧ fd ∈ ws) ↔
        fd ∈ writable) := by
  rw [serve]
  split
  next hnil =>
    obtain ⟨rfl, rfl⟩ := hnil
    simp
  next =>
    refine ⟨⟨?_, fun h => ⟨_, _, rfl, h⟩⟩, ⟨?_, fun h => ⟨_, _, rfl, h⟩⟩⟩
    · rintro ⟨rs, ws, heq, h⟩
      obtain ⟨rfl, rfl⟩ := PollPc.serving.inj heq
      exact h
    · rintro ⟨rs, ws, heq, h⟩
      obtain ⟨rfl, rfl⟩ := PollPc.serving.inj heq
      exact h

/-- The second look finds the callback that the first one has found. -/
theorem call_spec (h : s.Inv) {rs ws : List ℕ} (hpc : s.pc = .tested fd rs ws) :
    ∃ cb, s.callbacks fd = some cb ∧ s.call fd rs ws = { s with pc := .inside fd cb rs ws } := by
  obtain ⟨cb, hcb⟩ := Option.ne_none_iff_exists'.1 (h.tested fd rs ws hpc)
  exact ⟨cb, hcb, by rw [PollMgr.call, hcb]⟩

/-- What `select` returns of `sets`. -/
theorem wakeUp_spec (s : PollMgr τ κ) (sets : SelectAio.Sets) (r w : ℕ → Bool) :
    ∃ bytes readable writable, s.wakeUp (s.aio.select sets r w) =
        { s with aio := { s.aio with bytes := bytes }, pc := serve readable writable } ∧
      readable.length ≤ sets.high + 1 ∧ writable.length ≤ sets.high + 1 ∧
        (∀ fd, fd ∈ readable ∨ fd ∈ writable → sets.Has fd) ∧ ∀ fd, fd ≠ s.aio.pipefd →
          (fd ∈ readable ↔ fd ≤ sets.high ∧ sets.rfds fd = true ∧ r fd = true) ∧
            (fd ∈ writable ↔ fd ≤ sets.high ∧ sets.wfds fd = true ∧ w fd = true) := by
  have hbytes : (s.aio.select sets r w).rfds s.aio.pipefd = true → 0 < s.aio.bytes := by
    simp [SelectAio.select]
  refine ⟨_, _, _, by rw [wakeUp, SelectAio.waitReady_eq hbytes], ?_, ?_, fun fd => ?_,
    fun fd hfd => ?_⟩
  · exact Nat.le_trans (List.length_filter_le ..) (Nat.le_of_eq List.length_range)
  · exact Nat.le_trans (List.length_filter_le ..) (Nat.le_of_eq List.length_range)
  · simp only [List.mem_filter, SelectAio.select, Bool.and_eq_true]
    exact Or.imp (fun h => h.2.1.1) fun h => h.2.1.1
  · simp only [SelectAio.select, List.mem_filter, List.mem_range, Nat.lt_succ_iff, hfd, if_false,
      Bool.and_eq_true, decide_false, Bool.false_and, Bool.not_false, ne_eq, not_false_eq_true,
      decide_true, and_true, and_self]

theorem serve_ne_waiting (readable writable : List ℕ) (sets : SelectAio.Sets) :
    (serve readable writable : PollPc κ) ≠ .waiting sets := by
  rw [serve]
  split
  · rintro ⟨⟩
  · rintro ⟨⟩

theorem Watching.wakeUp (h : s.Watching) (sets : SelectAio.Sets) (r w : ℕ → Bool) :
    (s.wakeUp (s.aio.select sets r w)).Watching := by
  obtain ⟨bytes, readable, writable, heq, -, -, -, -⟩ := s.wakeUp_spec sets r w
  rw [heq]
  exact
    { sound := { h.sound with }
      bound := h.bound
      waiting := fun sets hx => absurd hx (serve_ne_waiting _ _ sets)
      fresh := fun sets hx => absurd hx (serve_ne_waiting _ _ sets) }

theorem Inv.wakeUp (h : s.Inv) {sets : SelectAio.Sets} (hpc : s.pc = .waiting sets)
    (r w : ℕ → Bool) : (s.wakeUp (s.aio.select sets r w)).Inv := by
  have hwatching := h.toWatching.wakeUp sets r w
  obtain ⟨bytes, readable, writable, heq, -, -, hhas, -⟩ := s.wakeUp_spec sets r w
  rw [heq] at hwatching ⊢
  have hsub : ∀ fd, (serve readable writable : PollPc κ).Holds fd → s.pc.Holds fd := by
    intro fd hfd
    rw [serve] at hfd
    split at hfd
    · exact hfd.elim
    · rw [hpc]
      exact hhas fd hfd
  have hasks : ¬ (serve readable writable : PollPc κ).Asks := by
    rw [serve]
    split <;> exact id
  have hgoto := h.goto hsub hasks fun fd rs ws hx => by
    rw [serve] at hx
    split at hx <;> cases hx
  exact
    { hgoto with
      toWatching := hwatching
      byte := fun _ ha => absurd ha hasks }

/-- With something in the pipe `select` returns. -/
theorem ready_of_byte (h : s.Watching) {sets : SelectAio.Sets} (hpc : s.pc = .waiting sets)
    (hpos : 0 < s.aio.bytes) (r w : ℕ → Bool) : (s.aio.select sets r w).ready = true := by
  obtain ⟨hpipe, hhigh, -⟩ := h.waiting sets hpc
  refine List.any_eq_true.2 ⟨s.aio.pipefd, List.mem_range.2 ?_, ?_⟩
  · exact Nat.lt_succ_of_le (hhigh _ (.inl hpipe))
  · simp [SelectAio.select, hpipe, hpos]

/-- The poll thread looks at `pending_change` within so many of its steps. -/
def left (s : PollMgr τ κ) : ℕ :=
  match s.pc with
  | .top => 1
  | .entered => 6 * max maxPollFds (s.aio.pipefd + 1) + 4
  | .waiting sets => 6 * (sets.high + 1) + 3
  | .serving rs ws => 3 * (rs.length + ws.length) + 2
  | .tested _ rs ws => 3 * (rs.length + ws.length) + 4
  | .inside _ _ rs ws => 3 * (rs.length + ws.length) + 3

theorem left_lookFor (s : PollMgr τ κ) (fd : ℕ) (rs ws : List ℕ) :
    (s.lookFor fd rs ws).left ≤ 3 * (rs.length + ws.length) + 4 := by
  rw [lookFor]
  split
  · exact Nat.le_refl _
  · exact Nat.add_le_add_left (by decide) _

variable [DecidableEq κ] {ok : PollMgr τ κ → Step τ κ → Prop} {as bs : List (Step τ κ)}
  {a : Step τ κ}

theorem step_eq_some (h : s.step a = some s') : s.fault = false ∧ s.run a = some s' := by
  rw [step] at h
  split at h
  · cases h
  · exact ⟨Bool.eq_false_iff.2 ‹_›, h⟩

/-- What the steps of the poll thread do. -/
theorem poll_cases (ha : a.isPoll = true) (hs : s.step a = some s') :
    (a = .check ∧ s.pc = .top ∧ s' = s.check) ∨
    (s.pc = .entered ∧ s' = { s with pc := .waiting s.aio.sets }) ∨
    (∃ sets, s.pc = .waiting sets ∧
      ((∃ r w, a = .select r w ∧ s' = s.wakeUp (s.aio.select sets r w)) ∨
        s' = { s with pc := .top })) ∨
    (∃ rs ws, s.pc = .serving rs ws ∧ s' = s.test rs ws) ∨
    (∃ fd rs ws, s.pc = .tested fd rs ws ∧ s' = s.call fd rs ws) ∨
    ∃ fd cb rs ws, s.pc = .inside fd cb rs ws ∧ s' = { s with pc := .serving rs ws } := by
  obtain ⟨-, hrun⟩ := step_eq_some hs
  cases a with
  | addCallback | delCallback | blockRemoveFd | removeDone | spurious => cases ha
  | check =>
    rw [run] at hrun
    split at hrun
    next hpc => exact .inl ⟨rfl, hpc, (Option.some_inj.1 hrun).symm⟩
    next => cases hrun
  | copy =>
    rw [run] at hrun
    split at hrun
    next hpc => exact .inr (.inl ⟨hpc, (Option.some_inj.1 hrun).symm⟩)
    next => cases hrun
  | select r w =>
    rw [run] at hrun
    split at hrun
    next sets hpc =>
      split at hrun
      · exact .inr (.inr (.inl ⟨sets, hpc, .inl ⟨r, w, rfl, (Option.some_inj.1 hrun).symm⟩⟩))
      · cases hrun
    next => cases hrun
  | interrupted =>
    rw [run] at hrun
    split at hrun
    next sets hpc =>
      exact .inr (.inr (.inl ⟨sets, hpc, .inr (Option.some_inj.1 hrun).symm⟩))
    next => cases hrun
  | test =>
    rw [run] at hrun
    split at hrun
    next rs ws hpc =>
      exact .inr (.inr (.inr (.inl ⟨rs, ws, hpc, (Option.some_inj.1 hrun).symm⟩)))
    next => cases hrun
  | call =>
    rw [run] at hrun
    split at hrun
    next fd rs ws hpc =>
      exact .inr (.inr (.inr (.inr (.inl ⟨fd, rs, ws, hpc, (Option.some_inj.1 hrun).symm⟩))))
    next => cases hrun
  | «return» =>
    rw [run] at hrun
    split at hrun
    next fd cb rs ws hpc =>
      exact .inr (.inr (.inr (.inr (.inr ⟨fd, cb, rs, ws, hpc, (Option.some_inj.1 hrun).symm⟩))))
    next => cases hrun

theorem Inv.poll (h : s.Inv) (ha : a.isPoll = true) (hs : s.step a = some s') : s'.Inv := by
  rcases poll_cases ha hs with ⟨-, -, rfl⟩ | ⟨hpc, rfl⟩ | ⟨sets, hpc, ⟨r, w, -, rfl⟩ | rfl⟩ |
    ⟨rs, ws, hpc, rfl⟩ | ⟨fd, rs, ws, hpc, rfl⟩ | ⟨fd, cb, rs, ws, hpc, rfl⟩
  · exact h.check
  · exact h.copy hpc
  · exact h.wakeUp hpc r w
  · exact h.top
  · exact h.test hpc
  · obtain ⟨cb, -, heq⟩ := call_spec h hpc
    rw [heq]
    refine h.goto (fun x hx => ?_) id fun x rs' ws' hx => by cases hx
    rw [hpc]
    exact hx
  · refine h.goto (fun x hx => ?_) id fun x rs' ws' hx => by cases hx
    rw [hpc]
    exact .inr hx

theorem Inv.step (h : s.Inv) (hok : s.Proper a) (hs : s.step a = some s') : s'.Inv := by
  cases a with
  | addCallback fd flag ch =>
    obtain rfl := Option.some_inj.1 (step_eq_some hs).2
    exact h.addCallback hok.2 flag ch
  | delCallback fd flag =>
    obtain rfl := Option.some_inj.1 (step_eq_some hs).2
    exact h.delCallback hok.1 hok.2 flag
  | blockRemoveFd t fd =>
    obtain rfl := Option.some_inj.1 (step_eq_some hs).2
    exact h.blockRemoveFd hok t
  | removeDone j => exact h.removeDone (step_eq_some hs).2
  | spurious j => exact hok.elim
  | check | copy | select | interrupted | test | call | «return» => exact h.poll rfl hs

theorem inv (h : Run step Proper (new pipefd) as s) : s.Inv :=
  h.invariant (.new pipefd) fun _ _ _ hs hok hstep => hs.step hok hstep

theorem Watching.poll (h : s.Watching) (ha : a.isPoll = true) (hs : s.step a = some s') :
    s'.Watching := by
  rcases poll_cases ha hs with ⟨-, -, rfl⟩ | ⟨-, rfl⟩ | ⟨sets, -, ⟨r, w, -, rfl⟩ | rfl⟩ |
    ⟨rs, ws, -, rfl⟩ | ⟨fd, rs, ws, -, rfl⟩ | ⟨fd, cb, rs, ws, -, rfl⟩
  · rw [check]
    split <;> exact h.same rfl fun sets hx => by cases hx
  · exact h.copy
  · exact h.wakeUp sets r w
  · exact h.same rfl fun sets hx => by cases hx
  · exact h.test rs ws
  · rw [call]
    split
    · exact h.same rfl fun sets hx => hx
    · exact h.same rfl fun sets hx => by cases hx
  · exact h.same rfl fun sets hx => by cases hx

/-- The sets are right though nobody keep to more than that. -/
theorem Watching.step (h : s.Watching) (hok : s.PipeStays a) (hs : s.step a = some s') :
    s'.Watching := by
  cases a with
  | addCallback fd flag ch =>
    obtain rfl := Option.some_inj.1 (step_eq_some hs).2
    exact h.addCallback fd flag ch
  | delCallback fd flag =>
    obtain rfl := Option.some_inj.1 (step_eq_some hs).2
    exact h.delCallback hok flag
  | blockRemoveFd t fd =>
    obtain rfl := Option.some_inj.1 (step_eq_some hs).2
    exact h.blockRemoveFd hok t
  | removeDone j =>
    obtain ⟨x, -, rfl⟩ := Option.map_eq_some_iff.1 (step_eq_some hs).2
    exact h.same rfl fun _ => id
  | spurious j =>
    obtain ⟨c, -, rfl⟩ := Option.map_eq_some_iff.1 (step_eq_some hs).2
    exact h.same rfl fun _ => id
  | check | copy | select | interrupted | test | call | «return» => exact h.poll rfl hs

theorem watching (h : Run step PipeStays (new pipefd) as s) : s.Watching :=
  h.invariant (.new pipefd) fun _ _ _ hs hok hstep => hs.step hok hstep

/-! ## What that comes to -/

/-- What the poll thread leaves alone. -/
theorem poll_frame (h : s.Inv) (ha : a.isPoll = true) (hs : s.step a = some s') :
    s'.fault = s.fault ∧ s'.removed = s.removed := by
  rcases poll_cases ha hs with ⟨-, -, rfl⟩ | ⟨-, rfl⟩ | ⟨sets, -, ⟨r, w, -, rfl⟩ | rfl⟩ |
    ⟨rs, ws, -, rfl⟩ | ⟨fd, rs, ws, hpc, rfl⟩ | ⟨fd, cb, rs, ws, -, rfl⟩
  · rw [check]
    split <;> exact ⟨rfl, rfl⟩
  · exact ⟨rfl, rfl⟩
  · obtain ⟨bytes, readable, writable, heq, -⟩ := s.wakeUp_spec sets r w
    rw [heq]
    exact ⟨rfl, rfl⟩
  · exact ⟨rfl, rfl⟩
  · rcases rs with _ | ⟨fd, rs⟩
    · rcases ws with _ | ⟨fd, ws⟩ <;> exact ⟨rfl, rfl⟩
    · exact ⟨rfl, rfl⟩
  · obtain ⟨cb, -, heq⟩ := call_spec h hpc
    rw [heq]
    exact ⟨rfl, rfl⟩
  · exact ⟨rfl, rfl⟩

/-- No step of the poll thread fails an assertion or calls a null pointer, although it looks at
`callbacks_` twice and without the mutex. -/
theorem poll_thread_sound (h : Run step Proper (new pipefd) as s) (ha : a.isPoll = true)
    (hs : s.step a = some s') : s'.fault = false :=
  (poll_frame (inv h) ha hs).1.trans (step_eq_some hs).1

/-- The poll thread is about to call the callback of descriptor 5. -/
def aboutToCall : PollMgr ℕ ℕ :=
  (execute (guarded step Proper) (new 3) [.addCallback 5 .rdonly 7, .check, .copy,
    .select (fun fd => fd == 5) fun _ => false, .test]).get (by decide +kernel)

theorem poll_thread_sound_call : ∃ s' : PollMgr ℕ ℕ, aboutToCall.step .call = some s' ∧
    s'.fault = false := by
  have hrun : Run step Proper (new 3) _ aboutToCall := .of_guarded (Option.some_get _).symm
  have hcall : (aboutToCall.step .call).isSome = true := by decide +kernel
  have hstep := (Option.some_get hcall).symm
  exact ⟨_, hstep, poll_thread_sound hrun rfl hstep⟩

/-- Only `add_callback` takes a descriptor back. -/
theorem removed_step (h : s.Inv) (hok : s.Proper a) (hs : s.step a = some s')
    (ha : ∀ flag ch, a ≠ .addCallback fd flag ch) (hr : s.removed fd = true) :
    s'.removed fd = true := by
  obtain ⟨-, hrun⟩ := step_eq_some hs
  cases a with
  | addCallback x flag ch =>
    obtain rfl := Option.some_inj.1 hrun
    have hne : fd ≠ x := fun heq => ha flag ch (heq ▸ rfl)
    rcases s.addCallback_cases x flag ch with heq | ⟨-, callbacks, fault, heq, -⟩
    · rwa [heq]
    · rw [heq]
      exact (Function.update_of_ne hne false s.removed).trans hr
  | delCallback x flag =>
    obtain rfl := Option.some_inj.1 hrun
    rcases delCallback_cases h.sound hok.1 flag with heq | ⟨aio, callbacks, heq, -⟩ <;> rwa [heq]
  | blockRemoveFd t x =>
    obtain rfl := Option.some_inj.1 hrun
    obtain ⟨aio, heq, -⟩ := blockRemoveFd_cases h.sound hok t
    rwa [heq]
  | removeDone j =>
    obtain ⟨⟨⟨t, x⟩, c⟩, -, rfl⟩ := Option.map_eq_some_iff.1 hrun
    show Function.update s.removed x true fd = true
    rw [Function.update_apply]
    split
    · rfl
    · exact hr
  | spurious j => exact hok.elim
  | check | copy | select | interrupted | test | call | «return» =>
    rwa [(poll_frame h rfl hs).2]

/-- When `block_remove_fd` has returned, and as long as `add_callback` is not called for the
descriptor, the poll thread is in no callback for it, has none to call, and finds none. -/
theorem removed_is_silent (h : Run step Proper (new pipefd) as s) {c : Cond (τ × ℕ)}
    (hj : s.changedone_c.resume j = some ((t, fd), c)) (hs : s.step (.removeDone j) = some s')
    {s'' : PollMgr τ κ} (h' : Run step Proper s' bs s'')
    (hadd : ∀ flag ch, Step.addCallback fd flag ch ∉ bs) :
    ¬ s''.pc.Holds fd ∧ ∀ flag ch, s''.hasCallback fd flag ch = false := by
  have hs' : s'.Inv := (inv h).removeDone (step_eq_some hs).2
  have hr : s'.removed fd = true := by
    have hrun : s.removeDone j = some s' := (step_eq_some hs).2
    rw [removeDone, hj] at hrun
    obtain rfl := Option.some_inj.1 hrun
    exact Function.update_self ..
  have hkept : (∀ flag ch, Step.addCallback fd flag ch ∉ bs) → s''.Inv ∧ s''.removed fd = true := by
    refine h'.induct_trace (P := fun bs s => (∀ flag ch, Step.addCallback fd flag ch ∉ bs) →
      s.Inv ∧ s.removed fd = true) (fun _ => ⟨hs', hr⟩) fun bs s a s' ih hok hstep hadd => ?_
    obtain ⟨hs, hr⟩ := ih fun flag ch hmem => hadd flag ch (List.mem_append_left _ hmem)
    refine ⟨hs.step hok hstep, removed_step hs hok hstep (fun flag ch heq => ?_) hr⟩
    exact hadd flag ch (List.mem_append_right _ (List.mem_singleton.2 heq.symm))
  obtain ⟨hs'', hr''⟩ := hkept hadd
  obtain ⟨-, hc, hp⟩ := hs''.removed fd hr''
  exact ⟨hp, fun flag ch => by rw [hasCallback, if_pos (.inl hc)]⟩

/-- Descriptor 5 is removed while its callback runs. -/
def removedMeanwhile : PollMgr ℕ ℕ :=
  (execute (guarded step Proper) aboutToCall
    [.call, .blockRemoveFd 0 5, .return, .test, .check]).get (by decide +kernel)

def removedAtLast : PollMgr ℕ ℕ :=
  (removedMeanwhile.step (.removeDone 0)).get (by decide +kernel)

/-- It is ready again, but nobody hears of it. -/
theorem removed_is_silent_meanwhile : ∃ s'' : PollMgr ℕ ℕ,
    Run step Proper removedAtLast [.addCallback 6 .wronly 8, .copy,
      .select (fun fd => fd == 5) fun fd => fd == 6] s'' ∧
    ¬ s''.pc.Holds 5 ∧ ∀ flag ch, s''.hasCallback 5 flag ch = false := by
  have hcall : Run step Proper (new 3) _ aboutToCall := .of_guarded (Option.some_get _).symm
  have hrun : Run step Proper aboutToCall _ removedMeanwhile :=
    .of_guarded (Option.some_get _).symm
  have hj : removedMeanwhile.changedone_c.resume 0 = some ((0, 5), .init) := by
    with_unfolding_all rfl
  have hrest : (execute (guarded step Proper) removedAtLast [.addCallback 6 .wronly 8, .copy,
      .select (fun fd => fd == 5) fun fd => fd == 6]).isSome := by
    decide +kernel
  have hrest := Run.of_guarded (Option.some_get hrest).symm
  exact ⟨_, hrest, removed_is_silent (hcall.append hrun) hj (Option.some_get _).symm hrest
    (by simp)⟩

/-! ## The poll thread comes round -/

/-- What the poll thread does next where no descriptor is ready. -/
def quietStep : PollPc κ → Step τ κ
  | .top => .check
  | .entered => .copy
  | .waiting _ => .select (fun _ => false) fun _ => false
  | .serving .. => .test
  | .tested .. => .call
  | .inside .. => .return

theorem left_step (h : s.Inv) (ha : a.isPoll = true) (hs : s.step a = some s') :
    s'.left + 1 ≤ s.left ∨ (s.left = 1 ∧ s' = s.check) := by
  rcases poll_cases ha hs with ⟨-, hpc, rfl⟩ | ⟨hpc, rfl⟩ | ⟨sets, hpc, ⟨r, w, -, rfl⟩ | rfl⟩ |
    ⟨rs, ws, hpc, rfl⟩ | ⟨fd, rs, ws, hpc, rfl⟩ | ⟨fd, cb, rs, ws, hpc, rfl⟩
  · exact .inr ⟨by rw [left, hpc], rfl⟩
  · have hhigh : s.aio.sets.high + 1 ≤ max maxPollFds (s.aio.pipefd + 1) := by
      rcases h.bound _ h.sound.high with hlt | heq
      · exact Nat.le_trans hlt (Nat.le_max_left ..)
      · exact Nat.le_trans (Nat.le_of_eq (congrArg (· + 1) heq)) (Nat.le_max_right ..)
    simp only [left, hpc]
    omega
  · obtain ⟨bytes, readable, writable, heq, hr, hw, -⟩ := s.wakeUp_spec sets r w
    rw [left.eq_def s, hpc, heq, serve]
    split <;> simp only [left] <;> omega
  · simp only [left, hpc]
    omega
  · rw [left.eq_def s, hpc]
    rcases rs with _ | ⟨fd, rs⟩
    · rcases ws with _ | ⟨fd, ws⟩
      · exact .inl (Nat.le_refl _)
      · have hle := s.left_lookFor fd [] ws
        simp only [test, List.length_cons, List.length_nil] at hle ⊢
        omega
    · have hle := s.left_lookFor fd rs ws
      simp only [test, List.length_cons] at hle ⊢
      omega
  · obtain ⟨cb, -, heq⟩ := call_spec h hpc
    simp only [left, hpc, heq]
    omega
  · simp only [left, hpc]
    omega

theorem left_other (h : s.Inv) (hok : s.Proper a) (ha : a.isPoll = false)
    (hs : s.step a = some s') : s'.left = s.left := by
  obtain ⟨-, hrun⟩ := step_eq_some hs
  cases a with
  | addCallback fd flag ch =>
    obtain rfl := Option.some_inj.1 hrun
    rcases s.addCallback_cases fd flag ch with heq | ⟨-, callbacks, fault, heq, -⟩
    · rw [heq]
      rfl
    · rw [heq, left, left, SelectAio.pipefd_watchFd]
  | delCallback fd flag =>
    obtain rfl := Option.some_inj.1 hrun
    rcases delCallback_cases h.sound hok.1 flag with heq | ⟨aio, callbacks, heq, -, hpipefd, -⟩
    · rw [heq]
      rfl
    · rw [heq, left, left, hpipefd]
  | blockRemoveFd t fd =>
    obtain rfl := Option.some_inj.1 hrun
    obtain ⟨aio, heq, -, hpipefd, -⟩ := blockRemoveFd_cases h.sound hok t
    rw [heq, left, left, hpipefd]
  | removeDone j =>
    obtain ⟨x, -, rfl⟩ := Option.map_eq_some_iff.1 hrun
    rfl
  | spurious j => exact hok.elim
  | check | copy | select | interrupted | test | call | «return» => cases ha

/-- A callback runs whose descriptor is being removed. -/
def removing : PollMgr ℕ ℕ :=
  (execute (guarded step Proper) aboutToCall [.call, .blockRemoveFd 0 5]).get (by decide +kernel)

/-- Who waits in `block_remove_fd` is woken: while it sleeps the poll thread is never kept from
going on, though no descriptor be ready, and it takes a bounded number of steps. -/
theorem removal_completes {x : τ × ℕ} (h : Run step Proper (new pipefd) as s)
    (h' : Run step (fun s a => s.Proper a ∧ x ∈ s.changedone_c.asleep) s bs s') :
    bs.countP Step.isPoll ≤ s.left ∧ (x ∈ s'.changedone_c.asleep → s'.fault = false →
      ∃ s'', s'.step (quietStep s'.pc) = some s'') := by
  have hs := inv h
  have hcount : s'.Inv ∧ bs.countP Step.isPoll ≤ s.left ∧
      (x ∈ s'.changedone_c.asleep → bs.countP Step.isPoll + s'.left ≤ s.left) := by
    refine h'.induct_trace (P := fun bs s' => s'.Inv ∧ bs.countP Step.isPoll ≤ s.left ∧
      (x ∈ s'.changedone_c.asleep → bs.countP Step.isPoll + s'.left ≤ s.left))
      ⟨hs, Nat.zero_le _, fun _ => ?_⟩ fun bs s₁ a s₂ ⟨hs₁, _, hle⟩ hok hstep => ?_
    · rw [List.countP_nil]
      omega
    · have hle := hle hok.2
      refine ⟨hs₁.step hok.1 hstep, ?_⟩
      rw [List.countP_append, List.countP_singleton]
      cases ha : a.isPoll with
      | false =>
        have hleft := left_other hs₁ hok.1 ha hstep
        simp only [Bool.false_eq_true, if_false]
        omega
      | true =>
        rw [if_pos rfl]
        rcases left_step hs₁ ha hstep with hlt | ⟨hone, rfl⟩
        · omega
        · refine ⟨by omega, fun hx => ?_⟩
          have hpending := hs₁.pending (List.ne_nil_of_mem hok.2)
          rw [check, if_pos hpending] at hx
          exact absurd hx List.not_mem_nil
  obtain ⟨hs', hle, -⟩ := hcount
  refine ⟨hle, fun hx hfault => ?_⟩
  rw [step, if_neg (by rw [hfault]; exact Bool.false_ne_true)]
  have hne := List.ne_nil_of_mem hx
  cases hpc : s'.pc with
  | waiting sets =>
    have hpos := hs'.byte hne (by rw [hpc]; trivial)
    rw [quietStep, run, hpc]
    dsimp only
    rw [if_pos (ready_of_byte hs'.toWatching hpc hpos _ _)]
    exact ⟨_, rfl⟩
  | top | entered | serving | tested | inside =>
    rw [quietStep, run, hpc]
    exact ⟨_, rfl⟩

theorem removal_completes_meanwhile : ∃ s' : PollMgr ℕ ℕ,
    ([.return, .test] : List (Step ℕ ℕ)).countP Step.isPoll ≤ removing.left ∧
      ((0, 5) ∈ s'.changedone_c.asleep → s'.fault = false →
        ∃ s'', s'.step (quietStep s'.pc) = some s'') := by
  have hcall : Run step Proper (new 3) _ aboutToCall := .of_guarded (Option.some_get _).symm
  have hrun : Run step Proper aboutToCall _ removing := .of_guarded (Option.some_get _).symm
  have hrest : (execute (guarded step fun s a => s.Proper a ∧ (0, 5) ∈ s.changedone_c.asleep)
      removing [.return, .test]).isSome := by decide +kernel
  exact ⟨_, removal_completes (hcall.append hrun) (.of_guarded (Option.some_get hrest).symm)⟩

/-- While the poll thread is in `select`, all that is watched is in its sets, or there is something
in the pipe and `select` returns; and of what is in its sets it goes on to serve what is ready. -/
theorem watched_is_served (h : Run step PipeStays (new pipefd) as s) {sets : SelectAio.Sets}
    (hpc : s.pc = .waiting sets) :
    (s.aio.sets.Within sets ∨ ∀ r w, (s.aio.select sets r w).ready = true) ∧
      ∀ r w s', s.step (.select r w) = some s' → ∀ fd, fd ≠ s.aio.pipefd →
        ((∃ rs ws, s'.pc = .serving rs ws ∧ fd ∈ rs) ↔ sets.rfds fd = true ∧ r fd = true) ∧
          ((∃ rs ws, s'.pc = .serving rs ws ∧ fd ∈ ws) ↔ sets.wfds fd = true ∧ w fd = true) := by
  have hs := watching h
  refine ⟨(hs.fresh sets hpc).imp_right (ready_of_byte hs hpc), fun r w s' hstep fd hfd => ?_⟩
  have hle : ∀ fd, sets.Has fd → fd ≤ sets.high := (hs.waiting sets hpc).2.1
  obtain ⟨-, hrun⟩ := step_eq_some hstep
  rw [run, hpc] at hrun
  dsimp only at hrun
  split at hrun
  next =>
    obtain rfl := Option.some_inj.1 hrun
    obtain ⟨bytes, readable, writable, heq, -, -, -, hmem⟩ := s.wakeUp_spec sets r w
    obtain ⟨hr, hw⟩ := mem_serve (κ := κ) readable writable fd
    rw [heq]
    refine ⟨hr.trans ((hmem fd hfd).1.trans ⟨fun h => h.2, fun h => ⟨hle fd (.inl h.1), h⟩⟩),
      hw.trans ((hmem fd hfd).2.trans ⟨fun h => h.2, fun h => ⟨hle fd (.inr h.1), h⟩⟩)⟩
  next => cases hrun

/-- A descriptor is added while the poll thread is in `select`, and one is removed. -/
def addedMeanwhile : PollMgr ℕ ℕ :=
  (execute (guarded step PipeStays) (new 3) [.addCallback 5 .rdonly 7, .addCallback 4 .rdwr 9,
    .check, .copy, .addCallback 6 .wronly 8, .blockRemoveFd 0 4]).get (by decide +kernel)

theorem watched_is_served_meanwhile : ∃ sets : SelectAio.Sets,
    addedMeanwhile.pc = .waiting sets ∧
    (addedMeanwhile.aio.sets.Within sets ∨
      ∀ r w, (addedMeanwhile.aio.select sets r w).ready = true) ∧
    ∃ s', addedMeanwhile.step (.select (fun fd => fd = 5) fun _ => true) = some s' ∧
      ∃ rs ws, s'.pc = .serving rs ws ∧ 5 ∈ rs := by
  have hrun : Run step PipeStays (new 3) _ addedMeanwhile := .of_guarded (Option.some_get _).symm
  let sets := (((SelectAio.new 3).watchFd 5 .rdonly).watchFd 4 .rdwr).sets
  have hpc : addedMeanwhile.pc = .waiting sets := by with_unfolding_all rfl
  have hstep : (addedMeanwhile.step (.select (fun fd => fd = 5) fun _ => true)).isSome := by
    decide +kernel
  have hstep := (Option.some_get hstep).symm
  obtain ⟨hwithin, hserved⟩ := watched_is_served hrun hpc
  obtain ⟨hread, -⟩ := hserved _ _ _ hstep 5 (by decide +kernel)
  exact ⟨_, hpc, hwithin, _, hstep, hread.2 ⟨by decide +kernel, by decide⟩⟩

end PollMgr

end Rpc
end CseLab
