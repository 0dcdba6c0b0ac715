import Mathlib.Data.List.Basic
import Mathlib.Data.List.Perm.Basic

/-!
# Condition variables

Who waits on a condition variable either sleeps or has been woken and has not got the mutex back
yet.  Woken one is by a signal, by a broadcast, or for no reason at all; which of those that sleep a
signal wakes is not said, so it comes with an index.

A signal is given for each thing that there is to wait for, and each of those who wait takes one.
Wakeups are not lost as long as nobody sleeps who would find one: while somebody sleeps, at most as
many things are there as threads have been woken for them (`Served`).
-/

set_option autoImplicit false

namespace CseLab

/-- `pthread_cond_t`. -/
structure Cond (τ : Type*) where
  asleep : List τ
  /-- These have been woken and will ask for the mutex. -/
  woken : List τ

variable {τ : Type*} {c c' : Cond τ} {t : τ} {i m n : ℕ}

/-- Take one out of a list. -/
def pick (ts : List τ) (i : ℕ) : Option (τ × List τ) := ts[i]?.map fun t => (t, ts.eraseIdx i)

theorem pick_perm {ts ts' : List τ} (h : pick ts i = some (t, ts')) : ts.Perm (t :: ts') := by
  rw [pick, Option.map_eq_some_iff] at h
  obtain ⟨t', ht, heq⟩ := h
  obtain ⟨rfl, rfl⟩ := Prod.mk.inj heq
  obtain ⟨hi, rfl⟩ := List.getElem?_eq_some_iff.1 ht
  exact (List.getElem_cons_eraseIdx_perm hi).symm

theorem pick_isSome {ts : List τ} (h : ts ≠ []) : ∃ t ts', pick ts 0 = some (t, ts') := by
  cases ts with
  | nil => exact absurd rfl h
  | cons t ts => exact ⟨t, ts, rfl⟩

namespace Cond

/-- `pthread_cond_init`. -/
def init : Cond τ := ⟨[], []⟩

/-- `pthread_cond_wait` up to where it sleeps. -/
def wait (c : Cond τ) (t : τ) : Cond τ := { c with asleep := c.asleep ++ [t] }

/-- One that sleeps wakes up. -/
def wake (c : Cond τ) (i : ℕ) : Option (Cond τ) :=
  (pick c.asleep i).map fun (t, asleep) => ⟨asleep, c.woken ++ [t]⟩

/-- `pthread_cond_signal`, which wakes one if any sleep. -/
def signal (c : Cond τ) (i : ℕ) : Option (Cond τ) :=
  if c.asleep.isEmpty then some c else c.wake i

/-- `pthread_cond_broadcast`. -/
def broadcast (c : Cond τ) : Cond τ := ⟨[], c.woken ++ c.asleep⟩

/-- One that has been woken gets the mutex. -/
def resume (c : Cond τ) (i : ℕ) : Option (τ × Cond τ) :=
  (pick c.woken i).map fun (t, woken) => (t, { c with woken := woken })

/-- All that wait. -/
def waiters (c : Cond τ) : List τ := c.asleep ++ c.woken

/-! ## What each operation does to those that wait -/

@[simp] theorem waiters_init : (init : Cond τ).waiters = [] := rfl

theorem waiters_wait (c : Cond τ) (t : τ) : (c.wait t).waiters.Perm (t :: c.waiters) := by
  rw [waiters, wait, List.append_assoc]
  exact List.perm_middle

theorem wake_cases (h : c.wake i = some c') :
    ∃ t, c.asleep.Perm (t :: c'.asleep) ∧ c'.woken = c.woken ++ [t] := by
  rw [wake, Option.map_eq_some_iff] at h
  obtain ⟨⟨t, asleep⟩, hpick, rfl⟩ := h
  exact ⟨t, pick_perm hpick, rfl⟩

theorem waiters_wake (h : c.wake i = some c') : c'.waiters.Perm c.waiters := by
  obtain ⟨t, hasleep, hwoken⟩ := wake_cases h
  have hlast : (c'.asleep ++ c.woken ++ [t]).Perm (t :: c'.asleep ++ c.woken) :=
    List.perm_append_singleton ..
  rw [waiters, waiters, hwoken, ← List.append_assoc]
  exact hlast.trans (hasleep.symm.append_right _)

/-- What a signal does: nothing if nobody sleeps, and otherwise it wakes one. -/
theorem signal_cases (h : c.signal i = some c') :
    (c.asleep = [] ∧ c' = c) ∨ c.wake i = some c' := by
  rw [signal] at h
  split at h
  next hnil => exact .inl ⟨List.isEmpty_iff.1 hnil, (Option.some_inj.1 h).symm⟩
  next => exact .inr h

theorem waiters_signal (h : c.signal i = some c') : c'.waiters.Perm c.waiters := by
  rcases signal_cases h with ⟨-, rfl⟩ | hwake
  · exact .refl _
  · exact waiters_wake hwake

/-- There is always one to signal. -/
theorem signal_zero (c : Cond τ) : ∃ c', c.signal 0 = some c' := by
  rw [signal]
  split
  next => exact ⟨c, rfl⟩
  next hne =>
    obtain ⟨t, ts, hpick⟩ := pick_isSome (mt List.isEmpty_iff.2 hne)
    exact ⟨⟨ts, c.woken ++ [t]⟩, by rw [wake, hpick]; rfl⟩

theorem waiters_broadcast (c : Cond τ) : c.broadcast.waiters.Perm c.waiters := by
  rw [waiters, broadcast, List.nil_append]
  exact List.perm_append_comm

theorem resume_cases (h : c.resume i = some (t, c')) :
    c'.asleep = c.asleep ∧ c.woken.Perm (t :: c'.woken) := by
  rw [resume, Option.map_eq_some_iff] at h
  obtain ⟨⟨t', woken⟩, hpick, heq⟩ := h
  obtain ⟨rfl, rfl⟩ := Prod.mk.inj heq
  exact ⟨rfl, pick_perm hpick⟩

theorem waiters_resume (h : c.resume i = some (t, c')) : c.waiters.Perm (t :: c'.waiters) := by
  obtain ⟨hasleep, hwoken⟩ := resume_cases h
  rw [waiters, waiters, hasleep]
  exact (hwoken.append_left _).trans List.perm_middle

theorem resume_zero (h : c.woken ≠ []) : ∃ t c', c.resume 0 = some (t, c') := by
  obtain ⟨t, woken, hpick⟩ := pick_isSome h
  exact ⟨t, { c with woken := woken }, by rw [resume, hpick]; rfl⟩

theorem length_woken_signal (h : c.signal i = some c') :
    c'.woken.length ≤ c.woken.length + 1 := by
  rcases signal_cases h with ⟨-, rfl⟩ | hwake
  · exact Nat.le_succ _
  · obtain ⟨t, -, hwoken⟩ := wake_cases hwake
    exact Nat.le_of_eq (hwoken ▸ List.length_append)

theorem length_woken_resume (h : c.resume i = some (t, c')) :
    c.woken.length = c'.woken.length + 1 := (resume_cases h).2.length_eq

/-! ## Lost wakeups -/

/-- While somebody sleeps, at most as many of `n` things are there as have been woken for them. -/
def Served (c : Cond τ) (n : ℕ) : Prop := c.asleep ≠ [] → n ≤ c.woken.length

theorem Served.mono (h : c.Served n) (hle : m ≤ n) : c.Served m := fun hne =>
  Nat.le_trans hle (h hne)

theorem served_init (n : ℕ) : (init : Cond τ).Served n := fun hne => absurd rfl hne

/-- One goes to sleep where there is nothing. -/
theorem served_wait (c : Cond τ) (t : τ) : (c.wait t).Served 0 := fun _ => Nat.zero_le _

theorem Served.wake (h : c.Served n) (hw : c.wake i = some c') : c'.Served (n + 1) := by
  obtain ⟨t, hasleep, hwoken⟩ := wake_cases hw
  intro _
  have hne : c.asleep ≠ [] := by
    rintro hnil
    rw [hnil] at hasleep
    exact absurd hasleep.symm (by simp)
  rw [hwoken, List.length_append, List.length_singleton]
  exact Nat.succ_le_succ (h hne)

/-- One more thing is there, and it is signalled. -/
theorem Served.signal (h : c.Served n) (hs : c.signal i = some c') : c'.Served (n + 1) := by
  rcases signal_cases hs with ⟨hnil, rfl⟩ | hwake
  · exact fun hne => absurd hnil hne
  · exact h.wake hwake

/-- One of those that have been woken takes what is there. -/
theorem Served.resume (h : c.Served n) (hr : c.resume i = some (t, c')) : c'.Served (n - 1) := by
  obtain ⟨hasleep, hwoken⟩ := resume_cases hr
  intro hne
  have hle := h (hasleep ▸ hne)
  have hlen := hwoken.length_eq
  rw [List.length_cons] at hlen
  omega

end Cond

end CseLab
