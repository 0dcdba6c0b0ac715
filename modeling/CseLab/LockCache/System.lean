import CseLab.LockCache.Refine

/-!
# The lock service

All the locks together.  They have nothing in common but the threads: a thread may have several
locks and is in one call at a time.  So what a lock goes through is a run of the one-lock machine
(`Reachable.lock`), and what that machine keeps holds of every lock.
-/

set_option autoImplicit false

namespace CseLab
namespace LockCache

variable {L C T : Type}

/-! ## The machine -/

/-- The thread an action is about. -/
def Action.thread : Action C T → Thread C T
  | .acquire a | .release a _ | .resume a _ | .wake a => a

/-- Does it enter a call? -/
def Action.enters : Action C T → Bool
  | .acquire _ | .release _ _ => true
  | .resume _ _ | .wake _ => false

/-- Is a thread in a call? -/
def Pc.inCall : Pc C → Bool
  | .idle | .inside => false
  | _ => true

/-- Every lock, and the lock of the call that each thread is in. -/
structure System (L C T : Type) where
  locks : L → State C T
  calling : Thread C T → Option L

/-- Nobody has asked for anything. -/
def System.start : System L C T := ⟨fun _ => .start, fun _ => none⟩

namespace System

/-- One action at one lock. -/
def step [DecidableEq L] [DecidableEq C] [DecidableEq T] (s : System L C T) :
    L × Action C T → Option (System L C T)
  | (l, act) =>
    if act.enters ∧ (s.calling act.thread).isSome then none
    else
      (LockCache.step (s.locks l) act).map fun t =>
        { locks := Function.update s.locks l t
          calling := Function.update s.calling act.thread
            (if (t.threads act.thread).inCall then some l else none) }

variable [DecidableEq L] [DecidableEq C] [DecidableEq T] {s s' : System L C T}
  {as : List (L × Action C T)} {l : L}

/-- A step of the system is a step of one lock. -/
theorem step_lock {act : L × Action C T} (h : s.step act = some s') (l : L) :
    s'.locks l = s.locks l ∨ ∃ act, LockCache.step (s.locks l) act = some (s'.locks l) := by
  obtain ⟨k, act⟩ := act
  obtain ⟨-, h⟩ := Option.ite_none_left_eq_some.1 h
  obtain ⟨t, ht, rfl⟩ := Option.map_eq_some_iff.1 h
  by_cases hl : l = k
  · subst hl
    exact .inr ⟨act, by simpa using ht⟩
  · exact .inl (Function.update_of_ne hl ..)

/-- **What a lock goes through is a run of the one-lock machine.** -/
theorem run_lock (h : Run step anyStep System.start as s) (l : L) :
    ∃ acts, Run LockCache.step anyStep State.start acts (s.locks l) :=
  h.project LockCache.step (fun s : System L C T => s.locks l)
    fun _ _ _ hs => step_lock hs l

theorem sound (h : Run step anyStep System.start as s) (l : L) : Sound (s.locks l) := by
  obtain ⟨acts, hacts⟩ := run_lock h l
  exact hacts.invariant Sound.start fun _ _ _ hs _ => hs.step

end System

/-! ## Mutual exclusion -/

namespace Sound

variable {s : State C T} {a b : Thread C T} {x : C}

/-- The client of a thread that has the lock is the recorded holder. -/
theorem inside_holder (h : Sound s) (ha : s.threads a = .inside) :
    s.server.acquiredId = some a.1 := by
  obtain ⟨d, hi, hm⟩ := h
  have hc := hm.charge_own (a := a) (by rw [ha]; rfl)
  rw [hm.server]
  exact (hi.fits a.1).holds.2 (.inr (.inr (.inl (Desk.stage_eq hc))))

theorem free_holder (h : Sound s) (hx : (s.info x).state = .free) :
    s.server.acquiredId = some x := by
  obtain ⟨d, hi, hm⟩ := h
  rw [hm.server]
  exact (hi.fits x).holds.2 (.inl (hm.state x ▸ hx))

/-- At a client one thread has the lock. -/
theorem inside_unique (h : Sound s) (ha : s.threads a = .inside) (hb : s.threads b = .inside) :
    a = b := by
  have hab : some a.1 = some b.1 := (h.inside_holder ha).symm.trans (h.inside_holder hb)
  obtain ⟨d, hi, hm⟩ := h
  have hca := hm.charge_own (a := a) (by rw [ha]; rfl)
  have hcb := hm.charge_own (a := b) (by rw [hb]; rfl)
  rw [← Option.some_inj.1 hab, hca] at hcb
  exact (Prod.mk.inj (Option.some_inj.1 hcb)).1

end Sound

/-- At most one thread has the lock, and a client that could give it to its threads is the recorded
holder. -/
structure State.Exclusive (s : State C T) : Prop where
  one : ∀ a b, s.threads a = .inside → s.threads b = .inside → a = b
  holder : ∀ c, (s.info c).state = .free ∨ (∃ t, s.threads (c, t) = .inside) →
    s.server.acquiredId = some c

/-- **No two threads have a lock at once**, whichever way the calls overtake each other. -/
theorem lock_exclusive [DecidableEq L] [DecidableEq C] [DecidableEq T] {s : System L C T}
    {as : List (L × Action C T)} (h : Run System.step anyStep System.start as s) (l : L) :
    (s.locks l).Exclusive := by
  have hs := System.sound h l
  refine ⟨fun a b => hs.inside_unique, ?_⟩
  rintro c (hc | ⟨t, ht⟩)
  · exact hs.free_holder hc
  · exact hs.inside_holder ht

/-- Client `false` is granted the lock, client `true` asks for it, and the server's `revoke` call
arrives before its `OK` does. -/
def overtaken : List (Unit × Action Bool Unit) :=
  [((), .acquire (false, ())), ((), .resume (false, ()) none), ((), .acquire (true, ())),
    ((), .resume (true, ()) none), ((), .resume (true, ()) none), ((), .resume (false, ()) none)]

theorem lock_exclusive_overtaken : ∃ s, Run System.step anyStep System.start overtaken s ∧
    (s.locks ()).threads (false, ()) = .inside ∧ ((s.locks ()).info false).toRevoke = true ∧
    (s.locks ()).Exclusive := by
  have hrun : (execute System.step System.start overtaken).map (fun s =>
      ((s.locks ()).threads (false, ()), ((s.locks ()).info false).toRevoke)) =
      some (.inside, true) := by decide +kernel
  obtain ⟨s, hs, hend⟩ := Option.map_eq_some_iff.1 hrun
  obtain ⟨hin, hrevoke⟩ := Prod.mk.inj hend
  exact ⟨s, .of_execute hs, hin, hrevoke, lock_exclusive (.of_execute hs) ()⟩

end LockCache
end CseLab
