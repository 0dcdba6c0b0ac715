import CseLab.LockCache.Machine

/-!
# The protocol between the server and its clients

`Desk` is the cached-lock protocol with the threads taken away.  A client that does something about
the lock has one activity, which `charge` says, and one `revoke` call and one `retry` call may be on
their way to it.  `A` is whatever the activities and the calls are told apart by.

The invariant (`Fits`) says of each client how what it has, what it is doing and what is on its way
to it go together with the server's record, and rests on two tokens.  While the queue is not empty
and a client has the lock, there is a *demand* for it, and one only: the `revoke` call, the flag
`toRevoke`, the state `RELEASING`, or the `release` call.  While the queue is not empty and nobody
has the lock, there is a *ticket*, one only and the front client's: the `retry` call, the flag
`toRetry`, or the renewed `acquire` call.  So the server, which lets the client at the front of the
queue have the lock whenever it asks, is asked by it only after the lock has been given back.
-/

set_option autoImplicit false

namespace CseLab
namespace LockCache

/-! ## The protocol -/

/-- How far a client's activity is. -/
inductive Stage
  /-- The `acquire` call is on its way to the server. -/
  | asking
  /-- The server's answer is `RETRY`. -/
  | queued
  /-- The server's answer is `OK`. -/
  | granted
  /-- A thread has the lock. -/
  | inside
  /-- The `release` call is on its way to the server. -/
  | giving
  /-- The server has dealt with it. -/
  | given
  deriving DecidableEq

/-- A client, and what is on its way to it. -/
structure Client (A : Type) where
  state : ClientState
  toRevoke : Bool
  toRetry : Bool
  charge : Option (A × Stage)
  revoke : Option A
  retry : Option A

/-- How far its activity is, if it has one. -/
def Client.stage {A : Type} (c : Client A) : Option Stage := c.charge.map Prod.snd

/-- The server and the clients. -/
structure Desk (A C : Type) where
  server : ServerInfo C
  client : C → Client A

namespace Desk

variable {A C : Type} [DecidableEq C]

/-- The client `x` becomes `c`. -/
def set (d : Desk A C) (x : C) (c : Client A) : Desk A C :=
  { d with client := Function.update d.client x c }

/-- One step of the protocol. -/
inductive Step (d : Desk A C) : Desk A C → Prop
  | ask {x : C} (a : A) (hs : (d.client x).state = .none) :
      Step d (d.set x { d.client x with state := .acquiring, charge := some (a, .asking) })
  | use {x : C} (a : A) (hs : (d.client x).state = .free) :
      Step d (d.set x { d.client x with state := .used, charge := some (a, .inside) })
  | grantFree {a : A} {x : C} (hc : (d.client x).charge = some (a, .asking))
      (hs : d.server.state = .free) :
      Step d ({ d with server := ⟨.used, some x, d.server.waitingIds⟩ }.set x
        { d.client x with charge := some (a, .granted) })
  | contend {a : A} {x y : C} (hc : (d.client x).charge = some (a, .asking))
      (hs : d.server.state = .used) (hy : d.server.acquiredId = some y) (hxy : x ≠ y) :
      Step d (({ d with server := ⟨.toRevoke, some y, d.server.waitingIds ++ [x]⟩ }.set x
        { d.client x with charge := some (a, .queued) }).set y
        { d.client y with revoke := some a })
  | grantLast {a : A} {x : C} (hc : (d.client x).charge = some (a, .asking))
      (hs : d.server.state = .toRevoke) (hw : d.server.waitingIds = [x]) :
      Step d ({ d with server := ⟨.used, some x, []⟩ }.set x
        { d.client x with charge := some (a, .granted) })
  | grantNext {a : A} {x : C} {w : List C} (hc : (d.client x).charge = some (a, .asking))
      (hs : d.server.state = .toRevoke) (hw : d.server.waitingIds = x :: w) (hne : w ≠ []) :
      Step d ({ d with server := ⟨.toRevoke, some x, w⟩ }.set x
        { d.client x with charge := some (a, .granted), revoke := some a })
  | queue {a : A} {x : C} (hc : (d.client x).charge = some (a, .asking))
      (hs : d.server.state = .toRevoke) (hw : d.server.waitingIds.head? ≠ some x) :
      Step d ({ d with
        server := ⟨.toRevoke, d.server.acquiredId, d.server.waitingIds ++ [x]⟩ }.set x
        { d.client x with charge := some (a, .queued) })
  | revokeFree {a : A} {x : C} (hr : (d.client x).revoke = some a)
      (hs : (d.client x).state = .free) :
      Step d (d.set x
        { d.client x with state := .releasing, charge := some (a, .giving), revoke := none })
  | revokeUsed {a : A} {x : C} (hr : (d.client x).revoke = some a)
      (hs : (d.client x).state = .used) :
      Step d (d.set x { d.client x with state := .releasing, revoke := none })
  | revokeElse {a : A} {x : C} (hr : (d.client x).revoke = some a)
      (hf : (d.client x).state ≠ .free) (hu : (d.client x).state ≠ .used) :
      Step d (d.set x { d.client x with toRevoke := true, revoke := none })
  | giveBack {a : A} {x y : C} (hc : (d.client x).charge = some (a, .giving))
      (hs : d.server.state = .toRevoke) (hw : d.server.waitingIds.head? = some y) (hxy : x ≠ y) :
      Step d (({ d with server := ⟨.toRevoke, none, d.server.waitingIds⟩ }.set x
        { d.client x with charge := some (a, .given) }).set y
        { d.client y with retry := some a })
  | retried {a : A} {x : C} (hr : (d.client x).retry = some a) :
      Step d (d.set x { d.client x with toRetry := true, retry := none })
  | back {a : A} {x : C} (hc : (d.client x).charge = some (a, .given)) :
      Step d (d.set x { d.client x with state := .none, charge := none })
  | arrive {a : A} {x : C} (hc : (d.client x).charge = some (a, .granted)) :
      Step d (d.set x { d.client x with state := .used, charge := some (a, .inside) })
  | again {a : A} {x : C} (hc : (d.client x).charge = some (a, .queued))
      (ht : (d.client x).toRetry = true) :
      Step d (d.set x { d.client x with toRetry := false, charge := some (a, .asking) })
  | leave {a : A} {x : C} (hc : (d.client x).charge = some (a, .inside))
      (hr : (d.client x).toRevoke = true ∨ (d.client x).state = .releasing) :
      Step d (d.set x { d.client x with toRevoke := false, charge := some (a, .giving) })
  | keep {a : A} {x : C} (hc : (d.client x).charge = some (a, .inside))
      (hr : (d.client x).toRevoke = false) (hs : (d.client x).state = .used) :
      Step d (d.set x { d.client x with state := .free, charge := none })

end Desk

/-! ## The invariant -/

/-- The server's record is in order. -/
structure ServerInfo.Tidy {C : Type} (i : ServerInfo C) : Prop where
  free : i.state = .free → i.acquiredId = none ∧ i.waitingIds = []
  used : i.state = .used → i.acquiredId ≠ none ∧ i.waitingIds = []
  toRevoke : i.state = .toRevoke → i.waitingIds ≠ []
  nodup : i.waitingIds.Nodup

theorem ServerInfo.Tidy.alone {C : Type} (x : C) : ServerInfo.Tidy ⟨.used, some x, []⟩ :=
  ⟨nofun, fun _ => ⟨nofun, rfl⟩, nofun, List.nodup_nil⟩

theorem ServerInfo.Tidy.crowded {C : Type} (x : Option C) {w : List C} (hne : w ≠ [])
    (hw : w.Nodup) : ServerInfo.Tidy ⟨.toRevoke, x, w⟩ :=
  ⟨nofun, nofun, fun _ => hne, hw⟩

/-- The client `x` is `c` in a way that goes with the server's record. -/
structure Fits {A C : Type} (i : ServerInfo C) (x : C) (c : Client A) : Prop where
  rest : c.stage = none ↔ c.state = .none ∨ c.state = .free
  acquiring : c.state = .acquiring ↔
    c.stage = some .asking ∨ c.stage = some .queued ∨ c.stage = some .granted
  /-- The recorded holder is the client that has the lock, or will when the server's answer arrives,
  or has until the server hears from it. -/
  holds : i.acquiredId = some x ↔ c.state = .free ∨
    c.stage = some .granted ∨ c.stage = some .inside ∨ c.stage = some .giving
  waits : x ∈ i.waitingIds → c.stage = some .queued ∨ c.stage = some .asking
  queued : c.stage = some .queued → x ∈ i.waitingIds
  /-- A ticket is the front client's. -/
  retry : c.retry ≠ none → i.waitingIds.head? = some x ∧ i.acquiredId = none ∧
    c.toRetry = false ∧ c.stage = some .queued
  toRetry : c.toRetry = true → i.waitingIds.head? = some x ∧ i.acquiredId = none ∧
    c.stage = some .queued
  renewed : c.stage = some .asking → x ∈ i.waitingIds → i.waitingIds.head? = some x ∧
    i.acquiredId = none
  /-- There is one. -/
  ticket : i.waitingIds.head? = some x → i.acquiredId = none →
    c.retry ≠ none ∨ c.toRetry = true ∨ c.stage = some .asking
  /-- A demand is for the client that has the lock. -/
  revoke : c.revoke ≠ none → i.acquiredId = some x ∧ i.state = .toRevoke ∧
    c.toRevoke = false ∧ c.state ≠ .releasing ∧ c.stage ≠ some .giving
  toRevoke : c.toRevoke = true → i.acquiredId = some x ∧ i.state = .toRevoke ∧
    c.state ≠ .releasing ∧ c.stage ≠ some .giving
  wanted : c.state = .releasing ∨ c.stage = some .giving → i.acquiredId = some x →
    i.state = .toRevoke
  /-- There is one. -/
  demand : i.state = .toRevoke → i.acquiredId = some x →
    c.revoke ≠ none ∨ c.toRevoke = true ∨ c.state = .releasing ∨ c.stage = some .giving

namespace Desk

variable {A C : Type}

/-- What holds in every run of the protocol. -/
structure Inv (d : Desk A C) : Prop where
  tidy : d.server.Tidy
  fits : ∀ x, Fits d.server x (d.client x)

end Desk

attribute [grind =] Client.stage
attribute [grind cases eager] Fits ServerInfo.Tidy

namespace Fits

variable {A C : Type} {i : ServerInfo C} {x y : C} {c : Client A} {a : A} {w : List C}

/-! ### What one client does -/

theorem ask (h : Fits i x c) (hs : c.state = .none) :
    Fits i x { c with state := .acquiring, charge := some (a, .asking) } := by
  constructor <;> grind

theorem use (h : Fits i x c) (hs : c.state = .free) :
    Fits i x { c with state := .used, charge := some (a, .inside) } := by
  constructor <;> grind

theorem revokeFree (h : Fits i x c) (hr : c.revoke = some a) (hs : c.state = .free) :
    Fits i x { c with state := .releasing, charge := some (a, .giving), revoke := none } := by
  constructor <;> grind

theorem revokeUsed (h : Fits i x c) (hr : c.revoke = some a) (hs : c.state = .used) :
    Fits i x { c with state := .releasing, revoke := none } := by
  constructor <;> grind

theorem revokeElse (h : Fits i x c) (hr : c.revoke = some a) (hf : c.state ≠ .free) :
    Fits i x { c with toRevoke := true, revoke := none } := by
  constructor <;> grind

theorem retried (h : Fits i x c) (hr : c.retry = some a) :
    Fits i x { c with toRetry := true, retry := none } := by
  constructor <;> grind

theorem back (h : Fits i x c) (hc : c.charge = some (a, .given)) :
    Fits i x { c with state := .none, charge := none } := by
  constructor <;> grind

theorem arrive (h : Fits i x c) (hc : c.charge = some (a, .granted)) :
    Fits i x { c with state := .used, charge := some (a, .inside) } := by
  constructor <;> grind

theorem again (h : Fits i x c) (ht : c.toRetry = true) :
    Fits i x { c with toRetry := false, charge := some (a, .asking) } := by
  constructor <;> grind

theorem leave (h : Fits i x c) (hc : c.charge = some (a, .inside))
    (hr : c.toRevoke = true ∨ c.state = .releasing) :
    Fits i x { c with toRevoke := false, charge := some (a, .giving) } := by
  constructor <;> grind

theorem keep (h : Fits i x c) (hc : c.charge = some (a, .inside)) (hr : c.toRevoke = false)
    (hs : c.state = .used) : Fits i x { c with state := .free, charge := none } := by
  constructor <;> grind

/-! ### What the server does -/

theorem grantFree (h : Fits i x c) (ht : i.Tidy) (hc : c.charge = some (a, .asking))
    (hs : i.state = .free) :
    Fits ⟨.used, some x, i.waitingIds⟩ x { c with charge := some (a, .granted) } := by
  constructor <;> grind

theorem grantFree_other (h : Fits i y c) (ht : i.Tidy) (hyx : y ≠ x) (hs : i.state = .free) :
    Fits ⟨.used, some x, i.waitingIds⟩ y c := by
  constructor <;> grind

theorem contend (h : Fits i x c) (ht : i.Tidy) (hc : c.charge = some (a, .asking))
    (hs : i.state = .used) (hy : i.acquiredId = some y) :
    Fits ⟨.toRevoke, some y, i.waitingIds ++ [x]⟩ x { c with charge := some (a, .queued) } := by
  constructor <;> grind

theorem contend_holder (h : Fits i y c) (ht : i.Tidy) (hyx : y ≠ x) (hs : i.state = .used)
    (hy : i.acquiredId = some y) :
    Fits ⟨.toRevoke, some y, i.waitingIds ++ [x]⟩ y { c with revoke := some a } := by
  constructor <;> grind

theorem contend_other {z : C} (h : Fits i z c) (ht : i.Tidy) (hzx : z ≠ x) (hzy : z ≠ y)
    (hs : i.state = .used) (hy : i.acquiredId = some y) :
    Fits ⟨.toRevoke, some y, i.waitingIds ++ [x]⟩ z c := by
  constructor <;> grind

theorem grantLast (h : Fits i x c) (hc : c.charge = some (a, .asking)) (hw : i.waitingIds = [x]) :
    Fits ⟨.used, some x, []⟩ x { c with charge := some (a, .granted) } := by
  constructor <;> grind

theorem grantLast_other (h : Fits i y c) (hyx : y ≠ x) (hw : i.waitingIds = [x])
    (hn : i.acquiredId = none) : Fits ⟨.used, some x, []⟩ y c := by
  constructor <;> grind

theorem grantNext (h : Fits i x c) (ht : i.Tidy) (hc : c.charge = some (a, .asking))
    (hw : i.waitingIds = x :: w) :
    Fits ⟨.toRevoke, some x, w⟩ x { c with charge := some (a, .granted), revoke := some a } := by
  constructor <;> grind

theorem grantNext_other (h : Fits i y c) (hyx : y ≠ x) (hw : i.waitingIds = x :: w)
    (hn : i.acquiredId = none) :
    Fits ⟨.toRevoke, some x, w⟩ y c := by
  constructor <;> grind

/-- The front of a queue that is not empty stays where it is. -/
theorem head_push (ht : i.Tidy) (hs : i.state = .toRevoke) (x : C) :
    (i.waitingIds ++ [x]).head? = i.waitingIds.head? := by
  cases hw : i.waitingIds with
  | nil => exact absurd hw (ht.toRevoke hs)
  | cons y w => rfl

theorem queue (h : Fits i x c) (ht : i.Tidy) (hc : c.charge = some (a, .asking))
    (hs : i.state = .toRevoke) (hw : i.waitingIds.head? ≠ some x) :
    Fits ⟨.toRevoke, i.acquiredId, i.waitingIds ++ [x]⟩ x
      { c with charge := some (a, .queued) } := by
  have hhead := head_push ht hs x
  constructor <;> grind

theorem queue_other (h : Fits i y c) (ht : i.Tidy) (hyx : y ≠ x) (hs : i.state = .toRevoke) :
    Fits ⟨.toRevoke, i.acquiredId, i.waitingIds ++ [x]⟩ y c := by
  have hhead := head_push ht hs x
  constructor <;> grind

theorem giveBack (h : Fits i x c) (hc : c.charge = some (a, .giving)) :
    Fits ⟨.toRevoke, none, i.waitingIds⟩ x { c with charge := some (a, .given) } := by
  constructor <;> grind [List.mem_of_head?]

theorem giveBack_front (h : Fits i y c) (hyx : y ≠ x) (hx : i.acquiredId = some x)
    (hw : i.waitingIds.head? = some y) :
    Fits ⟨.toRevoke, none, i.waitingIds⟩ y { c with retry := some a } := by
  have hmem := List.mem_of_head? hw
  constructor <;> grind

theorem giveBack_other {z : C} (h : Fits i z c) (hzx : z ≠ x) (hzy : z ≠ y)
    (hx : i.acquiredId = some x) (hw : i.waitingIds.head? = some y) :
    Fits ⟨.toRevoke, none, i.waitingIds⟩ z c := by
  have hmem := List.mem_of_head? hw
  constructor <;> grind

end Fits

namespace Desk

variable {A C : Type} [DecidableEq C] {d d' : Desk A C} {i : ServerInfo C} {x y : C}
  {c e : Client A}
  {a : A}

/-- Only `x` changes, besides the server. -/
theorem Inv.set (ht : i.Tidy) (hx : Fits i x c)
    (hother : ∀ z, z ≠ x → Fits i z (d.client z)) : Inv (({ d with server := i }).set x c) := by
  refine ⟨ht, fun z => ?_⟩
  by_cases hz : z = x
  · subst hz
    simpa [Desk.set] using hx
  · simpa [Desk.set, hz] using hother z hz

/-- Only `x` and `y` change, besides the server. -/
theorem Inv.set_both (ht : i.Tidy) (hx : Fits i x c) (hy : Fits i y e) (hxy : x ≠ y)
    (hother : ∀ z, z ≠ x → z ≠ y → Fits i z (d.client z)) :
    Inv ((({ d with server := i }).set x c).set y e) := by
  refine Inv.set (d := { d with server := i }.set x c) ht hy fun z hzy => ?_
  by_cases hz : z = x
  · subst hz
    simpa [Desk.set] using hx
  · simpa [Desk.set, hz] using hother z hz hzy

/-- Only `x` changes. -/
theorem Inv.move (h : d.Inv) (hx : Fits d.server x c) : Inv (d.set x c) :=
  Inv.set h.tidy hx fun z _ => h.fits z

omit [DecidableEq C]

theorem stage_eq {g : Stage} (hc : c.charge = some (a, g)) : c.stage = some g := by
  rw [Client.stage, hc]
  rfl

/-- The client at the front that asks has the ticket: nobody has the lock. -/
theorem Inv.nobody (h : d.Inv) {w : List C} (hc : (d.client x).charge = some (a, .asking))
    (hw : d.server.waitingIds = x :: w) : d.server.acquiredId = none :=
  ((h.fits x).renewed (stage_eq hc) (hw ▸ List.mem_cons_self)).2

theorem Inv.holder (h : d.Inv) (hc : (d.client x).charge = some (a, .giving)) :
    d.server.acquiredId = some x :=
  (h.fits x).holds.2 (.inr (.inr (.inr (stage_eq hc))))

/-- **The invariant is kept by every step.** -/
theorem Inv.step [DecidableEq C] (h : d.Inv) (hs : Step d d') : d'.Inv := by
  have ht := h.tidy
  cases hs with
  | ask a hs => exact h.move ((h.fits _).ask hs)
  | use a hs => exact h.move ((h.fits _).use hs)
  | @grantFree a x hc hs =>
    refine Inv.set ?_ ((h.fits x).grantFree ht hc hs) fun z hz =>
      (h.fits z).grantFree_other ht hz hs
    rw [(ht.free hs).2]
    exact .alone x
  | @contend a x y hc hs hy hxy =>
    refine Inv.set_both ?_ ((h.fits x).contend ht hc hs hy)
      ((h.fits y).contend_holder ht (Ne.symm hxy) hs hy) hxy
      fun z hzx hzy => (h.fits z).contend_other ht hzx hzy hs hy
    rw [(ht.used hs).2]
    exact .crowded _ (by simp) (by simp)
  | @grantLast a x hc hs hw =>
    exact Inv.set (.alone x) ((h.fits x).grantLast hc hw) fun z hz =>
      (h.fits z).grantLast_other hz hw (h.nobody hc hw)
  | @grantNext a x w hc hs hw hne =>
    have hnodup : w.Nodup := (List.nodup_cons.1 (hw ▸ ht.nodup)).2
    exact Inv.set (.crowded _ hne hnodup) ((h.fits x).grantNext ht hc hw) fun z hz =>
      (h.fits z).grantNext_other hz hw (h.nobody hc hw)
  | @queue a x hc hs hw =>
    have hnot : x ∉ d.server.waitingIds := fun hmem => hw ((h.fits x).renewed (stage_eq hc) hmem).1
    have hnodup : (d.server.waitingIds ++ [x]).Nodup := by
      rw [List.nodup_append]
      exact ⟨ht.nodup, List.nodup_singleton x, fun y hy z hz => by
        rw [List.mem_singleton.1 hz]
        rintro rfl
        exact hnot hy⟩
    exact Inv.set (.crowded _ (by simp) hnodup) ((h.fits x).queue ht hc hs hw) fun z hz =>
      (h.fits z).queue_other ht hz hs
  | revokeFree hr hs => exact h.move ((h.fits _).revokeFree hr hs)
  | revokeUsed hr hs => exact h.move ((h.fits _).revokeUsed hr hs)
  | revokeElse hr hf _ => exact h.move ((h.fits _).revokeElse hr hf)
  | @giveBack a x y hc hs hw hxy =>
    exact Inv.set_both (.crowded _ (ht.toRevoke hs) ht.nodup) ((h.fits x).giveBack hc)
      ((h.fits y).giveBack_front (Ne.symm hxy) (h.holder hc) hw) hxy
      fun z hzx hzy => (h.fits z).giveBack_other hzx hzy (h.holder hc) hw
  | retried hr => exact h.move ((h.fits _).retried hr)
  | back hc => exact h.move ((h.fits _).back hc)
  | arrive hc => exact h.move ((h.fits _).arrive hc)
  | again _ ht => exact h.move ((h.fits _).again ht)
  | leave hc hr => exact h.move ((h.fits _).leave hc hr)
  | keep hc hr hs => exact h.move ((h.fits _).keep hc hr hs)

end Desk

end LockCache
end CseLab
