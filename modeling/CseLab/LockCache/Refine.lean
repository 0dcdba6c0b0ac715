import CseLab.LockCache.Protocol
import Mathlib.Logic.Relation

/-!
# The machine follows the protocol

`Mirrors s d` says that `d` is what the protocol sees of `s`: of every program point only whose
activity it belongs to and which calls it has in flight.  `simulation` says that whatever the
machine does from `s`, the protocol can do from `d`, so its invariant holds of the machine
(`Sound`).
-/

set_option autoImplicit false

namespace CseLab
namespace LockCache

open Relation

variable {C T : Type}

/-! ## What a program point says -/

/-- How far a client is whose `acquire` call is answered. -/
def Status.stage : Status → Stage
  | .ok => .granted
  | .retry => .queued

theorem Status.stage_ne_given (ret : Status) : ret.stage ≠ .giving ∧ ret.stage ≠ .given := by
  cases ret <;> simp [stage]

/-- How far a client is whose `release` call is on its way. -/
def ReleaseCall.stage : ReleaseCall C → Stage
  | .request => .giving
  | .retry _ | .retryReply | .reply => .given

/-- The client the `retry` call made for it is on its way to. -/
def ReleaseCall.retries : ReleaseCall C → Option C
  | .retry id => some id
  | .request | .retryReply | .reply => none

namespace Pc

/-- How far the activity of the thread's own client is, if the thread is in charge of it. -/
def own : Pc C → Option Stage
  | .idle | .lockWait | .lockWoken => none
  | .acquireRequest => some .asking
  | .revoke ret _ _ | .acquireReply ret => some ret.stage
  | .retryWait | .retryWoken => some .queued
  | .inside => some .inside
  | .release r => some r.stage

/-- The client whose `revoke_handler` gives the lock back on the way, and how far it is. -/
def handles : Pc C → Option (C × Stage)
  | .revoke _ id (.releasing r) => some (id, r.stage)
  | _ => none

/-- The client a `revoke` call is on its way to. -/
def revokes : Pc C → Option C
  | .revoke _ id .request => some id
  | _ => none

/-- The client a `retry` call is on its way to. -/
def retries : Pc C → Option C
  | .revoke _ _ (.releasing r) | .release r => r.retries
  | _ => none

/-- Thread `a`, at this point, is in charge of client `x`, whose activity is at `g`. -/
def InCharge (a : Thread C T) (pc : Pc C) (x : C) (g : Stage) : Prop :=
  (a.1 = x ∧ pc.own = some g) ∨ pc.handles = some (x, g)

end Pc

/-- What the protocol sees of the machine. -/
structure Mirrors (s : State C T) (d : Desk (Thread C T) C) : Prop where
  server : s.server = d.server
  alive : s.failed = false
  state : ∀ x, (s.info x).state = (d.client x).state
  toRevoke : ∀ x, (s.info x).toRevoke = (d.client x).toRevoke
  toRetry : ∀ x, (s.info x).toRetry = (d.client x).toRetry
  lockCond : ∀ x t, t ∈ (s.info x).lockCond ↔ s.threads (x, t) = .lockWait
  retryCond : ∀ x t, t ∈ (s.info x).retryCond ↔ s.threads (x, t) = .retryWait
  charge : ∀ x a g, (d.client x).charge = some (a, g) ↔ (s.threads a).InCharge a x g
  revoke : ∀ x a, (d.client x).revoke = some a ↔ (s.threads a).revokes = some x
  retry : ∀ x a, (d.client x).retry = some a ↔ (s.threads a).retries = some x

section fields

variable [DecidableEq C] [DecidableEq T] (s : State C T) (d : Desk (Thread C T) C)
  (a b : Thread C T) (c x : C) (i : ClientInfo T) (pc : Pc C) (e : Client (Thread C T))

@[grind =] theorem goto_server : (s.goto a pc).server = s.server := rfl

@[grind =] theorem goto_failed : (s.goto a pc).failed = s.failed := rfl

@[grind =] theorem goto_info : (s.goto a pc).info x = s.info x := rfl

@[grind =] theorem goto_threads :
    (s.goto a pc).threads b = if b = a then pc else s.threads b :=
  Function.update_apply ..

omit [DecidableEq T]

@[grind =] theorem setInfo_server : (s.setInfo c i).server = s.server := rfl

@[grind =] theorem setInfo_failed : (s.setInfo c i).failed = s.failed := rfl

@[grind =] theorem setInfo_threads : (s.setInfo c i).threads b = s.threads b := rfl

@[grind =] theorem setInfo_info : (s.setInfo c i).info x = if x = c then i else s.info x := by
  by_cases hx : x = c
  · subst hx
    simp [State.setInfo, State.info]
  · simp [State.setInfo, State.info, hx]

@[grind =] theorem set_server : (d.set c e).server = d.server := rfl

@[grind =] theorem set_client : (d.set c e).client x = if x = c then e else d.client x :=
  Function.update_apply ..

omit [DecidableEq C]

@[grind =] theorem withServer_info (k : ServerInfo C) :
    ({ s with server := k } : State C T).info x = s.info x := rfl

end fields

attribute [grind =] Status.stage ReleaseCall.stage ReleaseCall.retries Pc.own Pc.handles Pc.revokes
  Pc.retries Pc.InCharge
attribute [grind cases eager] Mirrors

/-- The two places from which a client's `release` call is made: `release` itself, and
`revoke_handler`.  With the client go the points of the call and the one after it. -/
inductive Chain (a : Thread C T) : C → (ReleaseCall C → Pc C) → Pc C → Prop
  | own : Chain a a.1 .release .idle
  | handler (ret : Status) (id : C) :
      Chain a id (fun r => .revoke ret id (.releasing r)) (.revoke ret id .reply)

namespace Mirrors

variable {s s' : State C T} {d : Desk (Thread C T) C} {a : Thread C T} {w : Option T}
  {x y : C} {pc : ReleaseCall C → Pc C} {after : Pc C} {ret : Status}

/-- A thread in charge of its own client. -/
theorem charge_own {g : Stage} (h : Mirrors s d) (ha : (s.threads a).own = some g) :
    (d.client a.1).charge = some (a, g) :=
  (h.charge a.1 a g).2 (.inl ⟨rfl, ha⟩)

/-- The thread a `release` call is made for is in charge. -/
theorem charge_chain (h : Mirrors s d) (hchain : Chain a x pc after) {r : ReleaseCall C}
    (ha : s.threads a = pc r) :
    (d.client x).charge = some (a, r.stage) := by
  cases hchain <;> grind

variable [DecidableEq C] [DecidableEq T]

/-! ### What a client does -/

/-- A thread that looks at the state and finds the lock at no client. -/
theorem ask (h : Mirrors s d) (ha : s.threads a = .idle ∨ s.threads a = .lockWoken)
    (hc : (d.client a.1).charge = none) :
    Mirrors ((s.setInfo a.1 { s.info a.1 with state := .acquiring }).goto a .acquireRequest)
      (d.set a.1 { d.client a.1 with state := .acquiring, charge := some (a, .asking) }) := by
  constructor <;> grind

theorem use (h : Mirrors s d) (ha : s.threads a = .idle ∨ s.threads a = .lockWoken)
    (hc : (d.client a.1).charge = none) :
    Mirrors ((s.setInfo a.1 { s.info a.1 with state := .used }).goto a .inside)
      (d.set a.1 { d.client a.1 with state := .used, charge := some (a, .inside) }) := by
  constructor <;> grind

theorem lockWait (h : Mirrors s d) (ha : s.threads a = .idle ∨ s.threads a = .lockWoken) :
    Mirrors ((s.setInfo a.1
      { s.info a.1 with lockCond := insert a.2 (s.info a.1).lockCond }).goto a .lockWait) d := by
  constructor <;> grind

theorem again (h : Mirrors s d) (hc : (d.client a.1).charge = some (a, .queued))
    (ha : s.threads a = .acquireReply .retry ∨ s.threads a = .retryWoken) :
    Mirrors ((s.setInfo a.1 { s.info a.1 with toRetry := false }).goto a .acquireRequest)
      (d.set a.1 { d.client a.1 with toRetry := false, charge := some (a, .asking) }) := by
  constructor <;> grind

theorem retryWait (h : Mirrors s d)
    (ha : s.threads a = .acquireReply .retry ∨ s.threads a = .retryWoken) :
    Mirrors ((s.setInfo a.1
      { s.info a.1 with retryCond := insert a.2 (s.info a.1).retryCond }).goto a .retryWait) d := by
  constructor <;> grind

theorem arrive (h : Mirrors s d) (hc : (d.client a.1).charge = some (a, .granted))
    (ha : s.threads a = .acquireReply .ok) :
    Mirrors ((s.setInfo a.1 { s.info a.1 with state := .used }).goto a .inside)
      (d.set a.1 { d.client a.1 with state := .used, charge := some (a, .inside) }) := by
  constructor <;> grind

theorem leave (h : Mirrors s d) (hc : (d.client a.1).charge = some (a, .inside))
    (ha : s.threads a = .inside) :
    Mirrors ((s.setInfo a.1 { s.info a.1 with toRevoke := false }).goto a (.release .request))
      (d.set a.1 { d.client a.1 with toRevoke := false, charge := some (a, .giving) }) := by
  constructor <;> grind

theorem keep (h : Mirrors s d) (hc : (d.client a.1).charge = some (a, .inside))
    (ha : s.threads a = .inside) :
    Mirrors ((s.setInfo a.1 { s.info a.1 with state := .free }).goto a .idle)
      (d.set a.1 { d.client a.1 with state := .free, charge := none }) := by
  constructor <;> grind

theorem back (h : Mirrors s d) (hchain : Chain a x pc after)
    (hc : (d.client x).charge = some (a, .given)) (ha : s.threads a = pc .reply) :
    Mirrors ((s.setInfo x { s.info x with state := .none }).goto a after)
      (d.set x { d.client x with state := .none, charge := none }) := by
  cases hchain with
  | own => constructor <;> grind
  | handler ret =>
    have hret := ret.stage_ne_given
    constructor <;> grind

/-! ### What the handlers of a client do -/

theorem revokeFree (h : Mirrors s d) (hr : (d.client x).revoke = some a)
    (ha : s.threads a = .revoke ret x .request) (hc : (d.client x).charge = none) :
    Mirrors ((s.setInfo x { s.info x with state := .releasing }).goto a
        (.revoke ret x (.releasing .request)))
      (d.set x { d.client x with
        state := .releasing, charge := some (a, .giving), revoke := none }) := by
  constructor <;> grind

theorem revokeUsed (h : Mirrors s d) (hr : (d.client x).revoke = some a)
    (ha : s.threads a = .revoke ret x .request) :
    Mirrors ((s.setInfo x { s.info x with state := .releasing }).goto a (.revoke ret x .reply))
      (d.set x { d.client x with state := .releasing, revoke := none }) := by
  constructor <;> grind

theorem revokeElse (h : Mirrors s d) (hr : (d.client x).revoke = some a)
    (ha : s.threads a = .revoke ret x .request) :
    Mirrors ((s.setInfo x { s.info x with toRevoke := true }).goto a (.revoke ret x .reply))
      (d.set x { d.client x with toRevoke := true, revoke := none }) := by
  constructor <;> grind

theorem retried (h : Mirrors s d) (hchain : Chain a x pc after)
    (hr : (d.client y).retry = some a) (ha : s.threads a = pc (.retry y)) :
    Mirrors ((s.setInfo y { s.info y with toRetry := true }).goto a (pc .retryReply))
      (d.set y { d.client y with toRetry := true, retry := none }) := by
  cases hchain <;> constructor <;> grind

/-! ### What the server does -/

theorem grantFree (h : Mirrors s d) (hc : (d.client a.1).charge = some (a, .asking))
    (ha : s.threads a = .acquireRequest) :
    Mirrors (({ s with server := ⟨.used, some a.1, s.server.waitingIds⟩ }).goto a
        (.acquireReply .ok))
      (({ d with server := ⟨.used, some a.1, d.server.waitingIds⟩ }).set a.1
        { d.client a.1 with charge := some (a, .granted) }) := by
  constructor <;> grind

theorem contend (h : Mirrors s d) (hc : (d.client a.1).charge = some (a, .asking))
    (ha : s.threads a = .acquireRequest) (hr : (d.client y).revoke = none) (hxy : a.1 ≠ y) :
    Mirrors (({ s with server := ⟨.toRevoke, some y, s.server.waitingIds ++ [a.1]⟩ }).goto a
        (.revoke .retry y .request))
      ((({ d with server := ⟨.toRevoke, some y, d.server.waitingIds ++ [a.1]⟩ }).set a.1
        { d.client a.1 with charge := some (a, .queued) }).set y
        { d.client y with revoke := some a }) := by
  have hserver := h.server
  constructor
  case charge =>
    intro z b g
    by_cases hb : b = a <;> by_cases hz : z = y <;> grind
  case revoke | retry =>
    intro z b
    by_cases hb : b = a <;> by_cases hz : z = y <;> grind
  all_goals grind

theorem grantLast (h : Mirrors s d) (hc : (d.client a.1).charge = some (a, .asking))
    (ha : s.threads a = .acquireRequest) :
    Mirrors (({ s with server := ⟨.used, some a.1, []⟩ }).goto a (.acquireReply .ok))
      (({ d with server := ⟨.used, some a.1, []⟩ }).set a.1
        { d.client a.1 with charge := some (a, .granted) }) := by
  constructor <;> grind

theorem grantNext (h : Mirrors s d) (hc : (d.client a.1).charge = some (a, .asking))
    (ha : s.threads a = .acquireRequest) (hr : (d.client a.1).revoke = none) (q : List C) :
    Mirrors (({ s with server := ⟨.toRevoke, some a.1, q⟩ }).goto a (.revoke .ok a.1 .request))
      (({ d with server := ⟨.toRevoke, some a.1, q⟩ }).set a.1
        { d.client a.1 with charge := some (a, .granted), revoke := some a }) := by
  constructor <;> grind

theorem queue (h : Mirrors s d) (hc : (d.client a.1).charge = some (a, .asking))
    (ha : s.threads a = .acquireRequest) :
    Mirrors (({ s with
        server := ⟨.toRevoke, s.server.acquiredId, s.server.waitingIds ++ [a.1]⟩ }).goto a
        (.acquireReply .retry))
      (({ d with
        server := ⟨.toRevoke, d.server.acquiredId, d.server.waitingIds ++ [a.1]⟩ }).set a.1
        { d.client a.1 with charge := some (a, .queued) }) := by
  constructor <;> grind

theorem giveBack (h : Mirrors s d) (hchain : Chain a x pc after)
    (hc : (d.client x).charge = some (a, .giving)) (ha : s.threads a = pc .request)
    (hr : (d.client y).retry = none) (hxy : x ≠ y) :
    Mirrors (({ s with server := ⟨.toRevoke, none, s.server.waitingIds⟩ }).goto a (pc (.retry y)))
      ((({ d with server := ⟨.toRevoke, none, d.server.waitingIds⟩ }).set x
        { d.client x with charge := some (a, .given) }).set y
        { d.client y with retry := some a }) := by
  obtain ⟨hserver, halive, hstate, hrevoke, hretry, hlock, hcond, hcharge, hrevokes, hretries⟩ := h
  cases hchain with
  | own =>
    constructor
    case charge =>
      intro z b g
      have hz := hcharge z b g
      by_cases hb : b = a <;> by_cases hzy : z = y <;> grind
    case revoke | retry =>
      intro z b
      have hz := hrevokes z b
      have hz' := hretries z b
      by_cases hb : b = a <;> by_cases hzy : z = y <;> grind
    all_goals grind
  | handler ret =>
    have hret := ret.stage_ne_given
    constructor
    case charge =>
      intro z b g
      have hz := hcharge z b g
      clear hrevokes hretries hlock hcond
      by_cases hb : b = a <;> by_cases hzy : z = y <;> by_cases hzx : z = x <;> grind
    case revoke | retry =>
      intro z b
      have hz := hrevokes z b
      have hz' := hretries z b
      clear hrevokes hcharge hlock hcond
      by_cases hb : b = a <;> by_cases hzy : z = y <;> by_cases hzx : z = x <;> grind
    all_goals grind

/-! ### What the protocol does not see -/

theorem retryReply (h : Mirrors s d) (hchain : Chain a x pc after)
    (ha : s.threads a = pc .retryReply) : Mirrors (s.goto a (pc .reply)) d := by
  cases hchain <;> constructor <;> grind

theorem revokeReply (h : Mirrors s d) (ha : s.threads a = .revoke ret x .reply) :
    Mirrors (s.goto a (.acquireReply ret)) d := by
  constructor <;> grind

theorem lockWoken (h : Mirrors s d) (ha : s.threads a = .lockWait) :
    Mirrors ((s.setInfo a.1
      { s.info a.1 with lockCond := (s.info a.1).lockCond.erase a.2 }).goto a .lockWoken) d := by
  constructor <;> grind

theorem retryWoken (h : Mirrors s d) (ha : s.threads a = .retryWait) :
    Mirrors ((s.setInfo a.1
      { s.info a.1 with retryCond := (s.info a.1).retryCond.erase a.2 }).goto a .retryWoken) d := by
  constructor <;> grind

theorem signalLock (h : Mirrors s d) (hs : s.signalLock x w = some s') : Mirrors s' d := by
  cases w with
  | none =>
    rw [State.signalLock] at hs
    split at hs
    · exact Option.some_inj.1 hs ▸ h
    · exact absurd hs (by simp)
  | some t =>
    rw [State.signalLock] at hs
    split at hs
    · rename_i ht
      exact Option.some_inj.1 hs ▸ h.lockWoken (a := (x, t)) ((h.lockCond x t).1 ht)
    · exact absurd hs (by simp)

theorem signalRetry (h : Mirrors s d) (hs : s.signalRetry x w = some s') : Mirrors s' d := by
  cases w with
  | none =>
    rw [State.signalRetry] at hs
    split at hs
    · exact Option.some_inj.1 hs ▸ h
    · exact absurd hs (by simp)
  | some t =>
    rw [State.signalRetry] at hs
    split at hs
    · rename_i ht
      exact Option.some_inj.1 hs ▸ h.retryWoken (a := (x, t)) ((h.retryCond x t).1 ht)
    · exact absurd hs (by simp)

end Mirrors

/-! ## The simulation -/

/-- What the protocol has to do for the machine to be at `s'` is nothing or one step. -/
def Follows [DecidableEq C] (d : Desk (Thread C T) C) (s' : State C T) : Prop :=
  ∃ d', ReflGen Desk.Step d d' ∧ Mirrors s' d'

theorem Mirrors.follows [DecidableEq C] {s : State C T} {d : Desk (Thread C T) C}
    (h : Mirrors s d) : Follows d s :=
  ⟨d, .refl, h⟩

theorem Mirrors.follows_step [DecidableEq C] {s : State C T} {d d' : Desk (Thread C T) C}
    (h : Mirrors s d') (hs : Desk.Step d d') : Follows d s :=
  ⟨d', .single hs, h⟩

theorem Follows.signalLock [DecidableEq C] [DecidableEq T] {s s' : State C T}
    {d : Desk (Thread C T) C} {c : C} {w : Option T} (h : Follows d s)
    (hs : s.signalLock c w = some s') : Follows d s' := by
  obtain ⟨d', hstep, hm⟩ := h
  exact ⟨d', hstep, hm.signalLock hs⟩

theorem Follows.signalRetry [DecidableEq C] [DecidableEq T] {s s' : State C T}
    {d : Desk (Thread C T) C} {c : C} {w : Option T} (h : Follows d s)
    (hs : s.signalRetry c w = some s') : Follows d s' := by
  obtain ⟨d', hstep, hm⟩ := h
  exact ⟨d', hstep, hm.signalRetry hs⟩

section sections

variable {s s' : State C T} {d : Desk (Thread C T) C} {a : Thread C T} {w : Option T} {x y : C}
  {pc : ReleaseCall C → Pc C} {after : Pc C} {ret : Status}

theorem Desk.Inv.charge_none (hi : d.Inv) (hs : (d.client x).state = .none ∨
    (d.client x).state = .free) : (d.client x).charge = none :=
  Option.map_eq_none_iff.1 ((hi.fits x).rest.2 hs)

/-- A client that has not heard of the lock has nothing to do with it. -/
theorem Mirrors.charge_unknown (h : Mirrors s d) (hi : d.Inv) (hx : s.clients x = none) :
    (d.client x).charge = none ∧ (d.client x).revoke = none ∧ (d.client x).retry = none := by
  have hstate : (d.client x).state = .none := by
    rw [← h.state x, State.info, hx]
    rfl
  have hc : (d.client x).charge = none := hi.charge_none (.inl hstate)
  have hg : (d.client x).stage = none := by rw [Client.stage, hc]; rfl
  refine ⟨hc, ?_, ?_⟩
  · by_contra hr
    have hx := (hi.fits x).holds.1 ((hi.fits x).revoke hr).1
    simp [hstate, hg] at hx
  · by_contra hr
    have hx := ((hi.fits x).retry hr).2.2.2
    simp [hg] at hx

variable [DecidableEq C] [DecidableEq T]

theorem Follows.lockSection (h : Mirrors s d) (hi : d.Inv)
    (ha : s.threads a = .idle ∨ s.threads a = .lockWoken) : Follows d (s.lockSection a) := by
  rw [State.lockSection]
  split
  next hs =>
    have hd := h.state a.1 ▸ hs
    exact (h.ask ha (hi.charge_none (.inl hd))).follows_step (.ask a hd)
  next hs =>
    have hd := h.state a.1 ▸ hs
    exact (h.use ha (hi.charge_none (.inr hd))).follows_step (.use a hd)
  next => exact (h.lockWait ha).follows

theorem Follows.retrySection (h : Mirrors s d)
    (ha : s.threads a = .acquireReply .retry ∨ s.threads a = .retryWoken) :
    Follows d (s.retrySection a) := by
  have hc : (d.client a.1).charge = some (a, .queued) :=
    h.charge_own (by rcases ha with ha | ha <;> rw [ha] <;> rfl)
  rw [State.retrySection]
  split
  next ht => exact (h.again hc ha).follows_step (.again hc (h.toRetry a.1 ▸ ht))
  next => exact (h.retryWait ha).follows

theorem Follows.acquired (h : Mirrors s d) (ha : s.threads a = .acquireReply ret) :
    Follows d (s.acquired a ret) := by
  have hc := h.charge_own (a := a) (by rw [ha]; rfl)
  cases ret with
  | ok => exact (h.arrive hc ha).follows_step (.arrive hc)
  | retry => exact Follows.retrySection h (.inl ha)

theorem Follows.releaseSection (h : Mirrors s d) (hi : d.Inv) (ha : s.threads a = .inside)
    (hs : s.releaseSection a w = some s') : Follows d s' := by
  have hc := h.charge_own (a := a) (by rw [ha]; rfl)
  have hstate := h.state a.1
  have hrevoke := h.toRevoke a.1
  rw [State.releaseSection] at hs
  cases hx : s.clients a.1 with
  | none => simp [(h.charge_unknown hi hx).1] at hc
  | some i =>
    have hinfo : s.info a.1 = i := by rw [State.info, hx]; rfl
    rw [hx] at hs
    rw [← hinfo] at hs
    by_cases hr : (s.info a.1).toRevoke ∨ (s.info a.1).state = .releasing
    · simp only [hr, if_true, Option.some_inj] at hs
      rw [hstate, hrevoke] at hr
      exact hs ▸ (h.leave hc ha).follows_step (.leave hc hr)
    · simp only [hr, if_false] at hs
      by_cases hu : (s.info a.1).state = .used
      · simp only [hu, if_true] at hs
        rw [not_or, Bool.not_eq_true, hrevoke] at hr
        exact Follows.signalLock
          ((h.keep hc ha).follows_step (.keep hc hr.1 (hstate ▸ hu))) hs
      · have hstage := Desk.stage_eq hc
        have hrest := (hi.fits a.1).rest
        have hacq := (hi.fits a.1).acquiring
        cases hst : (d.client a.1).state <;> simp_all

theorem Follows.released (h : Mirrors s d) (hchain : Chain a x pc after)
    (ha : s.threads a = pc .reply) (hs : s.released x w a after = some s') : Follows d s' := by
  have hc := h.charge_chain hchain ha
  exact Follows.signalLock ((h.back hchain hc ha).follows_step (.back hc)) hs

theorem Follows.revokeHandler (h : Mirrors s d) (hi : d.Inv)
    (ha : s.threads a = .revoke ret x .request) : Follows d (s.revokeHandler a ret x) := by
  have hr : (d.client x).revoke = some a := (h.revoke x a).2 (by rw [ha]; rfl)
  rw [State.revokeHandler]
  split
  next hx => simp [(h.charge_unknown hi hx).2.1] at hr
  next i hx =>
    have hinfo : i = s.info x := by rw [State.info, hx]; rfl
    have hstate := h.state x
    rw [hinfo]
    split
    next hs =>
      have hd := hstate ▸ hs
      exact (h.revokeFree hr ha (hi.charge_none (.inr hd))).follows_step (.revokeFree hr hd)
    next hs => exact (h.revokeUsed hr ha).follows_step (.revokeUsed hr (hstate ▸ hs))
    next hf hu =>
      exact (h.revokeElse hr ha).follows_step (.revokeElse hr (hstate ▸ hf) (hstate ▸ hu))

theorem Follows.retryHandler (h : Mirrors s d) (hi : d.Inv) (hchain : Chain a x pc after)
    (ha : s.threads a = pc (.retry y)) (hs : s.retryHandler a y (pc .retryReply) w = some s') :
    Follows d s' := by
  have hr : (d.client y).retry = some a :=
    (h.retry y a).2 (by rw [ha]; cases hchain <;> rfl)
  rw [State.retryHandler] at hs
  cases hy : s.clients y with
  | none => simp [(h.charge_unknown hi hy).2.2] at hr
  | some i =>
    have hinfo : s.info y = i := by rw [State.info, hy]; rfl
    rw [hy] at hs
    rw [← hinfo] at hs
    exact Follows.signalRetry ((h.retried hchain hr ha).follows_step (.retried hr)) hs

theorem Follows.acquireHandler (h : Mirrors s d) (hi : d.Inv)
    (ha : s.threads a = .acquireRequest) : Follows d (s.acquireHandler a) := by
  have hc := h.charge_own (a := a) (by rw [ha]; rfl)
  have hserver := h.server
  rw [State.acquireHandler]
  split
  next hs => exact (h.grantFree hc ha).follows_step (.grantFree hc (hserver ▸ hs))
  next hs =>
    have hd := hserver ▸ hs
    obtain ⟨y, hy⟩ := Option.ne_none_iff_exists'.1 (hi.tidy.used hd).1
    have hxy : a.1 ≠ y := by
      intro hxy
      have hstage := Desk.stage_eq hc
      have hacq := (hi.fits a.1).acquiring
      have hholds := (hi.fits a.1).holds.1 (hxy ▸ hy)
      simp_all
    have hr : (d.client y).revoke = none := by
      by_contra hr
      exact absurd (((hi.fits y).revoke hr).2.1) (by simp [hd])
    have hy' : s.server.acquiredId = some y := hserver ▸ hy
    simp only [State.callRevoke, hy']
    exact (h.contend hc ha hr hxy).follows_step (.contend hc hd hy hxy)
  next hs =>
    have hd := hserver ▸ hs
    split
    next hw =>
      obtain ⟨w, hw'⟩ := List.head?_eq_some_iff.1 hw
      have hn := hi.nobody hc (hserver ▸ hw')
      split
      next hne =>
        have hw : d.server.waitingIds = [a.1] := by rw [← hserver, hw', ← hne, hw']; rfl
        exact (h.grantLast hc ha).follows_step (.grantLast hc hd hw)
      next hne =>
        rw [hw', List.tail_cons] at hne ⊢
        have hr : (d.client a.1).revoke = none := by
          by_contra hr
          exact absurd ((hi.fits a.1).revoke hr).1 (by simp [hn])
        exact (h.grantNext hc ha hr w).follows_step (.grantNext hc hd (hserver ▸ hw') hne)
    next hw => exact (h.queue hc ha).follows_step (.queue hc hd (hserver ▸ hw))

theorem Follows.releaseHandler (h : Mirrors s d) (hi : d.Inv) (hchain : Chain a x pc after)
    (ha : s.threads a = pc .request) : Follows d (s.releaseHandler a pc) := by
  have hc := h.charge_chain hchain ha
  have hx := hi.holder hc
  have hstage := Desk.stage_eq hc
  have hd := (hi.fits x).wanted (.inr hstage) hx
  obtain ⟨y, hy⟩ := Option.ne_none_iff_exists'.1
    (mt List.head?_eq_none_iff.1 (hi.tidy.toRevoke hd))
  have hxy : x ≠ y := by
    rintro rfl
    have hwaits := (hi.fits x).waits (List.mem_of_head? hy)
    simp [hstage, ReleaseCall.stage] at hwaits
  have hr : (d.client y).retry = none := by
    by_contra hr
    exact absurd ((hi.fits y).retry hr).2.1 (by simp [hx])
  have hs : s.server.state = .toRevoke := h.server ▸ hd
  have hy' : s.server.waitingIds.head? = some y := h.server ▸ hy
  rw [State.releaseHandler]
  simp only [hs, hy']
  exact (h.giveBack hchain hc ha hr hxy).follows_step (.giveBack hc hd hy hxy)

theorem Follows.resumeRelease (h : Mirrors s d) (hi : d.Inv) (hchain : Chain a x pc after)
    {r : ReleaseCall C} (ha : s.threads a = pc r)
    (hs : s.resumeRelease a x pc after w r = some s') : Follows d s' := by
  cases r with
  | request => exact Option.some_inj.1 hs ▸ Follows.releaseHandler h hi hchain ha
  | retry id => exact Follows.retryHandler h hi hchain ha hs
  | retryReply => exact Option.some_inj.1 hs ▸ (h.retryReply hchain ha).follows
  | reply => exact Follows.released h hchain ha hs

theorem Follows.resume (h : Mirrors s d) (hi : d.Inv) (hs : s.resume a w = some s') :
    Follows d s' := by
  rw [State.resume] at hs
  cases ha : s.threads a with
  | idle | lockWait | retryWait | inside => simp [ha] at hs
  | lockWoken =>
    rw [ha] at hs
    exact Option.some_inj.1 hs ▸ Follows.lockSection h hi (.inr ha)
  | acquireRequest =>
    rw [ha] at hs
    exact Option.some_inj.1 hs ▸ Follows.acquireHandler h hi ha
  | revoke ret id v =>
    rw [ha] at hs
    cases v with
    | request => exact Option.some_inj.1 hs ▸ Follows.revokeHandler h hi ha
    | releasing r => exact Follows.resumeRelease h hi (.handler ret id) ha hs
    | reply => exact Option.some_inj.1 hs ▸ (h.revokeReply ha).follows
  | acquireReply ret =>
    rw [ha] at hs
    exact Option.some_inj.1 hs ▸ Follows.acquired h ha
  | retryWoken =>
    rw [ha] at hs
    exact Option.some_inj.1 hs ▸ Follows.retrySection h (.inr ha)
  | release r =>
    rw [ha] at hs
    exact Follows.resumeRelease h hi .own ha hs

theorem Follows.wake (h : Mirrors s d) (hs : s.wake a = some s') : Follows d s' := by
  rw [State.wake] at hs
  cases ha : s.threads a with
  | lockWait =>
    rw [ha] at hs
    exact Option.some_inj.1 hs ▸ (h.lockWoken ha).follows
  | retryWait =>
    rw [ha] at hs
    exact Option.some_inj.1 hs ▸ (h.retryWoken ha).follows
  | idle | lockWoken | acquireRequest | revoke | acquireReply | retryWoken | inside | release =>
    simp [ha] at hs

/-- **Whatever the machine does, the protocol can do.** -/
theorem simulation {act : Action C T} (h : Mirrors s d) (hi : d.Inv)
    (hs : step s act = some s') : Follows d s' := by
  cases act with
  | acquire a =>
    obtain ⟨⟨-, ha⟩, hs⟩ := Option.ite_none_right_eq_some.1 hs
    exact Option.some_inj.1 hs ▸ Follows.lockSection h hi (.inl ha)
  | release a w =>
    obtain ⟨⟨-, ha⟩, hs⟩ := Option.ite_none_right_eq_some.1 hs
    exact Follows.releaseSection h hi ha hs
  | resume a w => exact Follows.resume h hi (Option.ite_none_right_eq_some.1 hs).2
  | wake a => exact Follows.wake h (Option.ite_none_right_eq_some.1 hs).2

end sections

/-! ## The machine keeps the invariant -/

/-- What the protocol's invariant says of the machine. -/
def Sound (s : State C T) : Prop := ∃ d : Desk (Thread C T) C, d.Inv ∧ Mirrors s d

/-- The desk nobody has come to. -/
def Desk.start : Desk (Thread C T) C where
  server := ⟨.free, none, []⟩
  client := fun _ => ⟨.none, false, false, none, none, none⟩

theorem Desk.Inv.start : (Desk.start : Desk (Thread C T) C).Inv :=
  ⟨⟨by simp [Desk.start], nofun, nofun, List.nodup_nil⟩, fun x => by
    constructor <;> simp [Desk.start, Client.stage]⟩

theorem Sound.start : Sound (State.start : State C T) :=
  ⟨Desk.start, .start, by
    constructor <;>
      simp [State.start, Desk.start, State.info, ClientInfo.new, Pc.InCharge, Pc.own, Pc.handles,
        Pc.revokes, Pc.retries]⟩

theorem Sound.step [DecidableEq C] [DecidableEq T] {s s' : State C T} {act : Action C T}
    (h : Sound s) (hs : step s act = some s') : Sound s' := by
  obtain ⟨d, hi, hm⟩ := h
  obtain ⟨d', hstep, hm'⟩ := simulation hm hi hs
  cases hstep with
  | refl => exact ⟨d, hi, hm'⟩
  | single hstep => exact ⟨d', hi.step hstep, hm'⟩

end LockCache
end CseLab
