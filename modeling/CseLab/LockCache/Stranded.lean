import CseLab.LockCache.System

/-!
# No client is stranded

Two things could leave a thread waiting for ever.  The server's queue might hold a client that
nobody is going to let have the lock; that no run comes to this is what the two tokens of the
protocol's invariant say, read back at the machine (`Sound.served`).  Or a thread might wait for
`lockCond` with nobody left to signal it; for this the machine has an invariant of its own
(`Woken`).
-/

set_option autoImplicit false

namespace CseLab
namespace LockCache

variable {L C T : Type}

namespace State

/-! ## Calls in flight -/

/-- A `revoke` call is on its way to client `x`. -/
def RevokeInFlight (s : State C T) (x : C) : Prop :=
  ∃ a ret, s.threads a = .revoke ret x .request

/-- A `release` call of client `x` is on its way to the server. -/
def ReleaseInFlight (s : State C T) (x : C) : Prop :=
  (∃ t, s.threads (x, t) = .release .request) ∨
    ∃ a ret, s.threads a = .revoke ret x (.releasing .request)

/-- A `retry` call is on its way to client `x`. -/
def RetryInFlight (s : State C T) (x : C) : Prop :=
  ∃ a, s.threads a = .release (.retry x) ∨
    ∃ ret y, s.threads a = .revoke ret y (.releasing (.retry x))

/-- An `acquire` call of client `x` is on its way to the server. -/
def AcquireInFlight (s : State C T) (x : C) : Prop := ∃ t, s.threads (x, t) = .acquireRequest

/-- A thread of client `x`, its `revoke_handler` included, has the lock, is acquiring it or is
giving it back. -/
def InCharge (s : State C T) (x : C) : Prop :=
  (∃ t g, (s.threads (x, t)).own = some g) ∨ ∃ a g, (s.threads a).handles = some (x, g)

end State

/-! ## The queue is served -/

namespace Pc

variable {pc : Pc C} {x : C}

theorem revokes_eq_some : pc.revokes = some x ↔ ∃ ret, pc = .revoke ret x .request := by
  fun_cases Pc.revokes pc <;> simp_all

theorem retries_eq_some : pc.retries = some x ↔
    pc = .release (.retry x) ∨ ∃ ret y, pc = .revoke ret y (.releasing (.retry x)) := by
  fun_cases Pc.retries pc <;> simp_all [ReleaseCall.retries] <;> grind

theorem own_asking : pc.own = some .asking ↔ pc = .acquireRequest := by
  cases pc with
  | revoke ret | acquireReply ret => cases ret <;> simp [own, Status.stage]
  | release r => cases r <;> simp [own, ReleaseCall.stage]
  | idle | lockWait | lockWoken | acquireRequest | retryWait | retryWoken | inside => simp [own]

theorem own_giving : pc.own = some .giving ↔ pc = .release .request := by
  cases pc with
  | revoke ret | acquireReply ret => cases ret <;> simp [own, Status.stage]
  | release r => cases r <;> simp [own, ReleaseCall.stage]
  | idle | lockWait | lockWoken | acquireRequest | retryWait | retryWoken | inside => simp [own]

theorem handles_ne_asking : pc.handles ≠ some (x, .asking) := by
  fun_cases Pc.handles pc with
  | case1 ret id r => cases r <;> simp [ReleaseCall.stage]
  | case2 => simp

theorem handles_giving : pc.handles = some (x, .giving) ↔
    ∃ ret, pc = .revoke ret x (.releasing .request) := by
  fun_cases Pc.handles pc with
  | case1 ret id r => cases r <;> simp [ReleaseCall.stage]
  | case2 => simp_all

end Pc

namespace Sound

variable {s : State C T} {x : C}

/-- While the queue is not empty the lock is wanted back. -/
theorem toRevoke_of_waiting (h : Sound s) (hw : s.server.waitingIds ≠ []) :
    s.server.state = .toRevoke := by
  obtain ⟨d, hi, hm⟩ := h
  rw [hm.server] at hw ⊢
  cases hs : d.server.state with
  | free => exact absurd (hi.tidy.free hs).2 hw
  | used => exact absurd (hi.tidy.used hs).2 hw
  | toRevoke => rfl

/-- While a client has the lock and another wants it, it has been told, or will be. -/
theorem demand (h : Sound s) (hw : s.server.waitingIds ≠ [])
    (hx : s.server.acquiredId = some x) :
    s.RevokeInFlight x ∨ (s.info x).state = .releasing ∨ (s.info x).toRevoke = true ∨
      s.ReleaseInFlight x := by
  have hs := h.toRevoke_of_waiting hw
  obtain ⟨d, hi, hm⟩ := h
  rw [hm.server] at hs hx
  rcases (hi.fits x).demand hs hx with hr | hr | hr | hr
  · obtain ⟨a, ha⟩ := Option.ne_none_iff_exists'.1 hr
    exact .inl ⟨a, Pc.revokes_eq_some.1 ((hm.revoke x a).1 ha)⟩
  · exact .inr (.inr (.inl (hm.toRevoke x ▸ hr)))
  · exact .inr (.inl (hm.state x ▸ hr))
  · obtain ⟨⟨a, g⟩, hc, hg : g = .giving⟩ := Option.map_eq_some_iff.1 hr
    subst hg
    rcases (hm.charge x a .giving).1 hc with ⟨rfl, hown⟩ | hhandles
    · exact .inr (.inr (.inr (.inl ⟨a.2, Pc.own_giving.1 hown⟩)))
    · exact .inr (.inr (.inr (.inr ⟨a, Pc.handles_giving.1 hhandles⟩)))

/-- While nobody has the lock, the client that may have it next has been told, or will be. -/
theorem ticket (h : Sound s) (hw : s.server.waitingIds.head? = some x)
    (hn : s.server.acquiredId = none) :
    s.RetryInFlight x ∨ (s.info x).toRetry = true ∨ s.AcquireInFlight x := by
  obtain ⟨d, hi, hm⟩ := h
  rw [hm.server] at hw hn
  rcases (hi.fits x).ticket hw hn with hr | hr | hr
  · obtain ⟨a, ha⟩ := Option.ne_none_iff_exists'.1 hr
    exact .inl ⟨a, Pc.retries_eq_some.1 ((hm.retry x a).1 ha)⟩
  · exact .inr (.inl (hm.toRetry x ▸ hr))
  · obtain ⟨⟨a, g⟩, hc, hg : g = .asking⟩ := Option.map_eq_some_iff.1 hr
    subst hg
    rcases (hm.charge x a .asking).1 hc with ⟨rfl, hown⟩ | hhandles
    · exact .inr (.inr ⟨a.2, Pc.own_asking.1 hown⟩)
    · exact absurd hhandles Pc.handles_ne_asking

/-- A client that is not at rest has something going on. -/
theorem inCharge (h : Sound s) (hn : (s.info x).state ≠ .none) (hf : (s.info x).state ≠ .free) :
    s.InCharge x := by
  obtain ⟨d, hi, hm⟩ := h
  rw [hm.state] at hn hf
  have hstage : (d.client x).stage ≠ none := fun hstage =>
    ((hi.fits x).rest.1 hstage).elim hn hf
  obtain ⟨⟨a, g⟩, hc⟩ := Option.ne_none_iff_exists'.1 (mt Option.map_eq_none_iff.2 hstage)
  rcases (hm.charge x a g).1 hc with ⟨rfl, hown⟩ | hhandles
  · exact .inl ⟨a.2, g, hown⟩
  · exact .inr ⟨a, g, hhandles⟩

end Sound

/-! ## Waiting threads are woken -/

namespace State

/-- If threads of client `x` wait for a lock that they could have or ask for, one has been woken. -/
def WokenAt (s : State C T) (x : C) : Prop :=
  (s.info x).state = .none ∨ (s.info x).state = .free →
    (s.info x).lockCond = ∅ ∨ ∃ t, s.threads (x, t) = .lockWoken

/-- At no client a wake-up has been forgotten. -/
def Woken (s : State C T) : Prop := ∀ x, s.WokenAt x

end State

namespace State.Woken

variable [DecidableEq C] [DecidableEq T] {s s' : State C T} {a : Thread C T} {w : Option T}
  {x y : C} {i : ClientInfo T} {pc : Pc C}

/-! ### Parts of a step -/

/-- A thread that was not woken goes on. -/
theorem goto (h : s.WokenAt x) (ha : s.threads a ≠ .lockWoken) : (s.goto a pc).WokenAt x := by
  intro hs
  refine (h hs).imp_right ?_
  rintro ⟨t, ht⟩
  refine ⟨t, ?_⟩
  grind

theorem keeps (h : s.Woken) (ha : s.threads a ≠ .lockWoken) : (s.goto a pc).Woken :=
  fun x => goto (h x) ha

omit [DecidableEq T] in
/-- At the other clients nothing happens. -/
theorem setInfo_other (h : s.WokenAt x) (hx : x ≠ y) : (s.setInfo y i).WokenAt x := by
  rw [WokenAt, setInfo_info, if_neg hx]
  exact h

omit [DecidableEq T] in
/-- A client's flags do not matter. -/
theorem flags (h : s.Woken) (hstate : i.state = (s.info y).state)
    (hcond : i.lockCond = (s.info y).lockCond) : (s.setInfo y i).Woken := by
  intro x
  by_cases hx : x = y
  · subst hx
    rw [WokenAt, setInfo_info, if_pos rfl, hstate, hcond]
    exact h x
  · exact setInfo_other (h x) hx

omit [DecidableEq T] in
/-- A client that is busy need not wake anybody. -/
theorem settle (h : s.Woken) (hn : i.state ≠ .none) (hf : i.state ≠ .free) :
    (s.setInfo y i).Woken := by
  intro x
  by_cases hx : x = y
  · intro hs
    rw [setInfo_info, if_pos hx] at hs
    exact absurd hs (not_or.2 ⟨hn, hf⟩)
  · exact setInfo_other (h x) hx

/-- A client that is busy may have a thread of its that was woken go on. -/
theorem busy (h : s.Woken) (hn : i.state ≠ .none) (hf : i.state ≠ .free) :
    ((s.setInfo a.1 i).goto a pc).Woken := by
  intro x
  by_cases hx : x = a.1
  · intro hs
    rw [goto_info, setInfo_info, if_pos hx] at hs
    exact absurd hs (not_or.2 ⟨hn, hf⟩)
  · intro hs
    rw [goto_info, setInfo_info, if_neg hx] at hs ⊢
    refine (h x hs).imp_right ?_
    rintro ⟨t, ht⟩
    refine ⟨t, ?_⟩
    grind

/-- A client that signals has not forgotten anybody. -/
theorem signalLock (h : ∀ x, x ≠ y → s.WokenAt x) (hs : s.signalLock y w = some s') :
    s'.Woken := by
  intro x
  rw [State.signalLock.eq_def] at hs
  cases w with
  | none =>
    obtain ⟨he, hs⟩ := Option.ite_none_right_eq_some.1 hs
    obtain rfl := Option.some_inj.1 hs
    by_cases hx : x = y
    · exact fun _ => .inl (hx ▸ he)
    · exact h x hx
  | some t =>
    obtain ⟨-, hs⟩ := Option.ite_none_right_eq_some.1 hs
    obtain rfl := Option.some_inj.1 hs
    intro hstate
    by_cases hx : x = y
    · refine .inr ⟨t, ?_⟩
      grind
    · rw [goto_info, setInfo_info, if_neg hx] at hstate ⊢
      refine (h x hx hstate).imp_right ?_
      rintro ⟨t, ht⟩
      refine ⟨t, ?_⟩
      grind

/-- A client that sets a flag and signals `retryCond` does not take a wake-up away. -/
theorem signalRetry (h : s.Woken) (hw : ∀ t ∈ (s.info y).retryCond, s.threads (y, t) ≠ .lockWoken)
    (hs : s.signalRetry y w = some s') : s'.Woken := by
  rw [State.signalRetry.eq_def] at hs
  cases w with
  | none =>
    obtain ⟨-, hs⟩ := Option.ite_none_right_eq_some.1 hs
    exact Option.some_inj.1 hs ▸ h
  | some t =>
    obtain ⟨ht, hs⟩ := Option.ite_none_right_eq_some.1 hs
    exact Option.some_inj.1 hs ▸ (h.flags (i := { s.info y with
      retryCond := (s.info y).retryCond.erase t }) rfl rfl).keeps (hw t ht)

/-! ### The sections -/

theorem lockSection (h : s.Woken) : (s.lockSection a).Woken := by
  rw [State.lockSection]
  split
  next => exact h.busy (by simp) (by simp)
  next => exact h.busy (by simp) (by simp)
  next hn hf => exact h.busy hn hf

theorem retrySection (h : s.Woken) (ha : s.threads a ≠ .lockWoken) :
    (s.retrySection a).Woken := by
  rw [State.retrySection]
  split
  next => exact (h.flags (by rfl) (by rfl)).keeps ha
  next => exact (h.flags (by rfl) (by rfl)).keeps ha

theorem acquired {ret : Status} (h : s.Woken) (ha : s.threads a ≠ .lockWoken) :
    (s.acquired a ret).Woken := by
  cases ret with
  | ok => exact h.busy (by simp) (by simp)
  | retry => exact h.retrySection ha

theorem releaseSection (h : s.Woken) (ha : s.threads a ≠ .lockWoken)
    (hs : s.releaseSection a w = some s') : s'.Woken := by
  rw [State.releaseSection] at hs
  cases hx : s.clients a.1 with
  | none =>
    rw [hx] at hs
    exact Option.some_inj.1 hs ▸ h.keeps ha
  | some i =>
    have hinfo : s.info a.1 = i := by rw [State.info, hx]; rfl
    rw [hx] at hs
    rw [← hinfo] at hs
    by_cases hr : (s.info a.1).toRevoke ∨ (s.info a.1).state = .releasing
    · simp only [hr, if_true, Option.some_inj] at hs
      exact hs ▸ (h.flags (by rfl) (by rfl)).keeps ha
    · simp only [hr, if_false] at hs
      by_cases hu : (s.info a.1).state = .used
      · simp only [hu, if_true] at hs
        exact signalLock (fun x hx => goto (setInfo_other (h x) hx) ha) hs
      · simp only [hu, if_false] at hs
        exact signalLock (fun x _ => goto (h x) ha) hs

theorem released {pc : Pc C} (h : s.Woken) (ha : s.threads a ≠ .lockWoken)
    (hs : s.released x w a pc = some s') : s'.Woken :=
  signalLock (fun y hy => goto (setInfo_other (h y) hy) ha) hs

theorem revokeHandler {ret : Status} (h : s.Woken) (ha : s.threads a ≠ .lockWoken) :
    (s.revokeHandler a ret x).Woken := by
  rw [State.revokeHandler]
  split
  next => exact h.keeps ha
  next i hx =>
    have hinfo : i = s.info x := by rw [State.info, hx]; rfl
    rw [hinfo]
    split
    next => exact (h.settle (by simp) (by simp)).keeps ha
    next => exact (h.settle (by simp) (by simp)).keeps ha
    next => exact (h.flags (by rfl) (by rfl)).keeps ha

theorem retryHandler (h : s.Woken) (ha : s.threads a ≠ .lockWoken) (hpc : pc ≠ .lockWoken)
    (hw : ∀ t ∈ (s.info x).retryCond, s.threads (x, t) ≠ .lockWoken)
    (hs : s.retryHandler a x pc w = some s') : s'.Woken := by
  rw [State.retryHandler] at hs
  cases hx : s.clients x with
  | none =>
    rw [hx] at hs
    exact Option.some_inj.1 hs ▸ h
  | some i =>
    have hinfo : s.info x = i := by rw [State.info, hx]; rfl
    rw [hx] at hs
    rw [← hinfo] at hs
    refine signalRetry ((h.flags (by rfl) (by rfl)).keeps ha) (fun t ht => ?_) hs
    grind

theorem callRevoke {ret : Status} (h : s.Woken) (ha : s.threads a ≠ .lockWoken) :
    (s.callRevoke a ret).Woken := by
  rw [State.callRevoke]
  split
  next => exact h
  next => exact h.keeps ha

theorem acquireHandler (h : s.Woken) (ha : s.threads a ≠ .lockWoken) :
    (s.acquireHandler a).Woken := by
  rw [State.acquireHandler]
  split
  next => exact keeps (s := { s with server := _ }) h ha
  next => exact callRevoke (s := { s with server := _ }) h ha
  next =>
    split
    next =>
      split
      next => exact keeps (s := { s with server := _ }) h ha
      next => exact callRevoke (s := { s with server := _ }) h ha
    next => exact keeps (s := { s with server := _ }) h ha

theorem releaseHandler {pc : ReleaseCall C → Pc C} (h : s.Woken) (ha : s.threads a ≠ .lockWoken) :
    (s.releaseHandler a pc).Woken := by
  rw [State.releaseHandler]
  split
  next => exact h.keeps ha
  next => exact keeps (s := { s with server := _ }) h ha
  next =>
    split
    next => exact h
    next => exact keeps (s := { s with server := _ }) h ha

/-! ### A step -/

theorem resumeRelease {pc : ReleaseCall C → Pc C} {done : Pc C} {r : ReleaseCall C}
    (h : s.Woken) (ha : s.threads a ≠ .lockWoken) (hpc : pc .retryReply ≠ .lockWoken)
    (hw : ∀ x, ∀ t ∈ (s.info x).retryCond, s.threads (x, t) ≠ .lockWoken)
    (hs : s.resumeRelease a x pc done w r = some s') : s'.Woken := by
  cases r with
  | request => exact Option.some_inj.1 hs ▸ h.releaseHandler ha
  | retry id => exact h.retryHandler ha hpc (hw id) hs
  | retryReply => exact Option.some_inj.1 hs ▸ h.keeps ha
  | reply => exact h.released ha hs

theorem resume (h : s.Woken)
    (hw : ∀ x, ∀ t ∈ (s.info x).retryCond, s.threads (x, t) ≠ .lockWoken)
    (hs : s.resume a w = some s') : s'.Woken := by
  rw [State.resume] at hs
  cases ha : s.threads a with
  | idle | lockWait | retryWait | inside => simp [ha] at hs
  | lockWoken =>
    rw [ha] at hs
    exact Option.some_inj.1 hs ▸ h.lockSection
  | acquireRequest =>
    rw [ha] at hs
    exact Option.some_inj.1 hs ▸ h.acquireHandler (by simp [ha])
  | revoke ret id v =>
    rw [ha] at hs
    cases v with
    | request => exact Option.some_inj.1 hs ▸ h.revokeHandler (by simp [ha])
    | releasing r => exact h.resumeRelease (by simp [ha]) (by simp) hw hs
    | reply => exact Option.some_inj.1 hs ▸ h.keeps (by simp [ha])
  | acquireReply ret =>
    rw [ha] at hs
    exact Option.some_inj.1 hs ▸ h.acquired (by simp [ha])
  | retryWoken =>
    rw [ha] at hs
    exact Option.some_inj.1 hs ▸ h.retrySection (by simp [ha])
  | release r =>
    rw [ha] at hs
    exact h.resumeRelease (by simp [ha]) (by simp) hw hs

theorem wake (h : s.Woken) (hs : s.wake a = some s') : s'.Woken := by
  rw [State.wake] at hs
  cases ha : s.threads a with
  | lockWait =>
    have hne : s.threads a ≠ .lockWoken := by simp [ha]
    rw [ha] at hs
    obtain rfl := Option.some_inj.1 hs
    intro x
    by_cases hx : x = a.1
    · refine fun _ => .inr ⟨a.2, ?_⟩
      grind
    · exact goto (setInfo_other (h x) hx) hne
  | retryWait =>
    have hne : s.threads a ≠ .lockWoken := by simp [ha]
    rw [ha] at hs
    exact Option.some_inj.1 hs ▸ (h.flags (by rfl) (by rfl)).keeps hne
  | idle | lockWoken | acquireRequest | revoke | acquireReply | retryWoken | inside | release =>
    simp [ha] at hs

/-- **No wake-up is lost.** -/
theorem step {act : Action C T} (h : s.Woken) (hsound : Sound s)
    (hs : LockCache.step s act = some s') : s'.Woken := by
  obtain ⟨d, -, hm⟩ := hsound
  have hw : ∀ x, ∀ t ∈ (s.info x).retryCond, s.threads (x, t) ≠ .lockWoken := by
    intro x t ht
    rw [(hm.retryCond x t).1 ht]
    simp
  cases act with
  | acquire a =>
    obtain ⟨-, hs⟩ := Option.ite_none_right_eq_some.1 hs
    exact Option.some_inj.1 hs ▸ h.lockSection
  | release a w =>
    obtain ⟨⟨-, ha⟩, hs⟩ := Option.ite_none_right_eq_some.1 hs
    exact h.releaseSection (by simp [ha]) hs
  | resume a w => exact h.resume hw (Option.ite_none_right_eq_some.1 hs).2
  | wake a => exact h.wake (Option.ite_none_right_eq_some.1 hs).2

end State.Woken

theorem System.woken [DecidableEq L] [DecidableEq C] [DecidableEq T] {s : System L C T}
    {as : List (L × Action C T)} (h : Run System.step anyStep System.start as s) (l : L) :
    (s.locks l).Woken := by
  obtain ⟨acts, hacts⟩ := System.run_lock h l
  refine hacts.invariant_with (fun h => h.invariant Sound.start fun _ _ _ hs _ => hs.step) ?_
    fun _ _ _ hsound hwoken _ hs => hwoken.step hsound hs
  exact fun x _ => .inl rfl

/-! ## No client is stranded -/

/-- While the queue is not empty the holder has a reason to give the lock back, or is doing so, or
the client at the front has one to ask again, or is doing so; and while a thread waits for another
one of its client, there is one. -/
structure State.Unstranded (s : State C T) : Prop where
  held : s.server.waitingIds ≠ [] → ∀ x, s.server.acquiredId = some x →
    s.RevokeInFlight x ∨ (s.info x).state = .releasing ∨ (s.info x).toRevoke = true ∨
      s.ReleaseInFlight x
  released : s.server.acquiredId = none → ∀ x, s.server.waitingIds.head? = some x →
    s.RetryInFlight x ∨ (s.info x).toRetry = true ∨ s.AcquireInFlight x
  waiting : ∀ x t, s.threads (x, t) = .lockWait →
    s.InCharge x ∨ ∃ u, s.threads (x, u) = .lockWoken

/-- **No client is stranded**, in whatever order the calls arrive. -/
theorem unstranded [DecidableEq L] [DecidableEq C] [DecidableEq T] {s : System L C T}
    {as : List (L × Action C T)} (h : Run System.step anyStep System.start as s) (l : L) :
    (s.locks l).Unstranded := by
  have hs := System.sound h l
  refine ⟨fun hw x hx => hs.demand hw hx, fun hn x hw => hs.ticket hw hn, fun x t ht => ?_⟩
  by_cases hrest : ((s.locks l).info x).state = .none ∨ ((s.locks l).info x).state = .free
  · have hcond : t ∈ ((s.locks l).info x).lockCond := by
      obtain ⟨d, -, hm⟩ := hs
      exact (hm.lockCond x t).2 ht
    refine .inr ((System.woken h l x hrest).resolve_left ?_)
    exact Finset.ne_empty_of_mem hcond
  · exact .inl (hs.inCharge (mt .inl hrest) (mt .inr hrest))

/-- Client `false` has the lock, another of its threads waits for it, and client `true` asks. -/
def crowded : List (Unit × Action Bool Bool) :=
  [((), .acquire (false, false)), ((), .resume (false, false) none),
    ((), .resume (false, false) none), ((), .acquire (false, true)), ((), .acquire (true, false)),
    ((), .resume (true, false) none)]

theorem unstranded_crowded : ∃ s, Run System.step anyStep System.start crowded s ∧
    (s.locks ()).server = ⟨.toRevoke, some false, [true]⟩ ∧
    (s.locks ()).threads (false, true) = .lockWait ∧ (s.locks ()).Unstranded := by
  have hrun : (execute System.step System.start crowded).map (fun s =>
      ((s.locks ()).server, (s.locks ()).threads (false, true))) =
      some (⟨.toRevoke, some false, [true]⟩, .lockWait) := by decide +kernel
  obtain ⟨s, hs, hend⟩ := Option.map_eq_some_iff.1 hrun
  obtain ⟨hserver, hwait⟩ := Prod.mk.inj hend
  exact ⟨s, .of_execute hs, hserver, hwait, unstranded (.of_execute hs) ()⟩

end LockCache
end CseLab
