import CseLab.Lib.Run
import CseLab.Rpc.Calling
import Mathlib.Data.List.Intervals

/-!
# What the calls of a client return

A thread goes through the loop of `call1` by itself (`Moves`); what it does to connections on the
way is left open here (`Reconn`).

What a call returns has been decided by the others (`verdict`): by `cancel` if it has found the call
in `calls_`, or else by the first reply that has.  Nobody sleeps whose call has been decided, and
each call returns once (`call_returns`).
-/

set_option autoImplicit false

namespace CseLab
namespace Rpc

/-- In `calls_`. -/
def Stage.inside : Stage → Bool
  | .left _ => false
  | _ => true

/-- In `pthread_cond_timedwait`. -/
def Stage.sleeps : Stage → Bool
  | .asleep _ => true
  | _ => false

/-- From one turn of `call1`'s loop to the next, `done` as it is then. -/
inductive Moves (done : Bool) : Stage → Stage → Prop
  | connect {final : Bool} : Moves done (.connecting final) (.sending final)
  | send {final : Bool} : Moves done (.sending final) (.writing final)
  | refuse {final : Bool} : Moves done (.sending final) (.deciding final)
  | sent {final : Bool} : Moves done (.writing final) (.deciding final)
  | finish {final : Bool} : Moves done (.deciding final) .leaving
  | sleep {final last : Bool} (h : done = false) : Moves done (.deciding final) (.asleep last)
  | spurious {final : Bool} : Moves done (.asleep final) (.woken final)
  | notice {final : Bool} : Moves done (.asleep final) .leaving
  | expire {final : Bool} (h : done = false) : Moves done (.asleep final) (.expired final)
  | look {final : Bool} : Moves done (.woken final) .leaving
  | again {final : Bool} (h : done = false) : Moves done (.woken final) (.asleep final)
  | reconnect {final : Bool} : Moves done (.expired final) (.connecting final)
  | retry {final : Bool} : Moves done (.expired final) (.deciding final)

theorem Moves.inside {done : Bool} {stage stage' : Stage} (h : Moves done stage stage') :
    stage.inside = true ∧ stage'.inside = true := by
  cases h <;> exact ⟨rfl, rfl⟩

theorem Moves.sleeps {done : Bool} {stage stage' : Stage} (h : Moves done stage stage')
    (hsleeps : stage'.sleeps = true) : done = false := by
  cases h with
  | sleep hdone => exact hdone
  | again hdone => exact hdone
  | connect | send | refuse | sent | finish | spurious | notice | expire | look | reconnect
  | retry => exact Bool.noConfusion hsleeps

/-- The reply is taken that comes first. -/
theorem gotPdu_eq (c : Rpcc) (xid : ℕ) (ret : ℤ) : c.gotPdu xid ret = { c with
    calls := Function.update c.calls xid
      ((c.calls xid).map fun ca => { ca with intret := ca.intret.or (some ret) })
    xid_rep_window := updateXidRep xid c.xid_rep_window } := by
  rw [Rpcc.gotPdu]
  cases hcall : c.calls xid with
  | none =>
    rw [Option.map_none, ← hcall, Function.update_eq_self]
    simp only [hcall]
  | some ca =>
    rw [Option.map_some]
    cases hintret : ca.intret with
    | none => simp only [hintret, Option.isSome_none, Bool.false_eq_true, if_false, Option.none_or]
    | some r =>
      have hca : ({ ca with intret := (some r).or (some ret) } : Caller) = ca := by
        rw [Option.some_or, ← hintret]
      rw [hca, ← hcall, Function.update_eq_self]
      simp only [hcall, hintret, Option.isSome_some, if_true]

namespace Client

variable {s s' s'' : Client} {a : Step} {t t' : Thread} {threads : List Thread} {xid : ℕ}

/-! ## What is done about connections -/

/-- All but the connections is as it was. -/
def Reconn (s s' : Client) : Prop := ∃ chan conn next,
  s' = { s with chan := chan, conn := conn, next := next }

theorem Reconn.refl (s : Client) : Reconn s s := ⟨s.chan, s.conn, s.next, rfl⟩

theorem Reconn.trans (h : Reconn s s') (h' : Reconn s' s'') : Reconn s s'' := by
  obtain ⟨chan, conn, next, rfl⟩ := h
  obtain ⟨chan', conn', next', rfl⟩ := h'
  exact ⟨chan', conn', next', rfl⟩

theorem bind_ok {α β : Type} {x : Except ClientFault α} {f : α → Except ClientFault β} {b : β}
    (h : x >>= f = .ok b) : ∃ a, x = .ok a ∧ f a = .ok b := by
  cases x with
  | error e => exact absurd h (by simp [bind, Except.bind])
  | ok a => exact ⟨a, rfl, h⟩

theorem ok_inj {α : Type} {x y : α} (h : (Except.ok x : Except ClientFault α) = .ok y) : x = y :=
  Except.ok.inj h

theorem reconn_closeconn {c : ℕ} (h : s.closeconn c = .ok s') : Reconn s s' := by
  obtain ⟨conn, -, h⟩ := bind_ok h
  exact ⟨_, _, _, (ok_inj h).symm⟩

theorem reconn_incref {c : ℕ} (h : s.incref c = .ok s') : Reconn s s' := by
  obtain ⟨conn, -, h⟩ := bind_ok h
  exact ⟨_, _, _, (ok_inj h).symm⟩

theorem reconn_decref {c : ℕ} (h : s.decref c = .ok s') : Reconn s s' := by
  obtain ⟨conn, -, h⟩ := bind_ok h
  dsimp only at h
  split at h
  next => exact absurd h (by simp [throw, throwThe, MonadExceptOf.throw, bind, Except.bind])
  next => exact ⟨_, _, _, (ok_inj h).symm⟩

theorem reconn_giveUp {ch : Option ℕ} (h : s.giveUp ch = .ok s') : Reconn s s' := by
  cases ch with
  | none => exact ok_inj h ▸ .refl s
  | some c => exact reconn_decref h

theorem reconn_connectToDst (s : Client) (succ : Bool) : Reconn s (s.connectToDst succ) := by
  cases succ with
  | false => exact ⟨_, _, _, rfl⟩
  | true => exact ⟨_, _, _, rfl⟩

theorem reconn_renew {succ : Bool} (h : s.renew succ = .ok s') : Reconn s s' := by
  rw [renew] at h
  cases hchan : s.chan with
  | none =>
    rw [hchan] at h
    exact ok_inj h ▸ reconn_connectToDst s succ
  | some c =>
    rw [hchan] at h
    obtain ⟨conn, -, h⟩ := bind_ok h
    split at h
    next =>
      obtain ⟨s₁, hdec, h⟩ := bind_ok h
      exact ok_inj h ▸ (reconn_decref hdec).trans (reconn_connectToDst s₁ succ)
    next => exact ok_inj h ▸ .refl s

theorem reconn_swap {ch ch' : Option ℕ} (h : s.swap ch = .ok (ch', s')) : Reconn s s' := by
  rw [swap] at h
  cases hchan : s.chan with
  | none =>
    rw [hchan] at h
    obtain ⟨-, rfl⟩ := Prod.mk.inj (ok_inj h)
    exact .refl s
  | some c =>
    rw [hchan] at h
    obtain ⟨s₁, hgive, h⟩ := bind_ok h
    obtain ⟨s₂, hinc, h⟩ := bind_ok h
    obtain ⟨-, rfl⟩ := Prod.mk.inj (ok_inj h)
    exact (reconn_giveUp hgive).trans (reconn_incref hinc)

theorem reconn_hangUp (h : s.hangUp = .ok s') : Reconn s s' := by
  rw [hangUp] at h
  cases hchan : s.chan with
  | none =>
    rw [hchan] at h
    exact ok_inj h ▸ .refl s
  | some c =>
    rw [hchan] at h
    obtain ⟨s₁, hclose, hdec⟩ := bind_ok h
    exact (reconn_closeconn hclose).trans (reconn_decref hdec)

/-! ## What a thread does -/

/-- A turn in the loop of `call1`. -/
def Turn (s s' : Client) (t : Thread) : Prop := ∃ s₁ ch stage, Reconn s s₁ ∧
  Moves (s.isDone t.xid) t.stage stage ∧ s' = s₁.goto { t with ch := ch } stage

theorem turn_connect {final succ : Bool} (hstage : t.stage = .connecting final)
    (h : s.connect t final succ = .ok s') : Turn s s' t := by
  obtain ⟨s₁, hrenew, h⟩ := bind_ok h
  obtain ⟨⟨ch, s₂⟩, hswap, h⟩ := bind_ok h
  exact ⟨s₂, ch, _, (reconn_renew hrenew).trans (reconn_swap hswap), hstage ▸ .connect,
    (ok_inj h).symm⟩

theorem turn_goto {stage : Stage} (h : Moves (s.isDone t.xid) t.stage stage) :
    Turn s (s.goto t stage) t := ⟨s, t.ch, stage, .refl s, h, rfl⟩

theorem turn_send {final : Bool} (hstage : t.stage = .sending final)
    (h : s.send t final = .ok s') : Turn s s' t := by
  rw [send] at h
  cases hch : t.ch with
  | none =>
    rw [hch] at h
    exact ok_inj h ▸ turn_goto (hstage ▸ .refuse)
  | some c =>
    rw [hch] at h
    obtain ⟨conn, -, h⟩ := bind_ok h
    have heq := ok_inj h
    split at heq
    next => exact heq ▸ turn_goto (hstage ▸ .refuse)
    next => exact heq ▸ turn_goto (hstage ▸ .send)

theorem turn_sent {final : Bool} (hstage : t.stage = .writing final)
    (h : s.sent t final = .ok s') : Turn s s' t := by
  rw [sent] at h
  cases hch : t.ch with
  | none =>
    rw [hch] at h
    exact ok_inj h ▸ turn_goto (hstage ▸ .sent)
  | some c =>
    rw [hch] at h
    obtain ⟨conn, -, h⟩ := bind_ok h
    exact ok_inj h ▸ turn_goto (hstage ▸ .sent)

theorem turn_sleep {final last : Bool} (hstage : t.stage = .deciding final) :
    Turn s (s.sleep t final last) t := by
  rw [sleep]
  split
  next => exact turn_goto (hstage ▸ .finish)
  next h => exact turn_goto (hstage ▸ .sleep (Bool.eq_false_of_not_eq_true fun hd => h (.inr hd)))

theorem turn_timeout {final : Bool} (hstage : t.stage = .asleep final) :
    Turn s (s.wakeUp t final true) t := by
  rw [wakeUp]
  split
  next => exact turn_goto (hstage ▸ .notice)
  next h => exact turn_goto (hstage ▸ .expire (Bool.eq_false_of_not_eq_true h))

theorem turn_wakeUp {final : Bool} (hstage : t.stage = .woken final) :
    Turn s (s.wakeUp t final false) t := by
  rw [wakeUp]
  split
  next => exact turn_goto (hstage ▸ .look)
  next h => exact turn_goto (hstage ▸ .again (Bool.eq_false_of_not_eq_true h))

theorem turn_retry {final : Bool} (hstage : t.stage = .expired final)
    (h : s.retry t final = .ok s') : Turn s s' t := by
  rw [retry] at h
  split at h
  next => exact ok_inj h ▸ turn_goto (hstage ▸ .retry)
  next =>
    cases hch : t.ch with
    | none =>
      rw [hch] at h
      exact ok_inj h ▸ turn_goto (hstage ▸ .reconnect)
    | some c =>
      rw [hch] at h
      obtain ⟨conn, -, h⟩ := bind_ok h
      have heq := ok_inj h
      split at heq
      next => exact heq ▸ turn_goto (hstage ▸ .reconnect)
      next => exact heq ▸ turn_goto (hstage ▸ .retry)

/-- A thread goes on in the loop, leaves `calls_`, or returns. -/
theorem runThread_cases (h : s.runThread t t.stage a = some (.ok s')) : Turn s s' t ∨
    (t.stage = .leaving ∧ ∃ i, s.leave t i = some s') ∨
    ∃ ca, t.stage = .left ca ∧ s.ret t ca = .ok s' := by
  unfold runThread at h
  split at h
  next hstage => exact .inl (turn_connect hstage (Option.some_inj.1 h))
  next hstage => exact .inl (turn_send hstage (Option.some_inj.1 h))
  next hstage => exact .inl (turn_sent hstage (Option.some_inj.1 h))
  next hstage =>
    obtain ⟨-, h⟩ := Option.ite_none_right_eq_some.1 h
    exact .inl (turn_sent hstage (Option.some_inj.1 h))
  next hstage => exact .inl (ok_inj (Option.some_inj.1 h) ▸ turn_sleep hstage)
  next hstage => exact .inl (ok_inj (Option.some_inj.1 h) ▸ turn_goto (hstage ▸ .spurious))
  next hstage => exact .inl (ok_inj (Option.some_inj.1 h) ▸ turn_timeout hstage)
  next hstage => exact .inl (ok_inj (Option.some_inj.1 h) ▸ turn_wakeUp hstage)
  next hstage => exact .inl (turn_retry hstage (Option.some_inj.1 h))
  next hstage =>
    obtain ⟨s₁, hleave, heq⟩ := Option.map_eq_some_iff.1 h
    exact .inr (.inl ⟨hstage, _, ok_inj heq ▸ hleave⟩)
  next hstage => exact .inr (.inr ⟨_, hstage, Option.some_inj.1 h⟩)
  next => exact absurd h (by simp)

theorem run_thread {j : ℕ} (h : a.thread = some j) :
    s.run a = (pick s.threads j).bind fun p =>
      ({ s with threads := p.2 }).runThread p.1 p.1.stage a := by
  cases a with
  | call1 | gotPdu | cancel | wake | resume | die | destroy => cases h
  | connect | send | sent | unsent | sleep | spurious | wakeUp | timeout | retry | leave
  | ret =>
    obtain rfl := Option.some_inj.1 h
    rfl

/-- What a step does, if it does not fail. -/
theorem step_cases (h : s.step a = some s') : s.fault = none ∧ s.destroyed = false ∧
    (s.run a = some (.ok s') ∨
      ∃ f, s.run a = some (.error f) ∧ s' = { s with fault := some f }) := by
  rw [step] at h
  split at h
  next => exact absurd h (by simp)
  next hfault =>
    split at h
    next => exact absurd h (by simp)
    next hlive =>
      obtain ⟨r, hrun, hr⟩ := Option.map_eq_some_iff.1 h
      refine ⟨hfault, Bool.eq_false_of_not_eq_true hlive, ?_⟩
      cases r with
      | ok s₁ => exact .inl (hr ▸ hrun)
      | error f => exact .inr ⟨f, hrun, hr.symm⟩

/-! ## Verdicts -/

/-- What the others have decided about a call. -/
def verdict (s : Client) (xid : ℕ) : Option ℤ :=
  if xid ∈ s.cancelled then some cancelFailure else s.received.lookup xid

/-- What is known of calls. -/
structure Calls (s : Client) : Prop where
  pos : 1 ≤ s.rpcc.xid
  /-- Each call has returned or has a thread. -/
  all : (s.returned.map Prod.fst ++ s.threads.map Thread.xid).Perm (List.Ico 1 s.rpcc.xid)
  keys : ∀ xid, (s.rpcc.calls xid).isSome = true ↔
    ∃ t ∈ s.threads, t.xid = xid ∧ t.stage.inside = true
  fresh : ∀ xid, s.rpcc.xid ≤ xid → s.verdict xid = none
  called : ∀ xid ca, s.rpcc.calls xid = some ca → ca.intret = s.verdict xid
  left : ∀ t ∈ s.threads, ∀ ca, t.stage = .left ca → ca.intret = s.verdict t.xid
  returned : ∀ xid r, (xid, r) ∈ s.returned → r = (s.verdict xid).getD timeoutFailure
  /-- No wakeup is lost. -/
  asleep : ∀ t ∈ s.threads, t.stage.sleeps = true → s.verdict t.xid = none

namespace Calls

theorem nodup (hs : s.Calls) : (s.returned.map Prod.fst ++ s.threads.map Thread.xid).Nodup :=
  hs.all.nodup_iff.2 (List.Ico.nodup _ _)

theorem lt_of_thread (hs : s.Calls) (ht : t ∈ s.threads) : t.xid < s.rpcc.xid :=
  (List.Ico.mem.1 (hs.all.subset (List.mem_append_right _ (List.mem_map_of_mem ht)))).2

theorem lt_of_call (hs : s.Calls) (hcall : (s.rpcc.calls xid).isSome = true) :
    xid < s.rpcc.xid := by
  obtain ⟨t, ht, rfl, -⟩ := (hs.keys xid).1 hcall
  exact hs.lt_of_thread ht

theorem eq_of_xid (hs : s.Calls) (ht : t ∈ s.threads) (ht' : t' ∈ s.threads)
    (hxid : t.xid = t'.xid) : t = t' :=
  List.inj_on_of_nodup_map (List.nodup_append.1 hs.nodup).2.1 ht ht' hxid

/-- Who has left `calls_` is not in it. -/
theorem calls_left (hs : s.Calls) (ht : t ∈ s.threads) (hleft : t.stage.inside = false) :
    s.rpcc.calls t.xid = none := by
  rw [← Option.not_isSome_iff_eq_none, hs.keys]
  rintro ⟨t', ht', hxid, hinside⟩
  obtain rfl := hs.eq_of_xid ht' ht hxid
  rw [hleft] at hinside
  exact Bool.noConfusion hinside

theorem calls_returned (hs : s.Calls) {r : ℤ} (hr : (xid, r) ∈ s.returned) :
    s.rpcc.calls xid = none := by
  rw [← Option.not_isSome_iff_eq_none, hs.keys]
  rintro ⟨t, ht, rfl, -⟩
  exact (List.nodup_append.1 hs.nodup).2.2 _ (List.mem_map_of_mem hr) _ (List.mem_map_of_mem ht) rfl

/-- A call is done when it has been decided. -/
theorem isDone_eq (hs : s.Calls) (ht : t ∈ s.threads) (hinside : t.stage.inside = true) :
    s.isDone t.xid = (s.verdict t.xid).isSome := by
  obtain ⟨ca, hca⟩ := Option.isSome_iff_exists.1 ((hs.keys t.xid).2 ⟨t, ht, rfl, hinside⟩)
  rw [isDone, hca, ← hs.called _ _ hca]
  rfl

theorem new (retrans : Bool) : (new retrans).Calls where
  pos := Nat.le_refl 1
  all := .refl _
  keys xid := ⟨fun h => Bool.noConfusion h, fun ⟨t, ht, _⟩ => absurd ht List.not_mem_nil⟩
  fresh xid _ := rfl
  called xid ca h := by cases h
  left t ht := absurd ht List.not_mem_nil
  returned xid r h := absurd h List.not_mem_nil
  asleep t ht := absurd ht List.not_mem_nil

/-- Nothing is known of the rest of the state. -/
theorem congr (hs : s.Calls) (hrpcc : s'.rpcc = s.rpcc) (hthreads : s'.threads = s.threads)
    (hreturned : s'.returned = s.returned) (hreceived : s'.received = s.received)
    (hcancelled : s'.cancelled = s.cancelled) : s'.Calls := by
  cases s'
  cases hrpcc
  cases hthreads
  cases hreturned
  cases hreceived
  cases hcancelled
  exact ⟨hs.pos, hs.all, hs.keys, hs.fresh, hs.called, hs.left, hs.returned, hs.asleep⟩

theorem reconn (hs : s.Calls) (h : Reconn s s') : s'.Calls := by
  obtain ⟨chan, conn, next, rfl⟩ := h
  exact hs.congr rfl rfl rfl rfl rfl

theorem enter (hs : s.Calls) (bind : Bool) : (s.enter bind).Calls := by
  rw [Client.enter]
  split
  next => exact hs
  next =>
    split
    next => exact hs
    next =>
      have hlt : ∀ t ∈ s.threads, t.xid ≠ s.rpcc.xid := fun t ht =>
        Nat.ne_of_lt (hs.lt_of_thread ht)
      refine ⟨Nat.le_succ_of_le hs.pos, ?_, fun xid => ?_,
        fun xid hxid => hs.fresh xid (Nat.le_of_succ_le hxid), fun xid ca hca => ?_,
        fun t ht ca hstage => ?_, hs.returned, fun t ht hsleeps => ?_⟩
      · show (_ ++ s.rpcc.xid :: s.threads.map Thread.xid).Perm (List.Ico 1 (s.rpcc.xid + 1))
        rw [List.Ico.succ_top hs.pos]
        exact List.perm_middle.trans ((hs.all.cons _).trans (List.perm_append_singleton ..).symm)
      · show (Function.update s.rpcc.calls s.rpcc.xid _ xid).isSome = true ↔ _
        rcases eq_or_ne xid s.rpcc.xid with rfl | hne
        · rw [Function.update_self]
          exact iff_of_true rfl ⟨_, List.mem_cons_self, rfl, rfl⟩
        · rw [Function.update_of_ne hne, hs.keys]
          constructor
          · rintro ⟨t, ht, hxid, hinside⟩
            exact ⟨t, List.mem_cons_of_mem _ ht, hxid, hinside⟩
          · rintro ⟨t, ht, hxid, hinside⟩
            rcases List.mem_cons.1 ht with rfl | ht
            · exact absurd hxid.symm hne
            · exact ⟨t, ht, hxid, hinside⟩
      · have hupd : Function.update s.rpcc.calls s.rpcc.xid (some ⟨bind, none⟩) xid = some ca := hca
        rcases eq_or_ne xid s.rpcc.xid with rfl | hne
        · rw [Function.update_self] at hupd
          obtain rfl := Option.some_inj.1 hupd
          exact (hs.fresh _ (Nat.le_refl _)).symm
        · rw [Function.update_of_ne hne] at hupd
          exact hs.called xid ca hupd
      · rcases List.mem_cons.1 ht with rfl | ht
        · cases hstage
        · exact hs.left t ht ca hstage
      · rcases List.mem_cons.1 ht with rfl | ht
        · exact Bool.noConfusion hsleeps
        · exact hs.asleep t ht hsleeps

/-- One thread goes on in the loop. -/
theorem turn (hs : s.Calls) (hp : s.threads.Perm (t :: threads))
    (h : Turn { s with threads := threads } s' t) : s'.Calls := by
  obtain ⟨s₁, ch, stage, ⟨chan, conn, next, rfl⟩, hmoves, rfl⟩ := h
  obtain ⟨hin, hin'⟩ := hmoves.inside
  have hmem : ∀ {t'}, t' ∈ s.threads ↔ t' = t ∨ t' ∈ threads := hp.mem_iff.trans List.mem_cons
  refine ⟨hs.pos, ?_, fun xid => ?_, hs.fresh, hs.called, fun t' ht' ca hstage => ?_, hs.returned,
    fun t' ht' hsleeps => ?_⟩
  · exact ((hp.map Thread.xid).symm.append_left _).trans hs.all
  · refine (hs.keys xid).trans ?_
    show _ ↔ ∃ t' ∈ { t with ch := ch, stage := stage } :: threads, _
    simp only [hmem, List.mem_cons, exists_eq_or_imp, hin, hin', and_true]
  · rcases List.mem_cons.1 ht' with rfl | ht'
    · cases hstage
      exact absurd hin' (by simp [Stage.inside])
    · exact hs.left t' (hmem.2 (.inr ht')) ca hstage
  · rcases List.mem_cons.1 ht' with rfl | ht'
    · have hdone : s.isDone t.xid = false := hmoves.sleeps hsleeps
      rw [hs.isDone_eq (hmem.2 (.inl rfl)) hin, Option.isSome_eq_false_iff,
        Option.isNone_iff_eq_none] at hdone
      exact hdone
    · exact hs.asleep t' (hmem.2 (.inr ht')) hsleeps

end Calls

/-- What leaving does: the call takes with it what is in `ca`. -/
theorem leave_cases {i : ℕ} (h : s.leave t i = some s') : ∃ ca c, s.rpcc.calls t.xid = some ca ∧
    (if s.destroy_wait = true then s.destroy_wait_c.signal i else some s.destroy_wait_c) = some c ∧
    s' = ({ s with
      rpcc := { s.rpcc with
        calls := Function.update s.rpcc.calls t.xid none
        xid_rep_window := updateXidRep t.xid s.rpcc.xid_rep_window }
      destroy_wait_c := c }).goto t (.left ca) := by
  obtain ⟨ca, hca, h⟩ := Option.bind_eq_some_iff.1 h
  obtain ⟨c, hc, h⟩ := Option.map_eq_some_iff.1 h
  exact ⟨ca, c, hca, hc, h.symm⟩

/-- What returning does. -/
theorem ret_cases {ca : Caller} (h : s.ret t ca = .ok s') : ∃ s₁, Reconn s s₁ ∧ s' = { s₁ with
    returned := s₁.returned ++ [(t.xid, ca.intret.getD timeoutFailure)]
    rpcc := { s₁.rpcc with
      bind_done := s₁.rpcc.bind_done || ca.bind && ca.intret == some 0 } } := by
  obtain ⟨s₁, hgive, h⟩ := bind_ok h
  exact ⟨s₁, reconn_giveUp hgive, (ok_inj h).symm⟩

/-- What `~rpcc` does, if it does not fail. -/
theorem destroy_cases (h : s.destroy = .ok s') :
    ∃ s₁, Reconn s s₁ ∧ s' = { s₁ with chan := none, destroyed := true } := by
  obtain ⟨s₁, hhang, h⟩ := bind_ok h
  split at h
  next => exact absurd h (by simp [throw, throwThe, MonadExceptOf.throw, bind, Except.bind])
  next => exact ⟨s₁, reconn_hangUp hhang, (ok_inj h).symm⟩

namespace Calls

theorem leave {i : ℕ} (hs : s.Calls) (hp : s.threads.Perm (t :: threads))
    (h : Client.leave { s with threads := threads } t i = some s') :
    s'.Calls := by
  obtain ⟨ca, c, hca, -, rfl⟩ := leave_cases h
  have hmem : ∀ {t'}, t' ∈ s.threads ↔ t' = t ∨ t' ∈ threads := hp.mem_iff.trans List.mem_cons
  have ht : t ∈ s.threads := hmem.2 (.inl rfl)
  have hother : ∀ t' ∈ threads, t'.xid ≠ t.xid := by
    have hnodup := ((hp.map Thread.xid).nodup_iff.1 (List.nodup_append.1 hs.nodup).2.1)
    rw [List.map_cons, List.nodup_cons] at hnodup
    exact fun t' ht' heq => hnodup.1 (heq ▸ List.mem_map_of_mem ht')
  refine ⟨hs.pos, ?_, fun xid => ?_, hs.fresh, fun xid ca' hca' => ?_, fun t' ht' ca' hleft => ?_,
    hs.returned, fun t' ht' hsleeps => ?_⟩
  · exact ((hp.map Thread.xid).symm.append_left _).trans hs.all
  · show (Function.update s.rpcc.calls t.xid none xid).isSome = true ↔
      ∃ t' ∈ { t with stage := .left ca } :: threads, _
    rcases eq_or_ne xid t.xid with rfl | hne
    · rw [Function.update_self]
      refine iff_of_false Bool.false_ne_true ?_
      rintro ⟨t', ht', hxid, hinside⟩
      rcases List.mem_cons.1 ht' with rfl | ht'
      · exact Bool.noConfusion hinside
      · exact hother t' ht' hxid
    · rw [Function.update_of_ne hne, hs.keys]
      simp only [hmem, List.mem_cons, exists_eq_or_imp, hne.symm, false_and, false_or]
  · have hupd : Function.update s.rpcc.calls t.xid none xid = some ca' := hca'
    rcases eq_or_ne xid t.xid with rfl | hne
    · rw [Function.update_self] at hupd
      cases hupd
    · rw [Function.update_of_ne hne] at hupd
      exact hs.called xid ca' hupd
  · rcases List.mem_cons.1 ht' with rfl | ht'
    · cases hleft
      exact hs.called _ _ hca
    · exact hs.left t' (hmem.2 (.inr ht')) ca' hleft
  · rcases List.mem_cons.1 ht' with rfl | ht'
    · exact Bool.noConfusion hsleeps
    · exact hs.asleep t' (hmem.2 (.inr ht')) hsleeps

theorem ret {ca : Caller} (hs : s.Calls) (hp : s.threads.Perm (t :: threads))
    (hstage : t.stage = .left ca) (h : Client.ret { s with threads := threads } t ca = .ok s') :
    s'.Calls := by
  obtain ⟨s₁, ⟨chan, conn, next, rfl⟩, rfl⟩ := ret_cases h
  have hmem : ∀ {t'}, t' ∈ s.threads ↔ t' = t ∨ t' ∈ threads := hp.mem_iff.trans List.mem_cons
  have ht : t ∈ s.threads := hmem.2 (.inl rfl)
  refine ⟨hs.pos, ?_, fun xid => (hs.keys xid).trans ?_, hs.fresh, hs.called,
    fun t' ht' => hs.left t' (hmem.2 (.inr ht')), fun xid r hr => ?_,
    fun t' ht' => hs.asleep t' (hmem.2 (.inr ht'))⟩
  · show ((s.returned ++ [_]).map Prod.fst ++ threads.map Thread.xid).Perm _
    rw [List.map_append, List.append_assoc]
    exact ((hp.map Thread.xid).symm.append_left _).trans hs.all
  · simp only [hmem, exists_eq_or_imp, hstage, Stage.inside, Bool.false_eq_true, and_false,
      false_or]
  · rcases List.mem_append.1 hr with hr | hr
    · exact hs.returned xid r hr
    · obtain ⟨rfl, rfl⟩ := Prod.mk.inj (List.mem_singleton.1 hr)
      exact congrArg (Option.getD · timeoutFailure) (hs.left t ht ca hstage)

/-- Threads are woken, and calls decided whose threads are in `calls_`. -/
theorem decided {calls : ℕ → Option Caller} {window : List ℕ} {f : Thread → Thread}
    {received : List (ℕ × ℤ)} {cancelled : List ℕ} (hs : s.Calls)
    (hs' : s' = { s with
      rpcc := { s.rpcc with calls := calls, xid_rep_window := window }
      threads := s.threads.map f
      received := received
      cancelled := cancelled })
    (hsome : ∀ xid, (calls xid).isSome = (s.rpcc.calls xid).isSome)
    (hother : ∀ xid, s.rpcc.calls xid = none → s'.verdict xid = s.verdict xid)
    (hcalled : ∀ xid ca, calls xid = some ca → ca.intret = s'.verdict xid)
    (hf : ∀ t, f t = t ∨ f t = t.wake)
    (hwake : ∀ t ∈ s.threads, t.stage.sleeps = true → s'.verdict t.xid = s.verdict t.xid ∨
      f t = t.wake) : s'.Calls := by
  subst hs'
  have hxid : ∀ t, (f t).xid = t.xid := fun t => by rcases hf t with h | h <;> rw [h]; rfl
  have hinside : ∀ t, (f t).stage.inside = t.stage.inside := fun t => by
    rcases hf t with h | h <;> rw [h]
    obtain ⟨xid, ch, stage⟩ := t
    cases stage <;> rfl
  refine ⟨hs.pos, ?_, fun xid => ?_, fun xid hle => ?_, hcalled, fun t' ht' ca hleft => ?_,
    fun xid r hr => ?_, fun t' ht' hsleeps => ?_⟩
  · have hmap : (s.threads.map f).map Thread.xid = s.threads.map Thread.xid := by
      rw [List.map_map]
      exact List.map_congr_left fun t _ => hxid t
    show (_ ++ (s.threads.map f).map Thread.xid).Perm _
    rw [hmap]
    exact hs.all
  · show (calls xid).isSome = true ↔ ∃ t' ∈ s.threads.map f, _
    rw [hsome, hs.keys]
    simp only [List.mem_map, exists_exists_and_eq_and, hxid, hinside]
  · rw [hother xid ?_]
    · exact hs.fresh xid hle
    · rw [← Option.not_isSome_iff_eq_none]
      exact fun hcall => Nat.not_lt_of_le hle (hs.lt_of_call hcall)
  · obtain ⟨t, ht, rfl⟩ := List.mem_map.1 ht'
    have hstage : t.stage = .left ca := by
      rcases hf t with h | h
      · rwa [h] at hleft
      · rw [h] at hleft
        obtain ⟨xid, ch, stage⟩ := t
        cases stage with
        | left ca' => exact hleft
        | asleep => cases hleft
        | connecting | sending | writing | deciding | woken | expired | leaving => cases hleft
    rw [hxid, hother _ (hs.calls_left ht (by rw [hstage]; rfl))]
    exact hs.left t ht ca hstage
  · rw [hother _ (hs.calls_returned hr)]
    exact hs.returned xid r hr
  · obtain ⟨t, ht, rfl⟩ := List.mem_map.1 ht'
    have hawake : t.wake.stage.sleeps = false := by
      obtain ⟨xid, ch, stage⟩ := t
      cases stage <;> rfl
    have hne : f t ≠ t.wake := fun h => by rw [h, hawake] at hsleeps; exact Bool.noConfusion hsleeps
    have hsame : f t = t := (hf t).resolve_right hne
    rw [hsame] at hsleeps ⊢
    exact ((hwake t ht hsleeps).resolve_right hne).trans (hs.asleep t ht hsleeps)

/-- A reply comes: it is taken if it is the first, and the call has not been cancelled. -/
theorem gotPdu (hs : s.Calls) (xid : ℕ) (ret : ℤ) : (s.gotPdu xid ret).Calls := by
  have hnone : s.rpcc.calls xid = none → ∀ y, (s.gotPdu xid ret).verdict y = s.verdict y := by
    intro hcall y
    rw [verdict, verdict, Client.gotPdu, hcall]
    rfl
  have hsome : (s.rpcc.calls xid).isSome = true → ∀ y, (s.gotPdu xid ret).verdict y =
      (s.verdict y).or (if y = xid then some ret else none) := by
    intro hcall y
    rw [verdict, verdict, Client.gotPdu]
    simp only [hcall, if_true]
    split
    next => rfl
    next =>
      rw [List.lookup_append, List.lookup_cons]
      rcases eq_or_ne y xid with rfl | hne
      · simp only [beq_self_eq_true, if_true]
      · simp only [beq_eq_false_iff_ne.2 hne, if_neg hne]
        rfl
  have hne : ∀ y, y ≠ xid → (s.gotPdu xid ret).verdict y = s.verdict y := by
    intro y hne
    cases hcall : s.rpcc.calls xid with
    | none => exact hnone hcall y
    | some ca => rw [hsome (by rw [hcall]; rfl), if_neg hne, Option.or_none]
  refine hs.decided (by rw [Client.gotPdu, gotPdu_eq]) (fun y => ?_) (fun y hy => ?_)
    (fun y ca hca => ?_) (fun t => ?_) (fun t _ _ => ?_)
  · rcases eq_or_ne y xid with rfl | hne
    · rw [Function.update_self, Option.isSome_map]
    · rw [Function.update_of_ne hne]
  · rcases eq_or_ne y xid with rfl | hy'
    · exact hnone hy y
    · exact hne y hy'
  · rcases eq_or_ne y xid with rfl | hy
    · rw [Function.update_self] at hca
      obtain ⟨ca₀, hca₀, rfl⟩ := Option.map_eq_some_iff.1 hca
      rw [hsome (by rw [hca₀]; rfl), if_pos rfl, ← hs.called _ _ hca₀]
    · rw [Function.update_of_ne hy] at hca
      rw [hne y hy]
      exact hs.called y ca hca
  · split
    next => exact .inr rfl
    next => exact .inl rfl
  · rcases eq_or_ne t.xid xid with hxid | hxid
    · exact .inr (if_pos hxid)
    · exact .inl (hne _ hxid)

/-- What `cancel` decides. -/
theorem verdict_failAll (hs : s.Calls) (xid : ℕ) : s.failAll.verdict xid =
    if (s.rpcc.calls xid).isSome = true then some cancelFailure else s.verdict xid := by
  rw [verdict, verdict, Client.failAll]
  simp only [List.mem_append, List.mem_filter, List.mem_range]
  by_cases hcall : (s.rpcc.calls xid).isSome = true
  · rw [if_pos (.inl ⟨hs.lt_of_call hcall, hcall⟩), if_pos hcall]
  · simp only [hcall, Bool.false_eq_true, and_false, false_or, if_false]

theorem failAll (hs : s.Calls) : s.failAll.Calls := by
  refine hs.decided rfl (fun xid => Option.isSome_map) (fun xid hnone => ?_) (fun xid ca hca => ?_)
    (fun t => .inr rfl) (fun t _ _ => .inr rfl)
  · rw [hs.verdict_failAll, hnone]
    rfl
  · obtain ⟨ca₀, hca₀, rfl⟩ := Option.map_eq_some_iff.1 hca
    rw [hs.verdict_failAll, hca₀]
    rfl

theorem await (hs : s.Calls) (n : ℕ) : (s.await n).Calls := by
  rw [Client.await]
  split
  next => exact hs.congr rfl rfl rfl rfl rfl
  next => exact hs

theorem destroy (hs : s.Calls) (h : s.destroy = .ok s') : s'.Calls := by
  obtain ⟨s₁, hreconn, rfl⟩ := destroy_cases h
  exact (hs.reconn hreconn).congr rfl rfl rfl rfl rfl

theorem step (hs : s.Calls) (h : s.step a = some s') : s'.Calls := by
  obtain ⟨-, -, hrun | ⟨f, -, rfl⟩⟩ := step_cases h
  swap
  · exact hs.congr rfl rfl rfl rfl rfl
  · cases hthread : a.thread with
    | some j =>
      rw [run_thread hthread] at hrun
      obtain ⟨⟨t, threads⟩, hpick, hrun⟩ := Option.bind_eq_some_iff.1 hrun
      have hp := pick_perm hpick
      rcases runThread_cases hrun with h | ⟨-, i, h⟩ | ⟨ca, hstage, h⟩
      · exact hs.turn hp h
      · exact hs.leave hp h
      · exact hs.ret hp hstage h
    | none =>
      cases a with
      | call1 bind => exact ok_inj (Option.some_inj.1 hrun) ▸ hs.enter bind
      | gotPdu xid ret => exact ok_inj (Option.some_inj.1 hrun) ▸ hs.gotPdu xid ret
      | cancel n => exact ok_inj (Option.some_inj.1 hrun) ▸ hs.failAll.await n
      | wake i =>
        obtain ⟨c, -, heq⟩ := Option.map_eq_some_iff.1 hrun
        exact ok_inj heq ▸ hs.congr rfl rfl rfl rfl rfl
      | resume i =>
        obtain ⟨⟨n, c⟩, -, heq⟩ := Option.map_eq_some_iff.1 hrun
        have hs' : ({ s with destroy_wait_c := c } : Client).Calls := hs.congr rfl rfl rfl rfl rfl
        exact ok_inj heq ▸ hs'.await n
      | die c => exact ok_inj (Option.some_inj.1 hrun) ▸ hs.congr rfl rfl rfl rfl rfl
      | destroy => exact hs.destroy (Option.some_inj.1 hrun)
      | connect | send | sent | unsent | sleep | spurious | wakeUp | timeout | retry | leave
      | ret => cases hthread

end Calls

theorem calls_of_run {retrans : Bool} {ok : Client → Step → Prop} {as : List Step}
    (h : Run step ok (new retrans) as s) : s.Calls :=
  h.invariant (.new retrans) fun _ _ _ hs _ hstep => hs.step hstep

/-- Each call returns once, unless it is still under way.  It returns `cancel_failure` if `cancel`
has found it in `calls_`, and otherwise the first reply that has, or `timeout_failure` if none has;
and nobody sleeps whose call has been decided. -/
theorem call_returns {retrans : Bool} {as : List Step}
    (h : Run step anyStep (new retrans) as s) :
    (s.returned.map Prod.fst ++ s.threads.map Thread.xid).Perm (List.Ico 1 s.rpcc.xid) ∧
      (∀ xid r, (xid, r) ∈ s.returned → r = (s.verdict xid).getD timeoutFailure) ∧
      ∀ t ∈ s.threads, t.stage.sleeps = true → s.verdict t.xid = none :=
  let hs := calls_of_run h
  ⟨hs.all, hs.returned, hs.asleep⟩

/-- The first call gets its reply and the second none; the third has two when it is cancelled. -/
def mixed : Client :=
  (execute step (new true)
    [.call1 true, .connect 0 true, .send 0, .sent 0, .sleep 0 false, .gotPdu 1 0, .wakeUp 0,
      .leave 0 0, .ret 0, .call1 false, .connect 0 true, .send 0, .sent 0, .sleep 0 true,
      .timeout 0, .retry 0, .sleep 0 true, .leave 0 0, .ret 0, .call1 false, .connect 0 true,
      .send 0, .sent 0, .sleep 0 false, .gotPdu 3 42, .gotPdu 3 43, .cancel 9, .wakeUp 0,
      .leave 0 0, .ret 0]).get
    (by decide +kernel)

theorem call_returns_mixed : mixed.returned = [(1, 0), (2, timeoutFailure), (3, cancelFailure)] ∧
    mixed.received = [(1, 0), (3, 42), (3, 43)] ∧
    cancelFailure = (mixed.verdict 3).getD timeoutFailure := by
  have hret : mixed.returned = [(1, 0), (2, timeoutFailure), (3, cancelFailure)] := by
    decide +kernel
  have hrun : Run step anyStep (new true) _ mixed := .of_execute (Option.some_get _).symm
  obtain ⟨-, hreturned, -⟩ := call_returns hrun
  exact ⟨hret, by decide +kernel, hreturned 3 _ (hret ▸ by simp)⟩

end Client

end Rpc
end CseLab
