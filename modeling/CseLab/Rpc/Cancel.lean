import CseLab.Rpc.Refconn
import Mathlib.Algebra.Order.BigOperators.Group.List
import Mathlib.Algebra.Order.Ring.Nat

/-!
# Cancelling the calls of a client

`cancel` makes all calls fail that are in `calls_`, and waits on `destroy_wait_c_` until the last
has left; from then on no other call enters.

* `cancel_completes`: if only one thread does so at a time, it gets there: each step of a thread in
  `call1` is one of a bounded number, each call under way has one unless its bytes are waiting to be
  taken by the peer, and the last one wakes the thread that waits.
* `cancel_stuck`: of two threads that wait for one call, one waits for ever.
-/

set_option autoImplicit false

namespace CseLab
namespace Rpc

/-- How many steps a thread has left at most whose call has been decided. -/
def Stage.rank : Stage → ℕ
  | .expired _ => 7
  | .connecting _ => 6
  | .sending _ => 5
  | .writing _ => 4
  | .asleep _ => 4
  | .deciding _ => 3
  | .woken _ => 3
  | .leaving => 2
  | .left _ => 1

theorem Moves.rank {stage stage' : Stage} (h : Moves true stage stage') :
    stage'.rank < stage.rank := by
  cases h with
  | sleep h | expire h | again h => exact Bool.noConfusion h
  | connect | send | refuse | sent | finish | spurious | notice | look | reconnect | retry =>
    simp only [Stage.rank, Nat.lt_add_one, Nat.reduceLT]

theorem rank_wake (t : Thread) : t.wake.stage.rank ≤ t.stage.rank := by
  obtain ⟨xid, ch, stage⟩ := t
  cases stage with
  | asleep => exact Nat.le_succ _
  | connecting | sending | writing | deciding | woken | expired | leaving | left =>
    exact Nat.le_refl _

theorem inside_wake (t : Thread) : t.wake.stage.inside = t.stage.inside := by
  obtain ⟨xid, ch, stage⟩ := t
  cases stage <;> rfl

namespace Client

variable {s s' : Client} {a : Step} {as bs : List Step} {t : Thread} {threads : List Thread}
  {retrans : Bool}

/-- How many steps the threads in `call1` have left at most. -/
def work (s : Client) : ℕ := (s.threads.map fun t => t.stage.rank).sum

/-- How many calls are under way. -/
def inside (s : Client) : ℕ := s.threads.countP fun t => t.stage.inside

/-- What is known while `cancel` waits. -/
structure Cancelling (s : Client) : Prop where
  cancelled : s.destroy_wait = true → ∀ xid, (s.rpcc.calls xid).isSome = true → xid ∈ s.cancelled
  waits : s.destroy_wait_c.waiters ≠ [] → s.destroy_wait = true

namespace Cancelling

theorem new (retrans : Bool) : (new retrans).Cancelling :=
  ⟨fun h => Bool.noConfusion h, fun h => absurd rfl h⟩

theorem turn (hs : s.Cancelling) (h : Turn { s with threads := threads } s' t) :
    s'.Cancelling := by
  obtain ⟨s₁, ch, stage, ⟨chan, conn, next, rfl⟩, -, rfl⟩ := h
  exact ⟨hs.cancelled, hs.waits⟩

theorem enter (hs : s.Cancelling) (bind : Bool) : (s.enter bind).Cancelling := by
  rw [Client.enter]
  split
  next => exact hs
  next =>
    split
    next => exact hs
    next hwait => exact ⟨fun h => absurd h hwait, hs.waits⟩

theorem leave {i : ℕ} (hs : s.Cancelling)
    (h : Client.leave { s with threads := threads } t i = some s') : s'.Cancelling := by
  obtain ⟨ca, c, -, hc, rfl⟩ := leave_cases h
  refine ⟨fun hwait xid hcall => ?_, fun hne => ?_⟩
  · have hcall' : (Function.update s.rpcc.calls t.xid none xid).isSome = true := hcall
    rcases eq_or_ne xid t.xid with rfl | hne
    · rw [Function.update_self] at hcall'
      exact Bool.noConfusion hcall'
    · rw [Function.update_of_ne hne] at hcall'
      exact hs.cancelled hwait xid hcall'
  · show s.destroy_wait = true
    split at hc
    next hwait => exact hwait
    next =>
      obtain rfl := Option.some_inj.1 hc
      exact hs.waits hne

theorem ret {ca : Caller} (hs : s.Cancelling)
    (h : Client.ret { s with threads := threads } t ca = .ok s') : s'.Cancelling := by
  obtain ⟨s₁, ⟨chan, conn, next, rfl⟩, rfl⟩ := ret_cases h
  exact ⟨hs.cancelled, hs.waits⟩

theorem await (hcancelled : ∀ xid, (s.rpcc.calls xid).isSome = true → xid ∈ s.cancelled)
    (hwaits : s.destroy_wait_c.waiters ≠ [] → s.destroy_wait = true) (n : ℕ) :
    (s.await n).Cancelling := by
  rw [Client.await]
  split
  next => exact ⟨fun _ => hcancelled, fun _ => rfl⟩
  next => exact ⟨fun _ => hcancelled, hwaits⟩

theorem gotPdu (hs : s.Cancelling) (xid : ℕ) (ret : ℤ) : (s.gotPdu xid ret).Cancelling := by
  rw [Client.gotPdu, gotPdu_eq]
  refine ⟨fun hwait y hcall => hs.cancelled hwait y ?_, hs.waits⟩
  have hcall' : (Function.update s.rpcc.calls xid _ y).isSome = true := hcall
  rcases eq_or_ne y xid with rfl | hne
  · rwa [Function.update_self, Option.isSome_map] at hcall'
  · rwa [Function.update_of_ne hne] at hcall'

theorem destroy (hs : s.Cancelling) (h : s.destroy = .ok s') : s'.Cancelling := by
  obtain ⟨s₁, ⟨chan, conn, next, rfl⟩, rfl⟩ := destroy_cases h
  exact ⟨hs.cancelled, hs.waits⟩

theorem step (hs : s.Cancelling) (hcalls : s.Calls) (h : s.step a = some s') :
    s'.Cancelling := by
  obtain ⟨-, -, hrun | ⟨f, -, rfl⟩⟩ := step_cases h
  swap
  · exact ⟨hs.cancelled, hs.waits⟩
  · cases hthread : a.thread with
    | some j =>
      rw [run_thread hthread] at hrun
      obtain ⟨⟨t, threads⟩, -, hrun⟩ := Option.bind_eq_some_iff.1 hrun
      rcases runThread_cases hrun with h | ⟨-, i, h⟩ | ⟨ca, -, h⟩
      · exact hs.turn h
      · exact hs.leave h
      · exact hs.ret h
    | none =>
      cases a with
      | call1 bind => exact ok_inj (Option.some_inj.1 hrun) ▸ hs.enter bind
      | gotPdu xid ret => exact ok_inj (Option.some_inj.1 hrun) ▸ hs.gotPdu xid ret
      | cancel n =>
        obtain rfl := ok_inj (Option.some_inj.1 hrun)
        refine await (s := s.failAll) (fun xid hcall => ?_) hs.waits n
        have hcall' : (s.rpcc.calls xid).isSome = true := Option.isSome_map.symm.trans hcall
        exact List.mem_append_left _
          (List.mem_filter.2 ⟨List.mem_range.2 (hcalls.lt_of_call hcall'), hcall'⟩)
      | wake i =>
        obtain ⟨c, hc, heq⟩ := Option.map_eq_some_iff.1 hrun
        obtain rfl := ok_inj heq
        exact ⟨hs.cancelled, fun hne => hs.waits fun hnil =>
          hne (hnil ▸ Cond.waiters_wake hc).eq_nil⟩
      | resume i =>
        obtain ⟨⟨n, c⟩, hc, heq⟩ := Option.map_eq_some_iff.1 hrun
        obtain rfl := ok_inj heq
        have hwait : s.destroy_wait = true := hs.waits fun hnil =>
          List.cons_ne_nil _ _ (hnil ▸ Cond.waiters_resume hc).symm.eq_nil
        exact await (s := { s with destroy_wait_c := c }) (hs.cancelled hwait) (fun _ => hwait) n
      | die c => exact ok_inj (Option.some_inj.1 hrun) ▸ ⟨hs.cancelled, hs.waits⟩
      | destroy => exact hs.destroy (Option.some_inj.1 hrun)
      | connect | send | sent | unsent | sleep | spurious | wakeUp | timeout | retry | leave
      | ret => cases hthread

end Cancelling

theorem cancelling_of_run {ok : Client → Step → Prop} (h : Run step ok (new retrans) as s) :
    s.Cancelling :=
  h.invariant_with calls_of_run (.new retrans) fun _ _ _ hcalls hs _ hstep => hs.step hcalls hstep

/-! ## How many calls are under way -/

theorem inside_perm (hp : s.threads.Perm (t :: threads)) : s.inside =
    (threads.countP fun t => t.stage.inside) + if t.stage.inside = true then 1 else 0 :=
  (hp.countP_eq _).trans List.countP_cons

theorem inside_goto (s : Client) (t : Thread) (stage : Stage) :
    (s.goto t stage).inside = s.inside + if stage.inside = true then 1 else 0 :=
  List.countP_cons

theorem inside_turn (hp : s.threads.Perm (t :: threads))
    (h : Turn { s with threads := threads } s' t) : s'.inside = s.inside := by
  obtain ⟨s₁, ch, stage, ⟨chan, conn, next, rfl⟩, hmoves, rfl⟩ := h
  rw [inside_perm hp, inside_goto, if_pos hmoves.inside.1, if_pos hmoves.inside.2]
  rfl

theorem inside_leave {i : ℕ} (hp : s.threads.Perm (t :: threads)) (hstage : t.stage = .leaving)
    (h : Client.leave { s with threads := threads } t i = some s') : s.inside = s'.inside + 1 := by
  obtain ⟨ca, c, -, -, rfl⟩ := leave_cases h
  rw [inside_perm hp, inside_goto, hstage]
  rfl

theorem inside_ret {ca : Caller} (hp : s.threads.Perm (t :: threads)) (hstage : t.stage = .left ca)
    (h : Client.ret { s with threads := threads } t ca = .ok s') : s'.inside = s.inside := by
  obtain ⟨s₁, ⟨chan, conn, next, rfl⟩, rfl⟩ := ret_cases h
  rw [inside_perm hp, hstage]
  rfl

theorem inside_map {f : Thread → Thread} (hf : ∀ t, (f t).stage.inside = t.stage.inside)
    (threads : List Thread) :
    ((threads.map f).countP fun t => t.stage.inside) = threads.countP fun t => t.stage.inside := by
  rw [List.countP_map]
  exact List.countP_congr fun t _ => by rw [Function.comp, hf]

theorem inside_gotPdu (s : Client) (xid : ℕ) (ret : ℤ) : (s.gotPdu xid ret).inside = s.inside := by
  refine inside_map (fun t => ?_) s.threads
  split
  next => exact inside_wake t
  next => rfl

theorem inside_failAll (s : Client) : s.failAll.inside = s.inside :=
  inside_map inside_wake s.threads

theorem outstanding_iff (hs : s.Calls) : s.outstanding = true ↔ 0 < s.inside := by
  rw [outstanding, List.any_eq_true, inside, List.countP_pos_iff]
  constructor
  · rintro ⟨xid, -, hcall⟩
    obtain ⟨t, ht, -, hinside⟩ := (hs.keys xid).1 hcall
    exact ⟨t, ht, hinside⟩
  · rintro ⟨t, ht, hinside⟩
    exact ⟨t.xid, List.mem_range.2 (hs.lt_of_thread ht), (hs.keys _).2 ⟨t, ht, rfl, hinside⟩⟩

/-! ## Two that wait -/

/-- Of those that sleep in `cancel` the threads `ns` are more than calls are under way. -/
structure Overbooked (s : Client) (ns : List ℕ) : Prop where
  more : s.inside < ns.length
  asleep : ns.Subperm s.destroy_wait_c.asleep
  wait : s.destroy_wait = true

/-- The signal wakes one. -/
theorem subperm_signal {c c' : Cond ℕ} {i : ℕ} {ns : List ℕ} (h : c.signal i = some c')
    (hns : ns.Subperm c.asleep) :
    ∃ ns', ns' ⊆ ns ∧ ns.length ≤ ns'.length + 1 ∧ ns'.Subperm c'.asleep := by
  rcases Cond.signal_cases h with ⟨-, rfl⟩ | hwake
  · exact ⟨ns, .refl _, Nat.le_succ _, hns⟩
  · obtain ⟨n, hasleep, -⟩ := Cond.wake_cases hwake
    refine ⟨ns.erase n, List.erase_subset, ?_, ?_⟩
    · rw [List.length_erase]
      split <;> omega
    · have herase := (hns.trans hasleep.subperm).erase n
      rwa [List.erase_cons_head] at herase

namespace Overbooked

variable {ns : List ℕ}

theorem turn (hs : s.Overbooked ns) (hp : s.threads.Perm (t :: threads))
    (h : Turn { s with threads := threads } s' t) : s'.Overbooked ns := by
  have hinside := inside_turn hp h
  obtain ⟨s₁, ch, stage, ⟨chan, conn, next, rfl⟩, -, rfl⟩ := h
  exact ⟨hinside ▸ hs.more, hs.asleep, hs.wait⟩

theorem leave {i : ℕ} (hs : s.Overbooked ns) (hp : s.threads.Perm (t :: threads))
    (hstage : t.stage = .leaving) (h : Client.leave { s with threads := threads } t i = some s') :
    ∃ ns', ns' ⊆ ns ∧ s'.Overbooked ns' := by
  have hinside := inside_leave hp hstage h
  have hmore := hs.more
  obtain ⟨ca, c, -, hc, rfl⟩ := leave_cases h
  rw [if_pos hs.wait] at hc
  obtain ⟨ns', hsub, hlen, hasleep⟩ := subperm_signal hc hs.asleep
  exact ⟨ns', hsub, by omega, hasleep, hs.wait⟩

theorem await (hs : s.Overbooked ns) (n : ℕ) : (s.await n).Overbooked ns := by
  rw [Client.await]
  split
  next => exact ⟨hs.more, hs.asleep.trans (List.sublist_append_left _ _).subperm, rfl⟩
  next => exact hs

/-- A call that leaves wakes one of them, and the others sleep on. -/
theorem step (hs : s.Overbooked ns) (hok : s.NoWake a) (h : s.step a = some s') :
    ∃ ns', ns' ⊆ ns ∧ s'.Overbooked ns' := by
  obtain ⟨-, -, hrun | ⟨f, -, rfl⟩⟩ := step_cases h
  swap
  · exact ⟨ns, .refl _, hs.more, hs.asleep, hs.wait⟩
  · cases hthread : a.thread with
    | some j =>
      rw [run_thread hthread] at hrun
      obtain ⟨⟨t, threads⟩, hpick, hrun⟩ := Option.bind_eq_some_iff.1 hrun
      have hp := pick_perm hpick
      rcases runThread_cases hrun with h | ⟨hstage, i, h⟩ | ⟨ca, hstage, h⟩
      · exact ⟨ns, .refl _, hs.turn hp h⟩
      · exact hs.leave hp hstage h
      · have hinside := inside_ret hp hstage h
        obtain ⟨s₁, ⟨chan, conn, next, rfl⟩, rfl⟩ := ret_cases h
        exact ⟨ns, .refl _, hinside ▸ hs.more, hs.asleep, hs.wait⟩
    | none =>
      refine ⟨ns, .refl _, ?_⟩
      cases a with
      | call1 bind =>
        obtain rfl := ok_inj (Option.some_inj.1 hrun)
        rw [enter]
        split
        next => exact hs
        next => rwa [if_pos hs.wait]
      | gotPdu xid ret =>
        obtain rfl := ok_inj (Option.some_inj.1 hrun)
        exact ⟨(inside_gotPdu s xid ret).symm ▸ hs.more, hs.asleep, hs.wait⟩
      | cancel n =>
        obtain rfl := ok_inj (Option.some_inj.1 hrun)
        have hfail : s.failAll.Overbooked ns :=
          ⟨(inside_failAll s).symm ▸ hs.more, hs.asleep, hs.wait⟩
        exact hfail.await n
      | wake i => exact hok.elim
      | resume i =>
        obtain ⟨⟨n, c⟩, hc, heq⟩ := Option.map_eq_some_iff.1 hrun
        obtain rfl := ok_inj heq
        have hasleep : c.asleep = s.destroy_wait_c.asleep := (Cond.resume_cases hc).1
        exact await (s := { s with destroy_wait_c := c })
          ⟨hs.more, hasleep.symm ▸ hs.asleep, hs.wait⟩ n
      | die c => exact ok_inj (Option.some_inj.1 hrun) ▸ ⟨hs.more, hs.asleep, hs.wait⟩
      | destroy =>
        obtain ⟨s₁, ⟨chan, conn, next, rfl⟩, rfl⟩ := destroy_cases (Option.some_inj.1 hrun)
        exact ⟨hs.more, hs.asleep, hs.wait⟩
      | connect | send | sent | unsent | sleep | spurious | wakeUp | timeout | retry | leave
      | ret => cases hthread

end Overbooked

/-- If more threads sleep in `cancel` than calls are under way, one of them sleeps for ever, unless
it wakes up for no reason: each call that leaves wakes one. -/
theorem cancel_stuck (h : Run step anyStep (new retrans) as s)
    (hmore : s.inside < s.destroy_wait_c.asleep.length) (hr : Run step NoWake s bs s') :
    ∃ n ∈ s.destroy_wait_c.asleep,
      Run step (fun s a => s.NoWake a ∧ n ∈ s.destroy_wait_c.asleep) s bs s' ∧
        n ∈ s'.destroy_wait_c.asleep := by
  have hne : s.destroy_wait_c.asleep ≠ [] := List.ne_nil_of_length_pos (Nat.zero_lt_of_lt hmore)
  have hwait : s.destroy_wait = true := (cancelling_of_run h).waits fun hnil =>
    hne (List.append_eq_nil_iff.1 hnil).1
  obtain ⟨ns, hs', hns⟩ : ∃ ns, s'.Overbooked ns ∧ ∀ n ∈ ns, n ∈ s.destroy_wait_c.asleep ∧
      Run step (fun s a => s.NoWake a ∧ n ∈ s.destroy_wait_c.asleep) s bs s' := by
    -- those that have slept all along
    refine hr.induct_trace (P := fun bs s' => ∃ ns, s'.Overbooked ns ∧ ∀ n ∈ ns,
      n ∈ s.destroy_wait_c.asleep ∧
        Run step (fun s a => s.NoWake a ∧ n ∈ s.destroy_wait_c.asleep) s bs s')
      ⟨s.destroy_wait_c.asleep, ⟨hmore, .refl _, hwait⟩, fun n hn => ⟨hn, .nil⟩⟩ ?_
    rintro bs s₁ a s₂ ⟨ns, hs₁, hns⟩ hok hstep
    obtain ⟨ns', hsub, hs₂⟩ := hs₁.step hok hstep
    refine ⟨ns', hs₂, fun n hn => ?_⟩
    obtain ⟨hin, hrun⟩ := hns n (hsub hn)
    exact ⟨hin, .snoc hrun ⟨hok, hs₁.asleep.subset (hsub hn)⟩ hstep⟩
  obtain ⟨n, hn⟩ := List.exists_mem_of_length_pos (Nat.zero_lt_of_lt hs'.more)
  obtain ⟨hin, hrun⟩ := hns n hn
  exact ⟨n, hin, hrun, hs'.asleep.subset hn⟩

/-- Two calls are cancelled: the first waits for its reply, the second for its bytes to be taken. -/
def cancelling : Client :=
  (execute (guarded step OneCancel) (new true)
    [.call1 true, .call1 true, .connect 1 true, .send 0, .sent 0, .sleep 0 false, .connect 1 true,
      .send 0, .cancel 8]).get (by decide +kernel)

/-- Two more threads cancel them. -/
def thrice : Client :=
  (execute step cancelling [.cancel 9, .cancel 7]).get (by decide +kernel)

/-- Both calls come to an end, and two of those who cancel. -/
theorem cancel_stuck_thrice : ∃ s', Run step NoWake thrice [.sent 0, .sleep 0 false, .leave 0 2,
      .ret 0, .resume 0, .wakeUp 0, .leave 0 0, .ret 0, .resume 0] s' ∧
    ∃ n ∈ thrice.destroy_wait_c.asleep, Run step
        (fun s a => s.NoWake a ∧ n ∈ s.destroy_wait_c.asleep) thrice
        [.sent 0, .sleep 0 false, .leave 0 2, .ret 0, .resume 0, .wakeUp 0, .leave 0 0, .ret 0,
          .resume 0] s' ∧ n ∈ s'.destroy_wait_c.asleep := by
  have hcancel : Run step OneCancel (new true) _ cancelling := .of_guarded (Option.some_get _).symm
  have hcancel : Run step anyStep (new true) _ cancelling := hcancel.mono fun _ _ _ => trivial
  have hthrice : Run step anyStep cancelling _ thrice := .of_execute (Option.some_get _).symm
  have hrest : (execute (guarded step NoWake) thrice [.sent 0, .sleep 0 false, .leave 0 2,
      .ret 0, .resume 0, .wakeUp 0, .leave 0 0, .ret 0, .resume 0]).isSome := by decide +kernel
  have hrun := Run.of_guarded (Option.some_get hrest).symm
  exact ⟨_, hrun, cancel_stuck (hcancel.append hthrice) (by decide +kernel) hrun⟩

/-! ## One that waits -/

/-- What is known where at most one waits. -/
structure Lone (s : Client) : Prop where
  one : s.destroy_wait_c.waiters.length ≤ 1
  /-- The wakeup is not lost. -/
  served : s.destroy_wait_c.asleep ≠ [] → 0 < s.inside
  gone : s.destroyed = true → s.threads = [] ∧ s.destroy_wait_c.waiters = []

namespace Lone

theorem new (retrans : Bool) : (new retrans).Lone :=
  ⟨Nat.zero_le 1, fun h => absurd rfl h, fun h => Bool.noConfusion h⟩

/-- Who waits again does so for a call. -/
theorem await (hcalls : s.Calls) (hnone : s.destroy_wait_c.waiters = [])
    (hlive : s.destroyed = false) (n : ℕ) : (s.await n).Lone := by
  obtain ⟨hasleep, hwoken⟩ := List.append_eq_nil_iff.1 hnone
  have hgone : ∀ {P : Prop}, s.destroyed = true → P := fun h =>
    Bool.noConfusion (hlive.symm.trans h)
  rw [Client.await]
  split
  next hout =>
    refine ⟨?_, fun _ => (outstanding_iff hcalls).1 hout, hgone⟩
    exact Nat.le_of_eq ((Cond.waiters_wait _ n).length_eq.trans (by rw [hnone]; rfl))
  next => exact ⟨hnone ▸ Nat.zero_le 1, fun h => absurd hasleep h, hgone⟩

theorem leave {i : ℕ} (hs : s.Lone) (hwaits : s.destroy_wait_c.waiters ≠ [] → s.destroy_wait = true)
    (hlive : s.destroyed = false)
    (h : Client.leave { s with threads := threads } t i = some s') : s'.Lone := by
  obtain ⟨ca, c, -, hc, rfl⟩ := leave_cases h
  have hgone : ∀ {P : Prop}, s.destroyed = true → P := fun h =>
    Bool.noConfusion (hlive.symm.trans h)
  cases hwait : s.destroy_wait with
  | false =>
    have hnone : s.destroy_wait_c.waiters = [] := by
      by_contra hne
      exact Bool.noConfusion (hwait.symm.trans (hwaits hne))
    rw [if_neg (by rw [hwait]; exact Bool.false_ne_true)] at hc
    obtain rfl := Option.some_inj.1 hc
    exact ⟨hs.one, fun h => absurd (List.append_eq_nil_iff.1 hnone).1 h, hgone⟩
  | true =>
    rw [if_pos hwait] at hc
    have hc : s.destroy_wait_c.signal i = some c := hc
    refine ⟨(Cond.waiters_signal hc).length_eq ▸ hs.one, fun hne => ?_, hgone⟩
    -- there was one who slept, and it has been woken
    rcases Cond.signal_cases hc with ⟨hnil, rfl⟩ | hwake
    · exact absurd hnil hne
    · obtain ⟨n, hasleep, -⟩ := Cond.wake_cases hwake
      have hlen := hasleep.length_eq
      have hone : s.destroy_wait_c.asleep.length ≤ 1 := Nat.le_trans
        (List.length_append ▸ Nat.le_add_right ..) hs.one
      rw [List.length_cons] at hlen
      have hzero : c.asleep.length = 0 := by omega
      exact absurd (List.eq_nil_of_length_eq_zero hzero) hne

theorem step (hs : s.Lone) (hcalls : s.Calls) (hcancel : s.Cancelling) (hok : s.OneCancel a)
    (h : s.step a = some s') : s'.Lone := by
  obtain ⟨-, hlive, hrun | ⟨f, -, rfl⟩⟩ := step_cases h
  swap
  · exact ⟨hs.one, hs.served, hs.gone⟩
  · have hgone : ∀ {P : Prop}, s.destroyed = true → P := fun h =>
      Bool.noConfusion (hlive.symm.trans h)
    cases hthread : a.thread with
    | some j =>
      rw [run_thread hthread] at hrun
      obtain ⟨⟨t, threads⟩, hpick, hrun⟩ := Option.bind_eq_some_iff.1 hrun
      have hp := pick_perm hpick
      rcases runThread_cases hrun with h | ⟨hstage, i, h⟩ | ⟨ca, hstage, h⟩
      · have hinside := inside_turn hp h
        obtain ⟨s₁, ch, stage, ⟨chan, conn, next, rfl⟩, -, rfl⟩ := h
        exact ⟨hs.one, fun hne => hinside ▸ hs.served hne, hgone⟩
      · exact hs.leave hcancel.waits hlive h
      · have hinside := inside_ret hp hstage h
        obtain ⟨s₁, ⟨chan, conn, next, rfl⟩, rfl⟩ := ret_cases h
        exact ⟨hs.one, fun hne => hinside ▸ hs.served hne, hgone⟩
    | none =>
      cases a with
      | call1 bind =>
        obtain rfl := ok_inj (Option.some_inj.1 hrun)
        rw [enter]
        split
        next => exact hs
        next =>
          split
          next => exact hs
          next =>
            exact ⟨hs.one, fun _ => List.countP_pos_iff.2 ⟨_, List.mem_cons_self, rfl⟩, hgone⟩
      | gotPdu xid ret =>
        obtain rfl := ok_inj (Option.some_inj.1 hrun)
        exact ⟨hs.one, fun hne => (inside_gotPdu s xid ret).symm ▸ hs.served hne, hgone⟩
      | cancel n =>
        obtain rfl := ok_inj (Option.some_inj.1 hrun)
        exact await (s := s.failAll) hcalls.failAll (List.isEmpty_iff.1 hok) hlive n
      | wake i =>
        obtain ⟨c, hc, heq⟩ := Option.map_eq_some_iff.1 hrun
        obtain rfl := ok_inj heq
        refine ⟨(Cond.waiters_wake hc).length_eq ▸ hs.one, fun _ => hs.served ?_, hgone⟩
        obtain ⟨n, hasleep, -⟩ := Cond.wake_cases hc
        exact List.ne_nil_of_length_pos (hasleep.length_eq ▸ Nat.succ_pos _)
      | resume i =>
        obtain ⟨⟨n, c⟩, hc, heq⟩ := Option.map_eq_some_iff.1 hrun
        obtain rfl := ok_inj heq
        have hlen := (Cond.waiters_resume hc).length_eq
        have hone := hs.one
        rw [List.length_cons] at hlen
        have hzero : c.waiters.length = 0 := by omega
        exact await (s := { s with destroy_wait_c := c }) (hcalls.congr rfl rfl rfl rfl rfl)
          (List.eq_nil_of_length_eq_zero hzero) hlive n
      | die c => exact ok_inj (Option.some_inj.1 hrun) ▸ ⟨hs.one, hs.served, hs.gone⟩
      | destroy =>
        obtain ⟨s₁, ⟨chan, conn, next, rfl⟩, rfl⟩ := destroy_cases (Option.some_inj.1 hrun)
        exact ⟨hs.one, hs.served, fun _ =>
          ⟨List.isEmpty_iff.1 hok.1, List.isEmpty_iff.1 hok.2⟩⟩
      | connect | send | sent | unsent | sleep | spurious | wakeUp | timeout | retry | leave
      | ret => cases hthread

end Lone

theorem proper_of_oneCancel (h : s.OneCancel a) : s.Proper a := by
  cases a with
  | destroy => exact h
  | call1 | connect | send | sent | unsent | sleep | spurious | wakeUp | timeout | retry | leave
    | ret | gotPdu | cancel | wake | resume | die => trivial

theorem lone_of_run (h : Run step OneCancel (new retrans) as s) : s.Lone :=
  h.invariant_with (Q := fun s => s.Calls ∧ s.Cancelling)
    (fun h => ⟨calls_of_run h, cancelling_of_run h⟩) (.new retrans)
    fun _ _ _ hQ hs hok hstep => hs.step hQ.1 hQ.2 hok hstep

/-! ## The threads come to the end -/

theorem work_perm (hp : s.threads.Perm (t :: threads)) :
    s.work = t.stage.rank + (threads.map fun t => t.stage.rank).sum :=
  (hp.map fun t : Thread => t.stage.rank).sum_eq.trans List.sum_cons

theorem work_goto (s : Client) (t : Thread) (stage : Stage) :
    (s.goto t stage).work = stage.rank + s.work := List.sum_cons

theorem work_map {f : Thread → Thread} (hf : ∀ t, (f t).stage.rank ≤ t.stage.rank)
    (threads : List Thread) : ((threads.map f).map fun t => t.stage.rank).sum ≤
      (threads.map fun t => t.stage.rank).sum := by
  rw [List.map_map]
  exact List.sum_le_sum fun t _ => hf t

/-- While `cancel` waits, each step of a thread in `call1` is one less that is left. -/
theorem work_step (hcalls : s.Calls) (hcancel : s.Cancelling) (hconns : s.Conns (chs s.threads))
    (hok : s.Proper a) (hwait : s.destroy_wait = true) (h : s.step a = some s') :
    s'.work + [a].countP (fun a => a.thread.isSome) ≤ s.work ∧ s'.destroy_wait = true := by
  obtain ⟨-, -, hrun | ⟨f, hrun, -⟩⟩ := step_cases h
  swap
  · obtain ⟨s₁, heq, -⟩ := fine_run hconns hcalls hok hrun
    exact absurd heq (by simp)
  · rw [List.countP_singleton]
    cases hthread : a.thread with
    | some j =>
      rw [run_thread hthread] at hrun
      obtain ⟨⟨t, threads⟩, hpick, hrun⟩ := Option.bind_eq_some_iff.1 hrun
      have hp := pick_perm hpick
      have ht : t ∈ s.threads := hp.mem_iff.2 List.mem_cons_self
      rw [Option.isSome_some, if_pos rfl, work_perm hp]
      rcases runThread_cases hrun with h | ⟨hstage, i, h⟩ | ⟨ca, hstage, h⟩
      · obtain ⟨s₁, ch, stage, ⟨chan, conn, next, rfl⟩, hmoves, rfl⟩ := h
        have hdone : s.isDone t.xid = true := by
          rw [hcalls.isDone_eq ht hmoves.inside.1, verdict, if_pos]
          · rfl
          · exact hcancel.cancelled hwait _ ((hcalls.keys _).2 ⟨t, ht, rfl, hmoves.inside.1⟩)
        have hmoves : Moves (s.isDone t.xid) t.stage stage := hmoves
        rw [hdone] at hmoves
        have hlt := hmoves.rank
        rw [work_goto]
        refine ⟨?_, hwait⟩
        show stage.rank + (threads.map _).sum + 1 ≤ _
        omega
      · obtain ⟨ca, c, -, -, rfl⟩ := leave_cases h
        rw [work_goto, hstage]
        refine ⟨?_, hwait⟩
        show 1 + (threads.map _).sum + 1 ≤ 2 + _
        omega
      · obtain ⟨s₁, ⟨chan, conn, next, rfl⟩, rfl⟩ := ret_cases h
        rw [hstage]
        refine ⟨?_, hwait⟩
        show (threads.map _).sum + 1 ≤ 1 + _
        omega
    | none =>
      rw [Option.isSome_none, if_neg Bool.false_ne_true, Nat.add_zero]
      cases a with
      | call1 bind =>
        obtain rfl := ok_inj (Option.some_inj.1 hrun)
        rw [enter]
        split
        next => exact ⟨Nat.le_refl _, hwait⟩
        next => exact ⟨Nat.le_refl _, hwait⟩
      | gotPdu xid ret =>
        obtain rfl := ok_inj (Option.some_inj.1 hrun)
        refine ⟨work_map (fun t => ?_) s.threads, hwait⟩
        split
        next => exact rank_wake t
        next => exact Nat.le_refl _
      | cancel n =>
        obtain rfl := ok_inj (Option.some_inj.1 hrun)
        have hle := work_map rank_wake s.threads
        rw [await]
        split
        next => exact ⟨hle, rfl⟩
        next => exact ⟨hle, hwait⟩
      | wake i =>
        obtain ⟨c, -, heq⟩ := Option.map_eq_some_iff.1 hrun
        exact ok_inj heq ▸ ⟨Nat.le_refl _, hwait⟩
      | resume i =>
        obtain ⟨⟨n, c⟩, -, heq⟩ := Option.map_eq_some_iff.1 hrun
        obtain rfl := ok_inj heq
        rw [await]
        split
        next => exact ⟨Nat.le_refl _, rfl⟩
        next => exact ⟨Nat.le_refl _, hwait⟩
      | die c => exact ok_inj (Option.some_inj.1 hrun) ▸ ⟨Nat.le_refl _, hwait⟩
      | destroy =>
        obtain ⟨s₁, ⟨chan, conn, next, rfl⟩, rfl⟩ := destroy_cases (Option.some_inj.1 hrun)
        exact ⟨Nat.le_refl _, hwait⟩
      | connect | send | sent | unsent | sleep | spurious | wakeUp | timeout | retry | leave
      | ret => cases hthread

theorem leave_isSome (hcall : (s.rpcc.calls t.xid).isSome = true) :
    ∃ s', s.leave t 0 = some s' := by
  obtain ⟨ca, hca⟩ := Option.isSome_iff_exists.1 hcall
  rw [leave, hca, Option.bind_some]
  split
  next =>
    obtain ⟨c, hc⟩ := s.destroy_wait_c.signal_zero
    rw [hc]
    exact ⟨_, rfl⟩
  next => exact ⟨_, rfl⟩

/-- It waits in `connection::send`, and its connection lives. -/
def Writes (s : Client) (t : Thread) : Prop :=
  ∃ final c, t.stage = .writing final ∧ t.ch = some c ∧ (s.conn c).dead = false

theorem broken_of_not_writes {final : Bool} (hstage : t.stage = .writing final)
    (h : ¬ s.Writes t) : s.broken t = true := by
  rw [broken]
  cases hch : t.ch with
  | none => rfl
  | some c => exact Bool.eq_true_of_not_eq_false fun hlive => h ⟨final, c, hstage, hch, hlive⟩

/-- A thread that is in `calls_`, does not sleep and does not wait for the peer has a step. -/
theorem runThread_isSome (hinside : t.stage.inside = true) (hawake : t.stage.sleeps = false)
    (hwrites : ¬ s.Writes t) (hcall : (s.rpcc.calls t.xid).isSome = true) (j : ℕ) :
    ∃ a r, a.thread = some j ∧ (∀ k, a ≠ .sent k) ∧ s.runThread t t.stage a = some r := by
  cases hstage : t.stage with
  | connecting final => exact ⟨.connect j true, _, rfl, nofun, rfl⟩
  | sending final => exact ⟨.send j, _, rfl, nofun, rfl⟩
  | writing final =>
    exact ⟨.unsent j, s.sent t final, rfl, nofun, if_pos (broken_of_not_writes hstage hwrites)⟩
  | deciding final => exact ⟨.sleep j true, _, rfl, nofun, rfl⟩
  | asleep final =>
    rw [hstage] at hawake
    exact Bool.noConfusion hawake
  | woken final => exact ⟨.wakeUp j, _, rfl, nofun, rfl⟩
  | expired final => exact ⟨.retry j, _, rfl, nofun, rfl⟩
  | leaving =>
    obtain ⟨s', hs'⟩ := leave_isSome hcall
    refine ⟨.leave j 0, .ok s', rfl, nofun, ?_⟩
    rw [runThread, hs']
    rfl
  | left ca =>
    rw [hstage] at hinside
    exact Bool.noConfusion hinside

theorem step_isSome {r : Except ClientFault Client} (hfault : s.fault = none)
    (hlive : s.destroyed = false) (h : s.run a = some r) : ∃ s', s.step a = some s' := by
  rw [step, hfault]
  simp only [hlive, Bool.false_eq_true, if_false, h]
  exact ⟨_, rfl⟩

theorem step_ok (hfault : s.fault = none) (hlive : s.destroyed = false)
    (h : s.run a = some (.ok s')) : s.step a = some s' := by
  rw [step, hfault]
  simp only [hlive, Bool.false_eq_true, if_false, h, Option.map_some]

/-- While `cancel` waits for calls, each of their threads has a step, or it waits for the peer. -/
theorem thread_step (hcalls : s.Calls) (hcancel : s.Cancelling) (hfault : s.fault = none)
    (hlive : s.destroyed = false) (hwait : s.destroy_wait = true) {j : ℕ}
    (hj : s.threads[j]? = some t) (hinside : t.stage.inside = true) : s.Writes t ∨
      ∃ a s', a.thread = some j ∧ (∀ k, a ≠ .sent k) ∧ s.step a = some s' := by
  have ht : t ∈ s.threads := List.mem_of_getElem? hj
  have hcall : (s.rpcc.calls t.xid).isSome = true := (hcalls.keys _).2 ⟨t, ht, rfl, hinside⟩
  have hawake : t.stage.sleeps = false := by
    rw [Bool.eq_false_iff]
    intro hsleeps
    have hnone := hcalls.asleep t ht hsleeps
    rw [verdict, if_pos (hcancel.cancelled hwait _ hcall)] at hnone
    exact absurd hnone (by simp)
  refine or_iff_not_imp_left.2 fun hwrites => ?_
  obtain ⟨a, r, ha, hsent, hr⟩ := runThread_isSome
    (s := { s with threads := s.threads.eraseIdx j }) hinside hawake hwrites hcall j
  have hrun : s.run a = some r := by
    rw [run_thread ha, pick, hj]
    exact hr
  obtain ⟨s', hs'⟩ := step_isSome hfault hlive hrun
  exact ⟨a, s', ha, hsent, hs'⟩

/-- Where only one thread cancels at a time it gets there, if the peers read on or the connections
die.  While it waits, the threads in `call1` take together at most as many steps as `work` said at
the beginning.  Each call that is under way has a step to take, or it waits for the peer in
`connection::send`; and when none is, the thread that waits has been woken, and returns. -/
theorem cancel_completes (h : Run step OneCancel (new retrans) as s)
    (hwait : s.destroy_wait = true) (hr : Run step OneCancel s bs s') :
    s'.work + bs.countP (fun a => a.thread.isSome) ≤ s.work ∧
      (∀ j t, s'.threads[j]? = some t → t.stage.inside = true → s'.Writes t ∨
        ∃ a s'', a.thread = some j ∧ (∀ k, a ≠ .sent k) ∧ s'.step a = some s'') ∧
      (s'.inside = 0 → s'.destroy_wait_c.waiters ≠ [] → s'.destroy_wait_c.asleep = [] ∧
        ∃ s'', s'.step (.resume 0) = some s'' ∧ s''.destroy_wait_c.waiters = []) := by
  have hproper : ∀ {cs s}, Run step OneCancel (new retrans) cs s →
      Run step Proper (new retrans) cs s := fun h => h.mono fun _ _ => proper_of_oneCancel
  have hboth : s'.work + bs.countP (fun a => a.thread.isSome) ≤ s.work ∧
      s'.destroy_wait = true ∧ ∃ cs, Run step OneCancel (new retrans) cs s' := by
    refine hr.induct_trace (P := fun bs s' =>
      s'.work + bs.countP (fun a => a.thread.isSome) ≤ s.work ∧ s'.destroy_wait = true ∧
        ∃ cs, Run step OneCancel (new retrans) cs s') ⟨Nat.le_refl _, hwait, as, h⟩ ?_
    rintro bs s₁ a s₂ ⟨hle, hwait, cs, hrun⟩ hok hstep
    obtain ⟨hconns, -⟩ := conns_of_run (hproper hrun)
    obtain ⟨hwork, hwait'⟩ := work_step (calls_of_run hrun) (cancelling_of_run hrun) hconns
      (proper_of_oneCancel hok) hwait hstep
    rw [List.countP_append]
    exact ⟨by omega, hwait', cs ++ [a], .snoc hrun hok hstep⟩
  obtain ⟨hwork, hwait', cs, hrun⟩ := hboth
  have hcalls := calls_of_run hrun
  have hlone := lone_of_run hrun
  obtain ⟨-, hfault⟩ := conns_of_run (hproper hrun)
  have hlive : s'.destroyed = true → s'.inside = 0 ∧ s'.destroy_wait_c.waiters = [] := by
    intro hgone
    obtain ⟨hthreads, hwaiters⟩ := hlone.gone hgone
    exact ⟨by rw [inside, hthreads]; rfl, hwaiters⟩
  refine ⟨hwork, fun j t hj hin => ?_, fun hzero hne => ?_⟩
  · refine thread_step hcalls (cancelling_of_run hrun) hfault ?_ hwait' hj hin
    exact Bool.eq_false_of_not_eq_true fun hgone => Nat.ne_of_gt
      (List.countP_pos_iff.2 ⟨t, List.mem_of_getElem? hj, hin⟩) (hlive hgone).1
  · have hnone : ¬ 0 < s'.inside := hzero ▸ Nat.lt_irrefl 0
    have hout : s'.outstanding = false :=
      Bool.eq_false_of_not_eq_true fun hout => hnone ((outstanding_iff hcalls).1 hout)
    have hasleep : s'.destroy_wait_c.asleep = [] := by
      by_contra hsleeps
      exact hnone (hlone.served hsleeps)
    have hwoken : s'.destroy_wait_c.woken ≠ [] := fun hnil =>
      hne (List.append_eq_nil_iff.2 ⟨hasleep, hnil⟩)
    obtain ⟨n, c, hc⟩ := Cond.resume_zero hwoken
    have hdestroyed : s'.destroyed = false :=
      Bool.eq_false_of_not_eq_true fun hgone => hne (hlive hgone).2
    have hawait : ({ s' with destroy_wait_c := c } : Client).await n =
        { s' with destroy_wait_c := c } := if_neg (Bool.eq_false_iff.1 hout)
    have hresume : s'.run (.resume 0) = some (.ok { s' with destroy_wait_c := c }) := by
      rw [run, hc, ← hawait]
      rfl
    refine ⟨hasleep, { s' with destroy_wait_c := c }, ?_, ?_⟩
    · exact step_ok hfault hdestroyed hresume
    · have hlen := (Cond.waiters_resume hc).length_eq
      have hone := hlone.one
      rw [List.length_cons] at hlen
      have hzero : c.waiters.length = 0 := by omega
      exact List.eq_nil_of_length_eq_zero hzero

/-- The call that slept has been woken, and has left. -/
def halfDrained : Client :=
  (execute (guarded step OneCancel) cancelling [.wakeUp 1, .leave 0 0, .ret 0]).get
    (by decide +kernel)

/-- The connection of the other has died, and it has left too. -/
def drained : Client :=
  (execute (guarded step OneCancel) halfDrained
    [.resume 0, .die 0, .unsent 0, .sleep 0 false, .leave 0 0]).get (by decide +kernel)

/-- In between one call is left, which has a step when its connection has died. -/
theorem cancel_completes_drained :
    Run step OneCancel cancelling [.wakeUp 1, .leave 0 0, .ret 0] halfDrained ∧
    Run step OneCancel halfDrained [.resume 0, .die 0, .unsent 0, .sleep 0 false, .leave 0 0]
      drained ∧
    halfDrained.work + 3 ≤ cancelling.work ∧
    (∀ t, halfDrained.threads[0]? = some t → t.stage.inside = true → halfDrained.Writes t ∨
      ∃ a s'', a.thread = some 0 ∧ (∀ k, a ≠ .sent k) ∧ halfDrained.step a = some s'') ∧
    drained.work + 3 ≤ halfDrained.work ∧ drained.destroy_wait_c.asleep = [] ∧
    ∃ s'', drained.step (.resume 0) = some s'' ∧ s''.destroy_wait_c.waiters = [] := by
  have hcancel : Run step OneCancel (new true) _ cancelling := .of_guarded (Option.some_get _).symm
  have hhalf : Run step OneCancel cancelling _ halfDrained := .of_guarded (Option.some_get _).symm
  have hrun : Run step OneCancel halfDrained _ drained := .of_guarded (Option.some_get _).symm
  obtain ⟨hwork, hsteps, -⟩ := cancel_completes hcancel (by decide +kernel) hhalf
  obtain ⟨hwork', -, hreturn⟩ :=
    cancel_completes (hcancel.append hhalf) (by decide +kernel) hrun
  have hwaiters : drained.destroy_wait_c.waiters = [8] := by decide +kernel
  obtain ⟨hasleep, hreturn⟩ := hreturn (by decide +kernel) (by rw [hwaiters]; simp)
  exact ⟨hhalf, hrun, hwork, hsteps 0, hwork', hasleep, hreturn⟩

end Client

end Rpc
end CseLab
