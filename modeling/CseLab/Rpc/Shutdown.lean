import CseLab.Rpc.ThrPool

/-!
# The destructor of the pool comes to its end

`~ThrPool` waits twice over: for room to put in its pills, and for the threads to take them.  Where
nothing is added, each step leaves less to do (`work_step`), and as no wakeup of the queue is lost
there is a step to take until all is done (`not_stuck`).  A job is taken to return.
-/

set_option autoImplicit false

namespace CseLab
namespace Rpc
namespace ThrPool

variable {α : Type*} {s s' : ThrPool α} {x : Worker α} {i n : ℕ} {as bs : List (Step α)} {sz : ℕ}
  {blocking : Bool}

/-! ## What there is left to do -/

def Step.isSpurious : Step α → Bool
  | .spuriousEnq _ => true
  | .spuriousDeq _ => true
  | _ => false

/-- The steps that are not spurious wakeups. -/
def Ordinary (s : ThrPool α) (a : Step α) : Prop := s.Permitted a ∧ a.isSpurious = false

instance (s : ThrPool α) (a : Step α) : Decidable (s.Ordinary a) :=
  inferInstanceAs (Decidable (_ ∧ _))

/-- What the threads still have to do: to come back to the queue, and to run a job first. -/
def threadWork (th : List (Worker α)) : ℕ :=
  th.countP (fun w => w matches .ready) + 2 * (th.filterMap Worker.job).length

/-- What the destructor still has to do; a pill counts for what it will let others do. -/
def dtorWork (n : ℕ) : Dtor → ℕ
  | .no => 0
  | .enq i waits => 5 * (n - i) + (if waits then 0 else 1) + n
  | .join i => n - i

/-- What is left to do, where nothing is added. -/
def work (s : ThrPool α) : ℕ :=
  threadWork s.th + 3 * s.jobq.q.length + s.jobq.non_empty_c.woken.length +
    s.jobq.has_space_c.woken.length + dtorWork s.th.length s.dtor

theorem threadWork_set {th : List (Worker α)} {w : ℕ} (h : th[w]? = some x) (y : Worker α) :
    threadWork (th.set w y) + threadWork [x] = threadWork th + threadWork [y] := by
  obtain ⟨rest, hth, hset⟩ := th_update h
  have hcons : ∀ z : Worker α, threadWork (z :: rest) = threadWork rest + threadWork [z] := by
    intro z
    cases hz : z.job <;> simp [threadWork, List.countP_cons, hz] <;> omega
  have hperm : ∀ {th th' : List (Worker α)}, th.Perm th' → threadWork th = threadWork th' := by
    intro th th' hp
    rw [threadWork, threadWork, hp.countP_eq, (hp.filterMap _).length_eq]
  rw [hperm hth, hperm (hset y), hcons, hcons]
  omega

/-- A thread that goes to the queue has less to do then, or the queue is shorter. -/
theorem deqLoop_work {f f' : Fifo PoolUser (Option α)} {t : PoolUser} {ret : Option (Option α)}
    (h : f.deqLoop t i = some (f', ret)) :
    f'.non_empty_c.woken = f.non_empty_c.woken ∧
      threadWork [.got ret] + 3 * f'.q.length + f'.has_space_c.woken.length ≤
        3 * f.q.length + f.has_space_c.woken.length := by
  rcases Fifo.deqLoop_cases h with ⟨-, rfl, rfl⟩ | ⟨e, q, c, hq, rfl, rfl, hc⟩
  · have hgot : threadWork [(Worker.waiting : Worker α)] = 0 := rfl
    refine ⟨rfl, ?_⟩
    simp only [Worker.got, hgot, Nat.zero_add, Nat.le_refl]
  · refine ⟨rfl, ?_⟩
    have hwoken : c.woken.length ≤ f.has_space_c.woken.length + 1 := by
      rcases hc with ⟨-, -, hc⟩ | ⟨-, rfl⟩
      · exact Cond.length_woken_signal hc
      · exact Nat.le_succ _
    have hgot : threadWork [Worker.got (some e)] ≤ 2 := by
      cases e with
      | none => exact Nat.zero_le 2
      | some j => exact Nat.le_refl 2
    show threadWork [Worker.got (some e)] + 3 * q.length + c.woken.length ≤ _
    rw [hq, List.length_cons]
    omega

/-- The destructor that goes to the queue has less to do then. -/
theorem enqLoop_work {f f' : Fifo PoolUser (Option α)} {d : ℕ} {ret : Option Bool} (hlt : d < n)
    (h : f.enqLoop .dtor none true i = some (f', ret)) :
    dtorWork n (dtorNext n d ret) + 3 * f'.q.length + f'.non_empty_c.woken.length +
        f'.has_space_c.woken.length ≤
      5 * (n - d) + n + 3 * f.q.length + f.non_empty_c.woken.length +
        f.has_space_c.woken.length := by
  rcases Fifo.enqLoop_cases h with ⟨-, rfl, c, hc, rfl⟩ | ⟨-, -, rfl, rfl⟩ | ⟨-, hb, -⟩
  · have hwoken := Cond.length_woken_signal hc
    have hnext : dtorWork n (dtorNext n d (some true)) ≤ 5 * (n - (d + 1)) + 1 + n := by
      rw [dtorNext, Dtor.enqFrom]
      split
      · exact Nat.le_refl _
      · simp only [dtorWork]
        omega
    show _ + 3 * (f.q ++ [none]).length + c.woken.length + f.has_space_c.woken.length ≤ _
    rw [List.length_append, List.length_singleton]
    omega
  · show 5 * (n - d) + 0 + n + 3 * f.q.length + f.non_empty_c.woken.length +
      f.has_space_c.woken.length ≤ _
    omega
  · exact Bool.noConfusion hb

/-- Every step leaves less to do. -/
theorem work_step {a : Step α} (hs : s.Inv) (hd : s.dtor ≠ .no) (hok : s.Ordinary a)
    (h : s.step a = some s') : s'.work < s.work ∧ s'.dtor ≠ .no := by
  have hnext : ∀ n d ret, dtorNext n d ret ≠ .no := by
    intro n d ret
    rcases ret with _ | _
    · exact Dtor.noConfusion
    · simp only [dtorNext, Dtor.enqFrom]
      split <;> exact Dtor.noConfusion
  cases a with
  | add a j i => exact absurd hok.1 hd
  | enqAgain k i =>
    obtain ⟨t, e, c, jobq, ret, hc, hr, hcase⟩ := enqAgain_cases h
    have hperm := (Cond.waiters_resume hc).symm.trans (hs.room hd)
    rcases hcase with ⟨a, rfl, rfl⟩ | ⟨d, b, rfl, hdtor, rfl⟩
    · have hmem := hperm.subset (List.mem_cons_self ..)
      exfalso
      revert hmem
      rcases s.dtor with _ | ⟨d, _ | _⟩ | _ <;> simp [dtorWaits]
    · rw [hdtor] at hperm
      cases b with
      | false => exact absurd hperm (by simp [dtorWaits])
      | true =>
        obtain ⟨heq, -⟩ := List.cons.inj (List.perm_singleton.1 hperm)
        obtain ⟨-, rfl⟩ := Prod.mk.inj heq
        have hwork := enqLoop_work (hs.enq d true hdtor) hr
        have hwoken := Cond.length_woken_resume hc
        refine ⟨?_, hnext _ _ _⟩
        simp only [work, hdtor, dtorWork, if_true] at hwork ⊢
        omega
  | take w i =>
    obtain ⟨jobq, ret, hx, hr, rfl⟩ := take_cases h
    obtain ⟨hwoken, hwork⟩ := deqLoop_work hr
    have hset := threadWork_set hx (.got ret)
    have hready : threadWork [(Worker.ready : Worker α)] = 1 := rfl
    refine ⟨?_, hd⟩
    simp only [work, List.length_set, hwoken]
    omega
  | takeAgain k i =>
    obtain ⟨w, c, jobq, ret, hc, hr, rfl⟩ := takeAgain_cases h
    obtain ⟨hwoken, hwork⟩ := deqLoop_work hr
    obtain ⟨w', hw', hx⟩ :=
      (hs.waiting _).1 ((Cond.waiters_resume hc).symm.subset (List.mem_cons_self ..))
    obtain rfl := PoolUser.worker.inj hw'
    have hset := threadWork_set hx (.got ret)
    have hwaiting : threadWork [(Worker.waiting : Worker α)] = 0 := rfl
    have hresume := Cond.length_woken_resume hc
    refine ⟨?_, hd⟩
    simp only [work, List.length_set, hwoken] at hwork ⊢
    omega
  | finish w =>
    obtain ⟨j, hx, rfl⟩ := finish_cases h
    have hset := threadWork_set hx .ready
    have hready : threadWork [(Worker.ready : Worker α)] = 1 := rfl
    have hrunning : threadWork [Worker.running j] = 2 := rfl
    refine ⟨?_, hd⟩
    simp only [work, List.length_set]
    omega
  | destroy => exact absurd (destroy_cases h).1 hd
  | pill i =>
    obtain ⟨d, jobq, ret, hdtor, hr, rfl⟩ := pill_cases h
    have hwork := enqLoop_work (hs.enq d false hdtor) hr
    refine ⟨?_, hnext _ _ _⟩
    simp only [work, hdtor, dtorWork, Bool.false_eq_true, if_false] at hwork ⊢
    omega
  | join =>
    obtain ⟨d, hdtor, hx, rfl⟩ := join_cases h
    obtain ⟨hlt, -⟩ := List.getElem?_eq_some_iff.1 hx
    refine ⟨?_, Dtor.noConfusion⟩
    simp only [work, hdtor, dtorWork]
    omega
  | spuriousEnq k => exact Bool.noConfusion hok.2
  | spuriousDeq k => exact Bool.noConfusion hok.2

/-! ## As long as there is something to do, there is a step to take -/

/-- A thread that has been woken can go on. -/
theorem takeAgain_isSome (hs : s.Inv) (hwoken : s.jobq.non_empty_c.woken ≠ []) :
    (s.step (.takeAgain 0 0)).isSome := by
  obtain ⟨t, c, hc⟩ := Cond.resume_zero hwoken
  obtain ⟨w, rfl, -⟩ :=
    (hs.waiting _).1 ((Cond.waiters_resume hc).symm.subset (List.mem_cons_self ..))
  obtain ⟨r, hr⟩ := ({ s.jobq with non_empty_c := c }).deqLoop_zero (.worker w)
  rw [step, Fifo.deqAgain, hc]
  dsimp only
  rw [hr]
  rfl

/-- And so can the destructor. -/
theorem enqAgain_isSome (hs : s.Inv) (hd : s.dtor ≠ .no)
    (hwoken : s.jobq.has_space_c.woken ≠ []) : (s.step (.enqAgain 0 0)).isSome := by
  obtain ⟨⟨t, e⟩, c, hc⟩ := Cond.resume_zero hwoken
  have hmem := ((Cond.waiters_resume hc).symm.trans (hs.room hd)).subset (List.mem_cons_self ..)
  cases hdtor : s.dtor with
  | no => exact absurd hdtor hd
  | join d => rw [hdtor] at hmem; exact absurd hmem List.not_mem_nil
  | enq d b =>
    cases b with
    | false => rw [hdtor] at hmem; exact absurd hmem List.not_mem_nil
    | true =>
      rw [hdtor] at hmem
      obtain ⟨rfl, rfl⟩ := Prod.mk.inj (List.mem_singleton.1 hmem)
      obtain ⟨r, hr⟩ := ({ s.jobq with has_space_c := c }).enqLoop_zero .dtor none true
      rw [step, Fifo.enqAgain, hc, hdtor]
      dsimp only
      rw [hr]
      rfl

/-- Where no thread can go on, those that are not gone wait for want of a job, and if the destructor
waits it is because the queue is full. -/
theorem idle (hs : s.Inv) (hnone : ∀ a, s.Ordinary a → s.step a = none) (hd : s.dtor ≠ .no) :
    (∀ (v : ℕ) w, s.th[v]? = some w → w ≠ .exited → s.jobq.q = []) ∧
      (s.jobq.has_space_c.waiters ≠ [] → s.jobq.q ≠ []) := by
  have hdeq : s.jobq.non_empty_c.woken = [] := by
    by_contra hne
    have hsome := takeAgain_isSome hs hne
    rw [hnone (.takeAgain 0 0) ⟨trivial, rfl⟩] at hsome
    exact Bool.noConfusion hsome
  have henq : s.jobq.has_space_c.woken = [] := by
    by_contra hne
    have hsome := enqAgain_isSome hs hd hne
    rw [hnone (.enqAgain 0 0) ⟨trivial, rfl⟩] at hsome
    exact Bool.noConfusion hsome
  obtain ⟨hempty, hfull⟩ := hs.queue.asleep hdeq henq
  refine ⟨fun v w hw hne => ?_, fun hne hq => ?_⟩
  · cases w with
    | ready =>
      obtain ⟨r, hr⟩ := s.jobq.deqLoop_zero (.worker v)
      have hstep := hnone (.take v 0) ⟨trivial, rfl⟩
      rw [step, hw] at hstep
      dsimp only at hstep
      rw [hr] at hstep
      cases hstep
    | running j =>
      have hstep := hnone (.finish v) ⟨trivial, rfl⟩
      rw [step, hw] at hstep
      cases hstep
    | exited => exact absurd rfl hne
    | waiting => exact hempty (List.ne_nil_of_mem ((hs.waiting _).2 ⟨v, rfl, hw⟩))
  · obtain ⟨hmax, hlen⟩ := hfull hne
    rw [hq] at hlen
    exact hmax hlen.symm

/-- Where no step is left, the destructor has returned. -/
theorem not_stuck (hs : s.Inv) (hd : s.dtor ≠ .no)
    (hnone : ∀ a, s.Ordinary a → s.step a = none) : s.Destroyed := by
  obtain ⟨hall, hfull⟩ := idle hs hnone hd
  have hpills := hs.pills
  cases hdtor : s.dtor with
  | no => exact absurd hdtor hd
  | enq d b =>
    exfalso
    rw [hdtor] at hpills
    have hlt := hs.enq d b hdtor
    cases b with
    | false =>
      obtain ⟨r, hr⟩ := s.jobq.enqLoop_zero .dtor none true
      have hstep := hnone (.pill 0) ⟨trivial, rfl⟩
      rw [step, hdtor] at hstep
      dsimp only at hstep
      rw [hr] at hstep
      cases hstep
    | true =>
      -- the queue is not empty, so all threads are gone; but there have been too few pills
      have hroom := hs.room hd
      rw [hdtor] at hroom
      have hq := hfull fun hnil => by
        rw [hnil] at hroom
        cases hroom.nil_eq
      have hexited : s.th.countP Worker.isExited = s.th.length := by
        refine List.countP_eq_length.2 fun w hw => ?_
        obtain ⟨v, hv⟩ := List.getElem?_of_mem hw
        by_contra hne
        exact hq (hall v w hv fun heq => hne (heq ▸ rfl))
      rw [hexited] at hpills
      simp only [ThrPool.pills] at hpills
      omega
  | join d =>
    obtain ⟨hle, -⟩ := hs.joined d hdtor
    by_contra hdone
    have hlt : d < s.th.length := Nat.lt_of_le_of_ne hle fun heq =>
      hdone (hdtor.trans (congrArg Dtor.join heq))
    have hx := List.getElem?_eq_getElem hlt
    cases hw : s.th[d] with
    | exited =>
      have hstep := hnone .join ⟨trivial, rfl⟩
      rw [step, hdtor] at hstep
      dsimp only at hstep
      rw [hx, hw] at hstep
      cases hstep
    | _ =>
      -- the queue is empty, so all pills have been taken
      have hq := hall d _ hx (by rw [hw]; simp)
      rw [hdtor, hq, ThrPool.pills, List.countP_nil, Nat.add_zero] at hpills
      have hex := List.countP_eq_length.1 hpills.symm _ (List.getElem_mem hlt)
      rw [hw] at hex
      exact Bool.noConfusion hex

/-- Once the destructor has been called, what is done up to its return are at most so many steps,
however they are interleaved, and where no step is left it has returned. -/
theorem destroy_completes (h : Run step Permitted (new sz blocking) as s) (hd : s.dtor ≠ .no)
    (hrun : Run step Ordinary s bs s') :
    bs.length ≤ s.work ∧ ((∀ a, s'.Ordinary a → s'.step a = none) → s'.Destroyed) := by
  have hinv : s'.Inv ∧ s'.dtor ≠ .no ∧ bs.length + s'.work ≤ s.work := by
    refine hrun.induct_trace (P := fun bs s' => s'.Inv ∧ s'.dtor ≠ .no ∧ bs.length + s'.work ≤ s.work)
      ⟨inv h, hd, Nat.le_of_eq (Nat.zero_add _)⟩ fun bs s₁ a s₂ hP hok hstep => ?_
    obtain ⟨hs₁, hd₁, hle⟩ := hP
    obtain ⟨hlt, hd₂⟩ := work_step hs₁ hd₁ hok hstep
    refine ⟨hs₁.step hok.1 hstep, hd₂, ?_⟩
    rw [List.length_append, List.length_singleton]
    omega
  obtain ⟨hs', hd', hle⟩ := hinv
  exact ⟨by omega, not_stuck hs' hd'⟩

/-- The destructor is called while the thread runs a job. -/
def calledEarly : ThrPool ℕ :=
  (execute (guarded step Permitted) (new 1 false) [.add 0 7 0, .take 0 0, .destroy]).get rfl

theorem destroy_completes_calledEarly : ∃ s' : ThrPool ℕ, s'.Destroyed ∧
    ([.pill 0, .finish 0, .take 0 0, .join] : List (Step ℕ)).length ≤ calledEarly.work ∧
      ((∀ a, s'.Ordinary a → s'.step a = none) → s'.Destroyed) := by
  have hrun : Run step Permitted (new 1 false) _ calledEarly := .of_guarded (Option.some_get _).symm
  have hrest : Run step Ordinary calledEarly [.pill 0, .finish 0, .take 0 0, .join] _ :=
    .of_guarded rfl
  exact ⟨_, by decide, destroy_completes hrun nofun hrest⟩

end ThrPool
end Rpc
end CseLab
