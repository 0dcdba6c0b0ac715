import CseLab.Rpc.Fifo

/-!
# The pool of threads

`ThrPool` is a `fifo` of jobs and threads that take them.  The destructor puts in a poison pill for
each thread and then waits for the threads, one after another.

* A job that has been accepted is run once, by one thread, and the jobs are begun in the order in
  which they have been accepted (`ThrPool.runs_once`).
* When the destructor returns, all jobs have been run and all threads are gone
  (`ThrPool.destroyed`).

Both need what the destructor asks for: that nobody uses the pool any more who is not one of its
threads (`Permitted`).
-/

set_option autoImplicit false

namespace CseLab
namespace Rpc

variable {α : Type*}

/-- Who calls the queue. -/
inductive PoolUser
  | worker (w : ℕ)
  | adder (a : ℕ)
  | dtor

/-- Where a thread is in `do_worker`. -/
inductive Worker (α : Type*)
  | ready
  /-- In `fifo::deq`, for want of a job. -/
  | waiting
  | running (j : α)
  | exited

namespace Worker

/-- What becomes of a thread in `takeJob`, as `deq` has returned a job, a pill or not at all. -/
def got : Option (Option α) → Worker α
  | none => waiting
  | some none => exited
  | some (some j) => running j

def job : Worker α → Option α
  | running j => some j
  | _ => none

def isExited : Worker α → Bool
  | exited => true
  | _ => false

end Worker

/-- Where `~ThrPool` is. -/
inductive Dtor
  | no
  /-- It has put in `i` pills, and waits for room for another one or is about to put it in. -/
  | enq (i : ℕ) (waits : Bool)
  /-- It has joined `i` threads. -/
  | join (i : ℕ)
  deriving DecidableEq

/-- At the loop test `i < nthreads_`. -/
def Dtor.enqFrom (n i : ℕ) : Dtor := if i < n then .enq i false else .join 0

/-- `ThrPool`; a job without a function is `none`. -/
structure ThrPool (α : Type*) where
  blockadd : Bool
  jobq : Fifo PoolUser (Option α)
  th : List (Worker α)
  dtor : Dtor
  /-- For the record: the jobs that have been run. -/
  ran : List α

namespace ThrPool

/-- `ThrPool::ThrPool`. -/
def new (sz : ℕ) (blocking : Bool) : ThrPool α :=
  ⟨blocking, .new (100 * sz), List.replicate sz .ready, .no, []⟩

inductive Step (α : Type*)
  /-- `addObjJob`. -/
  | add (a : ℕ) (j : α) (i : ℕ)
  /-- Who has been woken in `fifo::enq` goes on. -/
  | enqAgain (k i : ℕ)
  /-- `takeJob`. -/
  | take (w i : ℕ)
  /-- Who has been woken in `fifo::deq` goes on. -/
  | takeAgain (k i : ℕ)
  /-- The job of a thread returns. -/
  | finish (w : ℕ)
  | destroy
  /-- The destructor puts in a pill. -/
  | pill (i : ℕ)
  /-- The destructor joins the next thread. -/
  | join
  | spuriousEnq (k : ℕ)
  | spuriousDeq (k : ℕ)

/-- What becomes of the destructor, as `enq` has returned or not. -/
def dtorNext (n i : ℕ) : Option Bool → Dtor
  | none => .enq i true
  | some _ => .enqFrom n (i + 1)

def step (s : ThrPool α) : Step α → Option (ThrPool α)
  | .add a j i => (s.jobq.enqLoop (.adder a) (some j) s.blockadd i).map fun r =>
    { s with jobq := r.1 }
  | .enqAgain k i =>
    match s.jobq.enqAgain k i, s.dtor with
    | some (.adder _, jobq, _), _ => some { s with jobq := jobq }
    | some (.dtor, jobq, ret), .enq d _ =>
      some { s with jobq := jobq, dtor := dtorNext s.th.length d ret }
    | _, _ => none
  | .take w i =>
    match s.th[w]? with
    | some .ready => (s.jobq.deqLoop (.worker w) i).map fun r =>
      { s with jobq := r.1, th := s.th.set w (.got r.2) }
    | _ => none
  | .takeAgain k i =>
    match s.jobq.deqAgain k i with
    | some (.worker w, jobq, ret) => some { s with jobq := jobq, th := s.th.set w (.got ret) }
    | _ => none
  | .finish w =>
    match s.th[w]? with
    | some (.running j) => some { s with th := s.th.set w .ready, ran := s.ran ++ [j] }
    | _ => none
  | .destroy =>
    match s.dtor with
    | .no => some { s with dtor := .enqFrom s.th.length 0 }
    | _ => none
  | .pill i =>
    match s.dtor with
    | .enq d false => (s.jobq.enqLoop .dtor none true i).map fun r =>
      { s with jobq := r.1, dtor := dtorNext s.th.length d r.2 }
    | _ => none
  | .join =>
    match s.dtor with
    | .join i =>
      match s.th[i]? with
      | some .exited => some { s with dtor := .join (i + 1) }
      | _ => none
    | _ => none
  | .spuriousEnq k => (s.jobq.spuriousEnq k).map fun jobq => { s with jobq := jobq }
  | .spuriousDeq k => (s.jobq.spuriousDeq k).map fun jobq => { s with jobq := jobq }

/-- What is asked of those outside: no job comes once the destructor has been called, and it is not
called while somebody waits to put one in. -/
def Permitted (s : ThrPool α) : Step α → Prop
  | .add .. => s.dtor = .no
  | .destroy => s.jobq.has_space_c.waiters = []
  | _ => True

instance (s : ThrPool α) : ∀ a, Decidable (s.Permitted a)
  | .add .. => inferInstanceAs (Decidable (s.dtor = .no))
  | .destroy => decidable_of_iff (s.jobq.has_space_c.waiters.isEmpty = true) List.isEmpty_iff
  | .enqAgain .. | .take .. | .takeAgain .. | .finish _ | .pill _ | .join | .spuriousEnq _
  | .spuriousDeq _ => inferInstanceAs (Decidable True)

/-- The destructor has returned. -/
def Destroyed (s : ThrPool α) : Prop := s.dtor = .join s.th.length

instance (s : ThrPool α) : Decidable s.Destroyed := inferInstanceAs (Decidable (_ = _))

/-- The jobs that are being run. -/
def running (s : ThrPool α) : List α := s.th.filterMap Worker.job

/-- The jobs of a list of what may be jobs and pills. -/
def jobs (q : List (Option α)) : List α := q.filterMap id

variable {s s' : ThrPool α} {w x : Worker α} {i k n : ℕ}

@[simp] theorem isExited_got (ret : Option (Option α)) :
    (Worker.got ret).isExited = ret.toList.any Option.isNone := by
  rcases ret with _ | _ | _ <;> rfl

@[simp] theorem job_got (ret : Option (Option α)) : (Worker.got ret).job = ret.join := by
  rcases ret with _ | _ | _ <;> rfl

theorem got_eq_waiting {ret : Option (Option α)} : Worker.got ret = .waiting ↔ ret = none := by
  rcases ret with _ | _ | _ <;> simp [Worker.got]

/-- One thread goes on and the others stay where they are. -/
theorem th_update {th : List (Worker α)} {w : ℕ} (h : th[w]? = some x) :
    ∃ rest, th.Perm (x :: rest) ∧ ∀ y, (th.set w y).Perm (y :: rest) := by
  obtain ⟨hw, rfl⟩ := List.getElem?_eq_some_iff.1 h
  exact ⟨th.eraseIdx w, (List.getElem_cons_eraseIdx_perm hw).symm,
    fun y => List.set_perm_cons_eraseIdx hw y⟩

/-- One more thread has ended if it has got a pill. -/
theorem exited_set {th : List (Worker α)} {w : ℕ} (h : th[w]? = some x) (hex : x.isExited = false)
    (ret : Option (Option α)) : (th.set w (.got ret)).countP Worker.isExited =
      th.countP Worker.isExited + ret.toList.countP Option.isNone := by
  obtain ⟨rest, hth, hset⟩ := th_update h
  have hold : th.countP Worker.isExited = rest.countP Worker.isExited := by
    rw [hth.countP_eq, List.countP_cons_of_neg (by simp [hex])]
  rw [hold, (hset _).countP_eq, List.countP_cons, isExited_got]
  rcases ret with _ | _ | _ <;> simp

/-- One more job is being run if the thread has got one. -/
theorem running_set {th : List (Worker α)} {w : ℕ} (h : th[w]? = some x) (hjob : x.job = none)
    (ret : Option (Option α)) : ((th.set w (.got ret)).filterMap Worker.job).Perm
      (th.filterMap Worker.job ++ jobs ret.toList) := by
  obtain ⟨rest, hth, hset⟩ := th_update h
  have hold : (th.filterMap Worker.job).Perm (rest.filterMap Worker.job) := by
    have hrest := hth.filterMap Worker.job
    rwa [List.filterMap_cons_none hjob] at hrest
  refine ((hset _).filterMap _).trans (.trans ?_ (hold.append_right _).symm)
  rcases ret with _ | _ | j
  · exact .of_eq (List.append_nil _).symm
  · exact .of_eq (List.append_nil _).symm
  · exact (List.perm_append_singleton ..).symm

/-! ## What holds in every run -/

/-- The pills that have been put in. -/
def pills (n : ℕ) : Dtor → ℕ
  | .no => 0
  | .enq i _ => i
  | .join _ => n

/-- How the destructor waits for room. -/
def dtorWaits : Dtor → List (PoolUser × Option α)
  | .enq _ true => [(.dtor, none)]
  | _ => []

theorem pills_enqFrom (h : i ≤ n) : pills n (.enqFrom n i) = i := by
  rw [Dtor.enqFrom]
  split
  next => rfl
  next hge => exact Nat.le_antisymm (Nat.le_of_not_lt hge) h

@[simp] theorem dtorWaits_enqFrom (n i : ℕ) : dtorWaits (.enqFrom n i) (α := α) = [] := by
  rw [Dtor.enqFrom]
  split <;> rfl

structure Inv (s : ThrPool α) : Prop where
  queue : s.jobq.Inv
  nodup : s.jobq.non_empty_c.waiters.Nodup
  /-- The threads that wait for a job are those that the queue has. -/
  waiting : ∀ t, t ∈ s.jobq.non_empty_c.waiters ↔ ∃ w, t = .worker w ∧ s.th[w]? = some .waiting
  adders : s.dtor = .no → ∀ p ∈ s.jobq.has_space_c.waiters, ∃ a j, p = (.adder a, some j)
  /-- Once the destructor has been called, only it may wait for room. -/
  room : s.dtor ≠ .no → s.jobq.has_space_c.waiters.Perm (dtorWaits s.dtor)
  /-- The pills have come last. -/
  last : ∃ js : List α, s.jobq.enqd =
    js.map some ++ List.replicate (pills s.th.length s.dtor) none
  /-- Each pill that has been taken has ended a thread. -/
  exited : (s.jobq.deqd.map Prod.snd).countP Option.isNone = s.th.countP Worker.isExited
  /-- Each job that has been taken is being run or has been. -/
  once : (jobs (s.jobq.deqd.map Prod.snd)).Perm (s.ran ++ s.running)
  enq : ∀ i b, s.dtor = .enq i b → i < s.th.length
  joined : ∀ i, s.dtor = .join i → i ≤ s.th.length ∧ ∀ w < i, s.th[w]? = some .exited

theorem Inv.new (sz : ℕ) (blocking : Bool) : (new sz blocking : ThrPool α).Inv := by
  refine ⟨.new _, List.nodup_nil, fun t => ?_, nofun, fun h => absurd rfl h, ⟨[], rfl⟩, ?_, ?_, nofun,
    nofun⟩
  · refine iff_of_false List.not_mem_nil ?_
    rintro ⟨w, -, hw⟩
    have hready := List.eq_of_mem_replicate (List.mem_of_getElem? hw)
    exact absurd hready nofun
  · refine (List.countP_eq_zero.2 fun x hx => ?_).symm
    rw [List.eq_of_mem_replicate hx]
    exact Bool.false_ne_true
  · have hnone : (List.replicate sz (Worker.ready : Worker α)).filterMap Worker.job = [] := by
      simp [List.filterMap_replicate, Worker.job]
    show List.Perm [] ([] ++ List.filterMap Worker.job (List.replicate sz Worker.ready))
    rw [hnone]
    exact .refl _

/-- A thread comes out of `takeJob`, or stays in it; it had not been in it or has been woken, so
that `c` has those of the others that wait. -/
theorem Inv.took (hs : s.Inv) {w : ℕ} (hx : s.th[w]? = some x) (hjob : x.job = none)
    (hex : x.isExited = false) {c : Cond PoolUser} (hnodup : c.waiters.Nodup)
    (hc : ∀ t, t ∈ c.waiters ↔ ∃ v, t = .worker v ∧ v ≠ w ∧ s.th[v]? = some .waiting)
    {jobq : Fifo PoolUser (Option α)} {ret : Option (Option α)}
    (hr : ({ s.jobq with non_empty_c := c }).deqLoop (.worker w) i = some (jobq, ret))
    (hq : jobq.Inv) : ({ s with jobq := jobq, th := s.th.set w (.got ret) }).Inv := by
  obtain ⟨henqd, hdeqd, hroom, hcond⟩ := Fifo.deqLoop_frame hr
  obtain ⟨rest, hth, hset⟩ := th_update hx
  obtain ⟨hw, -⟩ := List.getElem?_eq_some_iff.1 hx
  have hmem : .worker w ∉ c.waiters := by
    rintro hin
    obtain ⟨v, hv, hne, -⟩ := (hc _).1 hin
    exact hne (PoolUser.worker.inj hv).symm
  refine ⟨hq, ?_, fun t => ?_, fun hd p hp => hs.adders hd p (hroom.subset hp), fun hd => ?_, ?_, ?_,
    ?_, fun j b hd => ?_, fun j hd => ?_⟩
  · show jobq.non_empty_c.waiters.Nodup
    rw [hcond]
    split
    · exact (Cond.waiters_wait c _).nodup_iff.2 (List.nodup_cons.2 ⟨hmem, hnodup⟩)
    · exact hnodup
  · -- who waits now: those that have waited, and this one if it has got nothing
    have hset : ∀ v, (s.th.set w (Worker.got ret))[v]? = some .waiting ↔
        (v = w ∧ ret = none) ∨ (v ≠ w ∧ s.th[v]? = some .waiting) := by
      intro v
      by_cases hv : v = w
      · subst hv
        rw [List.getElem?_set_self hw, Option.some_inj, got_eq_waiting]
        simp
      · rw [List.getElem?_set_ne (Ne.symm hv)]
        simp [hv]
    show t ∈ jobq.non_empty_c.waiters ↔ _
    simp only [hset, hcond]
    cases ret with
    | none =>
      rw [Option.isNone_none, if_pos rfl, (Cond.waiters_wait c _).mem_iff, List.mem_cons, hc]
      constructor
      · rintro (rfl | ⟨v, rfl, hv⟩)
        · exact ⟨w, rfl, .inl ⟨rfl, rfl⟩⟩
        · exact ⟨v, rfl, .inr hv⟩
      · rintro ⟨v, rfl, ⟨rfl, -⟩ | hv⟩
        · exact .inl rfl
        · exact .inr ⟨v, rfl, hv⟩
    | some j =>
      rw [Option.isNone_some, if_neg Bool.false_ne_true, hc]
      simp
  · exact hroom.trans (hs.room hd)
  · obtain ⟨js, hjs⟩ := hs.last
    refine ⟨js, henqd.trans ?_⟩
    show s.jobq.enqd = _
    rw [hjs, List.length_set]
  · show (jobq.deqd.map Prod.snd).countP Option.isNone = (s.th.set w (Worker.got ret)).countP _
    rw [exited_set hx hex, hdeqd, ← hs.exited, List.map_append, List.countP_append, List.map_map]
    exact congrArg (_ + List.countP _ ·) (List.map_id _)
  · show (jobs (jobq.deqd.map Prod.snd)).Perm
      (s.ran ++ (s.th.set w (Worker.got ret)).filterMap Worker.job)
    have hjobs : jobs (jobq.deqd.map Prod.snd) =
        jobs (s.jobq.deqd.map Prod.snd) ++ jobs ret.toList := by
      rw [hdeqd, List.map_append, jobs, List.filterMap_append, List.map_map]
      exact congrArg (_ ++ List.filterMap _ ·) (List.map_id _)
    rw [hjobs]
    refine (hs.once.append_right _).trans ?_
    rw [List.append_assoc]
    exact (running_set hx hjob ret).symm.append_left _
  · rw [List.length_set]
    exact hs.enq j b hd
  · obtain ⟨hle, hall⟩ := hs.joined j hd
    refine ⟨(List.length_set (a := Worker.got ret)).symm ▸ hle, fun v hv => ?_⟩
    have hne : w ≠ v := by
      rintro rfl
      rw [hall w hv] at hx
      rw [← Option.some_inj.1 hx] at hex
      exact Bool.noConfusion hex
    rw [List.getElem?_set_ne hne]
    exact hall v hv

/-- Somebody from outside has put in a job, or waits with it. -/
theorem Inv.added (hs : s.Inv) (hd : s.dtor = .no) {c : Cond (PoolUser × Option α)}
    (hc : ∀ p ∈ c.waiters, ∃ a j, p = (.adder a, some j)) {a : ℕ} {j : α} {b : Bool}
    {jobq : Fifo PoolUser (Option α)} {ret : Option Bool}
    (hr : ({ s.jobq with has_space_c := c }).enqLoop (.adder a) (some j) b i = some (jobq, ret))
    (hq : jobq.Inv) : ({ s with jobq := jobq }).Inv := by
  obtain ⟨hdeqd, henqd, hcond, hroom⟩ := Fifo.enqLoop_frame hr
  have hdeqd : jobq.deqd = s.jobq.deqd := hdeqd
  refine { hs with
    queue := hq
    nodup := hcond.nodup_iff.2 hs.nodup
    waiting := fun t => hcond.mem_iff.trans (hs.waiting t)
    adders := fun _ p hp => ?_
    room := fun hne => absurd hd hne
    last := ?_
    exited := hdeqd ▸ hs.exited
    once := hdeqd ▸ hs.once }
  · have hp : p ∈ jobq.has_space_c.waiters := hp
    rw [hroom] at hp
    split at hp
    · rcases List.mem_cons.1 ((Cond.waiters_wait c _).subset hp) with rfl | hp
      · exact ⟨a, j, rfl⟩
      · exact hc p hp
    · exact hc p hp
  · obtain ⟨js, hjs⟩ := hs.last
    simp only [hd, pills, List.replicate_zero, List.append_nil] at hjs
    simp only [hd, pills, List.replicate_zero, List.append_nil]
    have henqd : jobq.enqd = s.jobq.enqd ++ _ := henqd
    split at henqd
    · exact ⟨js ++ [j], by rw [henqd, hjs, List.map_append]; rfl⟩
    · exact ⟨js, by rw [henqd, hjs, List.append_nil]⟩

/-- The destructor has put in a pill, or waits with it. -/
theorem Inv.pilled (hs : s.Inv) {d : ℕ} {b : Bool} (hd : s.dtor = .enq d b)
    {c : Cond (PoolUser × Option α)} (hc : c.waiters = [])
    {jobq : Fifo PoolUser (Option α)} {ret : Option Bool}
    (hr : ({ s.jobq with has_space_c := c }).enqLoop .dtor none true i = some (jobq, ret))
    (hq : jobq.Inv) : ({ s with jobq := jobq, dtor := dtorNext s.th.length d ret }).Inv := by
  obtain ⟨hdeqd, henqd, hcond, hroom⟩ := Fifo.enqLoop_frame hr
  have hdeqd : jobq.deqd = s.jobq.deqd := hdeqd
  have henqd : jobq.enqd = s.jobq.enqd ++ _ := henqd
  have hlt := hs.enq d b hd
  obtain ⟨js, hjs⟩ := hs.last
  rw [hd] at hjs
  have hret : ret = none ∨ ret = some true := by
    rcases Fifo.enqLoop_cases hr with ⟨-, hret, -⟩ | ⟨-, -, hret, -⟩ | ⟨-, hb, -⟩
    · exact .inr hret
    · exact .inl hret
    · exact Bool.noConfusion hb
  refine
    { queue := hq
      nodup := hcond.nodup_iff.2 hs.nodup
      waiting := fun t => hcond.mem_iff.trans (hs.waiting t)
      adders := fun hno => ?_
      room := fun _ => ?_
      last := ?_
      exited := hdeqd ▸ hs.exited
      once := hdeqd ▸ hs.once
      enq := fun i b' hd' => ?_
      joined := fun i hd' => ?_ }
  · rcases hret with rfl | rfl
    · exact absurd hno nofun
    · simp only [dtorNext, Dtor.enqFrom] at hno
      split at hno <;> exact absurd hno nofun
  · show jobq.has_space_c.waiters.Perm (dtorWaits (dtorNext s.th.length d ret))
    rw [hroom]
    rcases hret with rfl | rfl
    · have hperm := Cond.waiters_wait c (PoolUser.dtor, (none : Option α))
      rw [hc] at hperm
      exact hperm
    · rw [if_neg nofun, dtorNext, dtorWaits_enqFrom, hc]
  · refine ⟨js, ?_⟩
    show jobq.enqd = _
    rw [henqd, hjs]
    rcases hret with rfl | rfl
    · exact List.append_nil _
    · rw [if_pos rfl, dtorNext, pills_enqFrom hlt, List.append_assoc, pills,
        ← List.replicate_succ']
  · rcases hret with rfl | rfl
    · obtain ⟨rfl, -⟩ := Dtor.enq.inj hd'
      exact hlt
    · simp only [dtorNext, Dtor.enqFrom] at hd'
      split at hd'
      next hlt' => exact (Dtor.enq.inj hd').1 ▸ hlt'
      next => exact absurd hd' nofun
  · rcases hret with rfl | rfl
    · exact absurd hd' nofun
    · simp only [dtorNext, Dtor.enqFrom] at hd'
      split at hd'
      next => exact absurd hd' nofun
      next =>
        obtain rfl := Dtor.join.inj hd'
        exact ⟨Nat.zero_le _, nofun⟩

/-! ## The steps, by what they do -/

theorem enqAgain_cases (h : s.step (.enqAgain k i) = some s') :
    ∃ t e c jobq ret, s.jobq.has_space_c.resume k = some ((t, e), c) ∧
      ({ s.jobq with has_space_c := c }).enqLoop t e true i = some (jobq, ret) ∧
      ((∃ a, t = .adder a ∧ s' = { s with jobq := jobq }) ∨
        ∃ d b, t = .dtor ∧ s.dtor = .enq d b ∧
          s' = { s with jobq := jobq, dtor := dtorNext s.th.length d ret }) := by
  rw [step] at h
  split at h
  next a jobq ret hr =>
    obtain ⟨e, c, hc, hr⟩ := Fifo.enqAgain_cases hr
    exact ⟨_, e, c, jobq, ret, hc, hr, .inl ⟨a, rfl, (Option.some_inj.1 h).symm⟩⟩
  next jobq ret d b hr hd =>
    obtain ⟨e, c, hc, hr⟩ := Fifo.enqAgain_cases hr
    exact ⟨_, e, c, jobq, ret, hc, hr, .inr ⟨d, b, rfl, hd, (Option.some_inj.1 h).symm⟩⟩
  next => exact absurd h nofun

theorem take_cases {w : ℕ} (h : s.step (.take w i) = some s') :
    ∃ jobq ret, s.th[w]? = some .ready ∧ s.jobq.deqLoop (.worker w) i = some (jobq, ret) ∧
      s' = { s with jobq := jobq, th := s.th.set w (.got ret) } := by
  rw [step] at h
  split at h
  next hx =>
    obtain ⟨⟨jobq, ret⟩, hr, rfl⟩ := Option.map_eq_some_iff.1 h
    exact ⟨jobq, ret, hx, hr, rfl⟩
  next => exact absurd h nofun

theorem takeAgain_cases (h : s.step (.takeAgain k i) = some s') :
    ∃ w c jobq ret, s.jobq.non_empty_c.resume k = some (.worker w, c) ∧
      ({ s.jobq with non_empty_c := c }).deqLoop (.worker w) i = some (jobq, ret) ∧
      s' = { s with jobq := jobq, th := s.th.set w (.got ret) } := by
  rw [step] at h
  split at h
  next w jobq ret hr =>
    obtain ⟨c, hc, hr⟩ := Fifo.deqAgain_cases hr
    exact ⟨w, c, jobq, ret, hc, hr, (Option.some_inj.1 h).symm⟩
  next => exact absurd h nofun

theorem finish_cases {w : ℕ} (h : s.step (.finish w) = some s') :
    ∃ j, s.th[w]? = some (.running j) ∧
      s' = { s with th := s.th.set w .ready, ran := s.ran ++ [j] } := by
  rw [step] at h
  split at h
  next j hx => exact ⟨j, hx, (Option.some_inj.1 h).symm⟩
  next => exact absurd h nofun

theorem destroy_cases (h : s.step .destroy = some s') :
    s.dtor = .no ∧ s' = { s with dtor := .enqFrom s.th.length 0 } := by
  rw [step] at h
  split at h
  next hd => exact ⟨hd, (Option.some_inj.1 h).symm⟩
  next => exact absurd h nofun

theorem pill_cases (h : s.step (.pill i) = some s') :
    ∃ d jobq ret, s.dtor = .enq d false ∧ s.jobq.enqLoop .dtor none true i = some (jobq, ret) ∧
      s' = { s with jobq := jobq, dtor := dtorNext s.th.length d ret } := by
  rw [step] at h
  split at h
  next d hd =>
    obtain ⟨⟨jobq, ret⟩, hr, rfl⟩ := Option.map_eq_some_iff.1 h
    exact ⟨d, jobq, ret, hd, hr, rfl⟩
  next => exact absurd h nofun

theorem join_cases (h : s.step .join = some s') :
    ∃ d, s.dtor = .join d ∧ s.th[d]? = some .exited ∧ s' = { s with dtor := .join (d + 1) } := by
  rw [step] at h
  split at h
  next d hd =>
    split at h
    next hx => exact ⟨d, hd, hx, (Option.some_inj.1 h).symm⟩
    next => exact absurd h nofun
  next => exact absurd h nofun

theorem Inv.step {a : Step α} (hs : s.Inv) (hok : s.Permitted a) (h : s.step a = some s') :
    s'.Inv := by
  cases a with
  | add a j i =>
    obtain ⟨⟨jobq, ret⟩, hr, rfl⟩ := Option.map_eq_some_iff.1 h
    exact hs.added hok (hs.adders hok) hr (hs.queue.enqLoop hr)
  | enqAgain k i =>
    obtain ⟨t, e, c, jobq, ret, hc, hr, hcase⟩ := enqAgain_cases h
    have hq := hs.queue.enqResume hc hr
    have hperm := Cond.waiters_resume hc
    rcases hcase with ⟨a, rfl, rfl⟩ | ⟨d, b, rfl, hd, rfl⟩
    · -- an adder waits only before the destructor is called
      have hd : s.dtor = .no := by
        by_contra hne
        have hroom := hperm.symm.trans (hs.room hne)
        have hmem := hroom.subset (List.mem_cons_self ..)
        revert hmem
        rcases s.dtor with _ | ⟨d, _ | _⟩ | _ <;> simp [dtorWaits]
      obtain ⟨a', j, heq⟩ := hs.adders hd _ (hperm.symm.subset (List.mem_cons_self ..))
      obtain ⟨-, rfl⟩ := Prod.mk.inj heq
      exact hs.added hd (fun p hp => hs.adders hd p (hperm.symm.subset (.tail _ hp))) hr hq
    · have hroom := hperm.symm.trans (hs.room (hd ▸ nofun))
      rw [hd] at hroom
      cases b with
      | false => exact absurd hroom (by simp [dtorWaits])
      | true =>
        obtain ⟨heq, hnil⟩ := List.cons.inj (List.perm_singleton.1 hroom)
        obtain ⟨-, rfl⟩ := Prod.mk.inj heq
        exact hs.pilled hd hnil hr hq
  | take w i =>
    obtain ⟨jobq, ret, hx, hr, rfl⟩ := take_cases h
    refine hs.took hx rfl rfl hs.nodup (fun t => (hs.waiting t).trans ?_) hr (hs.queue.deqLoop hr)
    refine exists_congr fun v => and_congr_right fun _ => ⟨fun hv => ⟨?_, hv⟩, And.right⟩
    rintro rfl
    rw [hx] at hv
    exact absurd hv nofun
  | takeAgain k i =>
    obtain ⟨w, c, jobq, ret, hc, hr, rfl⟩ := takeAgain_cases h
    have hperm := Cond.waiters_resume hc
    obtain ⟨hmem, hnodup⟩ := List.nodup_cons.1 (hperm.nodup_iff.1 hs.nodup)
    obtain ⟨w', hw', hx⟩ := (hs.waiting _).1 (hperm.symm.subset (List.mem_cons_self ..))
    obtain rfl := PoolUser.worker.inj hw'
    refine hs.took hx rfl rfl hnodup (fun t => ⟨fun ht => ?_, ?_⟩) hr (hs.queue.deqResume hc hr)
    · obtain ⟨v, rfl, hv⟩ := (hs.waiting t).1 (hperm.symm.subset (.tail _ ht))
      refine ⟨v, rfl, ?_, hv⟩
      rintro rfl
      exact hmem ht
    · rintro ⟨v, rfl, hne, hv⟩
      have hin := hperm.subset ((hs.waiting _).2 ⟨v, rfl, hv⟩)
      exact (List.mem_cons.1 hin).resolve_left fun heq => hne (PoolUser.worker.inj heq)
  | finish w =>
    obtain ⟨j, hx, rfl⟩ := finish_cases h
    obtain ⟨rest, hth, hset⟩ := th_update hx
    obtain ⟨hw, -⟩ := List.getElem?_eq_some_iff.1 hx
    refine { hs with
      waiting := fun t => (hs.waiting t).trans (exists_congr fun v => and_congr_right fun _ => ?_)
      last := ?_, exited := ?_, once := ?_, enq := fun i b hd => ?_, joined := fun i hd => ?_ }
    · show _ ↔ (s.th.set w .ready)[v]? = _
      by_cases hv : v = w
      · rw [hv, hx, List.getElem?_set_self hw]
        simp
      · rw [List.getElem?_set_ne (Ne.symm hv)]
    · rw [List.length_set]
      exact hs.last
    · refine hs.exited.trans ?_
      rw [hth.countP_eq, (hset _).countP_eq]
      rfl
    · refine hs.once.trans ?_
      have hrunning : s.running.Perm (j :: rest.filterMap Worker.job) := hth.filterMap _
      have hrest : ((s.th.set w .ready).filterMap Worker.job).Perm (rest.filterMap Worker.job) :=
        (hset .ready).filterMap _
      refine (hrunning.append_left _).trans (.trans ?_ (hrest.symm.append_left _))
      rw [List.append_assoc]
      exact .refl _
    · rw [List.length_set]
      exact hs.enq i b hd
    · obtain ⟨hle, hall⟩ := hs.joined i hd
      rw [List.length_set]
      refine ⟨hle, fun v hv => ?_⟩
      have hne : w ≠ v := by
        rintro rfl
        rw [hall w hv] at hx
        exact absurd hx nofun
      rw [List.getElem?_set_ne hne]
      exact hall v hv
  | destroy =>
    obtain ⟨hd, rfl⟩ := destroy_cases h
    refine { hs with
      adders := fun hno => ?_, room := fun _ => ?_, last := ?_, enq := fun i b hd' => ?_
      joined := fun i hd' => ?_ }
    · simp only [Dtor.enqFrom] at hno
      split at hno <;> exact absurd hno nofun
    · rw [dtorWaits_enqFrom]
      exact .of_eq hok
    · have hlast := hs.last
      rw [hd] at hlast
      rwa [pills_enqFrom (Nat.zero_le _)]
    · simp only [Dtor.enqFrom] at hd'
      split at hd'
      next hlt => exact (Dtor.enq.inj hd').1 ▸ hlt
      next => exact absurd hd' nofun
    · simp only [Dtor.enqFrom] at hd'
      split at hd'
      next => exact absurd hd' nofun
      next =>
        obtain rfl := Dtor.join.inj hd'
        exact ⟨Nat.zero_le _, nofun⟩
  | pill i =>
    obtain ⟨d, jobq, ret, hd, hr, rfl⟩ := pill_cases h
    have hroom := hs.room (hd ▸ nofun)
    rw [hd] at hroom
    exact hs.pilled hd hroom.eq_nil hr (hs.queue.enqLoop hr)
  | join =>
    obtain ⟨d, hd, hx, rfl⟩ := join_cases h
    obtain ⟨-, hall⟩ := hs.joined d hd
    obtain ⟨hlt, -⟩ := List.getElem?_eq_some_iff.1 hx
    have hroom := hs.room (hd ▸ nofun)
    have hlast := hs.last
    rw [hd] at hroom hlast
    refine { hs with
      adders := nofun, room := fun _ => hroom, last := hlast, enq := nofun, joined := fun i hd' => ?_ }
    obtain rfl := Dtor.join.inj hd'
    refine ⟨hlt, fun v hv => ?_⟩
    rcases Nat.lt_succ_iff_lt_or_eq.1 hv with hv | rfl
    · exact hall v hv
    · exact hx
  | spuriousEnq k =>
    obtain ⟨jobq, hr, rfl⟩ := Option.map_eq_some_iff.1 h
    obtain ⟨c, hc, rfl⟩ := Option.map_eq_some_iff.1 hr
    have hperm := Cond.waiters_wake hc
    exact { hs with
      queue := hs.queue.spuriousEnq hr
      adders := fun hd p hp => hs.adders hd p (hperm.subset hp)
      room := fun hd => hperm.trans (hs.room hd) }
  | spuriousDeq k =>
    obtain ⟨jobq, hr, rfl⟩ := Option.map_eq_some_iff.1 h
    obtain ⟨c, hc, rfl⟩ := Option.map_eq_some_iff.1 hr
    have hperm := Cond.waiters_wake hc
    exact { hs with
      queue := hs.queue.spuriousDeq hr
      nodup := hperm.nodup_iff.2 hs.nodup
      waiting := fun t => hperm.mem_iff.trans (hs.waiting t) }

variable {as bs : List (Step α)} {sz : ℕ} {blocking : Bool}

theorem inv (h : Run step Permitted (new sz blocking) as s) : s.Inv :=
  h.invariant (.new sz blocking) fun _ _ _ hs hok hstep => hs.step hok hstep

theorem length_th (h : Run step Permitted (new sz blocking) as s) : s.th.length = sz := by
  refine h.invariant (P := fun s => s.th.length = sz) List.length_replicate
    fun s a s' hlen _ hstep => ?_
  rw [← hlen]
  cases a with
  | add a j i =>
    obtain ⟨r, -, rfl⟩ := Option.map_eq_some_iff.1 hstep
    rfl
  | enqAgain k i =>
    obtain ⟨t, e, c, jobq, ret, -, -, ⟨a, -, rfl⟩ | ⟨d, b, -, -, rfl⟩⟩ := enqAgain_cases hstep
    · rfl
    · rfl
  | take w i =>
    obtain ⟨jobq, ret, -, -, rfl⟩ := take_cases hstep
    exact List.length_set ..
  | takeAgain k i =>
    obtain ⟨w, c, jobq, ret, -, -, rfl⟩ := takeAgain_cases hstep
    exact List.length_set ..
  | finish w =>
    obtain ⟨j, -, rfl⟩ := finish_cases hstep
    exact List.length_set ..
  | destroy =>
    obtain ⟨-, rfl⟩ := destroy_cases hstep
    rfl
  | pill i =>
    obtain ⟨d, jobq, ret, -, -, rfl⟩ := pill_cases hstep
    rfl
  | join =>
    obtain ⟨d, -, -, rfl⟩ := join_cases hstep
    rfl
  | spuriousEnq k =>
    obtain ⟨jobq, -, rfl⟩ := Option.map_eq_some_iff.1 hstep
    rfl
  | spuriousDeq k =>
    obtain ⟨jobq, -, rfl⟩ := Option.map_eq_some_iff.1 hstep
    rfl

/-- The jobs that have been accepted are, in this order, those that a thread has taken and those
that are still in the queue; and those that have been taken are those that have been run and those
that are being run, each as often as it has been accepted. -/
theorem runs_once (h : Run step Permitted (new sz blocking) as s) :
    jobs s.jobq.enqd = jobs (s.jobq.deqd.map Prod.snd) ++ jobs s.jobq.q ∧
      (jobs (s.jobq.deqd.map Prod.snd)).Perm (s.ran ++ s.running) := by
  have hs := inv h
  refine ⟨?_, hs.once⟩
  rw [hs.queue.order, jobs, List.filterMap_append]
  rfl

/-- A job that is being run, and another one behind it. -/
theorem runs_once_two : ∃ s : ThrPool ℕ, s.running = [7] ∧ jobs s.jobq.q = [8] ∧
    jobs s.jobq.enqd = jobs (s.jobq.deqd.map Prod.snd) ++ jobs s.jobq.q ∧
      (jobs (s.jobq.deqd.map Prod.snd)).Perm (s.ran ++ s.running) := by
  have hrun : Run step Permitted (new 1 false) [.add 0 7 0, .add 1 8 0, .take 0 0] _ :=
    .of_guarded rfl
  exact ⟨_, rfl, rfl, runs_once hrun⟩

/-- The pills that are in the queue are those that no thread has taken yet. -/
theorem Inv.pills (hs : s.Inv) : ThrPool.pills s.th.length s.dtor =
    s.th.countP Worker.isExited + s.jobq.q.countP Option.isNone := by
  obtain ⟨js, hjs⟩ := hs.last
  have hcount := congrArg (List.countP Option.isNone) (hjs.symm.trans hs.queue.order)
  have hjobs : (js.map some).countP Option.isNone = 0 := by
    rw [List.countP_map]
    exact List.countP_eq_zero.2 fun j _ => Bool.false_ne_true
  rw [List.countP_append, List.countP_append, hjobs, hs.exited, Nat.zero_add,
    List.countP_replicate, if_pos Option.isNone_none] at hcount
  exact hcount

/-- When the destructor returns, there is nothing left to do and nobody left who might. -/
theorem destroyed (h : Run step Permitted (new sz blocking) as s) (hsz : 0 < sz)
    (hd : s.Destroyed) : s.jobq.q = [] ∧ (∀ w ∈ s.th, w = .exited) ∧
      (jobs s.jobq.enqd).Perm s.ran := by
  have hs := inv h
  obtain ⟨-, hall⟩ := hs.joined _ hd
  have hexited : ∀ w ∈ s.th, w = .exited := by
    intro w hw
    obtain ⟨v, hv, rfl⟩ := List.getElem_of_mem hw
    have hv' := hall v hv
    rw [List.getElem?_eq_getElem hv] at hv'
    exact Option.some_inj.1 hv'
  have hcount : s.th.countP Worker.isExited = s.th.length :=
    List.countP_eq_length.2 fun w hw => by rw [hexited w hw]; rfl
  have hpills := hs.pills
  rw [hd, ThrPool.pills, hcount] at hpills
  have hnone : s.jobq.q.countP Option.isNone = 0 := by omega
  have hq : s.jobq.q = [] := by
    -- the last thing that was put in is a pill, and there is none in the queue
    by_contra hne
    obtain ⟨js, hjs⟩ := hs.last
    have hlast := congrArg List.getLast? (hjs.symm.trans hs.queue.order)
    rw [hd, ThrPool.pills, length_th h, List.getLast?_append, List.getLast?_append,
      List.getLast?_replicate, if_neg (by omega), Option.some_or, List.getLast?_eq_some_getLast hne,
      Option.some_or] at hlast
    have hmem : none ∈ s.jobq.q := Option.some_inj.1 hlast ▸ List.getLast_mem hne
    exact List.countP_eq_zero.1 hnone none hmem rfl
  refine ⟨hq, hexited, ?_⟩
  obtain ⟨horder, honce⟩ := runs_once h
  have hrunning : s.running = [] := by
    refine List.filterMap_eq_nil_iff.2 fun w hw => ?_
    rw [hexited w hw]
    rfl
  rw [hq, show jobs ([] : List (Option α)) = [] from rfl, List.append_nil] at horder
  rw [hrunning, List.append_nil] at honce
  rw [horder]
  exact honce

/-- One thread, which sleeps when the job comes, and again when the destructor is called. -/
def oneJob : List (Step ℕ) :=
  [.take 0 0, .add 0 7 0, .takeAgain 0 0, .finish 0, .take 0 0, .destroy, .pill 0, .takeAgain 0 0,
    .join]

theorem destroyed_oneJob : ∃ s : ThrPool ℕ, s.ran = [7] ∧ s.jobq.q = [] ∧
    (∀ w ∈ s.th, w = .exited) ∧ (jobs s.jobq.enqd).Perm s.ran := by
  have hrun : Run step Permitted (new 1 false) oneJob _ := .of_guarded rfl
  exact ⟨_, rfl, destroyed hrun Nat.one_pos rfl⟩

end ThrPool

end Rpc
end CseLab
