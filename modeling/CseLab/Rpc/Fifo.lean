import CseLab.Lib.Cond
import CseLab.Lib.Run

/-!
# The bounded queue

`fifo` is a list behind a mutex, with a condition variable for those that find it empty and one for
those that find it full.  A call of `enq` or `deq` is a loop; each time round, from where it has the
mutex to where it gives it up, is one step, and the calls' steps come in any order.  Wakeups may be
spurious.

* What comes out is what has gone in, in that order (`Inv.order`), and the queue does not outgrow
  its limit (`Inv.bound`).
* No wakeup is lost (`Inv.deq`, `Inv.enq`), so that when nobody is about to get the mutex those that
  sleep do so for a reason (`Inv.asleep`).
-/

set_option autoImplicit false

namespace CseLab
namespace Rpc

variable {τ α : Type*}

/-- `fifo`; the calls are told apart by a `τ`. -/
structure Fifo (τ α : Type*) where
  /-- The most that it holds, and 0 if there is no limit. -/
  max : ℕ
  q : List α
  non_empty_c : Cond τ
  /-- Who waits here has something to put in. -/
  has_space_c : Cond (τ × α)
  /-- For the record: what has gone in. -/
  enqd : List α
  /-- For the record: what has come out, and for whom. -/
  deqd : List (τ × α)

namespace Fifo

/-- `fifo::fifo`. -/
def new (limit : ℕ) : Fifo τ α := ⟨limit, [], .init, .init, [], []⟩

/-- `!max_ || q_.size() < max_`. -/
def HasSpace (f : Fifo τ α) : Prop := f.max = 0 ∨ f.q.length < f.max

instance (f : Fifo τ α) : Decidable f.HasSpace := inferInstanceAs (Decidable (_ ∨ _))

/-- `fifo::size`, which says whether there is anything. -/
def size (f : Fifo τ α) : Bool := f.q.length ≠ 0

/-- Once round the loop of `fifo::enq`, with what it returns if it does not wait. -/
def enqLoop (f : Fifo τ α) (t : τ) (e : α) (blocking : Bool) (i : ℕ) :
    Option (Fifo τ α × Option Bool) :=
  if f.HasSpace then
    (f.non_empty_c.signal i).map fun c =>
      ({ f with q := f.q ++ [e], non_empty_c := c, enqd := f.enqd ++ [e] }, some true)
  else if blocking then some ({ f with has_space_c := f.has_space_c.wait (t, e) }, none)
  else some (f, some false)

/-- Once round the loop of `fifo::deq`, with what it has got if it does not wait. -/
def deqLoop (f : Fifo τ α) (t : τ) (i : ℕ) : Option (Fifo τ α × Option α) :=
  match f.q with
  | [] => some ({ f with non_empty_c := f.non_empty_c.wait t }, none)
  | e :: q =>
    let f := { f with q := q, deqd := f.deqd ++ [(t, e)] }
    if f.max ≠ 0 ∧ q.length < f.max then
      (f.has_space_c.signal i).map fun c => ({ f with has_space_c := c }, some e)
    else some (f, some e)

inductive Step (τ α : Type*)
  /-- A call of `enq` gets the mutex; the next signal goes to the `i`-th that sleeps. -/
  | enq (t : τ) (e : α) (blocking : Bool) (i : ℕ)
  /-- The `j`-th call of `enq` that has been woken gets the mutex. -/
  | enqAgain (j i : ℕ)
  | deq (t : τ) (i : ℕ)
  | deqAgain (j i : ℕ)
  /-- `pthread_cond_wait` returns although nobody has signalled. -/
  | spuriousEnq (j : ℕ)
  | spuriousDeq (j : ℕ)

/-- A call of `enq` that has been woken goes round its loop. -/
def enqAgain (f : Fifo τ α) (j i : ℕ) : Option (τ × Fifo τ α × Option Bool) :=
  match f.has_space_c.resume j with
  | none => none
  | some ((t, e), c) =>
    (({ f with has_space_c := c }).enqLoop t e true i).map fun r => (t, r)

/-- A call of `deq` that has been woken goes round its loop. -/
def deqAgain (f : Fifo τ α) (j i : ℕ) : Option (τ × Fifo τ α × Option α) :=
  match f.non_empty_c.resume j with
  | none => none
  | some (t, c) => (({ f with non_empty_c := c }).deqLoop t i).map fun r => (t, r)

def spuriousEnq (f : Fifo τ α) (j : ℕ) : Option (Fifo τ α) :=
  (f.has_space_c.wake j).map fun c => { f with has_space_c := c }

def spuriousDeq (f : Fifo τ α) (j : ℕ) : Option (Fifo τ α) :=
  (f.non_empty_c.wake j).map fun c => { f with non_empty_c := c }

def step (f : Fifo τ α) : Step τ α → Option (Fifo τ α)
  | .enq t e blocking i => (f.enqLoop t e blocking i).map Prod.fst
  | .enqAgain j i => (f.enqAgain j i).map fun r => r.2.1
  | .deq t i => (f.deqLoop t i).map Prod.fst
  | .deqAgain j i => (f.deqAgain j i).map fun r => r.2.1
  | .spuriousEnq j => f.spuriousEnq j
  | .spuriousDeq j => f.spuriousDeq j

variable {f f' : Fifo τ α} {t : τ} {e : α} {blocking : Bool} {i j k m : ℕ}

theorem full_of_not_hasSpace (h : ¬ f.HasSpace) : f.max ≠ 0 ∧ f.max - f.q.length = 0 :=
  ⟨fun h0 => h (.inl h0), Nat.sub_eq_zero_of_le (Nat.le_of_not_lt fun hlt => h (.inr hlt))⟩

/-! ## Once round each loop -/

theorem enqLoop_cases {ret : Option Bool} (h : f.enqLoop t e blocking i = some (f', ret)) :
    (f.HasSpace ∧ ret = some true ∧ ∃ c, f.non_empty_c.signal i = some c ∧
      f' = { f with q := f.q ++ [e], non_empty_c := c, enqd := f.enqd ++ [e] }) ∨
    (¬ f.HasSpace ∧ blocking = true ∧ ret = none ∧
      f' = { f with has_space_c := f.has_space_c.wait (t, e) }) ∨
    (¬ f.HasSpace ∧ blocking = false ∧ ret = some false ∧ f' = f) := by
  rw [enqLoop] at h
  split at h
  next hspace =>
    obtain ⟨c, hc, heq⟩ := Option.map_eq_some_iff.1 h
    obtain ⟨rfl, rfl⟩ := Prod.mk.inj heq
    exact .inl ⟨hspace, rfl, c, hc, rfl⟩
  next hspace =>
    split at h
    next hb =>
      obtain ⟨rfl, rfl⟩ := Prod.mk.inj (Option.some_inj.1 h)
      exact .inr (.inl ⟨hspace, hb, rfl, rfl⟩)
    next hb =>
      obtain ⟨rfl, rfl⟩ := Prod.mk.inj (Option.some_inj.1 h)
      exact .inr (.inr ⟨hspace, Bool.eq_false_iff.2 hb, rfl, rfl⟩)

theorem deqLoop_cases {ret : Option α} (h : f.deqLoop t i = some (f', ret)) :
    (f.q = [] ∧ ret = none ∧ f' = { f with non_empty_c := f.non_empty_c.wait t }) ∨
    ∃ e q c, f.q = e :: q ∧ ret = some e ∧
      f' = { f with q := q, deqd := f.deqd ++ [(t, e)], has_space_c := c } ∧
      ((f.max ≠ 0 ∧ q.length < f.max ∧ f.has_space_c.signal i = some c) ∨
        (¬ (f.max ≠ 0 ∧ q.length < f.max) ∧ c = f.has_space_c)) := by
  rw [deqLoop] at h
  split at h
  next hq =>
    obtain ⟨rfl, rfl⟩ := Prod.mk.inj (Option.some_inj.1 h)
    exact .inl ⟨hq, rfl, rfl⟩
  next e q hq =>
    dsimp only at h
    split at h
    next hlt =>
      obtain ⟨c, hc, heq⟩ := Option.map_eq_some_iff.1 h
      obtain ⟨rfl, rfl⟩ := Prod.mk.inj heq
      exact .inr ⟨e, q, c, hq, rfl, rfl, .inl ⟨hlt.1, hlt.2, hc⟩⟩
    next hlt =>
      obtain ⟨rfl, rfl⟩ := Prod.mk.inj (Option.some_inj.1 h)
      exact .inr ⟨e, q, f.has_space_c, hq, rfl, rfl, .inr ⟨hlt, rfl⟩⟩

/-- What a call of `enq` leaves alone. -/
theorem enqLoop_frame {ret : Option Bool} (h : f.enqLoop t e blocking i = some (f', ret)) :
    f'.deqd = f.deqd ∧ f'.enqd = f.enqd ++ (if ret = some true then [e] else []) ∧
      f'.non_empty_c.waiters.Perm f.non_empty_c.waiters ∧
      f'.has_space_c = if ret = none then f.has_space_c.wait (t, e) else f.has_space_c := by
  rcases enqLoop_cases h with ⟨-, rfl, c, hc, rfl⟩ | ⟨-, -, rfl, rfl⟩ | ⟨-, -, rfl, rfl⟩
  · exact ⟨rfl, rfl, Cond.waiters_signal hc, rfl⟩
  · exact ⟨rfl, (List.append_nil _).symm, .refl _, rfl⟩
  · exact ⟨rfl, (List.append_nil _).symm, .refl _, rfl⟩

/-- What a call of `deq` leaves alone. -/
theorem deqLoop_frame {ret : Option α} (h : f.deqLoop t i = some (f', ret)) :
    f'.enqd = f.enqd ∧ f'.deqd = f.deqd ++ ret.toList.map (Prod.mk t) ∧
      f'.has_space_c.waiters.Perm f.has_space_c.waiters ∧
      f'.non_empty_c = if ret.isNone then f.non_empty_c.wait t else f.non_empty_c := by
  rcases deqLoop_cases h with ⟨-, rfl, rfl⟩ | ⟨e, q, c, -, rfl, rfl, hc⟩
  · exact ⟨rfl, (List.append_nil _).symm, .refl _, rfl⟩
  · refine ⟨rfl, rfl, ?_, rfl⟩
    rcases hc with ⟨-, -, hc⟩ | ⟨-, rfl⟩
    · exact Cond.waiters_signal hc
    · exact .refl _

/-- Nothing keeps a call of `enq` that has the mutex from going on. -/
theorem enqLoop_zero (f : Fifo τ α) (t : τ) (e : α) (blocking : Bool) :
    ∃ r, f.enqLoop t e blocking 0 = some r := by
  obtain ⟨c, hc⟩ := f.non_empty_c.signal_zero
  rw [enqLoop, hc]
  split
  · exact ⟨_, rfl⟩
  · split <;> exact ⟨_, rfl⟩

theorem deqLoop_zero (f : Fifo τ α) (t : τ) : ∃ r, f.deqLoop t 0 = some r := by
  obtain ⟨c, hc⟩ := f.has_space_c.signal_zero
  rw [deqLoop]
  split
  · exact ⟨_, rfl⟩
  · dsimp only
    rw [hc]
    split <;> exact ⟨_, rfl⟩

theorem enqAgain_cases {ret : Option Bool} (h : f.enqAgain j i = some (t, f', ret)) :
    ∃ e c, f.has_space_c.resume j = some ((t, e), c) ∧
      ({ f with has_space_c := c }).enqLoop t e true i = some (f', ret) := by
  rw [enqAgain] at h
  split at h
  next => exact absurd h nofun
  next t' e c hc =>
    obtain ⟨r, hr, heq⟩ := Option.map_eq_some_iff.1 h
    obtain ⟨rfl, rfl⟩ := Prod.mk.inj heq
    exact ⟨e, c, hc, hr⟩

theorem deqAgain_cases {ret : Option α} (h : f.deqAgain j i = some (t, f', ret)) :
    ∃ c, f.non_empty_c.resume j = some (t, c) ∧
      ({ f with non_empty_c := c }).deqLoop t i = some (f', ret) := by
  rw [deqAgain] at h
  split at h
  next => exact absurd h nofun
  next t' c hc =>
    obtain ⟨r, hr, heq⟩ := Option.map_eq_some_iff.1 h
    obtain ⟨rfl, rfl⟩ := Prod.mk.inj heq
    exact ⟨c, hc, hr⟩

/-! ## What holds in every run -/

/-- What is known of a queue when `k` elements are there for those that wait for one, and room for
`m` more for those that wait for room. -/
structure With (f : Fifo τ α) (k m : ℕ) : Prop where
  order : f.enqd = f.deqd.map Prod.snd ++ f.q
  bound : f.max ≠ 0 → f.q.length ≤ f.max
  deq : f.non_empty_c.Served k
  enq : f.has_space_c.Served m
  limited : f.has_space_c.waiters ≠ [] → f.max ≠ 0

/-- What holds in every run. -/
def Inv (f : Fifo τ α) : Prop := f.With f.q.length (f.max - f.q.length)

theorem Inv.new (limit : ℕ) : (new limit : Fifo τ α).Inv :=
  ⟨rfl, fun _ => Nat.zero_le _, Cond.served_init _, Cond.served_init _, fun h => absurd rfl h⟩

/-- A call of `enq` may be one of those that have been woken for the room there is. -/
theorem With.enqLoop {ret : Option Bool} (hf : f.With f.q.length (f.max - f.q.length - 1))
    (h : f.enqLoop t e blocking i = some (f', ret)) : f'.Inv := by
  rcases enqLoop_cases h with ⟨hspace, -, c, hc, rfl⟩ | ⟨hspace, -, -, rfl⟩ | ⟨hspace, -, -, heq⟩
  · refine ⟨?_, fun hmax => ?_, ?_, ?_, hf.limited⟩
    · exact (congrArg (· ++ [e]) hf.order).trans (List.append_assoc ..)
    · rcases hspace with h0 | hlt
      · exact absurd h0 hmax
      · rw [List.length_append, List.length_singleton]
        exact hlt
    · rw [List.length_append, List.length_singleton]
      exact hf.deq.signal hc
    · refine hf.enq.mono ?_
      show f.max - (f.q ++ [e]).length ≤ _
      rw [List.length_append, List.length_singleton]
      omega
  · obtain ⟨hmax, hfull⟩ := full_of_not_hasSpace hspace
    refine ⟨hf.order, hf.bound, hf.deq, ?_, fun _ => hmax⟩
    show (f.has_space_c.wait (t, e)).Served (f.max - f.q.length)
    rw [hfull]
    exact Cond.served_wait _ _
  · have hfull := (full_of_not_hasSpace hspace).2
    rw [heq]
    exact ⟨hf.order, hf.bound, hf.deq, hf.enq.mono (by omega), hf.limited⟩

/-- A call of `deq` may be one of those that have been woken for what is there. -/
theorem With.deqLoop {ret : Option α} (hf : f.With (f.q.length - 1) (f.max - f.q.length))
    (h : f.deqLoop t i = some (f', ret)) : f'.Inv := by
  rcases deqLoop_cases h with ⟨hq, -, rfl⟩ | ⟨e, q, c, hq, -, rfl, hc⟩
  · refine ⟨hf.order, hf.bound, ?_, hf.enq, hf.limited⟩
    show (f.non_empty_c.wait t).Served f.q.length
    rw [hq]
    exact Cond.served_wait _ _
  · have hlen : f.q.length = q.length + 1 := by rw [hq, List.length_cons]
    have hdeq : f.non_empty_c.Served q.length := hf.deq.mono (by omega)
    have horder : f.enqd = (f.deqd ++ [(t, e)]).map Prod.snd ++ q := by
      rw [hf.order, hq, List.map_append, List.append_assoc]
      rfl
    rcases hc with ⟨hmax, hlt, hc⟩ | ⟨hlt, rfl⟩
    · refine ⟨horder, fun _ => Nat.le_of_lt hlt, hdeq, ?_, fun _ => hmax⟩
      refine (hf.enq.signal hc).mono ?_
      show f.max - q.length ≤ _
      omega
    · have hmax : f.max = 0 := by
        by_contra hne
        have hle := hf.bound hne
        exact hlt ⟨hne, by omega⟩
      refine ⟨horder, fun hne => absurd hmax hne, hdeq, hf.enq.mono ?_, hf.limited⟩
      show f.max - q.length ≤ _
      omega

theorem Inv.enqLoop {ret : Option Bool} (hf : f.Inv)
    (h : f.enqLoop t e blocking i = some (f', ret)) : f'.Inv :=
  With.enqLoop { hf with enq := hf.enq.mono (Nat.sub_le ..) } h

theorem Inv.deqLoop {ret : Option α} (hf : f.Inv) (h : f.deqLoop t i = some (f', ret)) : f'.Inv :=
  With.deqLoop { hf with deq := hf.deq.mono (Nat.sub_le ..) } h

/-- One that has been woken goes round the loop of `enq`. -/
theorem Inv.enqResume {c : Cond (τ × α)} {ret : Option Bool} (hf : f.Inv)
    (hc : f.has_space_c.resume j = some ((t, e), c))
    (h : ({ f with has_space_c := c }).enqLoop t e blocking i = some (f', ret)) : f'.Inv := by
  refine With.enqLoop (f := { f with has_space_c := c })
    ⟨hf.order, hf.bound, hf.deq, hf.enq.resume hc, fun _ => hf.limited ?_⟩ h
  intro hnil
  exact absurd (hnil ▸ Cond.waiters_resume hc).symm (by simp)

/-- One that has been woken goes round the loop of `deq`. -/
theorem Inv.deqResume {c : Cond τ} {ret : Option α} (hf : f.Inv)
    (hc : f.non_empty_c.resume j = some (t, c))
    (h : ({ f with non_empty_c := c }).deqLoop t i = some (f', ret)) : f'.Inv :=
  With.deqLoop (f := { f with non_empty_c := c })
    ⟨hf.order, hf.bound, hf.deq.resume hc, hf.enq, hf.limited⟩ h

theorem Inv.spuriousEnq (hf : f.Inv) (h : f.spuriousEnq j = some f') : f'.Inv := by
  obtain ⟨c, hc, rfl⟩ := Option.map_eq_some_iff.1 h
  refine { hf with
    enq := (hf.enq.wake hc).mono (Nat.le_succ _), limited := fun hne => hf.limited ?_ }
  rintro hnil
  exact hne (List.Perm.eq_nil (hnil ▸ Cond.waiters_wake hc))

theorem Inv.spuriousDeq (hf : f.Inv) (h : f.spuriousDeq j = some f') : f'.Inv := by
  obtain ⟨c, hc, rfl⟩ := Option.map_eq_some_iff.1 h
  exact { hf with deq := (hf.deq.wake hc).mono (Nat.le_succ _) }

theorem Inv.step {a : Step τ α} (hf : f.Inv) (h : f.step a = some f') : f'.Inv := by
  cases a with
  | enq t e blocking i =>
    obtain ⟨⟨f', ret⟩, hr, rfl⟩ := Option.map_eq_some_iff.1 h
    exact hf.enqLoop hr
  | enqAgain j i =>
    obtain ⟨⟨t, f', ret⟩, hr, rfl⟩ := Option.map_eq_some_iff.1 h
    obtain ⟨e, c, hc, hr⟩ := enqAgain_cases hr
    exact hf.enqResume hc hr
  | deq t i =>
    obtain ⟨⟨f', ret⟩, hr, rfl⟩ := Option.map_eq_some_iff.1 h
    exact hf.deqLoop hr
  | deqAgain j i =>
    obtain ⟨⟨t, f', ret⟩, hr, rfl⟩ := Option.map_eq_some_iff.1 h
    obtain ⟨c, hc, hr⟩ := deqAgain_cases hr
    exact hf.deqResume hc hr
  | spuriousEnq j => exact hf.spuriousEnq h
  | spuriousDeq j => exact hf.spuriousDeq h

/-- In any interleaving of any calls. -/
theorem inv {ok : Fifo τ α → Step τ α → Prop} {limit : ℕ} {as : List (Step τ α)}
    (h : Run step ok (new limit) as f) : f.Inv :=
  h.invariant (Inv.new limit) fun _ _ _ hf _ hs => hf.step hs

/-- When nobody has been woken, those that wait for an element do so because there is none, and
those that wait for room because there is none. -/
theorem Inv.asleep (hf : f.Inv) (hdeq : f.non_empty_c.woken = [])
    (henq : f.has_space_c.woken = []) :
    (f.non_empty_c.waiters ≠ [] → f.q = []) ∧
      (f.has_space_c.waiters ≠ [] → f.max ≠ 0 ∧ f.q.length = f.max) := by
  refine ⟨fun hne => ?_, fun hne => ?_⟩
  · rw [Cond.waiters, hdeq, List.append_nil] at hne
    have hle := hf.deq hne
    rw [hdeq] at hle
    exact List.length_eq_zero_iff.1 (Nat.le_zero.1 hle)
  · have hmax := hf.limited hne
    rw [Cond.waiters, henq, List.append_nil] at hne
    have hle := hf.enq hne
    rw [henq] at hle
    have hbound := hf.bound hmax
    refine ⟨hmax, ?_⟩
    have h0 := Nat.le_zero.1 hle
    omega

/-- In any interleaving of any calls, what has come out is what has gone in first, in this order;
the queue is within its limit; and those that sleep are kept waiting by what they wait for, as soon
as nobody else is about to go on. -/
theorem fifo_no_lost_wakeup {ok : Fifo τ α → Step τ α → Prop} {limit : ℕ} {as : List (Step τ α)}
    (h : Run step ok (new limit) as f) :
    f.enqd = f.deqd.map Prod.snd ++ f.q ∧ (f.max ≠ 0 → f.q.length ≤ f.max) ∧
      (f.non_empty_c.woken = [] → f.has_space_c.woken = [] →
        (f.non_empty_c.waiters ≠ [] → f.q = []) ∧
          (f.has_space_c.waiters ≠ [] → f.max ≠ 0 ∧ f.q.length = f.max)) :=
  have hf := inv h
  ⟨hf.order, hf.bound, fun hdeq henq => hf.asleep hdeq henq⟩

/-- Two consumers sleep when an element comes; one of them is woken and overtaken, and sleeps
again. -/
theorem fifo_no_lost_wakeup_two : ∃ f : Fifo ℕ ℕ,
    Run step anyStep (new 1) [.deq 0 0, .deq 1 0, .enq 2 7 true 0, .deq 3 0, .deqAgain 0 0] f ∧
      f.non_empty_c.woken = [] ∧ f.has_space_c.woken = [] ∧ f.non_empty_c.waiters = [1, 0] ∧
      f.enqd = f.deqd.map Prod.snd ++ f.q ∧ (f.max ≠ 0 → f.q.length ≤ f.max) ∧ f.q = [] := by
  have hrun : Run step anyStep (new 1)
      [.deq 0 0, .deq 1 0, .enq 2 7 true 0, .deq 3 0, .deqAgain 0 0] _ := .of_execute rfl
  obtain ⟨horder, hbound, hasleep⟩ := fifo_no_lost_wakeup hrun
  have hempty := (hasleep rfl rfl).1 (List.cons_ne_nil 1 [0])
  exact ⟨_, hrun, rfl, rfl, rfl, horder, hbound, hempty⟩

end Fifo

end Rpc
end CseLab
