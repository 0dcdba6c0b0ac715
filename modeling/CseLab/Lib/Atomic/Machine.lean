import CseLab.Lib.Run
import Mathlib.Logic.Function.Basic

/-!
# Operations on a shared store, under locks

An operation is a program that calls a store and a lock service, one call after another, and
computes on what it gets in between.  `Proc` is such a program as a tree of calls: what comes after
a call is a function of the call's answer.  The store has objects by number; it hands out the number
of a new object itself, by looking at which kind of object is where (`Heap`).

* `Proc.alone` is what an operation does if it is alone.
* `System.step` is what many clients do together, each of them one operation after another and each
  call one step.  The lock service grants a lock if nobody has it.
* `OneAtATime` says of a log of operations that it is what happens if they are carried out one after
  another, each of them alone.
-/

set_option autoImplicit false

namespace CseLab
namespace Atomic

/-- A program that returns a `ρ`, on objects `Ω` with numbers `ι`. -/
inductive Proc (ι Ω ρ : Type*)
  /-- The end. -/
  | ret (r : ρ)
  /-- The end of the process: an assertion fails, or an exception is thrown. -/
  | fail
  | acquire (i : ι) (p : Proc ι Ω ρ)
  | release (i : ι) (p : Proc ι Ω ρ)
  | get (i : ι) (k : Ω → Proc ι Ω ρ)
  /-- The object `i` is changed. -/
  | put (i : ι) (f : Ω → Ω) (p : Proc ι Ω ρ)
  | remove (i : ι) (p : Proc ι Ω ρ)
  /-- A new object `o`. -/
  | create (o : Ω) (k : ι → Proc ι Ω ρ)

/-- What the store is made of. -/
structure Heap (ι Ω τ : Type*) where
  /-- The kind of an object. -/
  kind : Ω → τ
  /-- What is where no object is. -/
  gone : Ω
  /-- The number of a new object, by the kinds of what is there; `none` if the store is full. -/
  next : (ι → τ) → Option ι
  next_gone : ∀ m i, next m = some i → m i = kind gone

variable {ι Ω τ ρ κ θ : Type*}

/-- There is an object. -/
def Heap.Live (H : Heap ι Ω τ) (o : Ω) : Prop := H.kind o ≠ H.kind H.gone

/-! ## Clients -/

/-- A client at work. -/
structure Thread (θ ι Ω ρ : Type*) where
  op : θ
  /-- What is left to do. -/
  prog : Proc ι Ω ρ
  /-- The locks it has. -/
  held : List ι
  /-- The objects it has created. -/
  made : List ι

/-- The store, the lock service and the clients. -/
structure System (κ θ ι Ω ρ : Type*) where
  store : ι → Ω
  lock : ι → Option κ
  thread : κ → Option (Thread θ ι Ω ρ)

/-- A client starts an operation, or makes its next call. -/
inductive Act (κ θ : Type*)
  | call (c : κ) (op : θ)
  | go (c : κ)

namespace System

/-- An operation returns. -/
def returned (s : System κ θ ι Ω ρ) (a : Act κ θ) (_ : System κ θ ι Ω ρ) : List (κ × θ × ρ) :=
  match a with
  | .call _ _ => []
  | .go c =>
    match s.thread c with
    | none => []
    | some t =>
      match t.prog with
      | .ret r => [(c, t.op, r)]
      | _ => []

variable {s s' : System κ θ ι Ω ρ} {c : κ} {t : Thread θ ι Ω ρ}

theorem returned_ret {r : ρ} (ht : s.thread c = some t) (hp : t.prog = .ret r) :
    returned s (.go c) s' = [(c, t.op, r)] := by
  simp only [returned, ht, hp]

theorem returned_eq_nil (ht : s.thread c = some t) (hp : ∀ r, t.prog ≠ .ret r) :
    returned s (.go c) s' = [] := by
  simp only [returned, ht]

end System

variable [DecidableEq ι]

/-! ## One operation after another -/

namespace Proc

/-- The program on the store `s`, with the locks `held` and nobody else about. -/
def alone (H : Heap ι Ω τ) : Proc ι Ω ρ → List ι → (ι → Ω) → Option (ρ × (ι → Ω))
  | ret r, _, s => some (r, s)
  | fail, _, _ => none
  | acquire i p, held, s => if i ∈ held then none else alone H p (i :: held) s
  | release i p, held, s => alone H p (held.erase i) s
  | get i k, held, s => alone H (k (s i)) held s
  | put i f p, held, s => alone H p held (Function.update s i (f (s i)))
  | remove i p, held, s => alone H p held (Function.update s i H.gone)
  | create o k, held, s =>
    (H.next fun i => H.kind (s i)).bind fun i => alone H (k i) held (Function.update s i o)

end Proc

/-- The log of the operations, with who asked for them and what they returned, is what happens if
they are carried out one at a time on the store `s₀`, and the store is left as it says. -/
inductive OneAtATime (H : Heap ι Ω τ) (code : θ → Proc ι Ω ρ) (s₀ : ι → Ω) :
    List (κ × θ × ρ) → (ι → Ω) → Prop
  | nil : OneAtATime H code s₀ [] s₀
  | snoc {log : List (κ × θ × ρ)} {s s' : ι → Ω} {op : θ} {r : ρ} (c : κ)
      (h : OneAtATime H code s₀ log s) (hop : (code op).alone H [] s = some (r, s')) :
      OneAtATime H code s₀ (log ++ [(c, op, r)]) s'

/-! ## All of them at once -/

namespace System

variable [DecidableEq κ] (H : Heap ι Ω τ) (code : θ → Proc ι Ω ρ)

/-- Nobody is at work. -/
def start (store : ι → Ω) : System κ θ ι Ω ρ := ⟨store, fun _ => none, fun _ => none⟩

/-- Client `c` is now at `t`. -/
def goto (s : System κ θ ι Ω ρ) (c : κ) (t : Thread θ ι Ω ρ) : System κ θ ι Ω ρ :=
  { s with thread := Function.update s.thread c (some t) }

/-- The next call of `c`, which is at `t`. -/
def go (s : System κ θ ι Ω ρ) (c : κ) (t : Thread θ ι Ω ρ) : Option (System κ θ ι Ω ρ) :=
  match t.prog with
  | .ret _ => some { s with thread := Function.update s.thread c none }
  | .fail => none
  | .acquire i p =>
    if s.lock i = none then
      some ({ s with lock := Function.update s.lock i (some c) }.goto c
        { t with prog := p, held := i :: t.held })
    else none
  | .release i p =>
    some ({ s with lock := Function.update s.lock i none }.goto c
      { t with prog := p, held := t.held.erase i })
  | .get i k => some (s.goto c { t with prog := k (s.store i) })
  | .put i f p =>
    some ({ s with store := Function.update s.store i (f (s.store i)) }.goto c { t with prog := p })
  | .remove i p =>
    some ({ s with store := Function.update s.store i H.gone }.goto c { t with prog := p })
  | .create o k =>
    (H.next fun i => H.kind (s.store i)).map fun i =>
      { s with store := Function.update s.store i o }.goto c
        { t with prog := k i, made := i :: t.made }

/-- One step. -/
def step (s : System κ θ ι Ω ρ) : Act κ θ → Option (System κ θ ι Ω ρ)
  | .call c op =>
    match s.thread c with
    | none => some (s.goto c ⟨op, code op, [], []⟩)
    | some _ => none
  | .go c =>
    match s.thread c with
    | none => none
    | some t => s.go H c t

variable {H code} {s s' : System κ θ ι Ω ρ} {c : κ} {a : Act κ θ}

theorem step_go {t : Thread θ ι Ω ρ} (ht : s.thread c = some t) :
    step H code s (.go c) = s.go H c t := by
  simp only [step, ht]

/-- Others do not move a client that is at work, and get it no locks. -/
theorem step_other (h : step H code s a = some s') (hc : s.thread c ≠ none) (ha : a ≠ .go c) :
    s'.thread c = s.thread c ∧ ∀ i, s'.lock i = some c → s.lock i = some c := by
  cases a with
  | call d op =>
    simp only [step] at h
    split at h
    · rename_i hd
      cases h
      have hne : c ≠ d := by
        rintro rfl
        exact hc hd
      exact ⟨Function.update_of_ne hne .., fun _ => id⟩
    · cases h
  | go d =>
    have hne : c ≠ d := by
      rintro rfl
      exact ha rfl
    simp only [step] at h
    split at h
    · cases h
    rename_i t _
    rw [go] at h
    cases hp : t.prog with
    | ret r | get i k | put i f p | remove i p =>
      rw [hp] at h
      cases h
      exact ⟨Function.update_of_ne hne .., fun _ => id⟩
    | fail =>
      rw [hp] at h
      cases h
    | acquire i p =>
      rw [hp] at h
      obtain ⟨-, h⟩ := Option.ite_none_right_eq_some.1 h
      cases h
      refine ⟨Function.update_of_ne hne .., fun j hj => ?_⟩
      by_cases hji : j = i
      · subst hji
        have hdc : d = c := by simpa [goto] using hj
        exact absurd hdc.symm hne
      · simpa [goto, hji] using hj
    | release i p =>
      rw [hp] at h
      cases h
      refine ⟨Function.update_of_ne hne .., fun j hj => ?_⟩
      by_cases hji : j = i
      · simp [goto, hji] at hj
      · simpa [goto, hji] using hj
    | create o k =>
      rw [hp] at h
      obtain ⟨i, -, rfl⟩ := Option.map_eq_some_iff.1 h
      exact ⟨Function.update_of_ne hne .., fun _ => id⟩

end System

end Atomic
end CseLab
