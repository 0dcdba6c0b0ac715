import Mathlib.Data.List.Count
import Mathlib.Tactic.TypeStar

/-!
# Programs that take locks

`Prog` is a program as a tree of calls, to a lock service and to others whose answers are not known:
what comes after a call is a function of its answer.  `Prog.run` carries it out, for any answers,
and keeps a log of the locks that it gets and gives up.  A program that asks for a lock which it has
already waits for itself.

`Ensures` is the precondition of a program for what is to hold when it returns; it goes through a
program call by call (the simp lemmas `ensures_…`), and `Ensures.run` says what it comes to in terms
of the log.
-/

set_option autoImplicit false

namespace CseLab
namespace Locking

/-- A program that returns a `ρ`, with locks `ι` and calls `Q`; an `A q` is the answer to `q`. -/
inductive Prog (ι : Type) {Q : Type} (A : Q → Type) (ρ : Type)
  | ret (r : ρ)
  /-- The end of the process. -/
  | fail
  | acquire (i : ι) (p : Prog ι A ρ)
  | release (i : ι) (p : Prog ι A ρ)
  | ask (q : Q) (k : A q → Prog ι A ρ)

variable {ι Q ρ σ : Type} {A : Q → Type}

namespace Prog

def bind : Prog ι A ρ → (ρ → Prog ι A σ) → Prog ι A σ
  | ret r, f => f r
  | fail, _ => fail
  | acquire i p, f => acquire i (p.bind f)
  | release i p, f => release i (p.bind f)
  | ask q k, f => ask q fun a => (k a).bind f

instance : Monad (Prog ι A) where
  pure := ret
  bind := bind

variable {f : ρ → Prog ι A σ}

@[simp] theorem pure_eq (r : ρ) : (pure r : Prog ι A ρ) = ret r := rfl

@[simp] theorem ret_bind (r : ρ) : (ret r : Prog ι A ρ) >>= f = f r := rfl

@[simp] theorem fail_bind : (fail : Prog ι A ρ) >>= f = fail := rfl

@[simp] theorem acquire_bind (i : ι) (p : Prog ι A ρ) : acquire i p >>= f = acquire i (p >>= f) :=
  rfl

@[simp] theorem release_bind (i : ι) (p : Prog ι A ρ) : release i p >>= f = release i (p >>= f) :=
  rfl

@[simp] theorem ask_bind (q : Q) (k : A q → Prog ι A ρ) :
    ask q k >>= f = ask q fun a => k a >>= f := rfl

end Prog

/-! ## The log -/

/-- What the lock service has granted, and what it has got back. -/
inductive Event (ι : Type)
  | acquired (i : ι)
  | released (i : ι)
  deriving DecidableEq

/-- How a program ends. -/
inductive Ending (ι ρ : Type)
  | returned (r : ρ)
  /-- It waits for a lock that it has itself. -/
  | blocked (i : ι)
  | failed

/-- What a program does. -/
structure Outcome (ι ρ : Type) where
  log : List (Event ι)
  /-- How many calls have been answered. -/
  asked : ℕ
  ending : Ending ι ρ

namespace Outcome

/-- Before that, `e`. -/
def after (out : Outcome ι ρ) (e : Event ι) : Outcome ι ρ := { out with log := e :: out.log }

/-- It does not wait forever, and it does not fail. -/
def Returns (out : Outcome ι ρ) : Prop := ∃ r, out.ending = .returned r

end Outcome

variable [DecidableEq ι] {held held' : List ι} {log : List (Event ι)} {i : ι} {n : ℕ}

/-- A log that begins with the locks `held` and ends with `held'`; no lock is given up that is not
there. -/
structure Moves (log : List (Event ι)) (held held' : List ι) : Prop where
  counts : ∀ i, log.count (.acquired i) + held.count i = log.count (.released i) + held'.count i
  within : ∀ pre, pre <+: log → ∀ i,
    pre.count (.released i) ≤ pre.count (.acquired i) + held.count i

/-- Every lock that is got is given up, once, and not before it is got. -/
def Balanced (log : List (Event ι)) : Prop := Moves log [] []

namespace Moves

theorem nil (held : List ι) : Moves [] held held where
  counts _ := rfl
  within pre hpre i := by
    rw [List.prefix_nil.1 hpre]
    exact Nat.zero_le _

theorem acquire (h : Moves log (i :: held) held') : Moves (.acquired i :: log) held held' where
  counts j := by
    have hj := h.counts j
    simp only [List.count_cons, beq_iff_eq, Event.acquired.injEq, reduceCtorEq, if_false] at hj ⊢
    omega
  within pre hpre j := by
    rcases List.prefix_cons_iff.1 hpre with rfl | ⟨pre, rfl, hpre⟩
    · exact Nat.zero_le _
    · have hj := h.within pre (List.cons_prefix_cons.1 hpre).2 j
      simp only [List.count_cons, beq_iff_eq, Event.acquired.injEq, reduceCtorEq, if_false] at hj ⊢
      omega

theorem release (hi : i ∈ held) (h : Moves log (held.erase i) held') :
    Moves (.released i :: log) held held' where
  counts j := by
    have hj := h.counts j
    have hpos := List.count_pos_iff.2 hi
    simp only [List.count_cons, List.count_erase, beq_iff_eq, Event.released.injEq, reduceCtorEq,
      if_false] at hj ⊢
    grind
  within pre hpre j := by
    rcases List.prefix_cons_iff.1 hpre with rfl | ⟨pre, rfl, hpre⟩
    · exact Nat.zero_le _
    · have hj := h.within pre (List.cons_prefix_cons.1 hpre).2 j
      have hpos := List.count_pos_iff.2 hi
      simp only [List.count_cons, List.count_erase, beq_iff_eq, Event.released.injEq, reduceCtorEq,
        if_false] at hj ⊢
      grind

/-- What is left over in the end is what the log lacks for balance. -/
theorem balanced_iff_nil (h : Moves log [] held) : Balanced log ↔ held = [] := by
  constructor
  · intro hb
    refine List.eq_nil_iff_forall_not_mem.2 fun i hi => ?_
    have hpos := List.count_pos_iff.2 hi
    have hcounts := h.counts i
    rw [hb.counts i, List.count_nil] at hcounts
    omega
  · rintro rfl
    exact h

end Moves

/-! ## Running a program -/

variable (answers : ℕ → (q : Q) → A q)

/-- The program with the locks `held`, after `n` calls have been answered. -/
def Prog.run : Prog ι A ρ → ℕ → List ι → Outcome ι ρ
  | ret r, n, _ => ⟨[], n, .returned r⟩
  | fail, n, _ => ⟨[], n, .failed⟩
  | acquire i p, n, held =>
    if i ∈ held then ⟨[], n, .blocked i⟩ else (p.run n (i :: held)).after (.acquired i)
  | release i p, n, held => (p.run n (held.erase i)).after (.released i)
  | ask q k, n, held => (k (answers n q)).run (n + 1) held

/-- It returns, having given up no lock but what it had, with an `r` for which `post` holds of the
calls and of the locks that there are then. -/
def Ensures : Prog ι A ρ → ℕ → List ι → (ρ → ℕ → List ι → Prop) → Prop
  | .ret r, n, held, post => post r n held
  | .fail, _, _, _ => False
  | .acquire i p, n, held, post => i ∉ held ∧ Ensures p n (i :: held) post
  | .release i p, n, held, post => i ∈ held ∧ Ensures p n (held.erase i) post
  | .ask q k, n, held, post => Ensures (k (answers n q)) (n + 1) held post

section

variable {answers}

/-! ### When it returns -/

variable {p : Prog ι A ρ} {q : Q} {r : ρ}

@[simp] theorem returns_ret : ((Prog.ret r : Prog ι A ρ).run answers n held).Returns := ⟨r, rfl⟩

@[simp] theorem not_returns_fail : ¬ ((Prog.fail : Prog ι A ρ).run answers n held).Returns := nofun

@[simp] theorem returns_acquire : ((Prog.acquire i p).run answers n held).Returns ↔
    i ∉ held ∧ (p.run answers n (i :: held)).Returns := by
  rw [Prog.run]
  split
  next h => exact ⟨nofun, fun h' => absurd h h'.1⟩
  next h => exact ⟨fun h' => ⟨h, h'⟩, fun h' => h'.2⟩

@[simp] theorem returns_release : ((Prog.release i p).run answers n held).Returns ↔
    (p.run answers n (held.erase i)).Returns := Iff.rfl

@[simp] theorem returns_ask {k : A q → Prog ι A ρ} : ((Prog.ask q k).run answers n held).Returns ↔
    ((k (answers n q)).run answers (n + 1) held).Returns := Iff.rfl

end

/-! ### What it ensures -/

variable {p : Prog ι A ρ} {post : ρ → ℕ → List ι → Prop}

theorem Ensures.run (h : Ensures answers p n held post) : ∃ r held',
    (p.run answers n held).ending = .returned r ∧ Moves (p.run answers n held).log held held' ∧
      post r (p.run answers n held).asked held' := by
  induction p generalizing n held with
  | ret r => exact ⟨r, held, rfl, .nil held, h⟩
  | fail => exact h.elim
  | acquire i p ih =>
    obtain ⟨hi, h⟩ := h
    obtain ⟨r, held', hend, hmoves, hpost⟩ := ih h
    rw [Prog.run, if_neg hi]
    exact ⟨r, held', hend, hmoves.acquire, hpost⟩
  | release i p ih =>
    obtain ⟨hi, h⟩ := h
    obtain ⟨r, held', hend, hmoves, hpost⟩ := ih h
    exact ⟨r, held', hend, hmoves.release hi, hpost⟩
  | ask q k ih => exact ih _ h

theorem Ensures.returns (h : Ensures answers p n held post) : (p.run answers n held).Returns := by
  obtain ⟨r, -, hr, -⟩ := h.run
  exact ⟨r, hr⟩

section

variable {f : ρ → Prog ι A σ} {post' : σ → ℕ → List ι → Prop} {q : Q} {r : ρ} {j : ι}

@[simp] theorem ensures_ret : Ensures answers (.ret r : Prog ι A ρ) n held post ↔ post r n held :=
  Iff.rfl

@[simp] theorem ensures_pure : Ensures answers (pure r : Prog ι A ρ) n held post ↔ post r n held :=
  Iff.rfl

@[simp] theorem ensures_fail : ¬ Ensures answers (.fail : Prog ι A ρ) n held post := not_false

@[simp] theorem ensures_acquire : Ensures answers (.acquire i p) n held post ↔
    i ∉ held ∧ Ensures answers p n (i :: held) post := Iff.rfl

@[simp] theorem ensures_release : Ensures answers (.release i p) n held post ↔
    i ∈ held ∧ Ensures answers p n (held.erase i) post := Iff.rfl

@[simp] theorem ensures_ask {k : A q → Prog ι A ρ} : Ensures answers (.ask q k) n held post ↔
    Ensures answers (k (answers n q)) (n + 1) held post := Iff.rfl

@[simp] theorem ensures_ite {c : Prop} [Decidable c] {p' : Prog ι A ρ} :
    Ensures answers (if c then p else p') n held post ↔
      if c then Ensures answers p n held post else Ensures answers p' n held post := by
  split <;> rfl

@[simp] theorem ensures_bind : Ensures answers (p >>= f) n held post' ↔
    Ensures answers p n held fun r n held => Ensures answers (f r) n held post' := by
  change Ensures answers (p.bind f) n held post' ↔ _
  induction p generalizing n held with
  | ret r => exact Iff.rfl
  | fail => exact Iff.rfl
  | acquire i p ih => exact and_congr_right fun _ => ih
  | release i p ih => exact and_congr_right fun _ => ih
  | ask q k ih => exact ih _

end

end Locking
end CseLab
