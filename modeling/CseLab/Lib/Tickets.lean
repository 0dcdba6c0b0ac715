import CseLab.Lib.Run
import Mathlib.Data.Int.Basic
import Mathlib.Data.List.Nodup
import Mathlib.Data.List.Range

/-!
# Numbers drawn from a counter

A machine has a counter; the actions that satisfy `draws` return its value and count it up, and no
other touches it.  What is drawn along a run is then the interval of numbers from the first value
on, `Run.drawn_eq`, and whatever is asked about it is a question about that interval.
-/

set_option autoImplicit false

namespace CseLab

variable {σ α : Type*} {step : σ → α → Option σ}

/-- The counter `next` is moved by the actions that draw, and by one. -/
structure Tickets (step : σ → α → Option σ) (next : σ → ℤ) (draws : α → Prop) : Prop where
  draw : ∀ {s a s'}, step s a = some s' → draws a → next s' = next s + 1
  keep : ∀ {s a s'}, step s a = some s' → ¬ draws a → next s' = next s

/-- What one step draws. -/
def drawn (next : σ → ℤ) (draws : α → Prop) [DecidablePred draws] (s : σ) (a : α) (_ : σ) :
    List ℤ :=
  if draws a then [next s] else []

/-- The `n` numbers from `n₀` on. -/
def interval (n₀ : ℤ) (n : ℕ) : List ℤ := (List.range n).map fun i : ℕ => n₀ + i

theorem interval_succ (n₀ : ℤ) (n : ℕ) : interval n₀ (n + 1) = interval n₀ n ++ [n₀ + n] := by
  rw [interval, List.range_succ, List.map_append]
  rfl

theorem nodup_interval (n₀ : ℤ) (n : ℕ) : (interval n₀ n).Nodup :=
  List.nodup_range.map fun _ _ h => Int.natCast_inj.1 (Int.add_left_cancel h)

theorem mem_interval {n₀ k : ℤ} {n : ℕ} : k ∈ interval n₀ n ↔ n₀ ≤ k ∧ k < n₀ + n := by
  rw [interval, List.mem_map]
  refine ⟨?_, fun ⟨hle, hlt⟩ => ⟨(k - n₀).toNat, List.mem_range.2 (by omega), by omega⟩⟩
  rintro ⟨i, hi, rfl⟩
  have := List.mem_range.1 hi
  omega

section run

variable {next : σ → ℤ} {draws : α → Prop} [DecidablePred draws] {ok : σ → α → Prop} {s₀ s : σ}
  {as : List α}

/-- How far the counter has come. -/
theorem Run.counter_eq (h : Run step ok s₀ as s) (ht : Tickets step next draws) :
    next s = next s₀ + as.countP (draws ·) := by
  induction h with
  | nil => rw [List.countP_nil]; exact (Int.add_zero _).symm
  | @snoc as s s' a h _ hs ih =>
    rw [List.countP_append, List.countP_singleton]
    by_cases ha : draws a
    · simp only [ht.draw hs ha, ih, ha, decide_true, if_true]
      omega
    · simp only [ht.keep hs ha, ih, ha, decide_false, Bool.false_eq_true, if_false]
      omega

/-- **What is drawn along a run** is the interval of numbers from the counter's first value on. -/
theorem Run.drawn_eq (h : Run step ok s₀ as s) (ht : Tickets step next draws) :
    observe step (drawn next draws) s₀ as = interval (next s₀) (as.countP (draws ·)) := by
  induction h with
  | nil => rfl
  | @snoc as s s' a h _ hs ih =>
    rw [h.observe_snoc hs, ih, List.countP_append, List.countP_singleton, drawn]
    by_cases ha : draws a
    · simp only [ha, decide_true, if_true, interval_succ, h.counter_eq ht]
    · simp only [ha, decide_false, Bool.false_eq_true, if_false, List.append_nil, Nat.add_zero]

end run

end CseLab
