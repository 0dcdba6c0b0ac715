import Mathlib.Data.List.Basic

/-!
# Counting loops

`loop lo hi f s` is what `for (i = lo; i < hi; i++)` makes of `s` when its body makes `f i s` of it.
`loop_induct` is the rule for an invariant, indexed by the counter.
-/

set_option autoImplicit false

namespace CseLab

variable {σ : Type*} {lo hi : ℕ} {f : ℕ → σ → σ} {s : σ}

/-- `for (i = lo; i < hi; i++) s = f i s`. -/
def loop (lo hi : ℕ) (f : ℕ → σ → σ) (s : σ) : σ :=
  (List.range' lo (hi - lo)).foldl (fun s i => f i s) s

theorem loop_of_le (h : hi ≤ lo) : loop lo hi f s = s := by
  rw [loop, Nat.sub_eq_zero_of_le h]
  rfl

theorem loop_succ (h : lo ≤ hi) : loop lo (hi + 1) f s = f hi (loop lo hi f s) := by
  rw [loop, Nat.succ_sub h, List.range'_concat, List.foldl_append, Nat.one_mul,
    Nat.add_sub_cancel' h]
  rfl

/-- What holds before the loop and is kept by its body holds after it. -/
theorem loop_induct {P : ℕ → σ → Prop} (h : lo ≤ hi) (h0 : P lo s)
    (hstep : ∀ i s, lo ≤ i → i < hi → P i s → P (i + 1) (f i s)) : P hi (loop lo hi f s) := by
  induction hi with
  | zero =>
    obtain rfl := Nat.le_zero.1 h
    exact h0
  | succ hi ih =>
    rcases Nat.lt_or_eq_of_le h with hlt | rfl
    · have hle := Nat.le_of_lt_succ hlt
      rw [loop_succ hle]
      exact hstep hi _ hle (Nat.lt_succ_self hi)
        (ih hle fun i s hi hlt => hstep i s hi (Nat.lt_succ_of_lt hlt))
    · rwa [loop_of_le (Nat.le_refl _)]

/-- A loop that keeps `P`, however often it turns. -/
theorem loop_keeps {P : σ → Prop} (h0 : P s)
    (hstep : ∀ i s, lo ≤ i → i < hi → P s → P (f i s)) : P (loop lo hi f s) := by
  rcases Nat.le_total lo hi with h | h
  · exact loop_induct (P := fun _ => P) h h0 hstep
  · rwa [loop_of_le h]

attribute [irreducible] loop

end CseLab
