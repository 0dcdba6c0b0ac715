import Mathlib.Data.List.Basic

/-!
# Reading values from the front of a buffer

A reader is a program on a state of type `S`.  `left s rest` says that `rest` is what there is left
to read in `s`, and `failed s` that something could not be read.  `Decodes left failed g w v` says
of the reader `g` that it makes `v` of the bytes `w`, whatever comes behind them, and fails if only
a part of them is there.  `Sticky` is that a failure stays one: readers go on reading after it, and
may do so for long.

The rules follow the readers: `Decodes.pure`, `Decodes.bind`, `Decodes.times` for a loop.
-/

set_option autoImplicit false

namespace CseLab

variable {S B α β : Type}

/-- `step`, `n` times. -/
def times (step : α → StateM S α) : ℕ → α → StateM S α
  | 0, a => pure a
  | n + 1, a => step a >>= times step n

/-- `g` reads `v` from `w`, and fails on what is a part of `w`. -/
structure Decodes (left : S → List B → Prop) (failed : S → Prop) (g : StateM S α) (w : List B)
    (v : α) : Prop where
  full : ∀ s rest, left s (w ++ rest) → (g.run s).1 = v ∧ left (g.run s).2 rest
  short : ∀ s part, left s part → part <+: w → part ≠ w → failed (g.run s).2

/-- What has failed does not become right by `g`. -/
def Sticky (failed : S → Prop) (g : StateM S α) : Prop := ∀ s, failed s → failed (g.run s).2

variable {left : S → List B → Prop} {failed : S → Prop} {g : StateM S α} {f : α → StateM S β}
  {w w' : List B} {a : α} {b : β}

namespace Sticky

theorem pure (a : α) : Sticky failed (pure a : StateM S α) := fun _ h => h

theorem bind (hg : Sticky failed g) (hf : ∀ a, Sticky failed (f a)) : Sticky failed (g >>= f) :=
  fun s h => hf _ _ (hg s h)

theorem times {step : α → StateM S α} (h : ∀ a, Sticky failed (step a)) (n : ℕ) (a : α) :
    Sticky failed (times step n a) := by
  induction n generalizing a with
  | zero => exact pure a
  | succ n ih => exact (h a).bind ih

end Sticky

namespace Decodes

theorem pure (a : α) : Decodes left failed (pure a : StateM S α) [] a where
  full _ _ h := ⟨rfl, h⟩
  short _ _ _ hpre hne := absurd (List.prefix_nil.1 hpre) hne

/-- What is missing is missing in the first of two parts, or in the second. -/
theorem bind (hg : Decodes left failed g w a) (hf : Decodes left failed (f a) w' b)
    (hsticky : ∀ a, Sticky failed (f a)) : Decodes left failed (g >>= f) (w ++ w') b where
  full s rest h := by
    rw [List.append_assoc] at h
    obtain ⟨hval, hleft⟩ := hg.full s _ h
    have h' := hf.full _ _ hleft
    rw [← hval] at h'
    exact h'
  short s part h hpre hne := by
    change failed ((f (g.run s).1).run (g.run s).2).2
    by_cases hw : w <+: part
    · obtain ⟨part', rfl⟩ := hw
      obtain ⟨hval, hleft⟩ := hg.full s _ h
      rw [hval]
      refine hf.short _ _ hleft ((List.prefix_append_right_inj w).1 hpre) fun heq => hne ?_
      rw [heq]
    · have hpre' : part <+: w :=
        (List.prefix_or_prefix_of_prefix hpre (List.prefix_append w w')).resolve_right hw
      exact hsticky _ _ (hg.short s part h hpre' fun heq => hw (heq ▸ List.prefix_rfl))

/-- The first part is one item. -/
theorem cons {x : B} (hg : Decodes left failed g [x] a) (hf : Decodes left failed (f a) w' b)
    (hsticky : ∀ a, Sticky failed (f a)) : Decodes left failed (g >>= f) (x :: w') b :=
  hg.bind hf hsticky

/-- With what is read something is computed. -/
theorem map (hg : Decodes left failed g w a) (h : α → β) :
    Decodes left failed (g >>= fun a => Pure.pure (h a)) w (h a) := by
  have hbind := hg.bind (pure (h a)) fun a => Sticky.pure (h a)
  rw [List.append_nil] at hbind
  exact hbind

/-- A loop reads one element after another. -/
theorem times {ι : Type} {step : α → StateM S α} {word : ι → List B} {next : α → ι → α}
    {xs : List ι} (hstep : ∀ a, ∀ x ∈ xs, Decodes left failed (step a) (word x) (next a x))
    (hsticky : ∀ a, Sticky failed (step a)) (a : α) :
    Decodes left failed (CseLab.times step xs.length a) (xs.flatMap word) (xs.foldl next a) := by
  induction xs generalizing a with
  | nil => exact pure a
  | cons x xs ih =>
    rw [List.flatMap_cons]
    exact (hstep a x List.mem_cons_self).bind
      (ih (fun a x hx => hstep a x (List.mem_cons_of_mem _ hx)) _) (Sticky.times hsticky _)

end Decodes

end CseLab
