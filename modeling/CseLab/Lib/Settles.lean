import CseLab.Lib.Run

/-!
# One of many, to its end

Somebody has something to do, step after step, while others are at work on the same state.  Every
step of theirs comes between two of one's own, as often as the scheduler likes.

`SettlesIn n` says that one is done after at most `n` steps of one's own, whatever the others do:
whenever one does not have to wait there is a step to take, each leaves alone what it should, and
one of them is the last.  An assertion that the others' steps keep carries it through the time
between two own steps (`SettlesIn.intro`).
-/

set_option autoImplicit false

namespace CseLab

/-- What one has to do. -/
structure Errand (σ α : Type*) where
  /-- One's own steps. -/
  own : α → Prop
  /-- What others may do. -/
  other : σ → α → Prop
  /-- One has to wait. -/
  waits : σ → Prop
  /-- What each step of one's own should be like. -/
  keeps : σ → σ → Prop
  /-- What the last of them should be like. -/
  done : σ → α → σ → Prop

variable {σ α : Type*} {step : σ → α → Option σ} {t : Errand σ α} {n : ℕ} {s : σ}

namespace Errand

/-- Whatever others do, the task is done in at most `n` steps. -/
def SettlesIn (step : σ → α → Option σ) (t : Errand σ α) : ℕ → σ → Prop
  | 0, _ => False
  | n + 1, s => ∀ as s', Run step t.other s as s' →
    (t.waits s' ∨ ∃ a s'', t.own a ∧ step s' a = some s'') ∧
    ∀ a s'', t.own a → step s' a = some s'' →
      t.keeps s' s'' ∧ (t.done s' a s'' ∨ SettlesIn step t n s'')

/-- It is done some time. -/
def Settles (step : σ → α → Option σ) (t : Errand σ α) (s : σ) : Prop := ∃ n, t.SettlesIn step n s

/-- The rule for one own step: `I` holds until it is taken. -/
theorem SettlesIn.intro {I : σ → Prop} (h : I s)
    (hother : ∀ s a s', I s → t.other s a → step s a = some s' → I s')
    (hgo : ∀ s, I s → t.waits s ∨ ∃ a s', t.own a ∧ step s a = some s')
    (hown : ∀ s a s', I s → t.own a → step s a = some s' →
      t.keeps s s' ∧ (t.done s a s' ∨ t.SettlesIn step n s')) : t.SettlesIn step (n + 1) s := by
  intro as s' hrun
  have hI : I s' := hrun.invariant h hother
  exact ⟨hgo s' hI, fun a s'' => hown s' a s'' hI⟩

/-- Who need not wait and has no step to take never gets done. -/
theorem not_settles (hwaits : ¬ t.waits s) (hstuck : ∀ a s', t.own a → step s a ≠ some s') :
    ¬ t.Settles step s := by
  rintro ⟨n, hn⟩
  cases n with
  | zero => exact hn
  | succ n =>
    rcases (hn [] s .nil).1 with h | ⟨a, s', ha, hs⟩
    · exact hwaits h
    · exact hstuck a s' ha hs

end Errand

end CseLab
