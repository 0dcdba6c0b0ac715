import Mathlib.Data.List.Basic

/-!
# Runs of a partial step function

Every concurrent component of the repository is modelled as a function
`step : σ → α → Option σ`: in state `s` the action `a` is either blocked (`none`) or leads to one
state.  Which action comes next is the scheduler's choice, so a run is a list of actions and
anything proved for all runs holds for every interleaving.

`Run step ok s₀ as s` says that the actions `as` take `s₀` to `s`, each of them enabled and each of
them satisfying the side condition `ok` in the state it is taken in.  With `ok := anyStep` nothing
is asked; a narrower `ok` is how a statement about the runs that avoid some situation is phrased.

* `Run.induct_trace` is the induction principle, with the list of actions in hand.
* `Run.invariant` is the rule for an invariant of the states alone.
* `Run.always_iff` says of which runs something holds all along, from what says it of one step;
  `Run.always_iff_with` leans on an invariant for it.
* `Run.congr` exchanges a side condition for another that says the same of the states there are.
* `Run.project` sees the run of a part in a run of the whole.
* `execute` runs a list of actions, and `Run.of_execute` turns a concrete execution into a `Run`, as
  `Run.of_guarded` does for one all of whose steps satisfy `ok`.
* `observe` collects what is to be seen of each step of a run, and `Run.observe_snoc` is its
  equation for one more step.
-/

set_option autoImplicit false

namespace CseLab

variable {σ α : Type*}

/-- The side condition that holds of every step. -/
def anyStep : σ → α → Prop := fun _ _ => True

/-- The actions `as`, taken one after another from `s₀`, lead to `s`; each is enabled and satisfies
`ok` where it is taken. -/
inductive Run (step : σ → α → Option σ) (ok : σ → α → Prop) (s₀ : σ) : List α → σ → Prop
  | nil : Run step ok s₀ [] s₀
  | snoc {as : List α} {s s' : σ} {a : α} (h : Run step ok s₀ as s) (hok : ok s a)
      (hs : step s a = some s') : Run step ok s₀ (as ++ [a]) s'

namespace Run

variable {step : σ → α → Option σ} {ok ok' : σ → α → Prop} {s₀ s : σ} {as bs : List α}

/-- What holds at the start and is kept by every step, the actions so far in hand, holds at the
end of every run. -/
theorem induct_trace {P : List α → σ → Prop} (h : Run step ok s₀ as s) (h0 : P [] s₀)
    (hstep : ∀ as s a s', P as s → ok s a → step s a = some s' → P (as ++ [a]) s') : P as s := by
  induction h with
  | nil => exact h0
  | snoc _ hok hs ih => exact hstep _ _ _ _ ih hok hs

/-- The rule for an invariant of the states. -/
theorem invariant {P : σ → Prop} (h : Run step ok s₀ as s) (h0 : P s₀)
    (hstep : ∀ s a s', P s → ok s a → step s a = some s' → P s') : P s :=
  h.induct_trace (P := fun _ s => P s) h0 fun _ _ _ _ => hstep _ _ _

/-- An invariant may lean on one already known. -/
theorem invariant_with {P Q : σ → Prop} (h : Run step ok s₀ as s) (hQ : ∀ {as s},
    Run step ok s₀ as s → Q s) (h0 : P s₀)
    (hstep : ∀ s a s', Q s → P s → ok s a → step s a = some s' → P s') : P s := by
  induction h with
  | nil => exact h0
  | snoc h hok hs ih => exact hstep _ _ _ (hQ h) ih hok hs

theorem mono (h : Run step ok s₀ as s) (himp : ∀ s a, ok s a → ok' s a) :
    Run step ok' s₀ as s := by
  induction h with
  | nil => exact .nil
  | snoc _ hok hs ih => exact .snoc ih (himp _ _ hok) hs

theorem append {s₁ : σ} (h : Run step ok s₀ as s₁) (h' : Run step ok s₁ bs s) :
    Run step ok s₀ (as ++ bs) s := by
  induction h' with
  | nil => rwa [List.append_nil]
  | snoc _ hok hs ih => rw [← List.append_assoc]; exact .snoc ih hok hs

/-- Where the whole's every step is one of the part or does not touch it, the part has had a run. -/
theorem project {ρ β : Type*} (part : ρ → β → Option ρ) (proj : σ → ρ)
    (hpart : ∀ s a s', step s a = some s' →
      proj s' = proj s ∨ ∃ b, part (proj s) b = some (proj s'))
    (h : Run step ok s₀ as s) : ∃ bs, Run part anyStep (proj s₀) bs (proj s) := by
  induction h with
  | nil => exact ⟨[], .nil⟩
  | snoc _ _ hs ih =>
    obtain ⟨bs, hbs⟩ := ih
    rcases hpart _ _ _ hs with heq | ⟨b, hb⟩
    · exact ⟨bs, heq ▸ hbs⟩
    · exact ⟨bs ++ [b], .snoc hbs trivial hb⟩

/-- Where `K` says exactly which steps keep `P`, given what is known of every run: `P` holds all
along a run if and only if it holds at the start and every step satisfies `K`. -/
theorem always_iff_with {P I : σ → Prop} {K : σ → α → Prop}
    (hI : ∀ {as s}, Run step anyStep s₀ as s → I s)
    (hkeep : ∀ s a s', I s → P s → step s a = some s' → (P s' ↔ K s a)) :
    Run step (fun s _ => P s) s₀ as s ∧ P s ↔ P s₀ ∧ Run step K s₀ as s := by
  constructor
  · rintro ⟨hrun, hs⟩
    induction hrun with
    | nil => exact ⟨hs, .nil⟩
    | snoc h hP hstep ih =>
      obtain ⟨h0, hK⟩ := ih hP
      have hinv := hI (h.mono fun _ _ _ => trivial)
      exact ⟨h0, .snoc hK ((hkeep _ _ _ hinv hP hstep).1 hs) hstep⟩
  · rintro ⟨h0, hrun⟩
    induction hrun with
    | nil => exact ⟨.nil, h0⟩
    | snoc h hK hstep ih =>
      have hinv := hI (h.mono fun _ _ _ => trivial)
      exact ⟨.snoc ih.1 ih.2 hstep, (hkeep _ _ _ hinv ih.2 hstep).2 hK⟩

/-- The same where nothing more needs to be known. -/
theorem always_iff {P : σ → Prop} {K : σ → α → Prop}
    (hkeep : ∀ s a s', P s → step s a = some s' → (P s' ↔ K s a)) :
    Run step (fun s _ => P s) s₀ as s ∧ P s ↔ P s₀ ∧ Run step K s₀ as s :=
  always_iff_with (I := fun _ => True) (fun _ => trivial) fun s a s' _ => hkeep s a s'

/-- Two side conditions that agree wherever `I` holds, which they keep, allow the same runs. -/
theorem congr {I : σ → Prop} (h0 : I s₀) (hiff : ∀ s a s', I s → step s a = some s' →
    (ok s a ↔ ok' s a)) (hkeep : ∀ s a s', I s → ok' s a → step s a = some s' → I s') :
    Run step ok s₀ as s ↔ Run step ok' s₀ as s := by
  constructor
  · intro h
    suffices h' : Run step ok' s₀ as s ∧ I s from h'.1
    induction h with
    | nil => exact ⟨.nil, h0⟩
    | snoc _ hok hs ih =>
      have hok' := (hiff _ _ _ ih.2 hs).1 hok
      exact ⟨.snoc ih.1 hok' hs, hkeep _ _ _ ih.2 hok' hs⟩
  · intro h
    suffices h' : Run step ok s₀ as s ∧ I s from h'.1
    induction h with
    | nil => exact ⟨.nil, h0⟩
    | snoc _ hok' hs ih =>
      exact ⟨.snoc ih.1 ((hiff _ _ _ ih.2 hs).2 hok') hs, hkeep _ _ _ ih.2 hok' hs⟩

end Run

/-- Take the actions one after another; `none` as soon as one of them is blocked. -/
def execute (step : σ → α → Option σ) : σ → List α → Option σ
  | s, [] => some s
  | s, a :: as => (step s a).bind fun s' => execute step s' as

theorem Run.of_execute {step : σ → α → Option σ} {s s' : σ} {as : List α}
    (h : execute step s as = some s') : Run step anyStep s as s' := by
  induction as generalizing s with
  | nil => rw [execute, Option.some_inj] at h; exact h ▸ .nil
  | cons a as ih =>
    rw [execute, Option.bind_eq_some_iff] at h
    obtain ⟨s₁, h1, h2⟩ := h
    exact (Run.snoc .nil trivial h1).append (ih h2)

theorem execute_append (step : σ → α → Option σ) (s : σ) (as bs : List α) :
    execute step s (as ++ bs) = (execute step s as).bind fun s' => execute step s' bs := by
  induction as generalizing s with
  | nil => rfl
  | cons a as ih =>
    rw [List.cons_append, execute, execute, Option.bind_assoc]
    exact Option.bind_congr fun s' _ => ih s'

theorem Run.execute_eq {step : σ → α → Option σ} {ok : σ → α → Prop} {s₀ s : σ} {as : List α}
    (h : Run step ok s₀ as s) : execute step s₀ as = some s := by
  induction h with
  | nil => rfl
  | snoc _ _ hs ih => rw [execute_append, ih, Option.bind_some, execute, hs]; rfl

/-- The steps that satisfy `ok`. -/
def guarded (step : σ → α → Option σ) (ok : σ → α → Prop) [∀ s a, Decidable (ok s a)] (s : σ)
    (a : α) : Option σ :=
  if ok s a then step s a else none

theorem Run.of_guarded {step : σ → α → Option σ} {ok : σ → α → Prop} [∀ s a, Decidable (ok s a)]
    {s s' : σ} {as : List α} (h : execute (guarded step ok) s as = some s') :
    Run step ok s as s' := by
  induction as generalizing s with
  | nil => rw [execute, Option.some_inj] at h; exact h ▸ .nil
  | cons a as ih =>
    rw [execute, Option.bind_eq_some_iff] at h
    obtain ⟨s₁, h1, h2⟩ := h
    rw [guarded] at h1
    split at h1
    · rename_i hok
      exact (Run.snoc .nil hok h1).append (ih h2)
    · exact absurd h1 (by simp)

/-! ## What is seen along a run -/

section observe

variable {ω : Type*} {step : σ → α → Option σ} {obs : σ → α → σ → List ω}

/-- What is seen of the steps, one after another: `obs s a s'` of the one that takes `s` to `s'`. -/
def observe (step : σ → α → Option σ) (obs : σ → α → σ → List ω) : σ → List α → List ω
  | _, [] => []
  | s, a :: as =>
    match step s a with
    | none => []
    | some s' => obs s a s' ++ observe step obs s' as

theorem observe_append {s s' : σ} {as : List α} (h : execute step s as = some s') (bs : List α) :
    observe step obs s (as ++ bs) = observe step obs s as ++ observe step obs s' bs := by
  induction as generalizing s with
  | nil => rw [execute, Option.some_inj] at h; rw [h]; rfl
  | cons a as ih =>
    rw [execute, Option.bind_eq_some_iff] at h
    obtain ⟨s₁, h1, h2⟩ := h
    rw [List.cons_append, observe, observe, h1]
    simp only [ih h2, List.append_assoc]

theorem Run.observe_snoc {ok : σ → α → Prop} {s₀ s s' : σ} {as : List α} {a : α}
    (h : Run step ok s₀ as s) (hs : step s a = some s') :
    observe step obs s₀ (as ++ [a]) = observe step obs s₀ as ++ obs s a s' := by
  rw [observe_append h.execute_eq, observe, hs]
  simp only [observe, List.append_nil]

end observe

end CseLab
