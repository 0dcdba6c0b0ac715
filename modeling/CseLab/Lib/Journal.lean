import Mathlib.Data.List.Induction

/-!
# Journals

A journal is a list to whose end alone something is added.  That each entry is right with regard to
those before it is kept when an entry is added that is right with regard to all: `Journal.snoc`.
-/

set_option autoImplicit false

namespace CseLab

variable {ε : Type*} {W W' : List ε → ε → Prop} {log : List ε} {e : ε}

/-- Each entry stands in the relation `W` to the entries before it. -/
def Journal (W : List ε → ε → Prop) (log : List ε) : Prop :=
  ∀ before e after, log = before ++ e :: after → W before e

namespace Journal

theorem nil : Journal W [] := fun _ _ _ h => by simp at h

theorem snoc (h : Journal W log) (he : W log e) : Journal W (log ++ [e]) := by
  intro before e' after heq
  rcases List.eq_nil_or_concat after with rfl | ⟨after, e'', rfl⟩
  · obtain ⟨rfl, he'⟩ := List.append_inj' heq rfl
    exact (List.singleton_inj.1 he') ▸ he
  · rw [List.concat_eq_append, ← List.cons_append, ← List.append_assoc] at heq
    exact h before e' after (List.append_inj' heq rfl).1

theorem of_snoc (h : Journal W (log ++ [e])) : Journal W log ∧ W log e :=
  ⟨fun before e' after heq => h before e' (after ++ [e]) (by rw [heq, List.append_assoc]; rfl),
    h log e [] rfl⟩

theorem mono (h : Journal W log) (himp : ∀ before e, W before e → W' before e) : Journal W' log :=
  fun before e after heq => himp before e (h before e after heq)

end Journal

end CseLab
