import Mathlib.Data.List.Nodup

/-!
# Rosters

A roster of a predicate is a list of what satisfies it, each once.  One and the same list may be the
roster of different predicates as members come and go, and what changes the list changes the
predicate along with it.
-/

set_option autoImplicit false

namespace CseLab

variable {α : Type*} {l : List α} {P Q : α → Prop} {a : α}

/-- The members of `l` are what satisfies `P`, and none is there twice. -/
structure Roster (l : List α) (P : α → Prop) : Prop where
  nodup : l.Nodup
  mem_iff : ∀ a, a ∈ l ↔ P a

namespace Roster

theorem congr (h : Roster l P) (hiff : ∀ a, P a ↔ Q a) : Roster l Q :=
  ⟨h.nodup, fun a => (h.mem_iff a).trans (hiff a)⟩

theorem nil (h : ∀ a, ¬ P a) : Roster [] P :=
  ⟨List.nodup_nil, fun a => iff_of_false List.not_mem_nil (h a)⟩

theorem singleton (h : ∀ b, P b ↔ b = a) : Roster [a] P :=
  ⟨List.nodup_singleton a, fun b => List.mem_singleton.trans (h b).symm⟩

theorem not_of_nil (h : Roster [] P) (a : α) : ¬ P a :=
  fun ha => List.not_mem_nil ((h.mem_iff a).2 ha)

theorem of_singleton (h : Roster [a] P) (b : α) : P b ↔ b = a :=
  (h.mem_iff b).symm.trans List.mem_singleton

theorem of_cons (h : Roster (a :: l) P) : P a :=
  (h.mem_iff a).1 List.mem_cons_self

/-- A new member at the end. -/
theorem concat (h : Roster l P) (ha : ¬ P a) (hQ : ∀ b, Q b ↔ P b ∨ b = a) :
    Roster (l ++ [a]) Q where
  nodup := List.nodup_append.2 ⟨h.nodup, List.nodup_singleton a, fun b hb c hc hbc =>
    ha ((h.mem_iff a).1 (List.mem_singleton.1 hc ▸ hbc ▸ hb))⟩
  mem_iff b := by rw [List.mem_append, List.mem_singleton, h.mem_iff, hQ]

/-- The first member goes. -/
theorem tail (h : Roster (a :: l) P) (hQ : ∀ b, Q b ↔ P b ∧ b ≠ a) : Roster l Q := by
  obtain ⟨hnot, hnodup⟩ := List.nodup_cons.1 h.nodup
  refine ⟨hnodup, fun b => ?_⟩
  rw [hQ, ← h.mem_iff, List.mem_cons]
  exact ⟨fun hb => ⟨.inr hb, fun heq => hnot (heq ▸ hb)⟩, fun hb => hb.1.resolve_left hb.2⟩

theorem filter (h : Roster l P) (p : α → Bool) (hQ : ∀ b, Q b ↔ P b ∧ p b) :
    Roster (l.filter p) Q :=
  ⟨h.nodup.filter p, fun b => by rw [List.mem_filter, h.mem_iff, hQ]⟩

/-- Who is on the roster is there once, and who is not is not. -/
theorem count [DecidableEq α] [DecidablePred P] (h : Roster l P) (a : α) :
    l.count a = if P a then 1 else 0 := by
  split
  next ha => exact List.count_eq_one_of_mem h.nodup ((h.mem_iff a).2 ha)
  next ha => exact List.count_eq_zero_of_not_mem fun hmem => ha ((h.mem_iff a).1 hmem)

end Roster

end CseLab
