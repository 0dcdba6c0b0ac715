import Mathlib.Data.List.Basic
import Mathlib.Logic.ExistsUnique
import Mathlib.Logic.Function.Basic
import Mathlib.Logic.Relation

/-!
# Trees of numbered nodes

A tree is given by the list of each node's children.  `IsTree` says that every live node but the
root stands in one place in one list, that there are no others in the lists, and that one gets to
all of them from the root.  It stays so if a new node is put at the end of a live node's list
(`IsTree.graft`), and if a node without children is taken out of the list it is in
(`IsTree.prune`).
-/

set_option autoImplicit false

namespace CseLab

open Relation

variable {α : Type*}

/-- The live nodes are the root and what is below it, each of them in one place. -/
structure IsTree (root : α) (live : α → Prop) (children : α → List α) : Prop where
  live_root : live root
  dead : ∀ p, ¬ live p → children p = []
  child : ∀ p, ∀ x ∈ children p, live x ∧ x ≠ root
  unique : ∀ x, live x → x ≠ root → ∃! e : α × ℕ, (children e.1)[e.2]? = some x
  reachable : ∀ x, live x → ReflTransGen (fun p y => y ∈ children p) root x

namespace IsTree

variable {root p x : α} {live : α → Prop} {children : α → List α} {i : ℕ}

/-- A root on its own. -/
theorem single (root : α) : IsTree root (· = root) fun _ => [] where
  live_root := rfl
  dead _ _ := rfl
  child _ _ hx := absurd hx List.not_mem_nil
  unique _ hx hne := absurd hx hne
  reachable _ hx := hx ▸ .refl

/-- A node is in one place only. -/
theorem place_unique (h : IsTree root live children) {q : α} {j : ℕ}
    (hi : (children p)[i]? = some x) (hj : (children q)[j]? = some x) : q = p ∧ j = i := by
  obtain ⟨hlive, hroot⟩ := h.child p x (List.mem_of_getElem? hi)
  obtain ⟨e, -, huniq⟩ := h.unique x hlive hroot
  exact Prod.mk.inj ((huniq (q, j) hj).trans (huniq (p, i) hi).symm)

variable [DecidableEq α]

/-! ## A new node -/

/-- Where everything is after `x` has been put at the end of the list of `p`. -/
theorem getElem?_snoc {children : α → List α} {p q x y : α} {j : ℕ} :
    (Function.update children p (children p ++ [x]) q)[j]? = some y ↔
      (children q)[j]? = some y ∨ q = p ∧ j = (children p).length ∧ y = x := by
  by_cases hq : q = p
  · subst hq
    rw [Function.update_self]
    rcases Nat.lt_or_ge j (children q).length with hj | hj
    · rw [List.getElem?_append_left hj]
      exact ⟨.inl, fun hor => hor.resolve_right fun hr => Nat.ne_of_lt hj hr.2.1⟩
    · rw [List.getElem?_append_right hj, List.getElem?_eq_none hj]
      rcases Nat.eq_or_lt_of_le hj with rfl | hlt
      · simp [eq_comm]
      · rw [List.getElem?_eq_none (by rw [List.length_singleton]; omega)]
        simp [Nat.ne_of_gt hlt]
  · rw [Function.update_of_ne hq]
    exact ⟨.inl, fun hor => hor.resolve_right fun hr => hq hr.1⟩

theorem mem_snoc {children : α → List α} {p q x y : α} :
    y ∈ Function.update children p (children p ++ [x]) q ↔ y ∈ children q ∨ q = p ∧ y = x := by
  by_cases hq : q = p
  · subst hq
    simp
  · simp [hq]

/-- A new node at the end of the list of `p`. -/
theorem graft (h : IsTree root live children) (hp : live p) (hx : ¬ live x) :
    IsTree root (fun y => live y ∨ y = x)
      (Function.update children p (children p ++ [x])) := by
  refine ⟨.inl h.live_root, fun q hq => ?_, fun q y hy => ?_, fun y hy hne => ?_, fun y hy => ?_⟩
  · rw [not_or] at hq
    have hqp : q ≠ p := by
      rintro rfl
      exact hq.1 hp
    rw [Function.update_of_ne hqp, h.dead q hq.1]
  · rcases mem_snoc.1 hy with hy | ⟨-, rfl⟩
    · exact ⟨.inl (h.child q y hy).1, (h.child q y hy).2⟩
    · refine ⟨.inr rfl, ?_⟩
      rintro rfl
      exact hx h.live_root
  · rcases hy with hy | rfl
    · obtain ⟨e, he, huniq⟩ := h.unique y hy hne
      refine ⟨e, getElem?_snoc.2 (.inl he), fun e' he' => ?_⟩
      rcases getElem?_snoc.1 he' with he' | ⟨-, -, rfl⟩
      · exact huniq e' he'
      · exact absurd hy hx
    · refine ⟨(p, (children p).length), getElem?_snoc.2 (.inr ⟨rfl, rfl, rfl⟩), fun e' he' => ?_⟩
      rcases getElem?_snoc.1 he' with he' | ⟨hq, hj, -⟩
      · exact absurd (h.child _ y (List.mem_of_getElem? he')).1 hx
      · exact Prod.ext hq hj
  · have hup : ∀ z, live z → ReflTransGen (fun q y =>
        y ∈ Function.update children p (children p ++ [x]) q) root z := fun z hz =>
      ReflTransGen.mono (fun _ _ hy => mem_snoc.2 (.inl hy)) _ _ (h.reachable z hz)
    rcases hy with hy | rfl
    · exact hup y hy
    · exact (hup p hp).tail (mem_snoc.2 (.inr ⟨rfl, rfl⟩))

/-! ## A node less -/

/-- Where everything was before the `i`-th was taken out of the list of `p`. -/
theorem getElem?_eraseIdx_update {children : α → List α} {p q y : α} {i j : ℕ} :
    (Function.update children p ((children p).eraseIdx i) q)[j]? = some y ↔
      (children q)[if q = p ∧ i ≤ j then j + 1 else j]? = some y := by
  by_cases hq : q = p
  · subst hq
    rw [Function.update_self, List.getElem?_eraseIdx]
    by_cases hj : j < i
    · simp [hj, Nat.not_le.2 hj]
    · simp [hj, Nat.not_lt.1 hj]
  · simp [hq]

/-- The others stay where they were. -/
theorem mem_eraseIdx_update (h : IsTree root live children) (hx : (children p)[i]? = some x)
    {q y : α} : y ∈ Function.update children p ((children p).eraseIdx i) q ↔
      y ∈ children q ∧ y ≠ x := by
  constructor
  · intro hy
    obtain ⟨j, hj⟩ := List.mem_iff_getElem?.1 hy
    rw [getElem?_eraseIdx_update] at hj
    refine ⟨List.mem_of_getElem? hj, ?_⟩
    rintro rfl
    obtain ⟨rfl, hji⟩ := h.place_unique hx hj
    by_cases hij : i ≤ j
    · rw [if_pos ⟨rfl, hij⟩] at hji
      omega
    · rw [if_neg fun hand => hij hand.2] at hji
      exact hij (Nat.le_of_eq hji.symm)
  · rintro ⟨hy, hyx⟩
    by_cases hq : q = p
    · subst hq
      rw [Function.update_self, List.mem_eraseIdx_iff_getElem?]
      obtain ⟨j, hj⟩ := List.mem_iff_getElem?.1 hy
      refine ⟨j, ?_, hj⟩
      rintro rfl
      exact hyx (Option.some_inj.1 (hj.symm.trans hx))
    · rwa [Function.update_of_ne hq]

/-- A node without children is taken out of the list of `p`. -/
theorem prune (h : IsTree root live children) (hx : (children p)[i]? = some x)
    (hleaf : children x = []) :
    IsTree root (fun y => live y ∧ y ≠ x)
      (Function.update children p ((children p).eraseIdx i)) := by
  obtain ⟨hlive, hroot⟩ := h.child p x (List.mem_of_getElem? hx)
  refine ⟨⟨h.live_root, Ne.symm hroot⟩, fun q hq => ?_, fun q y hy => ?_, fun y hy hne => ?_,
    fun y hy => ?_⟩
  · have hnil : children q = [] := by
      by_cases hqx : q = x
      · rw [hqx, hleaf]
      · exact h.dead q fun hlive => hq ⟨hlive, hqx⟩
    refine List.eq_nil_iff_forall_not_mem.2 fun y hy => ?_
    have hy' := ((h.mem_eraseIdx_update hx).1 hy).1
    rw [hnil] at hy'
    exact absurd hy' List.not_mem_nil
  · obtain ⟨hy, hyx⟩ := (h.mem_eraseIdx_update hx).1 hy
    exact ⟨⟨(h.child q y hy).1, hyx⟩, (h.child q y hy).2⟩
  · obtain ⟨⟨q, j⟩, he, huniq⟩ := h.unique y hy.1 hne
    obtain ⟨j', hj'⟩ := List.mem_iff_getElem?.1
      ((h.mem_eraseIdx_update hx).2 ⟨List.mem_of_getElem? he, hy.2⟩)
    refine ⟨(q, j'), hj', fun e' he' => ?_⟩
    have h₁ : (q, if q = p ∧ i ≤ j' then j' + 1 else j') = (q, j) :=
      huniq _ (getElem?_eraseIdx_update.1 hj')
    have h₂ : (e'.1, if e'.1 = p ∧ i ≤ e'.2 then e'.2 + 1 else e'.2) = (q, j) :=
      huniq _ (getElem?_eraseIdx_update.1 he')
    obtain ⟨hq, hj⟩ := Prod.mk.inj (h₂.trans h₁.symm)
    refine Prod.ext hq ?_
    by_cases hqp : q = p
    · simp only [hq, hqp, true_and] at hj
      split at hj <;> split at hj <;> omega
    · simpa only [hq, hqp, false_and, if_false] using hj
  · have hpath : ∀ z, ReflTransGen (fun q y => y ∈ children q) root z → z ≠ x →
        ReflTransGen (fun q y => y ∈ Function.update children p ((children p).eraseIdx i) q)
          root z := by
      intro z hz
      induction hz with
      | refl => exact fun _ => .refl
      | @tail b z _ hbz ih =>
        intro hzx
        have hbx : b ≠ x := by
          rintro rfl
          rw [hleaf] at hbz
          exact absurd hbz List.not_mem_nil
        exact (ih hbx).tail ((h.mem_eraseIdx_update hx).2 ⟨hbz, hzx⟩)
    exact hpath y (h.reachable y hy.1) hy.2

end IsTree

end CseLab
