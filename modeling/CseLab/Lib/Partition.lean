import Mathlib.Data.Finset.Basic
import Mathlib.Data.List.Nodup

/-!
# Dividing resources up

A pool of resources is divided among the free ones and the owners', and an owner has a list of them:
`Divided pool free owners own`.  Whatever an owner gives back and takes, the division stands
(`Divided.exchange`).
-/

set_option autoImplicit false

namespace CseLab

variable {α ι : Type*}

/-- Every resource of the pool is free or has one owner, who has it once. -/
structure Divided (pool : α → Prop) (free : α → Prop) (owners : ι → Prop) (own : ι → List α) :
    Prop where
  nodup : ∀ i, owners i → (own i).Nodup
  apart : ∀ i j, owners i → owners j → i ≠ j → ∀ x ∈ own i, x ∉ own j
  owned : ∀ i, owners i → ∀ x ∈ own i, ¬ free x
  all : ∀ x, pool x ↔ free x ∨ ∃ i, owners i ∧ x ∈ own i

namespace Divided

variable {pool free free' : α → Prop} {owners owners' : ι → Prop} {own own' : ι → List α} {i : ι}

/-- Owner `i` has `own' i` instead of `own i`, the free resources make up for the difference, and
the other owners keep what they have. -/
theorem exchange (h : Divided pool free owners own) (hi : owners i)
    (hother : ∀ j, owners j → j ≠ i → own' j = own j) (hnodup : (own' i).Nodup)
    (hfrom : ∀ x ∈ own' i, free x ∨ x ∈ own i)
    (hfree : ∀ x, free' x ↔ (free x ∨ x ∈ own i) ∧ x ∉ own' i) :
    Divided pool free' owners own' := by
  have hapart : ∀ j, owners j → j ≠ i → ∀ x ∈ own' i, x ∉ own j := by
    intro j hj hji x hx hxj
    rcases hfrom x hx with hfx | hxi
    · exact h.owned j hj x hxj hfx
    · exact h.apart i j hi hj (Ne.symm hji) x hxi hxj
  refine ⟨fun j hj => ?_, fun j k hj hk hjk x hxj hxk => ?_, fun j hj x hx hfx => ?_, fun x => ?_⟩
  · by_cases hji : j = i
    · exact hji ▸ hnodup
    · exact hother j hj hji ▸ h.nodup j hj
  · by_cases hji : j = i
    · subst hji
      exact hapart k hk (Ne.symm hjk) x hxj (hother k hk (Ne.symm hjk) ▸ hxk)
    · rw [hother j hj hji] at hxj
      by_cases hki : k = i
      · subst hki
        exact hapart j hj hji x hxk hxj
      · exact h.apart j k hj hk hjk x hxj (hother k hk hki ▸ hxk)
  · by_cases hji : j = i
    · subst hji
      exact ((hfree x).1 hfx).2 hx
    · rw [hother j hj hji] at hx
      rcases ((hfree x).1 hfx).1 with hfx | hxi
      · exact h.owned j hj x hx hfx
      · exact h.apart i j hi hj (Ne.symm hji) x hxi hx
  · rw [h.all x]
    constructor
    · rintro (hfx | ⟨j, hj, hx⟩)
      · by_cases hx : x ∈ own' i
        · exact .inr ⟨i, hi, hx⟩
        · exact .inl ((hfree x).2 ⟨.inl hfx, hx⟩)
      · by_cases hji : j = i
        · subst hji
          by_cases hx' : x ∈ own' j
          · exact .inr ⟨j, hj, hx'⟩
          · exact .inl ((hfree x).2 ⟨.inr hx, hx'⟩)
        · exact .inr ⟨j, hj, hother j hj hji ▸ hx⟩
    · rintro (hfx | ⟨j, hj, hx⟩)
      · exact ((hfree x).1 hfx).1.imp_right fun hx => ⟨i, hi, hx⟩
      · by_cases hji : j = i
        · subst hji
          exact (hfrom x hx).imp_right fun hx => ⟨j, hj, hx⟩
        · exact .inr ⟨j, hj, hother j hj hji ▸ hx⟩

/-- An owner with nothing may come or go. -/
theorem owners_iff (h : Divided pool free owners own)
    (hsame : ∀ j, own j ≠ [] → (owners' j ↔ owners j)) : Divided pool free owners' own := by
  have hof : ∀ j x, owners' j → x ∈ own j → owners j := fun j x hj hx =>
    (hsame j (List.ne_nil_of_mem hx)).1 hj
  refine ⟨fun j hj => ?_, fun j k hj hk hjk x hxj hxk => ?_, fun j hj x hx => ?_, fun x => ?_⟩
  · cases hown : own j with
    | nil => exact List.nodup_nil
    | cons x l => exact hown ▸ h.nodup j (hof j x hj (hown ▸ List.mem_cons_self))
  · exact h.apart j k (hof j x hj hxj) (hof k x hk hxk) hjk x hxj hxk
  · exact h.owned j (hof j x hj hx) x hx
  · rw [h.all x]
    refine or_congr_right (exists_congr fun j => and_congr_left fun hx => ?_)
    exact (hsame j (List.ne_nil_of_mem hx)).symm

/-- What somebody has who is no owner does not matter. -/
theorem congr (h : Divided pool free owners own) (hown : ∀ i, owners i → own' i = own i) :
    Divided pool free owners own' := by
  refine ⟨fun i hi => hown i hi ▸ h.nodup i hi, fun i j hi hj hij => ?_,
    fun i hi => hown i hi ▸ h.owned i hi, fun x => (h.all x).trans ?_⟩
  · rw [hown i hi, hown j hj]
    exact h.apart i j hi hj hij
  · refine or_congr_right (exists_congr fun i => and_congr_right fun hi => ?_)
    rw [hown i hi]

end Divided

end CseLab
