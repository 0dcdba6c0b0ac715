import Mathlib.Data.List.Sort

/-!
# Lists kept in order

A list that is kept in order by a key: an element goes in before the first that has a larger one
(`List.orderedInsert`), and those at the front that are too small go out (`List.dropWhile`).
-/

set_option autoImplicit false

namespace CseLab

variable {α : Type*} {R r : α → α → Prop} [DecidableRel r] {a : α} {l : List α} {key : α → ℕ}

/-- Insertion before the first `b` with `r a b` keeps the list in the order `R`, if `R` is what `r`
says of `a` and the others. -/
theorem pairwise_orderedInsert (htrans : ∀ {x y z}, R x y → R y z → R x z)
    (hbefore : ∀ b ∈ l, r a b → R a b) (hafter : ∀ b ∈ l, ¬ r a b → R b a) (h : l.Pairwise R) :
    (l.orderedInsert r a).Pairwise R := by
  induction l with
  | nil => exact List.pairwise_singleton R a
  | cons b l ih =>
    obtain ⟨hb, hl⟩ := List.pairwise_cons.1 h
    rw [List.orderedInsert_cons]
    split
    next hab =>
      have hRab := hbefore b List.mem_cons_self hab
      refine List.pairwise_cons.2 ⟨fun c hc => ?_, h⟩
      rcases List.mem_cons.1 hc with rfl | hc
      · exact hRab
      · exact htrans hRab (hb c hc)
    next hab =>
      refine List.pairwise_cons.2 ⟨fun c hc => ?_, ih (fun c hc => hbefore c (.tail b hc))
        (fun c hc => hafter c (.tail b hc)) hl⟩
      rcases (List.mem_orderedInsert r).1 hc with rfl | hc
      · exact hafter b List.mem_cons_self hab
      · exact hb c hc

/-- What is left of a list in order when those below `n` are gone. -/
theorem mem_dropWhile_lt (hR : ∀ {x y}, R x y → key x ≤ key y) (h : l.Pairwise R) {n : ℕ} {x : α} :
    x ∈ l.dropWhile (fun b => key b < n) ↔ x ∈ l ∧ n ≤ key x := by
  induction l with
  | nil => simp
  | cons b l ih =>
    obtain ⟨hb, hl⟩ := List.pairwise_cons.1 h
    by_cases hlt : key b < n
    · rw [List.dropWhile_cons_of_pos (by simpa using hlt), ih hl, List.mem_cons]
      refine and_congr_left fun hx => (or_iff_right ?_).symm
      rintro rfl
      omega
    · rw [List.dropWhile_cons_of_neg (by simpa using hlt)]
      refine (and_iff_left_of_imp fun hx => ?_).symm
      rcases List.mem_cons.1 hx with rfl | hx
      · omega
      · exact (not_lt.1 hlt).trans (hR (hb x hx))

end CseLab
