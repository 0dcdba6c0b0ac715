import Mathlib.Data.Finset.Card
import Mathlib.Logic.Relation

/-!
# Depth-first search without a visited set

`search next goal n x` looks below `x` for a vertex that is a goal, trying the vertices of `next x`
in order and going down each of them before the one after it.  It keeps no record of where it has
been, so on a cycle it goes round for ever; `n` bounds the depth, and `none` says that the bound was
reached before an answer.

* `search_true` and `search_false`: an answer is the right one.
* `search_ne_none`: on a graph without cycles a depth above the number of vertices is enough, and
  `search_decides` says what the answer is then.
* `Acyclic.link` and `Acyclic.source` are the two ways an acyclic graph changes and stays one: an
  edge between vertices that are not yet linked the other way, and any edges out of a vertex that
  has none into it.
-/

set_option autoImplicit false

namespace CseLab

open Relation

variable {α : Type*}

/-- Depth-first search below `x`, at most `n` deep. -/
def search (next : α → List α) (goal : α → Bool) : ℕ → α → Option Bool
  | 0, _ => none
  | n + 1, x => if goal x then some true else (next x).anyM (search next goal n)

/-- `y` is one of the vertices after `x`. -/
def Edge (next : α → List α) (x y : α) : Prop := y ∈ next x

/-- No vertex can be reached from itself. -/
def Acyclic (r : α → α → Prop) : Prop := ∀ x, ¬ TransGen r x x

section search

variable {next : α → List α} {goal : α → Bool}

theorem anyM_true {f : α → Option Bool} {l : List α} (h : l.anyM f = some true) :
    ∃ x ∈ l, f x = some true := by
  induction l with
  | nil => exact absurd h (by simp [List.anyM])
  | cons x l ih =>
    rw [List.anyM] at h
    obtain ⟨b, hb, h⟩ := Option.bind_eq_some_iff.1 h
    cases b with
    | true => exact ⟨x, List.mem_cons_self, hb⟩
    | false =>
      obtain ⟨y, hy, hfy⟩ := ih h
      exact ⟨y, List.mem_cons_of_mem _ hy, hfy⟩

theorem anyM_false {f : α → Option Bool} {l : List α} (h : l.anyM f = some false) :
    ∀ x ∈ l, f x = some false := by
  induction l with
  | nil => simp
  | cons x l ih =>
    rw [List.anyM] at h
    obtain ⟨b, hb, h⟩ := Option.bind_eq_some_iff.1 h
    cases b with
    | true => exact absurd h (by simp)
    | false =>
      intro y hy
      rcases List.mem_cons.1 hy with rfl | hy
      · exact hb
      · exact ih h y hy

/-- A search through a list gets stuck at one of its elements. -/
theorem anyM_none {f : α → Option Bool} {l : List α} (h : l.anyM f = none) :
    ∃ x ∈ l, f x = none := by
  induction l with
  | nil => exact absurd h (by simp [List.anyM])
  | cons x l ih =>
    rw [List.anyM] at h
    cases hx : f x with
    | none => exact ⟨x, List.mem_cons_self, hx⟩
    | some b =>
      rw [hx] at h
      cases b with
      | true => exact absurd h (by simp)
      | false =>
        obtain ⟨y, hy, hnone⟩ := ih h
        exact ⟨y, List.mem_cons_of_mem _ hy, hnone⟩

theorem search_true {n : ℕ} {x : α} (h : search next goal n x = some true) :
    ∃ y, ReflTransGen (Edge next) x y ∧ goal y = true := by
  induction n generalizing x with
  | zero => exact absurd h (by simp [search])
  | succ n ih =>
    rw [search] at h
    split at h
    · rename_i hg
      exact ⟨x, .refl, hg⟩
    · obtain ⟨y, hy, hs⟩ := anyM_true h
      obtain ⟨z, hz, hg⟩ := ih hs
      exact ⟨z, .head hy hz, hg⟩

theorem search_false {n : ℕ} {x : α} (h : search next goal n x = some false) :
    ∀ y, ReflTransGen (Edge next) x y → goal y = false := by
  induction n generalizing x with
  | zero => exact absurd h (by simp [search])
  | succ n ih =>
    rw [search] at h
    split at h
    · exact absurd h (by simp)
    · rename_i hg
      intro y hy
      rcases ReflTransGen.cases_head hy with rfl | ⟨z, hz, hzy⟩
      · simpa using hg
      · exact ih (anyM_false h z hz) y hzy

/-! ## How deep a search can go -/

/-- A search that answers within `n` gives the same answer within any greater depth. -/
theorem search_mono {n m : ℕ} {x : α} {b : Bool} (h : search next goal n x = some b)
    (hnm : n ≤ m) : search next goal m x = some b := by
  induction n generalizing m x b with
  | zero => exact absurd h (by simp [search])
  | succ n ih =>
    obtain ⟨m, rfl⟩ : ∃ k, m = k + 1 := ⟨m - 1, by omega⟩
    rw [search] at h ⊢
    split
    · rename_i hg
      rwa [if_pos hg] at h
    · rename_i hg
      rw [if_neg hg] at h
      generalize next x = l at h
      induction l with
      | nil => exact h
      | cons y l ihl =>
        rw [List.anyM] at h ⊢
        obtain ⟨c, hc, h⟩ := Option.bind_eq_some_iff.1 h
        rw [ih hc (by omega)]
        cases c with
        | true => exact h
        | false => exact ihl h

/-- A search that gets stuck does so below one of the vertices after `x`. -/
theorem exists_none {n : ℕ} {x : α} (h : search next goal (n + 1) x = none) :
    ∃ y, Edge next x y ∧ search next goal n y = none := by
  rw [search] at h
  split at h
  · cases h
  · exact anyM_none h

/-! ## Where the search stays -/

variable {r : α → α → Prop} {P : α → Prop}

/-- Where the search from `x` goes, when every vertex it comes to satisfies `P` and every step it
takes is one of `r`. -/
theorem reach_of_edge (hP : ∀ y, P y → ∀ z ∈ next y, P z ∧ r y z) {x y : α} (hx : P x)
    (h : ReflTransGen (Edge next) x y) : P y ∧ ReflTransGen r x y := by
  induction h with
  | refl => exact ⟨hx, .refl⟩
  | tail _ hzy ih =>
    obtain ⟨hy, hr⟩ := hP _ ih.1 _ hzy
    exact ⟨hy, ih.2.tail hr⟩

theorem edge_of_reach (hP : ∀ y, P y → ∀ z ∈ next y, P z ∧ r y z)
    (hr : ∀ y z, P y → r y z → z ∈ next y) {x y : α} (hx : P x) (h : ReflTransGen r x y) :
    P y ∧ ReflTransGen (Edge next) x y := by
  induction h with
  | refl => exact ⟨hx, .refl⟩
  | tail _ hzy ih =>
    have hmem := hr _ _ ih.1 hzy
    exact ⟨(hP _ ih.1 _ hmem).1, ih.2.tail hmem⟩

/-- **Without cycles a depth above the number of vertices is enough**; those with nothing after them
do not count. -/
theorem search_ne_none (hr : Acyclic r) (hP : ∀ y, P y → ∀ z ∈ next y, P z ∧ r y z)
    {V : Finset α} {n : ℕ} {x : α} (hx : P x)
    (hV : ∀ y, P y → ReflTransGen r x y → next y ≠ [] → y ∈ V) (hn : V.card < n) :
    search next goal n x ≠ none := by
  classical
  induction n generalizing x V with
  | zero => exact absurd hn (Nat.not_lt_zero _)
  | succ n ih =>
    intro h
    obtain ⟨y, hxy, hy⟩ := exists_none h
    obtain ⟨hPy, hrxy⟩ := hP x hx y hxy
    have hmem := hV x hx .refl (List.ne_nil_of_mem hxy)
    refine ih (V := V.erase x) hPy (fun z hz hyz hne => ?_) ?_ hy
    · refine Finset.mem_erase.2 ⟨?_, hV z hz (.head hrxy hyz) hne⟩
      rintro rfl
      exact hr z (.head' hrxy hyz)
    · have hpos := Finset.card_pos.2 ⟨x, hmem⟩
      rw [Finset.card_erase_of_mem hmem]
      omega

/-- **Without cycles the search decides** whether a goal can be reached. -/
theorem search_decides (hr : Acyclic r) (hP : ∀ y, P y → ∀ z ∈ next y, P z ∧ r y z)
    (hnext : ∀ y z, P y → r y z → z ∈ next y) {V : Finset α} {n : ℕ} {x : α} (hx : P x)
    (hV : ∀ y, P y → ReflTransGen r x y → next y ≠ [] → y ∈ V) (hn : V.card < n) :
    ∃ b, search next goal n x = some b ∧ (b = true ↔ ∃ y, ReflTransGen r x y ∧ goal y = true) := by
  have hne : search next goal n x ≠ none := search_ne_none hr hP hx hV hn
  obtain ⟨b, hb⟩ := Option.ne_none_iff_exists'.1 hne
  refine ⟨b, hb, fun h => ?_, fun ⟨y, hxy, hg⟩ => ?_⟩
  · rw [h] at hb
    obtain ⟨y, hxy, hg⟩ := search_true hb
    exact ⟨y, (reach_of_edge hP hx hxy).2, hg⟩
  · cases b with
    | true => rfl
    | false =>
      have hno := search_false hb y (edge_of_reach hP hnext hx hxy).2
      exact absurd (hg.symm.trans hno) (by decide)

end search

/-! ## Changing an acyclic graph -/

section acyclic

variable {r r' : α → α → Prop}

theorem Acyclic.mono (h : Acyclic r) (hsub : ∀ x y, r' x y → r x y) : Acyclic r' :=
  fun x hx => h x (TransGen.mono hsub x x hx)

/-- **A new edge** closes no cycle when its source cannot be reached from its target. -/
theorem Acyclic.link (h : Acyclic r) {a b : α} (hab : ¬ ReflTransGen r b a)
    (hsub : ∀ x y, r' x y → r x y ∨ x = a ∧ y = b) : Acyclic r' := by
  -- along a walk either nothing new happens, or it leads into `a` and goes on from `b`
  have hwalk : ∀ {x y}, TransGen r' x y →
      TransGen r x y ∨ ReflTransGen r x a ∧ ReflTransGen r b y := by
    intro x y hxy
    induction hxy with
    | single hxy =>
      rcases hsub _ _ hxy with hxy | ⟨rfl, rfl⟩
      · exact .inl (.single hxy)
      · exact .inr ⟨.refl, .refl⟩
    | tail _ hzy ih =>
      rcases hsub _ _ hzy with hzy | ⟨rfl, rfl⟩
      · exact ih.imp (fun h => h.tail hzy) fun h => ⟨h.1, h.2.tail hzy⟩
      · exact .inr ⟨ih.elim TransGen.to_reflTransGen fun h => h.1, .refl⟩
  intro x hx
  rcases hwalk hx with hx | ⟨hxa, hbx⟩
  · exact h x hx
  · exact hab (hbx.trans hxa)

/-- **New edges out of a vertex that none leads to** close no cycle. -/
theorem Acyclic.source (h : Acyclic r) {t : α} (ht : ∀ x, ¬ r' x t)
    (hsub : ∀ x y, r' x y → r x y ∨ x = t) : Acyclic r' := by
  have hwalk : ∀ {x y}, TransGen r' x y → TransGen r x y ∨ x = t := by
    intro x y hxy
    induction hxy using TransGen.head_induction_on with
    | single hxy => exact (hsub _ _ hxy).imp .single id
    | head hxz _ ih =>
      rcases hsub _ _ hxz with hr | rfl
      · rcases ih with ih | rfl
        · exact .inl (.head hr ih)
        · exact absurd hxz (ht _)
      · exact .inr rfl
  intro x hx
  rcases hwalk hx with hx | rfl
  · exact h x hx
  · obtain ⟨y, -, hy⟩ := TransGen.tail'_iff.1 hx
    exact ht y hy

end acyclic

end CseLab
