import Mathlib.Order.Lattice
import Mathlib.Data.List.Basic

/-!
# Finite maps that are walked in key order

The C++ code keeps its tables in `std::map`s and iterates over them from `begin()` to `end()`, which
is ascending key order.  `OrdMap K V` is such a map: a list of pairs whose keys strictly increase.
`find`, `set` and `insert` are `find`, assignment through an iterator and `insert` (which leaves an
existing entry alone); a loop over the map is a recursion over `entries`.
-/

set_option autoImplicit false

namespace CseLab

variable {K V : Type*} [LinearOrder K]

/-- A finite map, its entries in strictly ascending key order. -/
structure OrdMap (K V : Type*) [LinearOrder K] where
  /-- The entries, in the order an iterator visits them. -/
  entries : List (K × V)
  /-- Keys strictly increase. -/
  sorted : entries.Pairwise fun p q => p.1 < q.1

namespace OrdMap

/-- Put `v` at `k` in a list sorted by key. -/
def setList (k : K) (v : V) : List (K × V) → List (K × V)
  | [] => [(k, v)]
  | (k', v') :: l =>
    if k < k' then (k, v) :: (k', v') :: l
    else if k = k' then (k, v) :: l
    else (k', v') :: setList k v l

theorem mem_setList {k : K} {v : V} {l : List (K × V)} {p : K × V} (h : p ∈ setList k v l) :
    p = (k, v) ∨ p ∈ l := by
  induction l with
  | nil => simpa [setList] using h
  | cons q l ih =>
    obtain ⟨k', v'⟩ := q
    rw [setList] at h
    split at h
    · simpa using h
    · split at h
      · rcases List.mem_cons.1 h with h | h
        · exact .inl h
        · exact .inr (List.mem_cons_of_mem _ h)
      · rcases List.mem_cons.1 h with h | h
        · exact .inr (h ▸ List.mem_cons_self)
        · exact (ih h).imp_right (List.mem_cons_of_mem _)

theorem setList_sorted {k : K} {v : V} {l : List (K × V)}
    (h : l.Pairwise fun p q => p.1 < q.1) : (setList k v l).Pairwise fun p q => p.1 < q.1 := by
  induction l with
  | nil => simp [setList]
  | cons q l ih =>
    obtain ⟨k', v'⟩ := q
    rw [List.pairwise_cons] at h
    rw [setList]
    split
    · rename_i hlt
      refine List.pairwise_cons.2 ⟨fun p hp => ?_, List.pairwise_cons.2 h⟩
      rcases List.mem_cons.1 hp with rfl | hp
      · exact hlt
      · exact hlt.trans (h.1 p hp)
    · split
      · rename_i heq
        exact List.pairwise_cons.2 ⟨fun p hp => heq ▸ h.1 p hp, h.2⟩
      · rename_i hnlt hne
        refine List.pairwise_cons.2 ⟨fun p hp => ?_, ih h.2⟩
        rcases mem_setList hp with rfl | hp
        · exact lt_of_le_of_ne (not_lt.1 hnlt) (Ne.symm hne)
        · exact h.1 p hp

theorem lookup_pair (j k : K) (v : V) (l : List (K × V)) :
    ((k, v) :: l).lookup j = if j = k then some v else l.lookup j := by
  by_cases h : j = k
  · simp [h]
  · simp [List.lookup_cons, beq_false_of_ne h, h]

theorem lookup_setList (j k : K) (v : V) (l : List (K × V)) :
    (setList k v l).lookup j = if j = k then some v else l.lookup j := by
  induction l with
  | nil => rw [setList, lookup_pair]
  | cons q l ih =>
    obtain ⟨k', v'⟩ := q
    rw [setList]
    split
    · rw [lookup_pair]
    · split
      · rename_i heq
        subst heq
        rw [lookup_pair, lookup_pair]
        by_cases hj : j = k <;> simp [hj]
      · rename_i hne
        rw [lookup_pair, lookup_pair, ih]
        by_cases hj : j = k'
        · simp [hj, Ne.symm hne]
        · simp [hj]

theorem ext_entries {m m' : OrdMap K V} (h : m.entries = m'.entries) : m = m' := by
  cases m
  cases m'
  cases h
  rfl

/-- The map with no entries. -/
def empty : OrdMap K V := ⟨[], .nil⟩

/-- The value at `k`. -/
def find (m : OrdMap K V) (k : K) : Option V := m.entries.lookup k

/-- The map with `v` at `k`, whatever was there. -/
def set (m : OrdMap K V) (k : K) (v : V) : OrdMap K V :=
  ⟨setList k v m.entries, setList_sorted m.sorted⟩

/-- `std::map::insert`: an entry that is there already stays as it is. -/
def insert (m : OrdMap K V) (k : K) (v : V) : OrdMap K V :=
  match m.find k with
  | none => m.set k v
  | some _ => m

/-- The keys, ascending. -/
def keys (m : OrdMap K V) : List K := m.entries.map Prod.fst

@[simp] theorem find_empty (k : K) : (empty : OrdMap K V).find k = none := rfl

@[simp] theorem entries_empty : (empty : OrdMap K V).entries = [] := rfl

@[simp] theorem keys_empty : (empty : OrdMap K V).keys = [] := rfl

theorem find_set (m : OrdMap K V) (j k : K) (v : V) :
    (m.set k v).find j = if j = k then some v else m.find j :=
  lookup_setList j k v m.entries

@[simp] theorem find_set_self (m : OrdMap K V) (k : K) (v : V) : (m.set k v).find k = some v := by
  simp [find_set]

theorem insert_of_find_none {m : OrdMap K V} {k : K} (h : m.find k = none) (v : V) :
    m.insert k v = m.set k v := by
  rw [insert, h]

theorem keys_nodup (m : OrdMap K V) : m.keys.Nodup := by
  rw [keys, List.Nodup, List.pairwise_map]
  exact m.sorted.imp fun h => ne_of_lt h

theorem mem_entries {m : OrdMap K V} {k : K} {v : V} : (k, v) ∈ m.entries ↔ m.find k = some v := by
  obtain ⟨l, hl⟩ := m
  show (k, v) ∈ l ↔ l.lookup k = some v
  induction l with
  | nil => simp
  | cons q l ih =>
    obtain ⟨k', v'⟩ := q
    rw [List.pairwise_cons] at hl
    rw [List.mem_cons, ih hl.2, lookup_pair]
    by_cases hk : k = k'
    · subst hk
      have hnone : l.lookup k = none := by
        rw [List.lookup_eq_none_iff]
        intro p hp
        simpa using ne_of_lt (hl.1 p hp)
      simp [hnone, eq_comm]
    · simp [hk]

theorem mem_keys {m : OrdMap K V} {k : K} : k ∈ m.keys ↔ (m.find k).isSome := by
  rw [keys, List.mem_map, Option.isSome_iff_exists]
  constructor
  · rintro ⟨⟨k', v⟩, hm, rfl⟩
    exact ⟨v, mem_entries.1 hm⟩
  · rintro ⟨v, hv⟩
    exact ⟨(k, v), mem_entries.2 hv, rfl⟩

theorem mem_keys_set {m : OrdMap K V} {j k : K} {v : V} :
    j ∈ (m.set k v).keys ↔ j = k ∨ j ∈ m.keys := by
  rw [mem_keys, mem_keys, find_set]
  by_cases h : j = k <;> simp [h]

/-! ### Filling a map in key order -/

/-- A key behind all that are there goes to the end. -/
theorem setList_of_lt {k : K} {v : V} {l : List (K × V)} (h : ∀ p ∈ l, p.1 < k) :
    setList k v l = l ++ [(k, v)] := by
  induction l with
  | nil => rfl
  | cons q l ih =>
    obtain ⟨k', v'⟩ := q
    have hlt : k' < k := h (k', v') List.mem_cons_self
    rw [setList, if_neg hlt.not_gt, if_neg hlt.ne', ih fun p hp => h p (List.mem_cons_of_mem _ hp),
      List.cons_append]

theorem entries_foldl_set {d : OrdMap K V} {l : List (K × V)}
    (h : (d.entries ++ l).Pairwise fun p q => p.1 < q.1) :
    (l.foldl (fun d p => d.set p.1 p.2) d).entries = d.entries ++ l := by
  induction l generalizing d with
  | nil => exact (List.append_nil _).symm
  | cons p l ih =>
    obtain ⟨k, v⟩ := p
    have hset : (d.set k v).entries = d.entries ++ [(k, v)] :=
      setList_of_lt fun q hq => (List.pairwise_append.1 h).2.2 q hq _ List.mem_cons_self
    have happend : d.entries ++ (k, v) :: l = (d.set k v).entries ++ l := by
      rw [hset, List.append_assoc]
      rfl
    rw [List.foldl_cons, happend]
    exact ih (happend ▸ h)

/-- A map is what its entries make one after another. -/
theorem foldl_set (m : OrdMap K V) : m.entries.foldl (fun d p => d.set p.1 p.2) empty = m :=
  ext_entries (entries_foldl_set (d := empty) m.sorted)

end OrdMap

end CseLab
