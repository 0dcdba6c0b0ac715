import Mathlib.Logic.Function.Basic
import Mathlib.Data.List.Induction

/-!
# Transactions on a map, run one after another

What a transactional key-value server is supposed to look like from outside, with no server in
sight.  A store is a function `K → V`.  A transaction is the list of its calls that have returned,
each with what it returned (`Done`); run alone on a store it reads its own writes and otherwise the
store (`rerun`), and its commit installs its last write of every key (`install`).

* `track h` is what the calls `h` determine by themselves: the value each key had when it was first
  read (`snap`), the last value written to it (`wrote`), and the last value seen at it (`touched`).
* `Coherent h` says that a call that reads a key the transaction has touched before returns the
  value it last saw or wrote there.
* `rerun_eq` is the fact both servers are verified through: a coherent transaction whose first reads
  are still current returns exactly the same values when it is run alone.
* `serialStore` and `SerialOK` are a whole history of transactions, each run alone on the store the
  earlier ones left; `SerialOK.snoc` extends one by a commit.
-/

set_option autoImplicit false

namespace CseLab
namespace Serial

variable {K V : Type*}

/-- A call of a transaction that has returned. -/
inductive Done (K V : Type*) where
  /-- A read of `k` that returned `v`. -/
  | get (k : K) (v : V)
  /-- A write of `v` to `k`. -/
  | put (k : K) (v : V)
  deriving DecidableEq

/-- The key a call is about. -/
def Done.key : Done K V → K
  | .get k _ => k
  | .put k _ => k

/-- What a transaction knows after some of its calls. -/
structure Local (K V : Type*) where
  /-- The value it last read or wrote at a key. -/
  touched : K → Option V
  /-- The value it read at a key it had not touched before. -/
  snap : K → Option V
  /-- The value it last wrote to a key. -/
  wrote : K → Option V

namespace Local

/-- Before the first call. -/
def start : Local K V := ⟨fun _ => none, fun _ => none, fun _ => none⟩

/-- Only a touched key can have a first read or a write on record. -/
def Tidy (l : Local K V) : Prop := ∀ k, l.touched k = none → l.wrote k = none ∧ l.snap k = none

theorem Tidy.start : (start : Local K V).Tidy := fun _ _ => ⟨rfl, rfl⟩

/-- A read of a touched key returns what was last seen there. -/
def Fits (l : Local K V) : Done K V → Prop
  | .get k v => ∀ w, l.touched k = some w → v = w
  | .put _ _ => True

variable [DecidableEq K]

/-- After one more call. -/
def after (l : Local K V) : Done K V → Local K V
  | .get k v =>
    match l.touched k with
    | none => { l with
        touched := Function.update l.touched k (some v)
        snap := Function.update l.snap k (some v) }
    | some _ => l
  | .put k v => { l with
      touched := Function.update l.touched k (some v)
      wrote := Function.update l.wrote k (some v) }

theorem Tidy.after {l : Local K V} (h : l.Tidy) (d : Done K V) : (l.after d).Tidy := by
  intro j hj
  cases d with
  | get k v =>
    rw [Local.after] at hj ⊢
    split at hj
    · by_cases hjk : j = k
      · subst hjk
        simp at hj
      · simp only [Function.update_of_ne hjk] at hj ⊢
        exact h j hj
    · exact h j hj
  | put k v =>
    by_cases hjk : j = k
    · subst hjk
      simp [Local.after] at hj
    · simp only [Local.after, Function.update_of_ne hjk] at hj ⊢
      exact h j hj

/-- A first read stays on record. -/
theorem snap_after {l : Local K V} (hl : l.Tidy) (d : Done K V) {k : K} {v : V}
    (h : l.snap k = some v) : (l.after d).snap k = some v := by
  cases d with
  | put => exact h
  | get k' v' =>
    rw [after]
    split
    · rename_i hnone
      have hne : k ≠ k' := by
        rintro rfl
        rw [(hl k hnone).2] at h
        exact absurd h (by simp)
      simpa [hne] using h
    · exact h

theorem snap_foldl {l : Local K V} (hl : l.Tidy) (h : List (Done K V)) {k : K} {v : V}
    (hk : l.snap k = some v) : (h.foldl after l).snap k = some v := by
  induction h generalizing l with
  | nil => exact hk
  | cons d h ih => exact ih (hl.after d) (snap_after hl d hk)

end Local

open Local

variable [DecidableEq K]

/-- What the calls `h` determine. -/
def track (h : List (Done K V)) : Local K V := h.foldl Local.after Local.start

@[simp] theorem track_nil : track ([] : List (Done K V)) = Local.start := rfl

@[simp] theorem track_snoc (h : List (Done K V)) (d : Done K V) :
    track (h ++ [d]) = (track h).after d := by
  simp [track]

theorem track_tidy (h : List (Done K V)) : (track h).Tidy := by
  induction h using List.reverseRecOn with
  | nil => exact .start
  | append_singleton h d ih => exact track_snoc h d ▸ ih.after d

/-- Every read of a touched key in `h` returns what was last seen there. -/
def CoherentFrom (l : Local K V) : List (Done K V) → Prop
  | [] => True
  | d :: h => l.Fits d ∧ CoherentFrom (l.after d) h

/-- `CoherentFrom` the start of the transaction. -/
def Coherent (h : List (Done K V)) : Prop := CoherentFrom Local.start h

theorem coherentFrom_snoc {l : Local K V} {h : List (Done K V)} {d : Done K V} :
    CoherentFrom l (h ++ [d]) ↔ CoherentFrom l h ∧ (h.foldl Local.after l).Fits d := by
  induction h generalizing l with
  | nil => simp [CoherentFrom]
  | cons e h ih => simp [CoherentFrom, ih, and_assoc]

theorem coherent_snoc {h : List (Done K V)} {d : Done K V} :
    Coherent (h ++ [d]) ↔ Coherent h ∧ (track h).Fits d :=
  coherentFrom_snoc

theorem coherentFrom_append {l : Local K V} {h h' : List (Done K V)} :
    CoherentFrom l (h ++ h') ↔ CoherentFrom l h ∧ CoherentFrom (h.foldl Local.after l) h' := by
  induction h generalizing l with
  | nil => simp [CoherentFrom]
  | cons e h ih => simp [CoherentFrom, ih, and_assoc]

/-- Reads, and writes of other keys, leave what was last seen at a key. -/
theorem touched_foldl {l : Local K V} {h : List (Done K V)} {k : K} {v : V}
    (hk : l.touched k = some v) (hput : ∀ w, .put k w ∉ h) :
    (h.foldl Local.after l).touched k = some v := by
  induction h generalizing l with
  | nil => exact hk
  | cons d h ih =>
    refine ih ?_ fun w hw => hput w (List.mem_cons_of_mem _ hw)
    cases d with
    | get j w =>
      rw [Local.after]
      split
      · rename_i hnone
        have hjk : k ≠ j := by
          rintro rfl
          rw [hk] at hnone
          exact absurd hnone (by simp)
        simpa [hjk] using hk
      · exact hk
    | put j w =>
      have hjk : k ≠ j := by
        rintro rfl
        exact hput w List.mem_cons_self
      simpa [Local.after, hjk] using hk

/-- **A coherent transaction reads its own last write.** -/
theorem Coherent.own_write {h₁ h₂ h₃ : List (Done K V)} {k : K} {v w : V}
    (h : Coherent (h₁ ++ .put k v :: (h₂ ++ .get k w :: h₃))) (hput : ∀ x, .put k x ∉ h₂) :
    w = v := by
  obtain ⟨-, -, h⟩ := coherentFrom_append.1 h
  obtain ⟨-, hfit, -⟩ := coherentFrom_append.1 h
  exact hfit v (touched_foldl (by simp [Local.after]) hput)

/-! ## Running alone -/

/-- The store as a transaction with the writes `w` sees it, and as its commit leaves it. -/
def install (s : K → V) (w : K → Option V) (k : K) : V := (w k).getD (s k)

/-- The same calls on the store `s`, the writes so far being `w`, with what they return now. -/
def rerun (s : K → V) (w : K → Option V) : List (Done K V) → List (Done K V)
  | [] => []
  | .get k _ :: h => .get k (install s w k) :: rerun s w h
  | .put k v :: h => .put k v :: rerun s (Function.update w k (some v)) h

/-- `l` is what a transaction that runs alone on `s` knows: what it has seen is what is there. -/
def Local.Of (s : K → V) (l : Local K V) : Prop :=
  ∀ k v, l.touched k = some v → install s l.wrote k = v

theorem Local.Of.after {s : K → V} {l : Local K V} {d : Done K V} (h : l.Of s) (ht : l.Tidy)
    (hget : ∀ k v, d = .get k v → l.touched k = none → s k = v) : (l.after d).Of s := by
  intro j w hj
  cases d with
  | get k v =>
    rw [Local.after] at hj ⊢
    split at hj
    · rename_i hnone
      by_cases hjk : j = k
      · subst hjk
        simp only [Function.update_self, Option.some_inj] at hj
        rw [install, (ht j hnone).1, Option.getD_none, hget j v rfl hnone, hj]
      · simp only [Function.update_of_ne hjk] at hj
        exact h j w hj
    · exact h j w hj
  | put k v =>
    by_cases hjk : j = k
    · subst hjk
      simp only [Local.after, Function.update_self, Option.some_inj] at hj
      simp [Local.after, install, hj]
    · simp only [Local.after, Function.update_of_ne hjk] at hj
      simpa [Local.after, install, hjk] using h j w hj

theorem Local.wrote_after_get (l : Local K V) (k : K) (v : V) :
    (l.after (.get k v)).wrote = l.wrote := by
  rw [Local.after]
  split <;> rfl

/-- A transaction returns the same values when it is run alone exactly if its first call does and,
after that call, the rest of it does. -/
theorem rerun_cons_eq {s : K → V} {l : Local K V} {d : Done K V} {h : List (Done K V)} :
    rerun s l.wrote (d :: h) = d :: h ↔
      (∀ k v, d = .get k v → install s l.wrote k = v) ∧ rerun s (l.after d).wrote h = h := by
  cases d with
  | get k v =>
    rw [rerun, wrote_after_get, List.cons_eq_cons]
    constructor
    · rintro ⟨hd, hh⟩
      refine ⟨fun k' v' hk => ?_, hh⟩
      rw [hk, Done.get.injEq] at hd
      injection hk with hkk
      rw [← hkk]
      exact hd.2
    · rintro ⟨hd, hh⟩
      exact ⟨by rw [hd k v rfl], hh⟩
  | put k v => simp [rerun, Local.after]

theorem rerun_eq_from {s : K → V} {h : List (Done K V)} {l : Local K V} (hl : l.Of s)
    (ht : l.Tidy) (hcoh : CoherentFrom l h)
    (hsnap : ∀ k v, (h.foldl Local.after l).snap k = some v → s k = v) :
    rerun s l.wrote h = h := by
  induction h generalizing l with
  | nil => rfl
  | cons d h ih =>
    obtain ⟨hfit, hcoh⟩ := hcoh
    have hget : ∀ k v, d = .get k v → l.touched k = none → s k = v := by
      rintro k v rfl hnone
      refine hsnap k v (snap_foldl (ht.after _) h ?_)
      simp [Local.after, hnone]
    rw [rerun_cons_eq]
    refine ⟨?_, ih (hl.after ht hget) (ht.after d) hcoh hsnap⟩
    rintro k v rfl
    cases hk : l.touched k with
    | none => rw [install, (ht k hk).1, Option.getD_none, hget k v rfl hk]
    | some w => rw [hfit w hk]; exact hl k w hk

/-- **A transaction whose first reads are current is one that could have run alone.** -/
theorem rerun_eq {s : K → V} {h : List (Done K V)} (hcoh : Coherent h)
    (hsnap : ∀ k v, (track h).snap k = some v → s k = v) : rerun s (fun _ => none) h = h :=
  rerun_eq_from (fun _ _ h => absurd h (by simp [Local.start])) Local.Tidy.start hcoh hsnap

/-! ## A history of transactions -/

/-- The store after the transactions `hs` have run alone, one after another. -/
def serialStore (s : K → V) (hs : List (List (Done K V))) : K → V :=
  hs.foldl (fun s h => install s (track h).wrote) s

/-- Run alone, one after another, the transactions `hs` return what they returned. -/
def SerialOK (s : K → V) : List (List (Done K V)) → Prop
  | [] => True
  | h :: hs => rerun s (fun _ => none) h = h ∧ SerialOK (install s (track h).wrote) hs

@[simp] theorem serialStore_nil (s : K → V) : serialStore s [] = s := rfl

@[simp] theorem serialStore_snoc (s : K → V) (hs : List (List (Done K V))) (h : List (Done K V)) :
    serialStore s (hs ++ [h]) = install (serialStore s hs) (track h).wrote := by
  simp [serialStore]

/-- A commit extends the history when its transaction is coherent and its first reads are what the
earlier transactions left. -/
theorem SerialOK.snoc {s : K → V} {hs : List (List (Done K V))} {h : List (Done K V)}
    (hok : SerialOK s hs) (hcoh : Coherent h)
    (hsnap : ∀ k v, (track h).snap k = some v → serialStore s hs k = v) :
    SerialOK s (hs ++ [h]) := by
  induction hs generalizing s with
  | nil => exact ⟨rerun_eq hcoh hsnap, trivial⟩
  | cons h' hs ih => exact ⟨hok.1, ih hok.2 hsnap⟩

end Serial
end CseLab
