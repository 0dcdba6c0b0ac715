import CseLab.Lib.Tickets
import CseLab.Ydb.Occ.Invariant
import CseLab.Ydb.TwoPL.Invariant

/-!
# The ids of transactions

Both transactional servers count transaction ids up from `nextTransactionId`, under `tMapLockId`,
and enter the new id into `tMap` with `insert`, which leaves an entry that is there already alone.
The constructor of `ydb_server_2pl` starts the counter at 1; that of `ydb_server_occ` leaves it as
the memory was, and -1 is what a client takes for no transaction at all.

`ids_usable_iff` says for either server when the ids of a run are good for anything.
-/

set_option autoImplicit false

namespace CseLab
namespace Ydb

/-- `INVALID_TRANSID`. -/
def invalidTransid : TransactionId := -1

/-- The ids that have been returned tell transactions apart, and each names one. -/
structure IdsUsable (ids : List TransactionId) : Prop where
  distinct : ids.Nodup
  valid : invalidTransid ∉ ids

theorem idsUsable_interval (n₀ : TransactionId) (n : ℕ) :
    IdsUsable (interval n₀ n) ↔ ¬ (n₀ ≤ invalidTransid ∧ invalidTransid < n₀ + n) :=
  ⟨fun h hin => h.valid (mem_interval.2 hin), fun h =>
    ⟨nodup_interval n₀ n, fun hmem => h (mem_interval.1 hmem)⟩⟩

/-- The transaction `id` has been entered: it has nothing yet, and the others have what they had. -/
structure Entered {V : Type} (empty : V) (id : TransactionId)
    (tMap tMap' : TransactionId → Option V) : Prop where
  new : tMap' id = some empty
  kept : ∀ id' m, tMap id' = some m → tMap' id' = some m

/-- `tMap.insert` under an id that is not there. -/
theorem Entered.of_none {V : Type} {empty : V} {id : TransactionId}
    {tMap : TransactionId → Option V} (h : tMap id = none) :
    Entered empty id tMap (Function.update tMap id (some ((tMap id).getD empty))) where
  new := by rw [Function.update_self, h, Option.getD_none]
  kept id' m hm := by
    have hne : id' ≠ id := by
      rintro rfl
      rw [h] at hm
      exact absurd hm (by simp)
    rw [Function.update_of_ne hne, hm]

/-! ## The optimistic server -/

namespace Occ

/-- A `transaction_begin` adds its transaction to those there are. -/
def BeginAdds (s : State) : Prop :=
  ∀ s', step s .begin = some s' → Entered OrdMap.empty s.nextTransactionId s.tMap s'.tMap

theorem Inv.beginAdds {s : State} (h : Inv s) : BeginAdds s := by
  intro s' hs
  simp only [Occ.step, State.begin, Option.ite_none_right_eq_some, Option.some.injEq] at hs
  obtain ⟨-, rfl⟩ := hs
  exact Entered.of_none (h.unborn s.nextTransactionId (Int.le_refl _)).1

/-- Only `transaction_begin` touches the counter. -/
theorem tickets : Tickets step State.nextTransactionId (· = .begin) where
  draw {s a s'} hs ha := by
    subst ha
    cases step_cases hs
    rfl
  keep {s a s'} hs ha := by
    cases step_cases hs with
    | begin => exact absurd rfl ha
    | _ => rfl

/-- The ids that `transaction_begin` has returned in a run. -/
def ids (n₀ : TransactionId) (as : List Action) : List TransactionId :=
  observe step (drawn State.nextTransactionId (· = .begin)) (State.start n₀) as

end Occ

/-! ## The locking server -/

namespace TwoPL

/-- A `transaction_begin` adds its transaction to those there are. -/
def BeginAdds (s : State) : Prop :=
  ∀ s', step s .begin = some s' → Entered OrdMap.empty s.nextTransactionId s.tMap s'.tMap

theorem Inv.beginAdds {s : State} (h : Inv s.data) : BeginAdds s := by
  intro s' hs
  simp only [TwoPL.step, State.begin, Option.ite_none_right_eq_some, Option.some.injEq] at hs
  obtain ⟨-, rfl⟩ := hs
  exact Entered.of_none (h.unborn s.nextTransactionId (Int.le_refl _)).1

/-- Only `transaction_begin` touches the counter. -/
theorem tickets : Tickets step State.nextTransactionId (· = .begin) where
  draw {s a s'} hs ha := by
    subst ha
    simp only [step, State.begin, Option.ite_none_right_eq_some, Option.some.injEq] at hs
    exact hs.2 ▸ rfl
  keep {s a s'} hs ha := by
    cases a with
    | begin => exact absurd rfl ha
    | call id c =>
      simp only [step, State.call, Option.ite_none_right_eq_some, Option.some.injEq] at hs
      exact hs.2 ▸ rfl
    | resume id => exact (State.Frame.resume hs).elim State.Frame.next And.right

/-- The ids that `transaction_begin` has returned in a run. -/
def ids (as : List Action) : List TransactionId :=
  observe step (drawn State.nextTransactionId (· = .begin)) State.start as

end TwoPL

/-! ## Both -/

/-- **The ids of `ydb_server_2pl` are usable** in every run, and those of `ydb_server_occ` in the
runs in which the counter does not come past -1 from wherever it was. -/
theorem ids_usable_iff {n₀ : TransactionId} {as : List Occ.Action} {s : Occ.State}
    (h : Run Occ.step anyStep (Occ.State.start n₀) as s) {bs : List TwoPL.Action} {t : TwoPL.State}
    (ht : Run TwoPL.step anyStep TwoPL.State.start bs t) :
    (IdsUsable (TwoPL.ids bs) ∧ TwoPL.BeginAdds t) ∧
      (IdsUsable (Occ.ids n₀ as) ∧ Occ.BeginAdds s ↔
        ¬ (n₀ ≤ invalidTransid ∧ invalidTransid < n₀ + as.countP (· = .begin))) := by
  refine ⟨⟨?_, (TwoPL.Inv.of_run ht).beginAdds⟩, ?_⟩
  · rw [TwoPL.ids, ht.drawn_eq TwoPL.tickets]
    refine (idsUsable_interval _ _).2 fun hin => ?_
    exact absurd hin.1 (by decide)
  · rw [Occ.ids, h.drawn_eq Occ.tickets, and_iff_left (Occ.Inv.of_run h).beginAdds]
    exact idsUsable_interval n₀ _

/-- Two transactions of either server, one of which writes. -/
theorem ids_usable_two : ∃ s t,
    Run Occ.step anyStep (Occ.State.start 0) [.begin, .call 0 (.set [107] [118]), .begin] s ∧
    Run TwoPL.step anyStep TwoPL.State.start [.begin, .call 1 (.set [107] [118]), .begin] t ∧
    (IdsUsable (TwoPL.ids [.begin, .call 1 (.set [107] [118]), .begin]) ∧ TwoPL.BeginAdds t) ∧
    IdsUsable (Occ.ids 0 [.begin, .call 0 (.set [107] [118]), .begin]) ∧ Occ.BeginAdds s := by
  have hs : (execute Occ.step (Occ.State.start 0)
      [.begin, .call 0 (.set [107] [118]), .begin]).isSome := by decide +kernel
  have ht : (execute TwoPL.step TwoPL.State.start
      [.begin, .call 1 (.set [107] [118]), .begin]).isSome := by decide +kernel
  obtain ⟨s, hs⟩ := Option.isSome_iff_exists.1 hs
  obtain ⟨t, ht⟩ := Option.isSome_iff_exists.1 ht
  obtain ⟨h2pl, hocc⟩ := ids_usable_iff (.of_execute hs) (.of_execute ht)
  exact ⟨s, t, .of_execute hs, .of_execute ht, h2pl, hocc.2 (by decide)⟩

/-- **A client may be given the id that is none.** -/
theorem not_ids_usable :
    ¬ ∀ n₀ as s, Run Occ.step anyStep (Occ.State.start n₀) as s →
      as.countP (· = .begin) < 2147483647 → IdsUsable (Occ.ids n₀ as) := by
  intro h
  have hs : execute Occ.step (Occ.State.start (-1)) [.begin] =
      (Occ.State.start (-1)).begin := by
    cases hb : (Occ.State.start (-1)).begin <;> simp [execute, Occ.step, hb]
  obtain ⟨s, hb⟩ : ∃ s, (Occ.State.start (-1)).begin = some s := ⟨_, if_pos (by decide)⟩
  exact (h (-1) [.begin] s (.of_execute (hs.trans hb)) (by decide)).valid (by decide)

end Ydb
end CseLab
