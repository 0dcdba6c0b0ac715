import CseLab.Ydb.TwoPL.Data

/-!
# What holds in every run of two-phase locking

`Inv` ties the transactions' contents, the extents' locks and the log together: what a transaction
has of an extent is what its history says it last saw there, and an extent's lock is held by exactly
the transaction that has the extent or is about to.  A transaction that has committed is on its way
out.
-/

set_option autoImplicit false

namespace CseLab
namespace Ydb
namespace TwoPL

open Serial

/-! ## A transaction's contents and its history -/

/-- The contents say what the history says: what has been touched, and what has been written. -/
structure Matches (m : TContent) (l : Local ExtentId Bytes) : Prop where
  touched : ∀ k, l.touched k = (m.find k).map TValue.value
  wrote : ∀ k, l.wrote k =
    (m.find k).bind fun e => if e.status = .write then some e.value else none

theorem Matches.empty : Matches OrdMap.empty Local.start := ⟨fun _ => rfl, fun _ => rfl⟩

/-- The entry `e` is what a transaction that accesses an extent with `op` has of it from then on,
`stored` being what the store has. -/
def Op.Gives (op : Op) (e : TValue) (stored : Bytes) : Prop :=
  match op.written with
  | none => e = ⟨stored, .read⟩
  | some value => e = ⟨value, .write⟩

theorem Op.Gives.cases {op : Op} {e : TValue} {stored : Bytes} (h : op.Gives e stored) :
    op.written = none ∧ e = ⟨stored, .read⟩ ∨
      ∃ value, op.written = some value ∧ e = ⟨value, .write⟩ := by
  cases hw : op.written with
  | none => exact .inl ⟨rfl, by simpa only [Op.Gives, hw] using h⟩
  | some value => exact .inr ⟨value, rfl, by simpa only [Op.Gives, hw] using h⟩

/-- The result a `get` returns with that entry, a write returns nothing. -/
def Op.out (op : Op) (e : TValue) : Bytes := if op.written = none then e.value else []

theorem Matches.read {m : TContent} {l : Local ExtentId Bytes} {k : ExtentId} {e : TValue}
    (h : Matches m l) (he : m.find k = some e) : l.after (.get k e.value) = l := by
  have hl : l.touched k = some e.value := by rw [h.touched, he]; rfl
  rw [Local.after, hl]

theorem Matches.set_write {m : TContent} {l : Local ExtentId Bytes} (h : Matches m l)
    (k : ExtentId) (value : Bytes) :
    Matches (m.set k ⟨value, .write⟩) (l.after (.put k value)) := by
  refine ⟨fun j => ?_, fun j => ?_⟩ <;> rw [Local.after, OrdMap.find_set]
  · by_cases hj : j = k
    · simp [hj]
    · simp [hj, h.touched]
  · by_cases hj : j = k
    · simp [hj]
    · simp [hj, h.wrote]

theorem Matches.set_read {m : TContent} {l : Local ExtentId Bytes} (h : Matches m l)
    {k : ExtentId} (hk : m.find k = none) (value : Bytes) :
    Matches (m.set k ⟨value, .read⟩) (l.after (.get k value)) := by
  have hl : l.touched k = none := by rw [h.touched, hk]; rfl
  refine ⟨fun j => ?_, fun j => ?_⟩ <;> rw [Local.after, hl, OrdMap.find_set]
  · by_cases hj : j = k
    · simp [hj]
    · simp [hj, h.touched]
  · by_cases hj : j = k
    · simp [hj, h.wrote, hk]
    · simp [hj, h.wrote]

/-- Entering what an access gives is doing what the access does. -/
theorem Matches.insert {m : TContent} {l : Local ExtentId Bytes} {op : Op} {e : TValue}
    {stored : Bytes} (h : Matches m l) (hk : m.find op.eid = none) (he : op.Gives e stored) :
    Matches (m.set op.eid e) (l.after (op.done (op.out e))) := by
  rw [Op.done, Op.out]
  rcases he.cases with ⟨hw, rfl⟩ | ⟨value, hw, rfl⟩
  · rw [hw]
    exact h.set_read hk stored
  · rw [hw]
    exact h.set_write _ value

/-- A read of an extent the transaction has returns what it last saw there. -/
theorem Matches.fits_read {m : TContent} {l : Local ExtentId Bytes} {k : ExtentId} {e : TValue}
    (h : Matches m l) (he : m.find k = some e) : l.Fits (.get k e.value) := by
  intro w hw
  rw [h.touched, he, Option.map_some, Option.some_inj] at hw
  exact hw

theorem Matches.fits_new {m : TContent} {l : Local ExtentId Bytes} {op : Op} (h : Matches m l)
    (hk : m.find op.eid = none) (out : Bytes) : l.Fits (op.done out) := by
  rw [Op.done]
  split
  · intro w hw
    rw [h.touched, hk] at hw
    exact absurd hw (by simp)
  · trivial

/-! ## Phases -/

namespace Phase

/-- What a phase says about the transaction's contents and the store. -/
def About (store : IdealStore) (m : TContent) : Phase → Prop
  | .idle => True
  | .wanting op | .having op => m.find op.eid = none
  | .entering op e => m.find op.eid = none ∧ op.Gives e (store op.eid)
  | .committing rem => rem <:+ m.entries
  | .finishing _ kept => kept <:+ m.keys

/-- The locks a transaction holds. -/
def Held (m : TContent) (lid : LockId) : Phase → Prop
  | .idle | .wanting _ | .committing _ => lid ∈ m.keys
  | .having op | .entering op _ => lid ∈ m.keys ∨ lid = op.eid
  | .finishing _ kept => lid ∈ kept

/-- The phases after the decision to commit. -/
def Committed : Phase → Prop
  | .committing _ => True
  | .finishing w _ => w = .commit
  | _ => False

theorem Ends.held {ph : Phase} {w : Why} {m : TContent} (h : ph.Ends w) (lid : LockId) :
    ph.Held m lid ↔ (Phase.finishing w m.keys).Held m lid := by
  cases ph with
  | idle | wanting | committing => rfl
  | having | entering | finishing => exact h.elim

theorem Ends.committed {ph : Phase} {w : Why} (h : ph.Ends w) : ph.Committed ↔ w = .commit := by
  cases ph with
  | idle => rw [show w = .abort from h]; simp [Committed]
  | wanting op => rw [show w = .victim op from h]; simp [Committed]
  | committing rem => rw [h.2]; simp [Committed]
  | having | entering | finishing => exact h.elim

end Phase

/-! ## The invariant -/

/-- The log says that `id` has aborted, or has been aborted. -/
def Aborted (log : List Event) (id : TransactionId) : Prop :=
  .returned id .transactionAbort .ok [] ∈ log ∨ ∃ c, .returned id c .abort [] ∈ log

/-- What ties the transactions, the locks and the log together. -/
structure Inv (d : Data) : Prop where
  /-- An id that has not been handed out is unknown. -/
  unborn : ∀ id, d.nextTransactionId ≤ id → d.tMap id = none ∧ transcript d.log id = []
  /-- A transaction that is not live is in no phase of two-phase locking. -/
  idle : ∀ id, d.tMap id = none → d.phase id = .idle
  /-- The contents of a live transaction are what it has touched and written. -/
  live : ∀ id m, d.tMap id = some m → Matches m (track (history d.log id))
  /-- A transaction sees its own last read or write of an extent. -/
  coherent : ∀ id, Coherent (history d.log id)
  about : ∀ id m, d.tMap id = some m → (d.phase id).About d.store m
  /-- A lock is held by the transaction that has the extent or is about to. -/
  locks : ∀ lid id, d.locks lid = some id ↔ ∃ m, d.tMap id = some m ∧ (d.phase id).Held m lid
  /-- A transaction that has committed is on its way out. -/
  gone : ∀ id ∈ commitOrder d.log, (d.phase id).Committed ∨ d.tMap id = none
  /-- Committed transactions have begun. -/
  born : ∀ id ∈ commitOrder d.log, id < d.nextTransactionId
  /-- No transaction commits twice. -/
  once : (commitOrder d.log).Nodup
  /-- A transaction on its way out after a commit has committed. -/
  committed : ∀ id, (d.phase id).Committed → id ∈ commitOrder d.log
  /-- A transaction that has aborted is gone and has not committed. -/
  aborted : ∀ id, Aborted d.log id →
    d.tMap id = none ∧ id ∉ commitOrder d.log ∧ id < d.nextTransactionId

theorem Inv.lt_next {d : Data} (h : Inv d) {id : TransactionId} {m : TContent}
    (hid : d.tMap id = some m) : id < d.nextTransactionId := by
  by_contra hle
  rw [(h.unborn id (Int.not_lt.1 hle)).1] at hid
  exact absurd hid (by simp)

theorem Inv.not_committed {d : Data} (h : Inv d) {id : TransactionId} {m : TContent}
    (hid : d.tMap id = some m) (hph : ¬ (d.phase id).Committed) : id ∉ commitOrder d.log := by
  intro hmem
  rcases h.gone id hmem with hc | hc
  · exact hph hc
  · rw [hid] at hc
    exact absurd hc (by simp)

/-- **Two transactions never hold the same lock.** -/
theorem Inv.exclusive {d : Data} (h : Inv d) {id id' : TransactionId} {m m' : TContent}
    {lid : LockId} (hid : d.tMap id = some m) (hid' : d.tMap id' = some m')
    (hheld : (d.phase id).Held m lid) (hheld' : (d.phase id').Held m' lid) : id = id' := by
  have h₁ := (h.locks lid id).2 ⟨m, hid, hheld⟩
  have h₂ := (h.locks lid id').2 ⟨m', hid', hheld'⟩
  rw [h₁, Option.some_inj] at h₂
  exact h₂

/-! ## Steps that change one phase -/

/-- Moving on to a phase that holds the same locks keeps the invariant. -/
theorem Inv.move {d : Data} (h : Inv d) {id : TransactionId} {m : TContent} {ph : Phase}
    (hid : d.tMap id = some m) (habout : ph.About d.store m)
    (hheld : ∀ lid, ph.Held m lid ↔ (d.phase id).Held m lid)
    (hc : ph.Committed ↔ (d.phase id).Committed) :
    Inv { d with phase := Function.update d.phase id ph } := by
  refine ⟨h.unborn, fun u hu => ?_, h.live, h.coherent, fun u m' hu => ?_, fun lid u => ?_,
    fun u hu => ?_, h.born, h.once, fun u hu => ?_, h.aborted⟩
  · have hui : u ≠ id := by rintro rfl; simp [hid] at hu
    simpa [hui] using h.idle u hu
  · by_cases hui : u = id
    · subst hui
      rw [hid, Option.some_inj] at hu
      simpa [← hu] using habout
    · simpa [hui] using h.about u m' hu
  · rw [h.locks lid u]
    by_cases hui : u = id
    · subst hui
      simp [hid, hheld]
    · simp [hui]
  · by_cases hui : u = id
    · subst hui
      simpa [hc] using h.gone u hu
    · simpa [hui] using h.gone u hu
  · by_cases hui : u = id
    · subst hui
      exact h.committed u (by simpa [hc] using hu)
    · exact h.committed u (by simpa [hui] using hu)

/-! ## Steps of a call that returns -/

theorem aborted_committed {log : List Event} {i id : TransactionId} :
    Aborted (log ++ [.committed i]) id ↔ Aborted log id := by
  simp [Aborted]

theorem aborted_returned {log : List Event} {i id : TransactionId} {c : Call} {ret : Status}
    {out : Bytes} (hret : ret ≠ .abort) (hc : c ≠ .transactionAbort) :
    Aborted (log ++ [.returned i c ret out]) id ↔ Aborted log id := by
  simp [Aborted, Ne.symm hret, Ne.symm hc]

theorem Op.call_ne_abort (op : Op) : op.call ≠ .transactionAbort := by
  cases op <;> simp [Op.call]

/-- **A read or write that returns** keeps the invariant: the transaction is idle again, has the
extent, and holds its lock. -/
theorem Inv.touch {d : Data} (h : Inv d) {id : TransactionId} {m m' : TContent} {op : Op}
    {out : Bytes} (hid : d.tMap id = some m) (hph : ¬ (d.phase id).Committed)
    (hm : Matches m' (track (history d.log id ++ [op.done out])))
    (hfit : (track (history d.log id)).Fits (op.done out))
    (hheld : ∀ lid, lid ∈ m'.keys ↔ (d.phase id).Held m lid) :
    Inv { d with
      tMap := Function.update d.tMap id (some m')
      phase := Function.update d.phase id .idle
      log := d.log ++ [.returned id op.call .ok out] } := by
  have hlt := h.lt_next hid
  have hnot := h.not_committed hid hph
  have hother : ∀ u, u ≠ id →
      transcript (d.log ++ [.returned id op.call .ok out]) u = transcript d.log u :=
    fun u hu => transcript_returned_ne _ _ _ _ hu
  have hself : history (d.log ++ [.returned id op.call .ok out]) id =
      history d.log id ++ [op.done out] := history_returned_self _ _ (op.done_call out)
  refine ⟨fun u hu => ?_, fun u hu => ?_, fun u m₁ hu => ?_, fun u => ?_, fun u m₁ hu => ?_,
    fun lid u => ?_, fun u hu => ?_, fun u hu => ?_, ?_, fun u hu => ?_, fun u hu => ?_⟩
  · have hui : u ≠ id := Int.ne_of_gt (Int.lt_of_lt_of_le hlt hu)
    simpa [hui, hother u hui] using h.unborn u hu
  · have hui : u ≠ id := by rintro rfl; simp at hu
    simp only [Function.update_of_ne hui] at hu ⊢
    exact h.idle u hu
  · by_cases hui : u = id
    · subst hui
      simp only [Function.update_self, Option.some_inj] at hu
      rw [hself, ← hu]
      exact hm
    · simp only [Function.update_of_ne hui] at hu
      rw [history, hother u hui]
      exact h.live u m₁ hu
  · by_cases hui : u = id
    · subst hui
      rw [hself, coherent_snoc]
      exact ⟨h.coherent u, hfit⟩
    · rw [history, hother u hui]
      exact h.coherent u
  · by_cases hui : u = id
    · subst hui
      simp [Phase.About]
    · simp only [Function.update_of_ne hui] at hu ⊢
      exact h.about u m₁ hu
  · rw [h.locks lid u]
    by_cases hui : u = id
    · subst hui
      simp [hid, Phase.Held, hheld]
    · simp [hui]
  · have hu' : u ∈ commitOrder d.log := by simpa using hu
    have hui : u ≠ id := by rintro rfl; exact hnot hu'
    simpa [hui] using h.gone u hu'
  · exact h.born u (by simpa using hu)
  · simpa using h.once
  · have hui : u ≠ id := by rintro rfl; simp [Phase.Committed] at hu
    simpa using h.committed u (by simpa [hui] using hu)
  · obtain ⟨h₁, h₂, h₃⟩ := h.aborted u ((aborted_returned (by simp) op.call_ne_abort).1 hu)
    have hui : u ≠ id := by rintro rfl; simp [hid] at h₁
    exact ⟨by simpa [hui] using h₁, by simpa using h₂, h₃⟩

theorem Inv.begin {d : Data} (h : Inv d) :
    Inv { d with
      nextTransactionId := d.nextTransactionId + 1
      tMap := Function.update d.tMap d.nextTransactionId
        (some ((d.tMap d.nextTransactionId).getD OrdMap.empty)) } := by
  obtain ⟨hmap, hlog⟩ := h.unborn d.nextTransactionId (Int.le_refl _)
  have hidle := h.idle _ hmap
  refine ⟨fun u hu => ?_, fun u hu => ?_, fun u m hu => ?_, h.coherent, fun u m hu => ?_,
    fun lid u => ?_, fun u hu => ?_, fun u hu => Int.lt_trans (h.born u hu) (Int.lt_succ _), h.once,
    h.committed, fun u hu => ?_⟩
  · have hlt : d.nextTransactionId < u := hu
    have hui : u ≠ d.nextTransactionId := Int.ne_of_gt hlt
    simpa [hui] using h.unborn u (Int.le_of_lt hlt)
  · have hui : u ≠ d.nextTransactionId := by rintro rfl; simp at hu
    exact h.idle u (by simpa [hui] using hu)
  · by_cases hui : u = d.nextTransactionId
    · subst hui
      simp only [Function.update_self, hmap, Option.getD_none, Option.some_inj] at hu
      rw [history, hlog, ← hu]
      exact .empty
    · simp only [Function.update_of_ne hui] at hu
      exact h.live u m hu
  · by_cases hui : u = d.nextTransactionId
    · subst hui
      simp [hidle, Phase.About]
    · exact h.about u m (by simpa [hui] using hu)
  · rw [h.locks lid u]
    by_cases hui : u = d.nextTransactionId
    · subst hui
      simp [hmap, hidle, Phase.Held]
    · simp [hui]
  · have hui : u ≠ d.nextTransactionId := Int.ne_of_lt (h.born u hu)
    simpa [hui] using h.gone u hu
  · obtain ⟨h₁, h₂, h₃⟩ := h.aborted u hu
    have hui : u ≠ d.nextTransactionId := Int.ne_of_lt h₃
    exact ⟨by simpa [hui] using h₁, h₂, Int.lt_trans h₃ (Int.lt_succ _)⟩

/-- A call that ends its transaction is none of what the transaction has done. -/
theorem Why.done_eq_none (w : Why) (hok : w.status = .ok) : w.call.done [] = none := by
  cases w with
  | commit | abort => rfl
  | victim => exact absurd hok (by simp [Why.status])

/-- The end of a transaction keeps the invariant. -/
theorem Inv.erase {d : Data} (h : Inv d) {id : TransactionId} {m : TContent} {w : Why}
    (hid : d.tMap id = some m) (hph : d.phase id = .finishing w []) :
    Inv { d with
      tMap := Function.update d.tMap id none
      phase := Function.update d.phase id .idle
      log := d.log ++ [.returned id w.call w.status []] } := by
  have hother : ∀ u, transcript (d.log ++ [.returned id w.call w.status []]) u =
      transcript d.log u := by
    intro u
    exact transcript_returned_of_none _ _ _ _ w.done_eq_none
  refine ⟨fun u hu => ?_, fun u hu => ?_, fun u m₁ hu => ?_, fun u => ?_, fun u m₁ hu => ?_,
    fun lid u => ?_, fun u hu => ?_, fun u hu => h.born u (by simpa using hu), by simpa using h.once,
    fun u hu => ?_, fun u hu => ?_⟩
  · rw [hother u]
    by_cases hui : u = id
    · subst hui
      simpa using (h.unborn u hu).2
    · simpa [hui] using h.unborn u hu
  · by_cases hui : u = id
    · simp [hui]
    · simpa [hui] using h.idle u (by simpa [hui] using hu)
  · have hui : u ≠ id := by rintro rfl; simp at hu
    rw [history, hother u]
    exact h.live u m₁ (by simpa [hui] using hu)
  · rw [history, hother u]
    exact h.coherent u
  · have hui : u ≠ id := by rintro rfl; simp at hu
    simpa [hui] using h.about u m₁ (by simpa [hui] using hu)
  · rw [h.locks lid u]
    by_cases hui : u = id
    · subst hui
      simp [hph, Phase.Held]
    · simp [hui]
  · by_cases hui : u = id
    · simp [hui]
    · simpa [hui] using h.gone u (by simpa using hu)
  · have hui : u ≠ id := by rintro rfl; simp [Phase.Committed] at hu
    simpa using h.committed u (by simpa [hui] using hu)
  · by_cases hui : u = id
    · subst hui
      refine ⟨by simp, ?_, h.lt_next hid⟩
      rw [commitOrder_returned]
      refine h.not_committed hid ?_
      rw [hph]
      rintro rfl
      rw [Why.call, Why.status, aborted_returned (by simp) (by simp)] at hu
      rw [(h.aborted u hu).1] at hid
      exact absurd hid (by simp)
    · have hu' : Aborted d.log u := by simpa [Aborted, Ne.symm hui, hui] using hu
      obtain ⟨h₁, h₂, h₃⟩ := h.aborted u hu'
      exact ⟨by simpa [hui] using h₁, by simpa using h₂, h₃⟩

/-- Taking a free lock keeps the invariant. -/
theorem Inv.lock {d : Data} (h : Inv d) {id : TransactionId} {m : TContent} {op : Op}
    (hid : d.tMap id = some m) (hph : d.phase id = .wanting op) (hfree : d.locks op.eid = none) :
    Inv { d with
      phase := Function.update d.phase id (.having op)
      locks := Function.update d.locks op.eid (some id) } := by
  have habout := h.about id m hid
  rw [hph] at habout
  refine ⟨h.unborn, fun u hu => ?_, h.live, h.coherent, fun u m' hu => ?_, fun lid u => ?_,
    fun u hu => ?_, h.born, h.once, fun u hu => ?_, h.aborted⟩
  · have hui : u ≠ id := by rintro rfl; simp [hid] at hu
    simpa [hui] using h.idle u hu
  · by_cases hui : u = id
    · subst hui
      rw [hid, Option.some_inj] at hu
      subst hu
      simp only [Function.update_self]
      exact habout
    · simpa [hui] using h.about u m' hu
  · have hold := h.locks lid u
    by_cases hui : u = id
    · subst hui
      by_cases hlid : lid = op.eid
      · simp [hlid, hid, Phase.Held]
      · simpa [hlid, hid, hph, Phase.Held] using hold
    · by_cases hlid : lid = op.eid
      · subst hlid
        rw [hfree] at hold
        simpa [hui, Ne.symm hui] using hold
      · simpa [hlid, hui] using hold
  · by_cases hui : u = id
    · subst hui
      exact absurd hu (h.not_committed hid (by simp [hph, Phase.Committed]))
    · simpa [hui] using h.gone u hu
  · have hui : u ≠ id := by rintro rfl; simp [Phase.Committed] at hu
    exact h.committed u (by simpa [hui] using hu)

/-- Giving a lock back keeps the invariant. -/
theorem Inv.unlock {d : Data} (h : Inv d) {id : TransactionId} {m : TContent} {w : Why}
    {lid : LockId} {kept : List LockId} (hid : d.tMap id = some m)
    (hph : d.phase id = .finishing w (lid :: kept)) :
    Inv { d with
      phase := Function.update d.phase id (.finishing w kept)
      locks := Function.update d.locks lid none } := by
  have hsuff : lid :: kept <:+ m.keys := by
    have habout := h.about id m hid
    rwa [hph] at habout
  have hnot : lid ∉ kept := (List.nodup_cons.1 (m.keys_nodup.sublist hsuff.sublist)).1
  refine ⟨h.unborn, fun u hu => ?_, h.live, h.coherent, fun u m' hu => ?_, fun l u => ?_,
    fun u hu => ?_, h.born, h.once, fun u hu => ?_, h.aborted⟩
  · have hui : u ≠ id := by rintro rfl; simp [hid] at hu
    simpa [hui] using h.idle u hu
  · by_cases hui : u = id
    · subst hui
      rw [hid, Option.some_inj] at hu
      subst hu
      simp only [Function.update_self]
      exact (List.suffix_cons lid kept).trans hsuff
    · simpa [hui] using h.about u m' hu
  · have hold := h.locks l u
    by_cases hui : u = id
    · subst hui
      by_cases hl : l = lid
      · simpa [hl, hid, Phase.Held] using hnot
      · simpa [hl, hid, hph, Phase.Held] using hold
    · by_cases hl : l = lid
      · subst hl
        have hmine := (h.locks l id).2 ⟨m, hid, by simp [hph, Phase.Held]⟩
        rw [hmine, Option.some_inj] at hold
        simpa [hui, Ne.symm hui] using hold
      · simpa [hl, hui] using hold
  · by_cases hui : u = id
    · subst hui
      simpa [hph, Phase.Committed] using h.gone u hu
    · simpa [hui] using h.gone u hu
  · by_cases hui : u = id
    · subst hui
      exact h.committed u (by simpa [hph, Phase.Committed] using hu)
    · exact h.committed u (by simpa [hui] using hu)

/-- The decision to commit keeps the invariant. -/
theorem Inv.commit {d : Data} (h : Inv d) {id : TransactionId} {m : TContent}
    (hid : d.tMap id = some m) (hph : d.phase id = .idle) :
    Inv { d with
      phase := Function.update d.phase id (.committing m.entries)
      log := d.log ++ [.committed id] } := by
  have hlt := h.lt_next hid
  have hnot := h.not_committed hid (by simp [hph, Phase.Committed])
  refine ⟨fun u hu => by simpa using h.unborn u hu, fun u hu => ?_,
    fun u m' hu => by simpa [history] using h.live u m' hu,
    fun u => by simpa [history] using h.coherent u, fun u m' hu => ?_, fun lid u => ?_,
    fun u hu => ?_, fun u hu => ?_, ?_, fun u hu => ?_, fun u hu => ?_⟩
  · have hui : u ≠ id := by rintro rfl; simp [hid] at hu
    simpa [hui] using h.idle u hu
  · by_cases hui : u = id
    · subst hui
      rw [hid, Option.some_inj] at hu
      simp [hu, Phase.About]
    · simpa [hui] using h.about u m' hu
  · rw [h.locks lid u]
    by_cases hui : u = id
    · subst hui
      simp [hid, hph, Phase.Held]
    · simp [hui]
  · by_cases hui : u = id
    · subst hui
      simp [Phase.Committed]
    · simpa [hui] using h.gone u (by simpa [hui] using hu)
  · rcases List.mem_append.1 (commitOrder_committed d.log id ▸ hu) with hu | hu
    · exact h.born u hu
    · exact List.mem_singleton.1 hu ▸ hlt
  · rw [commitOrder_committed]
    refine List.nodup_append.2 ⟨h.once, List.pairwise_singleton _ id, fun u hu v hv => ?_⟩
    rw [List.mem_singleton.1 hv]
    rintro rfl
    exact hnot hu
  · rw [commitOrder_committed, List.mem_append]
    by_cases hui : u = id
    · exact .inr (by simp [hui])
    · exact .inl (h.committed u (by simpa [hui] using hu))
  · obtain ⟨h₁, h₂, h₃⟩ := h.aborted u (aborted_committed.1 hu)
    have hui : u ≠ id := by rintro rfl; simp [hid] at h₁
    exact ⟨h₁, by simpa [hui] using h₂, h₃⟩

theorem putEntry_of_ne (store : IdealStore) {p : ExtentId × TValue} {k : ExtentId}
    (hk : k ≠ p.1) : State.putEntry store p k = store k := by
  obtain ⟨j, value, status⟩ := p
  have hk : k ≠ j := hk
  cases status with
  | read => rfl
  | write =>
    rw [State.putEntry]
    dsimp only
    split <;> simp [IdealStore.put, IdealStore.remove, hk]

theorem putEntry_self (store : IdealStore) (p : ExtentId × TValue) :
    State.putEntry store p p.1 = if p.2.status = .write then p.2.value else store p.1 := by
  obtain ⟨j, value, status⟩ := p
  cases status with
  | read => rfl
  | write =>
    rw [State.putEntry]
    dsimp only
    split
    · simp [IdealStore.put]
    · rename_i hv
      simp [IdealStore.remove, List.length_eq_zero_iff.1 (not_not.1 hv)]

/-- The entries still to be looked at are of extents whose locks are held. -/
theorem Inv.held_of_rem {d : Data} (h : Inv d) {id : TransactionId} {m : TContent}
    {rem : List (ExtentId × TValue)} (hid : d.tMap id = some m)
    (hph : d.phase id = .committing rem) {p : ExtentId × TValue} (hp : p ∈ rem) :
    (d.phase id).Held m p.1 := by
  have hsuff : rem <:+ m.entries := by
    have habout := h.about id m hid
    rwa [hph] at habout
  rw [hph]
  exact List.mem_map_of_mem (hsuff.subset hp)

/-- Writing an entry to the store keeps the invariant: nobody else has that extent's value. -/
theorem Inv.put {d : Data} (h : Inv d) {id : TransactionId} {m : TContent}
    {p : ExtentId × TValue} {rem : List (ExtentId × TValue)} (hid : d.tMap id = some m)
    (hph : d.phase id = .committing (p :: rem)) :
    Inv { d with
      phase := Function.update d.phase id (.committing rem)
      store := State.putEntry d.store p } := by
  have hsuff : p :: rem <:+ m.entries := by
    have habout := h.about id m hid
    rwa [hph] at habout
  refine ⟨h.unborn, fun u hu => ?_, h.live, h.coherent, fun u m' hu => ?_, fun lid u => ?_,
    fun u hu => ?_, h.born, h.once, fun u hu => ?_, h.aborted⟩
  · have hui : u ≠ id := by rintro rfl; simp [hid] at hu
    simpa [hui] using h.idle u hu
  · by_cases hui : u = id
    · subst hui
      rw [hid, Option.some_inj] at hu
      subst hu
      simp only [Function.update_self]
      exact (List.suffix_cons p rem).trans hsuff
    · simp only [Function.update_of_ne hui]
      have habout := h.about u m' hu
      cases hu' : d.phase u with
      | entering op e =>
        rw [hu'] at habout
        have hne : op.eid ≠ p.1 := by
          intro heq
          refine hui (h.exclusive hu hid ?_ (h.held_of_rem hid hph List.mem_cons_self))
          rw [hu', ← heq]
          exact .inr rfl
        refine ⟨habout.1, ?_⟩
        rw [putEntry_of_ne _ hne]
        exact habout.2
      | idle | wanting | having | committing | finishing =>
        rw [hu'] at habout
        exact habout
  · rw [h.locks lid u]
    by_cases hui : u = id
    · subst hui
      simp [hid, hph, Phase.Held]
    · simp [hui]
  · by_cases hui : u = id
    · subst hui
      simp [Phase.Committed]
    · simpa [hui] using h.gone u hu
  · by_cases hui : u = id
    · subst hui
      exact h.committed u (by simp [hph, Phase.Committed])
    · exact h.committed u (by simpa [hui] using hu)

/-- **The invariant is kept by every step.** -/
theorem Inv.step {d d' : Data} (h : Inv d) (hs : Data.Step d d') : Inv d' := by
  cases hs with
  | begin => exact h.begin
  | @reject id c hid hph =>
    have hother : ∀ u, transcript (d.log ++ [.returned id c .transidinv []]) u =
        transcript d.log u := fun u => transcript_returned_of_none _ _ _ _ (by simp)
    refine ⟨fun u hu => ?_, h.idle, fun u m hu => ?_, fun u => ?_, h.about, h.locks, fun u hu => ?_,
      fun u hu => h.born u (by simpa using hu), by simpa using h.once, fun u hu => ?_,
      fun u hu => ?_⟩
    · simpa [hother u] using h.unborn u hu
    · rw [history, hother u]
      exact h.live u m hu
    · rw [history, hother u]
      exact h.coherent u
    · exact h.gone u (by simpa using hu)
    · simpa using h.committed u hu
    · have hu' : Aborted d.log u := by simpa [Aborted] using hu
      simpa using h.aborted u hu'
  | @read id m op e hid hph he hw =>
    have hd : op.done e.value = .get op.eid e.value := by rw [Op.done, hw]
    have hm := h.live id m hid
    have htouch := h.touch hid (by simp [hph, Phase.Committed])
      (by rw [track_snoc, hd, hm.read he]; exact hm) (by rw [hd]; exact hm.fits_read he)
      (by simp [hph, Phase.Held])
    rwa [← hid, Function.update_eq_self, ← hph, Function.update_eq_self] at htouch
  | @write id m op e value hid hph he hw =>
    have hd : op.done [] = .put op.eid value := by rw [Op.done, hw]
    have hm := h.live id m hid
    have hkey : op.eid ∈ m.keys := by rw [OrdMap.mem_keys, he]; rfl
    have htouch := h.touch hid (by simp [hph, Phase.Committed])
      (by rw [track_snoc, hd]; exact hm.set_write _ value) (by rw [hd]; trivial) (fun lid => by
        rw [OrdMap.mem_keys_set, hph, Phase.Held]
        exact ⟨fun h => h.elim (fun h => h ▸ hkey) fun h => h, .inr⟩)
    rwa [← hph, Function.update_eq_self] at htouch
  | @want id m op hid hph he =>
    exact h.move hid he (by simp [hph, Phase.Held]) (by simp [hph, Phase.Committed])
  | lock hid hph hfree => exact h.lock hid hph hfree
  | @enter id m op value hid hph hw =>
    have habout := h.about id m hid
    rw [hph] at habout
    refine h.move hid ⟨habout, ?_⟩ (by simp [hph, Phase.Held]) (by simp [hph, Phase.Committed])
    rw [Op.Gives, hw]
  | @fetch id m op hid hph hw =>
    have habout := h.about id m hid
    rw [hph] at habout
    refine h.move hid ⟨habout, ?_⟩ (by simp [hph, Phase.Held]) (by simp [hph, Phase.Committed])
    rw [Op.Gives, hw]
  | @insert id m op e hid hph =>
    have habout := h.about id m hid
    rw [hph] at habout
    have hm := h.live id m hid
    rw [OrdMap.insert_of_find_none habout.1]
    refine h.touch hid (by simp [hph, Phase.Committed]) ?_ (hm.fits_new habout.1 _) fun lid => ?_
    · rw [track_snoc]
      exact hm.insert habout.1 habout.2
    · rw [OrdMap.mem_keys_set, hph, Phase.Held]
      exact or_comm
  | commit hid hph => exact h.commit hid hph
  | put hid hph => exact h.put hid hph
  | @finish id m w hid hw =>
    exact h.move hid (List.suffix_refl _) (fun lid => (hw.held lid).symm) hw.committed.symm
  | unlock hid hph => exact h.unlock hid hph
  | erase hid hph => exact h.erase hid hph

theorem Inv.start : Inv State.start.data where
  unborn _ _ := ⟨rfl, rfl⟩
  idle _ _ := rfl
  live _ _ h := absurd h (by simp [State.start, State.data])
  coherent _ := trivial
  about _ _ h := absurd h (by simp [State.start, State.data])
  locks _ _ := by simp [State.start, State.data]
  gone _ h := absurd h (by simp [State.start, State.data])
  born _ h := absurd h (by simp [State.start, State.data])
  once := List.nodup_nil
  committed _ h := h.elim
  aborted _ h := absurd h (by simp [State.start, State.data, Aborted])

/-- What every step of two-phase locking keeps holds in every run of the server. -/
theorem data_induct {ok : State → Action → Prop} {P : Data → Prop} {as : List Action} {s : State}
    (h : Run TwoPL.step ok State.start as s) (h0 : P State.start.data)
    (hstep : ∀ d d', P d → Data.Step d d' → P d') : P s.data := by
  refine h.invariant (P := fun s => P s.data) h0 fun s a s' hs _ hrun => ?_
  have hsteps : ∀ d, Relation.ReflTransGen Data.Step s.data d → P d := by
    intro d hd
    induction hd with
    | refl => exact hs
    | tail _ hstep' ih => exact hstep _ _ ih hstep'
  exact hsteps s'.data (refines hrun)

/-- The invariant holds in every run of the server. -/
theorem Inv.of_run {ok : State → Action → Prop} {as : List Action} {s : State}
    (h : Run TwoPL.step ok State.start as s) : Inv s.data :=
  data_induct h Inv.start fun _ _ hi hs => hi.step hs

/-! ## Ids -/

/-- Ids in use are at least 1 and below the largest `int`. -/
structure Counted (d : Data) : Prop where
  high : d.nextTransactionId ≤ intMax
  live : ∀ id m, d.tMap id = some m → 1 ≤ id
  next : 1 ≤ d.nextTransactionId
  committed : ∀ id ∈ commitOrder d.log, 1 ≤ id

theorem Counted.step {d d' : Data} (h : Counted d) (hs : Data.Step d d') : Counted d' := by
  have htouch : ∀ {id m}, d.tMap id = some m → ∀ (m' : Option TContent) u m'',
      Function.update d.tMap id m' u = some m'' → 1 ≤ u := by
    intro id m hid m' u m'' hu
    by_cases hui : u = id
    · exact h.live u m (hui ▸ hid)
    · exact h.live u m'' (by simpa [hui] using hu)
  cases hs with
  | begin hlt =>
    refine ⟨hlt, fun u m hu => ?_, Int.le_trans h.next (Int.le_of_lt (Int.lt_succ _)), h.committed⟩
    by_cases hui : u = d.nextTransactionId
    · exact hui ▸ h.next
    · exact h.live u m (by simpa [hui] using hu)
  | reject | read => exact ⟨h.high, h.live, h.next, fun u hu => h.committed u (by simpa using hu)⟩
  | write hid | insert hid | erase hid =>
    exact ⟨h.high, htouch hid _, h.next, fun u hu => h.committed u (by simpa using hu)⟩
  | want | lock | enter | fetch | put | finish | unlock =>
    exact ⟨h.high, h.live, h.next, h.committed⟩
  | @commit id m hid =>
    refine ⟨h.high, h.live, h.next, fun u hu => ?_⟩
    rcases List.mem_append.1 (commitOrder_committed d.log id ▸ hu) with hu | hu
    · exact h.committed u hu
    · exact List.mem_singleton.1 hu ▸ h.live id m hid

theorem Counted.of_run {ok : State → Action → Prop} {as : List Action} {s : State}
    (h : Run TwoPL.step ok State.start as s) : Counted s.data := by
  refine data_induct h ⟨?_, ?_, ?_, ?_⟩ fun _ _ hc hs => hc.step hs
  · decide
  · simp [State.start, State.data]
  · decide
  · simp [State.start, State.data]

end TwoPL
end Ydb
end CseLab
