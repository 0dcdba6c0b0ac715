import CseLab.Ydb.Occ.Server

/-!
# What holds in every run of the optimistic server

`Inv` ties the server's tables to the histories its log records, for every interleaving and with no
assumption on it: ids are handed out in ascending order, the map of a live
transaction holds exactly what its history says it has touched and written, a call in progress is
about an extent the transaction has not touched, and a transaction that has committed is on its way
out.

`step_cases` says once what an action can do; the invariant is derived from it.
-/

set_option autoImplicit false

namespace CseLab
namespace Ydb
namespace Occ

open Serial

/-! ## What an action can do -/

/-- The calls in progress that have only had their first section. -/
def Pc.Initial (m : VMap) : Pc → Prop
  | .read key => m.find (hash key) = none
  | .sample c eid value => m.find eid = none ∧ c.done [] = some (.put eid value)
  | .commit => True
  | _ => False

/-- The map after one more call of a transaction, and what the call did. -/
inductive Touch (m : VMap) : VMap → Done ExtentId Bytes → Prop
  /-- `get` of an extent in the map. -/
  | getHit {eid : ExtentId} {e : TValue} (h : m.find eid = some e) :
      Touch m (m.set eid { e with readen := true }) (.get eid e.value)
  /-- `write` to an extent in the map. -/
  | writeHit {eid : ExtentId} {e : TValue} (value : Bytes) (h : m.find eid = some e) :
      Touch m (m.set eid { e with written := true, value := value }) (.put eid value)
  /-- `get` of an extent that was not. -/
  | getMiss {eid : ExtentId} (g : Int32) (v : Bytes) (h : m.find eid = none) :
      Touch m (m.set eid ⟨g, true, false, v⟩) (.get eid v)
  /-- `write` to an extent that was not. -/
  | writeMiss {eid : ExtentId} (g : Int32) (value : Bytes) (h : m.find eid = none) :
      Touch m (m.set eid ⟨g, false, true, value⟩) (.put eid value)

/-- Everything an action can do. -/
inductive Effect (s : State) : Action → State → Prop
  | begin (h : s.nextTransactionId < intMax) :
      Effect s .begin { s with
        nextTransactionId := s.nextTransactionId + 1
        tMap := Function.update s.tMap s.nextTransactionId
          (some ((s.tMap s.nextTransactionId).getD OrdMap.empty)) }
  | reject {id : TransactionId} {c : Call} {ret : Status} (hid : s.tMap id = none)
      (hcall : s.calls id = none) (hret : ret = .ok → c = .transactionAbort) :
      Effect s (.call id c) (s.reply id c ret [])
  | hit {id : TransactionId} {c : Call} {m m' : VMap} {d : Done ExtentId Bytes} {out : Bytes}
      (hid : s.tMap id = some m) (hcall : s.calls id = none) (ht : Touch m m' d)
      (hkey : (m.find d.key).isSome) (hd : c.done out = some d) :
      Effect s (.call id c) ((s.setMap id m').reply id c .ok out)
  | enter {id : TransactionId} {c : Call} {m : VMap} {pc : Pc} (hid : s.tMap id = some m)
      (hcall : s.calls id = none) (hpc : pc.Initial m) : Effect s (.call id c) (s.goto id pc)
  | abort {id : TransactionId} {m : VMap} (hid : s.tMap id = some m) (hcall : s.calls id = none) :
      Effect s (.call id .transactionAbort) ((s.eraseMap id).reply id .transactionAbort .ok [])
  | read {id : TransactionId} {key : Bytes} {m : VMap} (hid : s.tMap id = some m)
      (hcall : s.calls id = some (.read key)) :
      Effect s (.resume id) (s.goto id
        (.readInsert key (getGeneration (s.store (hash key))) (valuePart (s.store (hash key)))))
  | readInsert {id : TransactionId} {key v : Bytes} {g : Int32} {m : VMap}
      (hid : s.tMap id = some m) (hcall : s.calls id = some (.readInsert key g v)) :
      Effect s (.resume id)
        ((s.setMap id (m.insert (hash key) ⟨g, true, false, v⟩)).reply id (.get key) .ok v)
  | sample {id : TransactionId} {c : Call} {eid : ExtentId} {value : Bytes} {m : VMap}
      (hid : s.tMap id = some m) (hcall : s.calls id = some (.sample c eid value)) :
      Effect s (.resume id) (s.goto id (.sampleInsert c eid value (getGeneration (s.store eid))))
  | sampleInsert {id : TransactionId} {c : Call} {eid : ExtentId} {value : Bytes} {g : Int32}
      {m : VMap} (hid : s.tMap id = some m)
      (hcall : s.calls id = some (.sampleInsert c eid value g)) :
      Effect s (.resume id)
        ((s.setMap id (m.insert eid ⟨g, false, true, value⟩)).reply id c .ok [])
  | commit {id : TransactionId} {m : VMap} (hid : s.tMap id = some m)
      (hcall : s.calls id = some .commit) (hval : validates s.store m = true) :
      Effect s (.resume id) { s with
        store := installAll s.store m
        calls := Function.update s.calls id (some (.erase .ok))
        log := s.log ++ [.committed id] }
  | refuse {id : TransactionId} {m : VMap} (hid : s.tMap id = some m)
      (hcall : s.calls id = some .commit) (hval : validates s.store m = false) :
      Effect s (.resume id) (s.goto id (.erase .abort))
  | erase {id : TransactionId} {ret : Status} {m : VMap} (hid : s.tMap id = some m)
      (hcall : s.calls id = some (.erase ret)) :
      Effect s (.resume id) ((s.eraseMap id).reply id .transactionCommit ret [])

theorem startWrite_cases {s : State} {id : TransactionId} {c : Call} {m : VMap} {eid : ExtentId}
    {value : Bytes} (hid : s.tMap id = some m) (hcall : s.calls id = none)
    (hd : c.done [] = some (.put eid value)) :
    Effect s (.call id c) (s.startWrite id m c eid value) := by
  rw [State.startWrite]
  split
  · rename_i hfind
    exact .enter hid hcall ⟨hfind, hd⟩
  · rename_i e hfind
    exact .hit hid hcall (.writeHit value hfind) (by simp [Done.key, hfind]) hd

theorem call_cases {s s' : State} {id : TransactionId} {c : Call} (h : s.call id c = some s') :
    Effect s (.call id c) s' := by
  rw [State.call] at h
  split at h
  · exact absurd h (by simp)
  · rename_i hcall hid
    rw [Option.some_inj] at h
    subst h
    refine .reject hid hcall fun hret => ?_
    by_contra hne
    exact absurd hret (by simp [hne])
  · rename_i m hcall hid
    rw [Option.some_inj] at h
    subst h
    cases c with
    | get key =>
      rw [State.startKnown, State.startGet]
      split
      · rename_i hfind
        exact .enter hid hcall hfind
      · rename_i e hfind
        exact .hit hid hcall (.getHit hfind) (by simp [Done.key, hfind]) rfl
    | set key value => exact startWrite_cases hid hcall rfl
    | del key => exact startWrite_cases hid hcall rfl
    | transactionCommit => exact .enter hid hcall trivial
    | transactionAbort => exact .abort hid hcall

theorem resume_cases {s s' : State} {id : TransactionId} (h : s.resume id = some s') :
    Effect s (.resume id) s' := by
  rw [State.resume] at h
  split at h
  · rename_i hcall hid
    rw [Option.some_inj] at h
    exact h ▸ .read hid hcall
  · rename_i hcall hid
    rw [Option.some_inj] at h
    exact h ▸ .readInsert hid hcall
  · rename_i hcall hid
    rw [Option.some_inj] at h
    exact h ▸ .sample hid hcall
  · rename_i hcall hid
    rw [Option.some_inj] at h
    exact h ▸ .sampleInsert hid hcall
  · rename_i hcall hid
    rw [Option.some_inj, State.commitSection] at h
    split at h
    · rename_i hval
      exact h ▸ .commit hid hcall hval
    · rename_i hval
      exact h ▸ .refuse hid hcall (by simpa using hval)
  · rename_i hcall hid
    rw [Option.some_inj] at h
    exact h ▸ .erase hid hcall
  · exact absurd h (by simp)

/-- Every action does one of the things `Effect` lists. -/
theorem step_cases {s s' : State} {a : Action} (h : step s a = some s') : Effect s a s' := by
  cases a with
  | begin =>
    rw [step, State.begin] at h
    split at h
    · rename_i hlt
      rw [Option.some_inj] at h
      exact h ▸ .begin hlt
    · exact absurd h (by simp)
  | call id c => exact call_cases h
  | resume id => exact resume_cases h

/-! ## A transaction's map and its history -/

/-- The map says what the history says: what has been touched, and what has been written. -/
structure Matches (m : VMap) (l : Local ExtentId Bytes) : Prop where
  touched : ∀ k, l.touched k = (m.find k).map TValue.value
  wrote : ∀ k, l.wrote k = (m.find k).bind fun e => if e.written then some e.value else none

theorem Matches.empty : Matches OrdMap.empty Local.start := ⟨fun _ => rfl, fun _ => rfl⟩

theorem Matches.touch {m m' : VMap} {l : Local ExtentId Bytes} {d : Done ExtentId Bytes}
    (h : Matches m l) (ht : Touch m m' d) : Matches m' (l.after d) := by
  cases ht with
  | @getHit eid e he =>
    have hl : l.touched eid = some e.value := by rw [h.touched, he]; rfl
    refine ⟨fun k => ?_, fun k => ?_⟩ <;> rw [Local.after, hl, OrdMap.find_set]
    · by_cases hk : k = eid
      · simp [hk, hl]
      · simp [hk, h.touched]
    · by_cases hk : k = eid
      · simp [hk, h.wrote, he]
      · simp [hk, h.wrote]
  | @writeHit eid e value he =>
    refine ⟨fun k => ?_, fun k => ?_⟩ <;> rw [Local.after, OrdMap.find_set]
    · by_cases hk : k = eid
      · simp [hk]
      · simp [hk, h.touched]
    · by_cases hk : k = eid
      · simp [hk]
      · simp [hk, h.wrote]
  | @getMiss eid g v he =>
    have hl : l.touched eid = none := by rw [h.touched, he]; rfl
    refine ⟨fun k => ?_, fun k => ?_⟩ <;> rw [Local.after, hl, OrdMap.find_set]
    · by_cases hk : k = eid
      · simp [hk]
      · simp [hk, h.touched]
    · by_cases hk : k = eid
      · simp [hk, h.wrote, he]
      · simp [hk, h.wrote]
  | @writeMiss eid g value he =>
    refine ⟨fun k => ?_, fun k => ?_⟩ <;> rw [Local.after, OrdMap.find_set]
    · by_cases hk : k = eid
      · simp [hk]
      · simp [hk, h.touched]
    · by_cases hk : k = eid
      · simp [hk]
      · simp [hk, h.wrote]

theorem Matches.fits {m m' : VMap} {l : Local ExtentId Bytes} {d : Done ExtentId Bytes}
    (h : Matches m l) (ht : Touch m m' d) : l.Fits d := by
  cases ht with
  | getHit he =>
    intro w hw
    rw [h.touched, he, Option.map_some, Option.some_inj] at hw
    exact hw
  | getMiss g v he =>
    intro w hw
    rw [h.touched, he] at hw
    exact absurd hw (by simp)
  | writeHit => trivial
  | writeMiss => trivial

/-! ## The invariant -/

/-- A call in progress before its commit section is about an extent its transaction has not
touched; a write in progress writes what its call asked for. -/
def Pc.About (m : VMap) : Pc → Prop
  | .read key | .readInsert key _ _ => m.find (hash key) = none
  | .sample c eid value | .sampleInsert c eid value _ =>
    m.find eid = none ∧ c.done [] = some (.put eid value)
  | .commit | .erase _ => True

theorem Pc.Initial.about {m : VMap} {pc : Pc} (h : pc.Initial m) : pc.About m := by
  cases pc with
  | read | sample => exact h
  | commit => trivial
  | readInsert | sampleInsert | erase => exact h.elim

/-- What ties the server's tables to what the transactions have done. -/
structure Inv (s : State) : Prop where
  /-- An id that has not been handed out is unknown everywhere. -/
  unborn : ∀ id, s.nextTransactionId ≤ id →
    s.tMap id = none ∧ s.calls id = none ∧ transcript s.log id = []
  /-- The map of a live transaction holds what it has touched and written. -/
  live : ∀ id m, s.tMap id = some m → Matches m (track (history s.log id))
  /-- A transaction sees its own last read or write of an extent. -/
  coherent : ∀ id, Coherent (history s.log id)
  /-- A transaction with a call in progress is live, and the call is about something new. -/
  about : ∀ id pc, s.calls id = some pc → ∃ m, s.tMap id = some m ∧ pc.About m
  /-- A transaction that has committed is on its way out. -/
  gone : ∀ id ∈ commitOrder s.log, s.calls id = some (.erase .ok) ∨ s.tMap id = none
  /-- Committed transactions have begun. -/
  born : ∀ id ∈ commitOrder s.log, id < s.nextTransactionId
  /-- No transaction commits twice. -/
  once : (commitOrder s.log).Nodup

theorem Inv.start (n₀ : TransactionId) : Inv (State.start n₀) where
  unborn _ _ := ⟨rfl, rfl, rfl⟩
  live _ _ h := absurd h (by simp [State.start])
  coherent _ := trivial
  about _ _ h := absurd h (by simp [State.start])
  gone _ h := absurd h (by simp [State.start])
  born _ h := absurd h (by simp [State.start])
  once := List.nodup_nil

theorem Inv.lt_next {s : State} (h : Inv s) {id : TransactionId} {m : VMap}
    (hid : s.tMap id = some m) : id < s.nextTransactionId := by
  by_contra hle
  rw [(h.unborn id (Int.not_lt.1 hle)).1] at hid
  exact absurd hid (by simp)

/-- A transaction that has not committed has no place in the commit order. -/
theorem Inv.not_committed {s : State} (h : Inv s) {id : TransactionId} {m : VMap}
    (hid : s.tMap id = some m) (hcall : s.calls id ≠ some (.erase .ok)) :
    id ∉ commitOrder s.log := by
  intro hmem
  rcases h.gone id hmem with hc | hc
  · exact hcall hc
  · rw [hid] at hc
    exact absurd hc (by simp)

/-- Going on to another program point keeps the invariant. -/
theorem Inv.goto {s : State} (h : Inv s) {id : TransactionId} {m : VMap} {pc : Pc}
    (hid : s.tMap id = some m) (hpc : pc.About m) (hne : s.calls id ≠ some (.erase .ok)) :
    Inv (s.goto id pc) := by
  have hlt := h.lt_next hid
  refine ⟨fun u hu => ?_, h.live, h.coherent, fun u pc' hu => ?_, fun u hu => ?_, h.born, h.once⟩
  · have hne : u ≠ id := Int.ne_of_gt (Int.lt_of_lt_of_le hlt hu)
    simpa [hne] using h.unborn u hu
  · by_cases hui : u = id
    · subst hui
      simp only [State.goto_calls, Function.update_self, Option.some_inj] at hu
      exact ⟨m, hid, hu ▸ hpc⟩
    · simp only [State.goto_calls, Function.update_of_ne hui] at hu
      exact h.about u pc' hu
  · have hui : u ≠ id := by rintro rfl; exact h.not_committed hid hne hu
    simpa [hui] using h.gone u hu

/-- The end of a call that touches the map keeps the invariant. -/
theorem Inv.touch {s : State} (h : Inv s) {id : TransactionId} {m m' : VMap} {c : Call}
    {d : Done ExtentId Bytes} {out : Bytes} (hid : s.tMap id = some m) (ht : Touch m m' d)
    (hd : c.done out = some d) (hne : s.calls id ≠ some (.erase .ok)) :
    Inv ((s.setMap id m').reply id c .ok out) := by
  have hlt := h.lt_next hid
  have hother : ∀ u, u ≠ id →
      transcript ((s.setMap id m').reply id c .ok out).log u = transcript s.log u :=
    fun u hu => transcript_returned_ne _ _ _ _ hu
  have hself : history ((s.setMap id m').reply id c .ok out).log id = history s.log id ++ [d] :=
    history_returned_self _ _ hd
  refine ⟨fun u hu => ?_, fun u m₁ hu => ?_, fun u => ?_, fun u pc hu => ?_, fun u hu => ?_,
    fun u hu => ?_, ?_⟩
  · have hui : u ≠ id := Int.ne_of_gt (Int.lt_of_lt_of_le hlt hu)
    rw [hother u hui]
    simpa [hui] using h.unborn u hu
  · by_cases hui : u = id
    · subst hui
      rw [hself, track_snoc]
      simp only [State.reply_tMap, State.setMap_tMap, Function.update_self, Option.some_inj] at hu
      exact hu ▸ (h.live u m hid).touch ht
    · rw [history, hother u hui]
      simp only [State.reply_tMap, State.setMap_tMap, Function.update_of_ne hui] at hu
      exact h.live u m₁ hu
  · by_cases hui : u = id
    · subst hui
      rw [hself, coherent_snoc]
      exact ⟨h.coherent u, (h.live u m hid).fits ht⟩
    · rw [history, hother u hui]
      exact h.coherent u
  · have hui : u ≠ id := by rintro rfl; simp at hu
    simp only [State.reply_calls, State.setMap_calls, Function.update_of_ne hui] at hu
    simpa [hui] using h.about u pc hu
  · rw [State.reply_log, commitOrder_returned] at hu
    have hui : u ≠ id := by rintro rfl; exact h.not_committed hid hne hu
    simpa [hui] using h.gone u hu
  · rw [State.reply_log, commitOrder_returned] at hu
    exact h.born u hu
  · rw [State.reply_log, commitOrder_returned]
    exact h.once

/-- A call that ends its transaction keeps the invariant. -/
theorem Inv.leave {s : State} (h : Inv s) {id : TransactionId} {c : Call} {ret : Status}
    (hd : c.done [] = none) : Inv ((s.eraseMap id).reply id c ret []) := by
  have hother : ∀ u, transcript ((s.eraseMap id).reply id c ret []).log u = transcript s.log u :=
    fun u => transcript_returned_of_none _ _ _ _ fun _ => hd
  refine ⟨fun u hu => ?_, fun u m hu => ?_, fun u => ?_, fun u pc hu => ?_, fun u hu => ?_,
    fun u hu => ?_, ?_⟩
  · rw [hother u]
    by_cases hui : u = id
    · subst hui
      simpa using (h.unborn u hu).2.2
    · simpa [hui] using h.unborn u hu
  · rw [history, hother u]
    have hui : u ≠ id := by rintro rfl; simp at hu
    simp only [State.reply_tMap, State.eraseMap_tMap, Function.update_of_ne hui] at hu
    exact h.live u m hu
  · rw [history, hother u]
    exact h.coherent u
  · have hui : u ≠ id := by rintro rfl; simp at hu
    simp only [State.reply_calls, State.eraseMap_calls, Function.update_of_ne hui] at hu
    simpa [hui] using h.about u pc hu
  · rw [State.reply_log, commitOrder_returned] at hu
    by_cases hui : u = id
    · subst hui
      simp
    · simpa [hui] using h.gone u hu
  · rw [State.reply_log, commitOrder_returned] at hu
    exact h.born u hu
  · rw [State.reply_log, commitOrder_returned]
    exact h.once

/-- The invariant holds in every run, whatever the schedule. -/
theorem Inv.step {s s' : State} {a : Action} (h : Inv s) (hs : step s a = some s') : Inv s' := by
  cases step_cases hs with
  | begin hlt =>
    have hnew := h.unborn s.nextTransactionId (Int.le_refl _)
    refine ⟨fun u hu => ?_, fun u m hu => ?_, h.coherent, fun u pc hu => ?_, fun u hu => ?_,
      fun u hu => Int.lt_trans (h.born u hu) (Int.lt_succ _), h.once⟩
    · have hlt : s.nextTransactionId < u := hu
      have hui : u ≠ s.nextTransactionId := Int.ne_of_gt hlt
      simpa [hui] using h.unborn u (Int.le_of_lt hlt)
    · by_cases hui : u = s.nextTransactionId
      · subst hui
        simp only [Function.update_self, hnew.1, Option.getD_none, Option.some_inj] at hu
        show Matches m (track (doneOf (transcript s.log _)))
        rw [hnew.2.2, ← hu]
        exact .empty
      · simp only [Function.update_of_ne hui] at hu
        exact h.live u m hu
    · have hui : u ≠ s.nextTransactionId := by
        rintro rfl
        exact absurd hu (by simp [hnew.2.1])
      simpa [hui] using h.about u pc hu
    · have hui : u ≠ s.nextTransactionId := Int.ne_of_lt (h.born u hu)
      simpa [hui] using h.gone u hu
  | @reject id c ret hid hcall hret =>
    have hd : ret = .ok → c.done [] = none := fun hr => by rw [hret hr]; rfl
    have hother : ∀ u, transcript (s.reply id c ret []).log u = transcript s.log u :=
      fun u => transcript_returned_of_none _ _ _ _ hd
    have hcalls : (s.reply id c ret []).calls = s.calls := by
      rw [State.reply_calls, ← hcall, Function.update_eq_self]
    refine ⟨fun u hu => ?_, fun u m hu => ?_, fun u => ?_, fun u pc hu => ?_, fun u hu => ?_,
      fun u hu => ?_, ?_⟩
    · rw [hother u, hcalls]
      exact h.unborn u hu
    · rw [history, hother u]
      exact h.live u m hu
    · rw [history, hother u]
      exact h.coherent u
    · exact h.about u pc (hcalls ▸ hu)
    · rw [State.reply_log, commitOrder_returned] at hu
      exact hcalls ▸ h.gone u hu
    · rw [State.reply_log, commitOrder_returned] at hu
      exact h.born u hu
    · rw [State.reply_log, commitOrder_returned]
      exact h.once
  | hit hid hcall ht _ hd => exact h.touch hid ht hd (by simp [hcall])
  | enter hid hcall hpc => exact h.goto hid hpc.about (by simp [hcall])
  | abort hid hcall => exact h.leave rfl
  | @read id key m hid hcall =>
    obtain ⟨m', hid', habout⟩ := h.about id _ hcall
    rw [hid, Option.some_inj] at hid'
    exact h.goto hid (hid' ▸ habout) (by simp [hcall])
  | @readInsert id key v g m hid hcall =>
    obtain ⟨m', hid', habout⟩ := h.about id _ hcall
    rw [hid, Option.some_inj] at hid'
    have hnone : m.find (hash key) = none := hid' ▸ habout
    rw [OrdMap.insert_of_find_none hnone]
    exact h.touch hid (.getMiss g v hnone) rfl (by simp [hcall])
  | @sample id c eid value m hid hcall =>
    obtain ⟨m', hid', habout⟩ := h.about id _ hcall
    rw [hid, Option.some_inj] at hid'
    exact h.goto hid (hid' ▸ habout) (by simp [hcall])
  | @sampleInsert id c eid value g m hid hcall =>
    obtain ⟨m', hid', habout⟩ := h.about id _ hcall
    rw [hid, Option.some_inj] at hid'
    subst hid'
    rw [OrdMap.insert_of_find_none habout.1]
    exact h.touch hid (.writeMiss g value habout.1) habout.2 (by simp [hcall])
  | @commit id m hid hcall hval =>
    have hlt := h.lt_next hid
    refine ⟨fun u hu => ?_, fun u m' hu => ?_, fun u => ?_, fun u pc hu => ?_, fun u hu => ?_,
      fun u hu => ?_, ?_⟩
    · have hui : u ≠ id := Int.ne_of_gt (Int.lt_of_lt_of_le hlt hu)
      simpa [hui] using h.unborn u hu
    · simpa [history] using h.live u m' hu
    · simpa [history] using h.coherent u
    · by_cases hui : u = id
      · subst hui
        simp only [Function.update_self, Option.some_inj] at hu
        exact ⟨m, hid, hu ▸ trivial⟩
      · simp only [Function.update_of_ne hui] at hu
        exact h.about u pc hu
    · by_cases hui : u = id
      · subst hui
        simp
      · have hu' : u ∈ commitOrder s.log := by simpa [hui] using hu
        simpa [hui] using h.gone u hu'
    · rcases List.mem_append.1 (commitOrder_committed s.log id ▸ hu) with hu | hu
      · exact h.born u hu
      · rw [List.mem_singleton.1 hu]
        exact hlt
    · rw [commitOrder_committed]
      refine List.nodup_append.2 ⟨h.once, List.pairwise_singleton _ id, fun u hu v hv => ?_⟩
      rw [List.mem_singleton.1 hv]
      rintro rfl
      exact h.not_committed hid (by simp [hcall]) hu
  | refuse hid hcall hval => exact h.goto hid trivial (by simp [hcall])
  | erase hid hcall => exact h.leave rfl

theorem Inv.of_run {ok : State → Action → Prop} {n₀ : TransactionId} {as : List Action} {s : State}
    (h : Run Occ.step ok (State.start n₀) as s) : Inv s :=
  h.invariant (Inv.start n₀) fun _ _ _ hi _ hs => hi.step hs

end Occ
end Ydb
end CseLab
