import CseLab.Ydb.Occ.Serial
import Mathlib.Data.Int.Interval

/-!
# Re-running the committed transactions on the server itself

`runAlone` gives the server one transaction and nothing else: it begins, its calls are served one
after another, each to its end, and it commits.  `runSerially` does that for a list of transactions.
A serial run is a run like any other, so what a call does in it is worked out from the sections
(`serve_op`, `serve_commit`); with every stored generation equal to the one the transaction
remembers its validation cannot fail.

`serialisable_of_grow` puts the two together: when every commit makes its generations grow,
re-running the committed transactions alone in commit order gives every call the same result and
every extent the same value.  `not_serialisable` is a schedule of three transactions where a
deletion takes a generation back to 0 and a stale read commits.
-/

set_option autoImplicit false

namespace CseLab
namespace Ydb
namespace Occ

open Serial

/-! ## One transaction alone -/

/-- Go on with the call transaction `id` has in progress until it has returned; a call has at most
two sections left after its first. -/
def finish : ℕ → State → TransactionId → Option State
  | 0, s, id => if (s.calls id).isSome then none else some s
  | n + 1, s, id =>
    if (s.calls id).isSome then (s.resume id).bind fun s' => finish n s' id else some s

/-- Serve a call from its first section to its last. -/
def serve (id : TransactionId) (s : State) (c : Call) : Option State :=
  (s.call id c).bind fun s' => finish 2 s' id

/-- Begin a transaction, serve its calls one after another, and commit it. -/
def runAlone (s : State) (cs : List Call) : Option State :=
  s.begin.bind fun s' => (cs ++ [Call.transactionCommit]).foldlM (serve s.nextTransactionId) s'

/-- Run transactions alone, one after another. -/
def runSerially (s : State) (txns : List (List Call)) : Option State := txns.foldlM runAlone s

theorem finish_done {n : ℕ} {s : State} {id : TransactionId} (h : s.calls id = none) :
    finish n s id = some s := by
  cases n <;> simp [finish, h]

theorem finish_step {n : ℕ} {s : State} {id : TransactionId} (s' : State)
    (h : (s.calls id).isSome) (hs : s.resume id = some s') :
    finish (n + 1) s id = finish n s' id := by
  simp [finish, h, hs]

/-- Every generation the map remembers is the stored one. -/
def Fresh (store : IdealStore) (m : VMap) : Prop :=
  ∀ k e, m.find k = some e → e.generation = getGeneration (store k)

theorem Fresh.set {store : IdealStore} {m : VMap} (h : Fresh store m) {eid : ExtentId} {e : TValue}
    (he : e.generation = getGeneration (store eid)) : Fresh store (m.set eid e) := by
  intro k e' hk
  rw [OrdMap.find_set] at hk
  by_cases hke : k = eid
  · rw [if_pos hke, Option.some_inj] at hk
    rw [← hk, he, hke]
  · rw [if_neg hke] at hk
    exact h k e' hk

/-- What a call that touches the map comes to when it is served alone. -/
def Served (s : State) (id : TransactionId) (m : VMap) (c : Call) : Prop :=
  ∃ m' d out, Touch m m' d ∧ c.done out = some d ∧ Fresh s.store m' ∧
    (∀ k v, d = .get k v → m.find k = none → v = valuePart (s.store k)) ∧
    serve id s c = some ((s.setMap id m').reply id c .ok out)

theorem serve_get {s : State} {id : TransactionId} {m : VMap} {key : Bytes}
    (hid : s.tMap id = some m) (hcall : s.calls id = none) (hf : Fresh s.store m) :
    Served s id m (.get key) := by
  have hstart : s.call id (.get key) = some (s.startGet id m key) := by
    simp [State.call, hcall, hid, State.startKnown]
  cases hfind : m.find (hash key) with
  | some e =>
    refine ⟨_, _, _, .getHit hfind, rfl, hf.set (hf _ e hfind), ?_, ?_⟩
    · intro k v hd hnone
      injection hd with hk
      exact absurd (hk ▸ hfind) (by simp [hnone])
    · rw [serve, hstart, State.startGet, hfind]
      exact finish_done (by simp)
  | none =>
    refine ⟨_, _, valuePart (s.store (hash key)),
      .getMiss (getGeneration (s.store (hash key))) _ hfind, rfl, hf.set rfl, ?_, ?_⟩
    · rintro k v hd -
      injection hd with hk hv
      rw [← hk, ← hv]
    · let g := getGeneration (s.store (hash key))
      let v := valuePart (s.store (hash key))
      let s₁ := s.goto id (.read key)
      let s₂ := s₁.goto id (.readInsert key g v)
      let s₃ := (s₂.setMap id (m.insert (hash key) ⟨g, true, false, v⟩)).reply id (.get key) .ok v
      have h₂ : s₁.resume id = some s₂ := by
        simp [s₁, s₂, g, v, State.resume, hid, decomposeValue]
      have h₃ : s₂.resume id = some s₃ := by simp [s₁, s₂, s₃, State.resume, hid]
      rw [serve, hstart, State.startGet, hfind, Option.bind_some, finish_step s₂ (by simp [s₁]) h₂,
        finish_step s₃ (by simp [s₂]) h₃, finish_done (Function.update_self ..)]
      simp [s₁, s₂, s₃, g, v, State.reply, State.goto, State.setMap,
        OrdMap.insert_of_find_none hfind]

theorem serve_write {s : State} {id : TransactionId} {m : VMap} {c : Call} {eid : ExtentId}
    {value : Bytes} (hstart : s.call id c = some (s.startWrite id m c eid value))
    (hd : c.done [] = some (.put eid value)) (hid : s.tMap id = some m) (hf : Fresh s.store m) :
    Served s id m c := by
  cases hfind : m.find eid with
  | some e =>
    refine ⟨_, _, _, .writeHit value hfind, hd, hf.set (hf _ e hfind), by simp, ?_⟩
    rw [serve, hstart, State.startWrite, hfind]
    exact finish_done (by simp)
  | none =>
    refine ⟨_, _, [], .writeMiss (getGeneration (s.store eid)) value hfind, hd, hf.set rfl, by simp,
      ?_⟩
    let g := getGeneration (s.store eid)
    let s₁ := s.goto id (.sample c eid value)
    let s₂ := s₁.goto id (.sampleInsert c eid value g)
    let s₃ := (s₂.setMap id (m.insert eid ⟨g, false, true, value⟩)).reply id c .ok []
    have h₂ : s₁.resume id = some s₂ := by simp [s₁, s₂, g, State.resume, hid]
    have h₃ : s₂.resume id = some s₃ := by simp [s₁, s₂, s₃, State.resume, hid]
    rw [serve, hstart, State.startWrite, hfind, Option.bind_some, finish_step s₂ (by simp [s₁]) h₂,
      finish_step s₃ (by simp [s₂]) h₃, finish_done (Function.update_self ..)]
    simp [s₁, s₂, s₃, g, State.reply, State.goto, State.setMap, OrdMap.insert_of_find_none hfind]

/-- **A read or write served alone** returns `ok`; a read of an untouched extent returns the stored
value. -/
theorem serve_op {s : State} {id : TransactionId} {m : VMap} {c : Call} {out : Bytes}
    {d : Done ExtentId Bytes} (hid : s.tMap id = some m) (hcall : s.calls id = none)
    (hop : c.done out = some d) (hf : Fresh s.store m) : Served s id m c := by
  cases c with
  | get key => exact serve_get hid hcall hf
  | set key value =>
    exact serve_write (by simp [State.call, hcall, hid, State.startKnown]) rfl hid hf
  | del key => exact serve_write (by simp [State.call, hcall, hid, State.startKnown]) rfl hid hf
  | transactionCommit | transactionAbort => exact absurd hop (by simp [Call.done])

/-- The state a commit of `id`, served alone, leaves. -/
def State.committed (s : State) (id : TransactionId) (m : VMap) : State :=
  { s with
    tMap := Function.update s.tMap id none
    store := installAll s.store m
    calls := Function.update s.calls id none
    log := s.log ++ [.committed id] ++ [.returned id .transactionCommit .ok []] }

/-- **A commit served alone** passes validation. -/
theorem serve_commit {s : State} {id : TransactionId} {m : VMap} (hid : s.tMap id = some m)
    (hcall : s.calls id = none) (hf : Fresh s.store m) :
    serve id s .transactionCommit = some (s.committed id m) := by
  have hval : validates s.store m = true := by
    rw [validates_iff]
    intro k e hk _ hlt
    rw [hf k e hk] at hlt
    exact Int32.lt_irrefl hlt
  have hstart : s.call id .transactionCommit = some (s.goto id .commit) := by
    simp [State.call, hcall, hid, State.startKnown]
  let s₁ := (s.goto id .commit).commitSection id m
  let s₂ := (s₁.eraseMap id).reply id .transactionCommit .ok []
  have h₁ : (s.goto id .commit).resume id = some s₁ := by simp [s₁, State.resume, hid]
  have hsec : s₁ = { s with
      store := installAll s.store m
      calls := Function.update s.calls id (some (.erase .ok))
      log := s.log ++ [.committed id] } := by
    simp [s₁, State.commitSection, hval, State.goto]
  have h₂ : s₁.resume id = some s₂ := by simp [s₂, hsec, State.resume, hid]
  rw [serve, hstart, Option.bind_some, finish_step s₁ (by simp) h₁,
    finish_step s₂ (by simp [hsec]) h₂, finish_done (by simp [s₂])]
  simp [s₂, hsec, State.reply, State.eraseMap, State.committed]

/-! ## The calls of one transaction, served one after another -/

/-- Transaction `id` is live, has no call in progress, and what its map and its calls so far say is
what the store says. -/
structure Alone (s : State) (id : TransactionId) (m : VMap) (l : Local ExtentId Bytes) : Prop where
  known : s.tMap id = some m
  idle : s.calls id = none
  told : Matches m l
  current : l.Of fun k => valuePart (s.store k)
  tidy : l.Tidy
  fresh : Fresh s.store m

/-- A call whose recorded result is the one a serial run gives returns that result when it is
served alone. -/
theorem Alone.serve {s : State} {id : TransactionId} {m : VMap} {l : Local ExtentId Bytes}
    (h : Alone s id m l) {c : Call} {out : Bytes} {d : Done ExtentId Bytes}
    (hd : c.done out = some d)
    (hget : ∀ k v, d = .get k v → install (fun k => valuePart (s.store k)) l.wrote k = v) :
    ∃ m' out', Alone ((s.setMap id m').reply id c .ok out') id m' (l.after d) ∧
      c.done out' = some d ∧
      Occ.serve id s c = some ((s.setMap id m').reply id c .ok out') := by
  obtain ⟨m', d', out', ht, hd', hf', hmiss, hserve⟩ := serve_op h.known h.idle hd h.fresh
  have hnew : ∀ k v, d' = .get k v → l.touched k = none → valuePart (s.store k) = v := by
    intro k v hk hnone
    rw [h.told.touched, Option.map_eq_none_iff] at hnone
    exact (hmiss k v hk hnone).symm
  have hget' : ∀ k v, d' = .get k v → install (fun k => valuePart (s.store k)) l.wrote k = v := by
    rintro k v rfl
    cases hk : l.touched k with
    | none => rw [install, (h.tidy k hk).1, Option.getD_none, hnew k v rfl hk]
    | some w => rw [h.told.fits ht w hk]; exact h.current k w hk
  have hsame : d' = d := by
    cases c with
    | get key =>
      injection hd with hd
      injection hd' with hd'
      subst hd hd'
      rw [← hget _ _ rfl, ← hget' _ _ rfl]
    | set key value =>
      exact Option.some_inj.1 (hd'.symm.trans hd)
    | del key => exact Option.some_inj.1 (hd'.symm.trans hd)
    | transactionCommit | transactionAbort => exact absurd hd (by simp [Call.done])
  subst hsame
  exact ⟨m', out', ⟨by simp, by simp, h.told.touch ht, h.current.after h.tidy hnew,
    h.tidy.after d', hf'⟩, hd', hserve⟩

/-- What serving calls of transaction `id` leaves as it was. -/
structure Quiet (s s' : State) (id : TransactionId) : Prop where
  next : s'.nextTransactionId = s.nextTransactionId
  store : s'.store = s.store
  order : commitOrder s'.log = commitOrder s.log
  others : ∀ u, u ≠ id → transcript s'.log u = transcript s.log u

/-- **The reads and writes of a transaction, served one after another**, return what was recorded,
when that is what a serial run returns. -/
theorem Alone.serveAll {cs : List (Call × Bytes)} {s : State} {id : TransactionId} {m : VMap}
    {l : Local ExtentId Bytes} (h : Alone s id m l) (hcs : ∀ p ∈ cs, (p.1.done p.2).isSome)
    (hr : rerun (fun k => valuePart (s.store k)) l.wrote (doneOf cs) = doneOf cs) :
    ∃ s' m', (cs.map Prod.fst).foldlM (Occ.serve id) s = some s' ∧
      Alone s' id m' ((doneOf cs).foldl Local.after l) ∧ Quiet s s' id ∧
      history s'.log id = history s.log id ++ doneOf cs := by
  induction cs generalizing s m l with
  | nil => exact ⟨s, m, rfl, h, ⟨rfl, rfl, rfl, fun _ _ => rfl⟩, (List.append_nil _).symm⟩
  | cons p cs ih =>
    obtain ⟨c, out⟩ := p
    obtain ⟨d, hd⟩ := Option.isSome_iff_exists.1 (hcs (c, out) List.mem_cons_self)
    have hcons : doneOf ((c, out) :: cs) = d :: doneOf cs := List.filterMap_cons_some hd
    rw [hcons, rerun_cons_eq] at hr
    obtain ⟨m₁, out', h₁, hd', hserve⟩ := h.serve hd hr.1
    obtain ⟨s', m', hfold, hs', hq, hhist⟩ :=
      ih h₁ (fun p hp => hcs p (List.mem_cons_of_mem _ hp)) hr.2
    refine ⟨s', m', ?_, by rwa [hcons], ⟨hq.next, hq.store, ?_, fun u hu => ?_⟩, ?_⟩
    · rw [List.map_cons, List.foldlM_cons, hserve]
      exact hfold
    · rw [hq.order, State.reply_log, commitOrder_returned]
      rfl
    · rw [hq.others u hu, State.reply_log, transcript_returned_ne _ _ _ _ hu]
      rfl
    · rw [hhist, State.reply_log, history_returned_self _ _ hd', hcons, List.append_assoc]
      rfl

/-! ## Invariants of serial runs

A serial run takes the same sections as any other, so it keeps the same invariant. -/

theorem finish_inv {n : ℕ} {s s' : State} {id : TransactionId} (hi : Inv s)
    (h : finish n s id = some s') : Inv s' := by
  induction n generalizing s with
  | zero =>
    rw [finish] at h
    split at h
    · exact absurd h (by simp)
    · rw [Option.some_inj] at h
      exact h ▸ hi
  | succ n ih =>
    rw [finish] at h
    split at h
    · obtain ⟨s₁, h₁, h₂⟩ := Option.bind_eq_some_iff.1 h
      exact ih (hi.step (a := .resume id) h₁) h₂
    · rw [Option.some_inj] at h
      exact h ▸ hi

theorem serve_inv {s s' : State} {id : TransactionId} {c : Call} (hi : Inv s)
    (h : serve id s c = some s') : Inv s' := by
  obtain ⟨s₁, h₁, h₂⟩ := Option.bind_eq_some_iff.1 h
  exact finish_inv (hi.step (a := .call id c) h₁) h₂

theorem foldlM_serve_inv {cs : List Call} {s s' : State} {id : TransactionId} (hi : Inv s)
    (h : cs.foldlM (serve id) s = some s') : Inv s' := by
  induction cs generalizing s with
  | nil =>
    rw [List.foldlM_nil] at h
    exact Option.some_inj.1 h ▸ hi
  | cons c cs ih =>
    rw [List.foldlM_cons] at h
    obtain ⟨s₁, h₁, h₂⟩ := Option.bind_eq_some_iff.1 h
    exact ih (serve_inv hi h₁) h₂

theorem runAlone_inv {s s' : State} {cs : List Call} (hi : Inv s) (h : runAlone s cs = some s') :
    Inv s' := by
  obtain ⟨s₁, h₁, h₂⟩ := Option.bind_eq_some_iff.1 h
  exact foldlM_serve_inv (hi.step (a := .begin) h₁) h₂

/-! ## One transaction after another -/

/-- **A transaction that can be run alone on the store commits when it is**, returns what was
recorded, and installs what it wrote. -/
theorem runAlone_ok {s : State} {cs : List (Call × Bytes)} (hi : Inv s)
    (hlt : s.nextTransactionId < intMax) (hcs : ∀ p ∈ cs, (p.1.done p.2).isSome)
    (hr : rerun (fun k => valuePart (s.store k)) (fun _ => none) (doneOf cs) = doneOf cs) :
    ∃ s', runAlone s (cs.map Prod.fst) = some s' ∧
      s'.nextTransactionId = s.nextTransactionId + 1 ∧
      committedHistories s'.log = committedHistories s.log ++ [doneOf cs] ∧
      (fun k => valuePart (s'.store k)) =
        install (fun k => valuePart (s.store k)) (track (doneOf cs)).wrote := by
  obtain ⟨hmap, hcall, hlog⟩ := hi.unborn s.nextTransactionId (Int.le_refl _)
  let id := s.nextTransactionId
  let s₁ := { s with
    nextTransactionId := id + 1
    tMap := Function.update s.tMap id (some OrdMap.empty) }
  have hbegin : s.begin = some s₁ := by simp [State.begin, hlt, hmap, s₁, id]
  have h₁ : Alone s₁ id OrdMap.empty Local.start :=
    ⟨by simp [s₁], hcall, .empty, fun _ _ h => absurd h (by simp [Local.start]), .start,
      fun _ _ h => absurd h (by simp)⟩
  obtain ⟨s₂, m, hfold, h₂, hq, hhist⟩ := h₁.serveAll hcs hr
  have hcommit := serve_commit h₂.known h₂.idle h₂.fresh
  have hnew : history s₂.log id = doneOf cs := by
    rw [hhist, history, show transcript s₁.log id = [] from hlog]
    rfl
  have hold : ∀ u ∈ commitOrder s.log, u ≠ id := fun u hu => Int.ne_of_lt (hi.born u hu)
  refine ⟨s₂.committed id m, ?_, hq.next, ?_, ?_⟩
  · rw [runAlone, hbegin, Option.bind_some, List.foldlM_append, hfold]
    exact (bind_pure _).trans hcommit
  · rw [State.committed, committedHistories_returned (.inr fun _ => rfl),
      committedHistories_committed, hnew]
    refine congrArg (· ++ [doneOf cs]) ?_
    rw [committedHistories, hq.order, committedHistories]
    refine List.map_congr_left fun u hu => ?_
    rw [history, hq.others u (hold u hu)]
    rfl
  · funext k
    rw [show track (doneOf cs) = (doneOf cs).foldl Local.after Local.start from rfl]
    show valuePart (installAll s₂.store m k) = _
    rw [hq.store]
    exact valuePart_installAll h₂.told k

/-- Transactions that have run as if one after another do the same when they are run one after
another. -/
theorem runSerially_ok {ts : List (List (Call × Bytes))} {s : State} (hi : Inv s)
    (hlt : ∀ n < ts.length, s.nextTransactionId + n < intMax)
    (hts : ∀ cs ∈ ts, ∀ p ∈ cs, (p.1.done p.2).isSome)
    (hok : SerialOK (fun k => valuePart (s.store k)) (ts.map doneOf)) :
    ∃ s', runSerially s (ts.map (List.map Prod.fst)) = some s' ∧
      committedHistories s'.log = committedHistories s.log ++ ts.map doneOf ∧
      (fun k => valuePart (s'.store k)) =
        serialStore (fun k => valuePart (s.store k)) (ts.map doneOf) := by
  induction ts generalizing s with
  | nil => exact ⟨s, rfl, (List.append_nil _).symm, rfl⟩
  | cons cs ts ih =>
    have hlt₀ : s.nextTransactionId < intMax := by simpa using hlt 0 (Nat.zero_lt_succ _)
    obtain ⟨s₁, hrun, hnext, hhist, hval⟩ :=
      runAlone_ok hi hlt₀ (hts cs List.mem_cons_self) hok.1
    have hlt₁ : ∀ n < ts.length, s₁.nextTransactionId + n < intMax := by
      intro n hn
      have h := hlt (n + 1) (Nat.succ_lt_succ hn)
      rw [hnext]
      push_cast at h
      rwa [Int.add_assoc, Int.add_comm 1]
    obtain ⟨s', hrest, hhist', hval'⟩ := ih (runAlone_inv hi hrun) hlt₁
      (fun cs hcs => hts cs (List.mem_cons_of_mem _ hcs)) (hval ▸ hok.2)
    refine ⟨s', ?_, ?_, ?_⟩
    · rw [runSerially, List.map_cons, List.foldlM_cons, hrun]
      exact hrest
    · rw [hhist', hhist, List.append_assoc]
      rfl
    · rw [hval', hval]
      rfl

/-! ## Ids do not run out in a serial run -/

/-- Ids in use are at least `n₀`, and none of them is the largest `int`. -/
structure Counted (n₀ : TransactionId) (s : State) : Prop where
  low : n₀ ≤ s.nextTransactionId
  high : n₀ < s.nextTransactionId → s.nextTransactionId ≤ intMax
  live : ∀ id m, s.tMap id = some m → n₀ ≤ id
  committed : ∀ id ∈ commitOrder s.log, n₀ ≤ id

theorem Counted.start (n₀ : TransactionId) : Counted n₀ (State.start n₀) where
  low := Int.le_refl _
  high h := absurd h (Int.lt_irrefl _)
  live _ _ h := absurd h (by simp [State.start])
  committed _ h := absurd h (by simp [State.start])

theorem Counted.step {n₀ : TransactionId} {s s' : State} {a : Action} (h : Counted n₀ s)
    (hs : step s a = some s') : Counted n₀ s' := by
  cases step_cases hs with
  | begin hlt =>
    refine ⟨Int.le_trans h.low (Int.le_of_lt (Int.lt_succ _)), fun _ => hlt, fun u m hu => ?_,
      h.committed⟩
    by_cases hui : u = s.nextTransactionId
    · exact hui ▸ h.low
    · simp only [Function.update_of_ne hui] at hu
      exact h.live u m hu
  | reject => exact ⟨h.low, h.high, h.live, fun u hu => h.committed u (by simpa using hu)⟩
  | enter | read | sample | refuse => exact ⟨h.low, h.high, h.live, h.committed⟩
  | @hit id _ m _ _ _ hid | @readInsert id _ _ _ m hid | @sampleInsert id _ _ _ _ m hid =>
    refine ⟨h.low, h.high, fun u m' hu => ?_, fun u hu => h.committed u (by simpa using hu)⟩
    by_cases hui : u = id
    · exact h.live u m (hui ▸ hid)
    · simp only [State.reply_tMap, State.setMap_tMap, Function.update_of_ne hui] at hu
      exact h.live u m' hu
  | @abort id | @erase id =>
    refine ⟨h.low, h.high, fun u m' hu => ?_, fun u hu => h.committed u (by simpa using hu)⟩
    have hui : u ≠ id := by rintro rfl; simp at hu
    simp only [State.reply_tMap, State.eraseMap_tMap, Function.update_of_ne hui] at hu
    exact h.live u m' hu
  | @commit id m hid =>
    refine ⟨h.low, h.high, h.live, fun u hu => ?_⟩
    rcases List.mem_append.1 (commitOrder_committed s.log id ▸ hu) with hu | hu
    · exact h.committed u hu
    · exact List.mem_singleton.1 hu ▸ h.live id m hid

theorem Counted.of_run {ok : State → Action → Prop} {n₀ : TransactionId} {as : List Action}
    {s : State} (h : Run Occ.step ok (State.start n₀) as s) : Counted n₀ s :=
  h.invariant (Counted.start n₀) fun _ _ _ hc _ hs => hc.step hs

/-- A new server has ids for as many transactions as have committed on the old one. -/
theorem Counted.room {n₀ : TransactionId} {s : State} (h : Counted n₀ s) (hi : Inv s) {n : ℕ}
    (hn : n < (commitOrder s.log).length) : n₀ + n < intMax := by
  have hsub : (commitOrder s.log).toFinset ⊆ Finset.Ico n₀ s.nextTransactionId := by
    intro id hid
    rw [List.mem_toFinset] at hid
    exact Finset.mem_Ico.2 ⟨h.committed id hid, hi.born id hid⟩
  have hcard := Finset.card_le_card hsub
  rw [List.toFinset_card_of_nodup hi.once, Int.card_Ico] at hcard
  have hlow := h.low
  have hhigh := h.high
  simp only [TransactionId] at *
  omega

/-! ## Serialisability -/

/-- **Serialisability.**  Let every commit of a run write its extents under a generation above the
one under which any transaction still on its way has read them.  Then the committed transactions can
be run alone, one after another in commit order, on a new server: every call returns what it
returned before and every extent has the same value in the end. -/
theorem serialisable_of_grow {n₀ : TransactionId} {as : List Action} {s : State}
    (h : Run Occ.step GenerationsGrow (State.start n₀) as s) :
    ∃ s', runSerially (State.start n₀) (committedCalls s.log) = some s' ∧
      committedHistories s'.log = committedHistories s.log ∧
      ∀ k, valuePart (s'.store k) = valuePart (s.store k) := by
  have hser := Serialised.of_run h
  have hcount := Counted.of_run h
  let ts := (commitOrder s.log).map (transcript s.log)
  have hts : ts.map doneOf = committedHistories s.log := by
    rw [List.map_map]
    rfl
  have hcalls : ts.map (List.map Prod.fst) = committedCalls s.log := by
    rw [List.map_map]
    rfl
  have hlt : ∀ n < ts.length, (State.start n₀).nextTransactionId + n < intMax := by
    intro n hn
    rw [List.length_map] at hn
    exact hcount.room (Inv.of_run h) hn
  have hdone : ∀ cs ∈ ts, ∀ p ∈ cs, (p.1.done p.2).isSome := by
    intro cs hcs p hp
    obtain ⟨id, -, rfl⟩ := List.mem_map.1 hcs
    exact transcript_done hp
  obtain ⟨s', hrun, hhist, hval⟩ := runSerially_ok (Inv.start n₀) hlt hdone (hts ▸ hser.ok)
  refine ⟨s', hcalls ▸ hrun, ?_, fun k => ?_⟩
  · rw [hhist, hts]
    rfl
  · rw [congrFun hval k, hts]
    exact (hser.value k).symm

theorem GenerationsGrow.of_ne {s : State} {id : TransactionId}
    (h : s.calls id ≠ some .commit) : GenerationsGrow s (.resume id) := by
  rintro _ m ⟨⟩ hcall
  exact absurd hcall h

theorem GenerationsGrow.call (s : State) (id : TransactionId) (c : Call) :
    GenerationsGrow s (.call id c) :=
  fun _ _ h => absurd h (by simp)

theorem GenerationsGrow.begin (s : State) : GenerationsGrow s .begin :=
  fun _ _ h => absurd h (by simp)

/-- Transaction 0 reads an extent, transaction 1 writes it and is about to commit. -/
def readThenWrite : List Action :=
  [.begin, .begin, .call 0 (.get [107]), .resume 0, .resume 0,
    .call 1 (.set [107] [118]), .resume 1, .resume 1, .call 1 .transactionCommit]

/-- Before the commit of `readThenWrite` no generation is at stake. -/
theorem readThenWrite_run : ∃ s, Run Occ.step GenerationsGrow (State.start 0) readThenWrite s ∧
    execute step (State.start 0) readThenWrite = some s := by
  refine ⟨_, ?_, rfl⟩
  refine Run.snoc (Run.snoc (Run.snoc (Run.snoc (Run.snoc (Run.snoc (Run.snoc (Run.snoc (Run.snoc
    .nil (.begin _) rfl) (.begin _) rfl) (.call _ _ _) rfl) (.of_ne ?_) rfl) (.of_ne ?_) rfl)
    (.call _ _ _) rfl) (.of_ne ?_) rfl) (.of_ne ?_) rfl) (.call _ _ _) rfl
  all_goals decide

/-- The commit takes the extent from generation 0, under which it was read, to generation 1. -/
theorem serialisable_readThenWrite : ∃ s,
    Run Occ.step GenerationsGrow (State.start 0) (readThenWrite ++ [.resume 1]) s ∧
      ∃ s', runSerially (State.start 0) (committedCalls s.log) = some s' ∧
        committedHistories s'.log = committedHistories s.log ∧
        ∀ k, valuePart (s'.store k) = valuePart (s.store k) := by
  obtain ⟨s, hrun, hs⟩ := readThenWrite_run
  have hbefore : (s.tMap 0).map OrdMap.entries = some [(107, ⟨0, true, false, []⟩)] ∧
      (s.tMap 1).map OrdMap.entries = some [(107, ⟨0, false, true, [118]⟩)] ∧
      s.nextTransactionId = 2 ∧ s.calls 0 = none ∧ (s.resume 1).isSome := by
    have h : (execute step (State.start 0) readThenWrite).map (fun s => decide (
        (s.tMap 0).map OrdMap.entries = some [(107, ⟨0, true, false, []⟩)] ∧
        (s.tMap 1).map OrdMap.entries = some [(107, ⟨0, false, true, [118]⟩)] ∧
        s.nextTransactionId = 2 ∧ s.calls 0 = none ∧ (s.resume 1).isSome)) = some true := by
      decide +kernel
    rw [hs, Option.map_some, Option.some_inj, decide_eq_true_iff] at h
    exact h
  obtain ⟨h0, h1, hnext, hidle, hstep⟩ := hbefore
  have hi := Inv.of_run hrun
  have hcount := Counted.of_run hrun
  have hgrow : GenerationsGrow s (.resume 1) := by
    rintro _ m ⟨⟩ - hm - k e hk - u g hu hread
    rw [hm, Option.map_some, Option.some_inj] at h1
    rw [← OrdMap.mem_entries, h1, List.mem_singleton, Prod.mk.injEq] at hk
    have hlive : ∃ m, s.tMap u = some m := by
      rcases hread with ⟨m, _, hm, -⟩ | ⟨_, _, hc, -⟩
      · exact ⟨m, hm⟩
      · obtain ⟨m, hm, -⟩ := hi.about u _ hc
        exact ⟨m, hm⟩
    obtain ⟨m', hm'⟩ := hlive
    have hlt := hi.lt_next hm'
    have hle := hcount.live u m' hm'
    have hu0 : u = 0 := by
      simp only [TransactionId] at *
      omega
    subst hu0
    rw [hm', Option.map_some, Option.some_inj] at h0
    rcases hread with ⟨m₁, e₁, hm₁, -, hf, -, rfl⟩ | ⟨_, _, hc, -⟩
    · rw [hm', Option.some_inj] at hm₁
      rw [← OrdMap.mem_entries, ← hm₁, h0, List.mem_singleton, Prod.mk.injEq] at hf
      rw [hk.2, hf.2]
      decide
    · exact absurd hc (by simp [hidle])
  obtain ⟨s', hs'⟩ := Option.isSome_iff_exists.1 hstep
  exact ⟨s', .snoc hrun hgrow hs', serialisable_of_grow (.snoc hrun hgrow hs')⟩

/-- A transaction deletes the extent another one has read; the extent is back at generation 0, and
the reader's commit finds nothing newer. -/
def staleRead : List Action :=
  [.begin, .call 0 (.set [107] [118]), .resume 0, .resume 0, .call 0 .transactionCommit, .resume 0,
    .resume 0,
    .begin, .call 1 (.get [107]), .resume 1, .resume 1,
    .begin, .call 2 (.del [107]), .resume 2, .resume 2, .call 2 .transactionCommit, .resume 2,
    .resume 2,
    .call 1 (.set [106] [118]), .resume 1, .resume 1, .call 1 .transactionCommit, .resume 1,
    .resume 1]

/-- **Not every run is serialisable.**  The reader of `staleRead` saw the value, but run after the
deletion it reads the empty string. -/
theorem not_serialisable : ¬ ∀ as s, Run Occ.step anyStep (State.start 0) as s →
    ∃ s', runSerially (State.start 0) (committedCalls s.log) = some s' ∧
      committedHistories s'.log = committedHistories s.log ∧
      ∀ k, valuePart (s'.store k) = valuePart (s.store k) := by
  intro h
  have hsome : (execute step (State.start 0) staleRead).isSome := by decide +kernel
  obtain ⟨s, hs⟩ := Option.isSome_iff_exists.1 hsome
  obtain ⟨s', hrun, hhist, -⟩ := h staleRead s (.of_execute hs)
  have hdiff : (execute step (State.start 0) staleRead).bind (fun s =>
      (runSerially (State.start 0) (committedCalls s.log)).map fun s' =>
        decide (committedHistories s'.log = committedHistories s.log)) = some false := by
    decide +kernel
  rw [hs, Option.bind_some, hrun, Option.map_some, hhist] at hdiff
  exact absurd hdiff (by simp)

end Occ
end Ydb
end CseLab
