import CseLab.Ydb.TwoPL.Info

/-!
# The lock of `lockInfos`, and deadlocks

What the lock-table protocol gives the server, in runs in which followers do not overtake:

* `infosLock_used`: `lockInfosLockId` is given back only on behalf of whom it is held, and while it
  is held there is somebody who gives it back.  The server never dies.
* `deadlocks_detected`: no circle of waits comes about, and a requester is aborted only if the
  holder of the lock waits for it.

A follower that does overtake spoils both.  In `releasedFree` it gives `lockInfosLockId` back
although nobody has left it to it, and in `undetected` three transactions wait for one another
because a new owner is recorded where another transaction has the lock.
-/

set_option autoImplicit false

namespace CseLab
namespace Ydb
namespace TwoPL

open Relation

/-! ## The lock of `tMap` -/

/-- Points at which `tMapLockId` is held. -/
def Pc.HoldsMap : Pc → Prop
  | .findRel _ | .insRel _ _ | .eraseRel _ => True
  | _ => False

/-- The server is alive, `tMapLockId` is held on behalf of the transaction that is between its
acquire and its release, and only `lockInfosLockId` is ever left to followers. -/
structure MapLock (s : State) : Prop where
  alive : s.dead = false
  thread : ∀ id, s.locks tMapLockId = some (.thread id) ↔ ∃ pc ∈ s.calls id, pc.HoldsMap
  heir : ∀ lid l, s.locks lid = some (.heir l) → lid = lockInfosLockId

namespace State

variable {s s' s₁ : State} {id : TransactionId} {m : TContent} {pc pc' : Pc} {op : Op}

/-- The call of `id` comes to a point without `tMapLockId`, and neither that lock nor another call
is touched. -/
structure Aside (s s' : State) (id : TransactionId) : Prop where
  alive : s'.dead = s.dead
  map : s'.locks tMapLockId = s.locks tMapLockId
  heir : ∀ lid l, s'.locks lid = some (.heir l) → s.locks lid = some (.heir l) ∨
    lid = lockInfosLockId
  others : ∀ u, u ≠ id → s'.calls u = s.calls u
  out : ∀ pc ∈ s'.calls id, ¬ pc.HoldsMap

theorem aside_goto (s : State) (id : TransactionId) (h : ¬ pc.HoldsMap) :
    Aside s (s.goto id pc) id := by
  refine ⟨rfl, rfl, fun _ _ => .inl, fun u hu => by simp [goto, hu], fun pc' hpc => ?_⟩
  obtain rfl : pc = pc' := by simpa [goto] using hpc
  exact h

theorem aside_reply (s : State) (id : TransactionId) (c : Call) (ret : Status) (out : Bytes) :
    Aside s (s.reply id c ret out) id :=
  ⟨rfl, rfl, fun _ _ => .inl, fun u hu => by simp [reply, hu], by simp [reply]⟩

/-- What happens before, away from the calls and `tMapLockId`, does not matter. -/
theorem Aside.after (h : Aside s₁ s' id) (hdead : s₁.dead = s.dead) (hcalls : s₁.calls = s.calls)
    (hmap : s₁.locks tMapLockId = s.locks tMapLockId)
    (hheir : ∀ lid l, s₁.locks lid = some (.heir l) → s.locks lid = some (.heir l) ∨
      lid = lockInfosLockId) : Aside s s' id :=
  ⟨h.alive.trans hdead, h.map.trans hmap, fun lid l hl => (h.heir lid l hl).elim (hheir lid l) .inr,
    fun u hu => (h.others u hu).trans (by rw [hcalls]), h.out⟩

theorem aside_finishT (s : State) (id : TransactionId) (w : Why) (lids : List LockId) :
    Aside s (s.finishT id w lids) id := by
  cases lids <;> exact aside_goto s id fun h => h

theorem aside_finishTHasLock (s : State) (id : TransactionId) (w : Why) (lids : List LockId) :
    Aside s (s.finishTHasLock id w lids) id := by
  cases lids <;> exact aside_goto s id fun h => h

theorem aside_access (s : State) (id : TransactionId) (m : TContent) (op : Op) :
    Aside s (s.access id m op) id := by
  rw [access]
  split
  · exact aside_goto s id fun h => h
  · exact aside_reply s id _ _ _
  · exact (aside_reply _ id _ _ _).after rfl rfl rfl fun _ _ => .inl

theorem aside_found (s : State) (id : TransactionId) (m : TContent) (c : Call) :
    Aside s (s.found id m c) id := by
  cases c with
  | get key | set key value | del key => exact aside_access s id m _
  | transactionCommit =>
    have hgoto : Aside s (s.goto id (.put m.entries)) id := aside_goto s id fun h => h
    exact ⟨hgoto.alive, hgoto.map, hgoto.heir, hgoto.others, hgoto.out⟩
  | transactionAbort => exact aside_finishT s id _ _

theorem aside_locked (s : State) (id : TransactionId) (op : Op) : Aside s (s.locked id op) id := by
  cases op <;> exact aside_goto s id fun h => h

/-- Giving back a held lock other than `tMapLockId` does not matter either. -/
theorem Aside.after_release {lid : LockId} (hlid : lid ≠ tMapLockId) (hheld : s.locks lid ≠ none)
    (h : Aside (s.release lid) s' id) : Aside s s' id := by
  have hrel : s.release lid = { s with locks := Function.update s.locks lid none } := by
    rw [release]
    split
    · rename_i hfree
      exact absurd hfree hheld
    · rfl
  rw [hrel] at h
  refine h.after rfl rfl (by simp [Ne.symm hlid]) fun l l' hl => ?_
  by_cases hll : l = lid
  · simp [hll] at hl
  · exact .inl (by simpa [hll] using hl)

theorem aside_handOver (s : State) (h h' : Holder) : (s.handOver h h').dead = s.dead ∧
    (s.handOver h h').calls = s.calls ∧
    (s.handOver h h').locks tMapLockId = s.locks tMapLockId ∧
    ∀ lid l, (s.handOver h h').locks lid = some (.heir l) → s.locks lid = some (.heir l) ∨
      lid = lockInfosLockId := by
  have hne : tMapLockId ≠ lockInfosLockId := by decide
  rw [handOver]
  split
  · refine ⟨rfl, rfl, by simp [hne], fun lid l hl => ?_⟩
    by_cases hlid : lid = lockInfosLockId
    · exact .inr hlid
    · exact .inl (by simpa [hlid] using hl)
  · exact ⟨rfl, rfl, rfl, fun _ _ => .inl⟩

/-- The owner looked at, `hasPath` having returned, no call has touched `tMapLockId`. -/
theorem aside_checkOwner (hd : Inv s.data) (hc : Counted s.data) (ht : s.table.Inv)
    (hid : s.tMap id = some m) (hcall : s.calls id = some (.infoCode op)) :
    Aside s (s.checkOwner id m op) id := by
  rw [checkOwner]
  split
  · exact (aside_goto _ id (by exact fun h => h)).after rfl rfl rfl fun _ _ => .inl
  · rename_i owner _
    obtain ⟨b, hpath, -⟩ := hasPath_spec hd hc ht (settled_of_calls hid hcall rfl) owner
    rw [hpath]
    cases b with
    | true => exact aside_finishTHasLock s id _ _
    | false => exact (aside_goto _ id (by exact fun h => h)).after rfl rfl rfl fun _ _ => .inl

end State

namespace MapLock

variable {s s' : State} {id : TransactionId} {m : TContent} {pc pc' : Pc}

theorem aside (h : MapLock s) (ha : State.Aside s s' id)
    (hout : ∀ pc ∈ s.calls id, ¬ pc.HoldsMap) : MapLock s' := by
  refine ⟨ha.alive.trans h.alive, fun u => ?_, fun lid l hl =>
    (ha.heir lid l hl).elim (h.heir lid l) fun h => h⟩
  rw [ha.map, h.thread u]
  by_cases hu : u = id
  · subst hu
    exact iff_of_false (fun ⟨pc, hpc, hh⟩ => hout pc hpc hh) fun ⟨pc, hpc, hh⟩ => ha.out pc hpc hh
  · rw [ha.others u hu]

theorem acquire (h : MapLock s) (hout : ∀ pc ∈ s.calls id, ¬ pc.HoldsMap) (hin : pc.HoldsMap)
    (hs : (s.acquire id tMapLockId).map (fun s => s.goto id pc) = some s') : MapLock s' := by
  obtain ⟨s₁, h₁, rfl⟩ := Option.map_eq_some_iff.1 hs
  obtain ⟨hfree, rfl⟩ := State.acquire_cases h₁
  refine ⟨h.alive, fun u => ?_, fun lid l hl => ?_⟩
  by_cases hu : u = id
  · subst hu
    simp [State.goto, hin]
  · have hother := h.thread u
    rw [hfree] at hother
    simpa [State.goto, hu, Ne.symm hu] using hother
  · by_cases hlid : lid = tMapLockId
    · simp [State.goto, hlid] at hl
    · exact h.heir lid l (by simpa [State.goto, hlid] using hl)

theorem release (h : MapLock s) (hin : ∃ pc ∈ s.calls id, pc.HoldsMap)
    (ha : State.Aside (s.release tMapLockId) s' id) : MapLock s' := by
  have hheld := (h.thread id).2 hin
  have hrel : s.release tMapLockId =
      { s with locks := Function.update s.locks tMapLockId none } := by
    rw [State.release, hheld]
  rw [hrel] at ha
  have hfree : s'.locks tMapLockId = none := ha.map.trans (by simp)
  refine ⟨ha.alive.trans h.alive, fun u => ?_, fun lid l hl => ?_⟩
  · rw [hfree]
    refine iff_of_false (by simp) ?_
    by_cases hu : u = id
    · subst hu
      rintro ⟨pc, hpc, hh⟩
      exact ha.out pc hpc hh
    · rw [ha.others u hu]
      intro hother
      have hthread := (h.thread u).2 hother
      rw [hheld, Option.some_inj, Holder.thread.injEq] at hthread
      exact hu hthread.symm
  · rcases ha.heir lid l hl with hl | hl
    · by_cases hlid : lid = tMapLockId
      · simp [hlid] at hl
      · exact h.heir lid l (by simpa [hlid] using hl)
    · exact hl

theorem resumeAt (h : MapLock s) (hd : Inv s.data) (hc : Counted s.data) (ht : s.table.Inv)
    (hid : s.tMap id = some m) (hcall : s.calls id = some pc)
    (hs : s.resumeAt id m pc = some s') : MapLock s' := by
  have hne : tMapLockId ≠ lockInfosLockId := by decide
  have hm := State.mode_of_calls hcall
  -- whoever is inside has the lock it gives back
  have hinfo : pc.mode.Inside → s.locks lockInfosLockId ≠ none := by
    intro hin
    have := ht.info (hm ▸ hin)
    rw [show s.locks lockInfosLockId = s.table.info from rfl, this]
    simp
  have hout : ¬ pc.HoldsMap → ∀ pc' ∈ s.calls id, ¬ pc'.HoldsMap := by
    intro hpc pc' hpc'
    rw [hcall] at hpc'
    obtain rfl : pc = pc' := Option.some_inj.1 hpc'
    exact hpc
  -- a lock other than `tMapLockId` is acquired
  have hacquire : ∀ {lid : LockId} {s₁ : State}, lid ≠ tMapLockId → s.acquire id lid = some s₁ →
      s₁.dead = s.dead ∧ s₁.calls = s.calls ∧ s₁.locks tMapLockId = s.locks tMapLockId ∧
      ∀ l l', s₁.locks l = some (.heir l') → s.locks l = some (.heir l') ∨
        l = lockInfosLockId := by
    intro lid s₁ hlid h₁
    obtain ⟨-, rfl⟩ := State.acquire_cases h₁
    refine ⟨rfl, rfl, by simp [Ne.symm hlid], fun l l' hl => ?_⟩
    by_cases hll : l = lid
    · simp [hll] at hl
    · exact .inl (by simpa [hll] using hl)
  cases pc with
  | findAcq | insAcq | eraseAcq => exact h.acquire (hout fun h => h) (by trivial) hs
  | findRel c =>
    rw [State.resumeAt, Option.some_inj] at hs
    exact h.release ⟨_, hcall, trivial⟩ (hs ▸ State.aside_found _ id m c)
  | insRel op e =>
    rw [State.resumeAt, Option.some_inj] at hs
    have hset : MapLock (s.setContent id (m.insert op.eid e)) := ⟨h.alive, h.thread, h.heir⟩
    exact hset.release ⟨_, hcall, trivial⟩ (hs ▸ State.aside_reply _ id _ _ _)
  | eraseRel w =>
    rw [State.resumeAt, Option.some_inj] at hs
    have hset : MapLock { s with tMap := Function.update s.tMap id none } :=
      ⟨h.alive, h.thread, h.heir⟩
    exact hset.release ⟨_, hcall, trivial⟩ (hs ▸ State.aside_reply _ id _ _ _)
  | infoAcq | finAcq =>
    obtain ⟨s₁, h₁, rfl⟩ := Option.map_eq_some_iff.1 hs
    obtain ⟨hdead, hcalls, hmap, hheir⟩ := hacquire (Ne.symm hne) h₁
    exact h.aside ((State.aside_goto s₁ id (by exact fun h => h)).after hdead hcalls hmap hheir)
      (hout fun h => h)
  | infoCode op =>
    rw [State.resumeAt, Option.some_inj] at hs
    exact h.aside (hs ▸ State.aside_checkOwner hd hc ht hid hcall) (hout fun h => h)
  | infoRelF | infoRelO | finInfoRel =>
    rw [State.resumeAt, Option.some_inj] at hs
    exact h.aside (.after_release (Ne.symm hne) (hinfo trivial)
      (hs ▸ State.aside_goto _ id (by exact fun h => h))) (hout fun h => h)
  | dataAcqF op =>
    obtain ⟨s₁, h₁, rfl⟩ := Option.map_eq_some_iff.1 hs
    obtain ⟨hdead, hcalls, hmap, hheir⟩ := hacquire (Nat.ne_of_lt op.eid_lt) h₁
    obtain ⟨hdead', hcalls', hmap', hheir'⟩ := State.aside_handOver s₁ (.heir op.eid) (.thread id)
    exact h.aside ((State.aside_goto _ id (by exact fun h => h)).after (hdead'.trans hdead)
      (hcalls'.trans hcalls) (hmap'.trans hmap) fun l l' hl => (hheir' l l' hl).elim (hheir l l')
        .inr) (hout fun h => h)
  | followCode op =>
    have hmem : id ∈ (s.lockInfos op.eid).followers :=
      (ht.follower op.eid id).2 (by rw [hm]; rfl)
    simp only [State.resumeAt, if_pos hmem, Option.some_inj] at hs
    exact h.aside (hs ▸ (State.aside_goto _ id (by exact fun h => h)).after rfl rfl rfl
      fun _ _ => .inl) (hout fun h => h)
  | followRel op =>
    rw [State.resumeAt, Option.some_inj] at hs
    exact h.aside (.after_release (Ne.symm hne) (hinfo trivial)
      (hs ▸ State.aside_locked _ id op)) (hout fun h => h)
  | dataAcqO op =>
    obtain ⟨s₁, h₁, rfl⟩ := Option.map_eq_some_iff.1 hs
    obtain ⟨hdead, hcalls, hmap, hheir⟩ := hacquire (Nat.ne_of_lt op.eid_lt) h₁
    exact h.aside ((State.aside_locked s₁ id op).after hdead hcalls hmap hheir) (hout fun h => h)
  | fetch key =>
    rw [State.resumeAt, Option.some_inj] at hs
    exact h.aside (hs ▸ State.aside_goto s id (by exact fun h => h)) (hout fun h => h)
  | put rem =>
    cases rem with
    | nil =>
      rw [State.resumeAt, Option.some_inj] at hs
      exact h.aside (hs ▸ State.aside_finishT s id _ _) (hout fun h => h)
    | cons p rem =>
      rw [State.resumeAt, Option.some_inj] at hs
      subst hs
      have hgoto : State.Aside s (s.goto id (.put rem)) id := State.aside_goto s id fun h => h
      exact h.aside ⟨hgoto.alive, hgoto.map, hgoto.heir, hgoto.others, hgoto.out⟩
        (hout fun h => h)
  | finCode w lid rem =>
    simp only [State.resumeAt] at hs
    split at hs
    · rw [Option.some_inj] at hs
      exact h.aside (hs ▸ (State.aside_goto _ id (by exact fun h => h)).after rfl rfl rfl
      fun _ _ => .inl) (hout fun h => h)
    · rw [Option.some_inj] at hs
      obtain ⟨hdead, hcalls, hmap, hheir⟩ := State.aside_handOver
        (s.setInfo lid { s.lockInfos lid with owner := none }) (.thread id) (.heir lid)
      exact h.aside
        (hs ▸ (State.aside_goto _ id (by exact fun h => h)).after hdead hcalls hmap hheir)
        (hout fun h => h)
  | finDataRel w lid rem =>
    rw [State.resumeAt, Option.some_inj] at hs
    have hlock : s.data.locks lid = some id :=
      (hd.locks lid id).2 ⟨m, hid, by rw [State.phase_of_calls hcall]; exact List.mem_cons_self⟩
    have hlid := State.lt_of_data_locks hlock
    have hheld : s.locks lid ≠ none := by
      intro hfree
      simp [State.data, hfree] at hlock
    exact h.aside (.after_release (Nat.ne_of_lt hlid) hheld
      (hs ▸ State.aside_finishT _ id w rem)) (hout fun h => h)

theorem step {a : Action} (h : MapLock s) (hd : Inv s.data) (hc : Counted s.data)
    (ht : s.table.Inv) (hs : TwoPL.step s a = some s') : MapLock s' := by
  cases a with
  | begin =>
    rw [TwoPL.step, State.begin] at hs
    split at hs
    · rw [Option.some_inj] at hs
      exact hs ▸ ⟨h.alive, h.thread, h.heir⟩
    · exact absurd hs (by simp)
  | call id c =>
    rw [TwoPL.step, State.call] at hs
    split at hs
    · rename_i hok
      rw [Option.some_inj] at hs
      exact h.aside (hs ▸ State.aside_goto s id (by exact fun h => h)) (by simp [hok.2])
    · exact absurd hs (by simp)
  | resume id =>
    rw [TwoPL.step, State.resume] at hs
    split at hs
    · exact absurd hs (by simp)
    · exact absurd hs (by simp)
    · rename_i pc _ hcall hid
      cases pc with
      | findAcq c => exact h.acquire (by simp [hcall, Pc.HoldsMap]) (by trivial) hs
      | findRel c =>
        rw [State.resumeUnknown, Option.some_inj] at hs
        exact h.release ⟨_, hcall, trivial⟩ (hs ▸ State.aside_reply _ id _ _ _)
      | _ => exact absurd hs (by simp [State.resumeUnknown])
    · rename_i pc m _ hcall hid
      exact h.resumeAt hd hc ht hid hcall hs

end MapLock

/-! ## Runs without overtaking -/

theorem table_start : State.start.table.Inv where
  inside _ := by simp [State.table, State.start, Mode.Inside]
  heir _ h := by simp [State.table, State.start] at h
  owner _ _ := by simp [State.table, State.start]
  follower _ _ := by simp [State.table, State.start, Mode.follows]
  nodup _ := List.nodup_nil
  waiting _ h := absurd rfl h
  taking _ _ h := by simp [State.table, State.start] at h
  comes _ _ h := by simp [State.table, State.start, Mode.comes] at h
  goes _ _ h := by simp [State.table, State.start, Mode.goes] at h
  holds _ _ h := by simp [State.table, State.start] at h
  held _ _ h := by simp [State.table, State.start, State.data] at h
  acyclic x h := by
    obtain ⟨y, ⟨lid, hlid, -⟩, -⟩ := TransGen.head'_iff.1 h
    simp [State.table, State.start] at hlid

/-- Everything that holds in every run in which followers do not overtake. -/
structure Sound (s : State) : Prop where
  data : Inv s.data
  counted : Counted s.data
  table : s.table.Inv
  map : MapLock s

theorem Sound.of_run {as : List Action} {s : State}
    (h : Run TwoPL.step NoOvertake State.start as s) : Sound s := by
  have hboth : s.table.Inv ∧ MapLock s := by
    refine h.invariant_with (P := fun s => s.table.Inv ∧ MapLock s)
      (Q := fun s => Inv s.data ∧ Counted s.data)
      (fun h => ⟨Inv.of_run h, Counted.of_run h⟩) ⟨table_start, ?_⟩ ?_
    · exact ⟨rfl, by simp [State.start], by simp [State.start]⟩
    · intro s a s' hQ hP hno hs
      refine ⟨?_, hP.2.step hQ.1 hQ.2 hP.1 hs⟩
      have hsteps : ∀ t, ReflTransGen Table.Step s.table t → t.Inv := by
        intro t ht
        induction ht with
        | refl => exact hP.1
        | tail _ hstep ih => exact ih.step hstep
      exact hsteps _ (table_refines hQ.1 hQ.2 hP.1 hno hs)
  exact ⟨Inv.of_run h, Counted.of_run h, hboth.1, hboth.2⟩

/-! ## The lock of `lockInfos` -/

/-- Points in the section that `lockInfosLockId` protects. -/
def Pc.InSection : Pc → Prop
  | .infoCode _ | .infoRelF _ | .followCode _ | .followRel _ | .infoRelO _ | .finCode _ _ _
  | .finInfoRel _ _ _ => True
  | _ => False

/-- Points at which the call releases `lockInfosLockId` next. -/
def Pc.ReleasesInfos : Pc → Prop
  | .infoRelF _ | .followRel _ | .infoRelO _ | .finInfoRel _ _ _ => True
  | _ => False

theorem Pc.ReleasesInfos.inSection {pc : Pc} (h : pc.ReleasesInfos) : pc.InSection := by
  cases pc <;> trivial

theorem Pc.inSection_iff (pc : Pc) : pc.InSection ↔ pc.mode.Inside := by
  cases pc <;> rfl

/-- Somebody can go on and will release `lockInfosLockId`, which is held on behalf of `h`: the
transaction in the section, or the one that is about to give the lock of `lid` back to followers, or
a follower that can have it. -/
def State.InCare (s : State) : Holder → Prop
  | .thread id => ∃ pc, s.calls id = some pc ∧ pc.InSection ∧ (s.resume id).isSome
  | .heir lid =>
    (∃ id w rem, s.calls id = some (.finDataRel w lid rem) ∧ (s.lockInfos lid).followers ≠ [] ∧
      (s.resume id).isSome) ∨
    s.locks lid = none ∧ ∃ id op, s.calls id = some (.dataAcqF op) ∧ op.eid = lid ∧
      (s.resume id).isSome

/-- The call of a transaction that is about to give a lock back. -/
theorem State.calls_of_releasing {s : State} {id : TransactionId} {lid : LockId}
    (h : s.table.mode id = .releasing lid) :
    ∃ w rem, s.calls id = some (.finDataRel w lid rem) := by
  cases hcall : s.calls id with
  | none => simp [table, hcall] at h
  | some pc =>
    rw [mode_of_calls hcall] at h
    cases pc with
    | finDataRel w l rem =>
      obtain rfl : l = lid := by simpa [Pc.mode] using h
      exact ⟨w, rem, rfl⟩
    | _ => exact absurd h (by simp [Pc.mode])

namespace Sound

variable {s s' : State} {id : TransactionId} {m : TContent} {pc : Pc} {op : Op}

theorem resume_eq (h : Sound s) (hcall : s.calls id = some pc) (hid : s.tMap id = some m) :
    s.resume id = s.resumeAt id m pc := by
  rw [State.resume, h.map.alive, hcall, hid]

/-- Nobody blocks in the section. -/
theorem resume_isSome (h : Sound s) (hcall : s.calls id = some pc) (hpc : pc.InSection) :
    (s.resume id).isSome := by
  obtain ⟨m, hid⟩ := State.live_of_calls h.data hcall (by
    cases pc <;> first | exact hpc.elim | simp [Pc.phase])
  rw [h.resume_eq hcall hid]
  cases pc with
  | infoCode | infoRelF | followRel | infoRelO | finInfoRel => rfl
  | followCode op =>
    rw [State.resumeAt]
    split <;> rfl
  | finCode w lid rem =>
    simp only [State.resumeAt]
    split <;> rfl
  | _ => exact hpc.elim

theorem section_held (h : Sound s) (hcall : s.calls id = some pc) (hpc : pc.InSection) :
    s.locks lockInfosLockId = some (.thread id) :=
  h.table.info (by rw [State.mode_of_calls hcall]; exact pc.inSection_iff.1 hpc)

/-- An extent's lock that no transaction holds is free. -/
theorem lock_free (h : Sound s) {lid : LockId} (hlid : lid < maxKey)
    (hfree : s.data.locks lid = none) : s.locks lid = none := by
  cases hl : s.locks lid with
  | none => rfl
  | some holder =>
    cases holder with
    | thread id => simp [State.data, hlid, hl, Holder.id?] at hfree
    | heir l =>
      rw [h.map.heir lid l hl] at hlid
      exact absurd hlid (by decide)

theorem inCare (h : Sound s) {holder : Holder} (hl : s.locks lockInfosLockId = some holder) :
    s.InCare holder := by
  cases holder with
  | thread id =>
    have hin := (h.table.inside id).1 hl
    cases hcall : s.calls id with
    | none => simp [State.table, hcall, Mode.Inside] at hin
    | some pc =>
      rw [State.mode_of_calls hcall] at hin
      have hpc := pc.inSection_iff.2 hin
      exact ⟨pc, hcall, hpc, h.resume_isSome hcall hpc⟩
  | heir lid =>
    obtain ⟨-, hne, hfree | ⟨id, hm⟩⟩ := h.table.heir lid hl
    · obtain ⟨id, hmem⟩ := List.exists_mem_of_ne_nil _ hne
      obtain ⟨op, rfl, hcall | hcall | hcall⟩ :=
        State.calls_of_follows ((h.table.follower lid id).1 hmem)
      · rw [h.section_held hcall trivial] at hl
        exact absurd hl (by simp)
      · have hlock : s.locks op.eid = none := h.lock_free op.eid_lt hfree
        obtain ⟨m, hid⟩ := State.live_of_calls h.data hcall (by simp [Pc.phase])
        refine .inr ⟨hlock, id, op, hcall, rfl, ?_⟩
        rw [h.resume_eq hcall hid, State.resumeAt, State.acquire, hlock]
        rfl
      · rw [h.section_held hcall trivial] at hl
        exact absurd hl (by simp)
    · obtain ⟨w, rem, hcall⟩ := State.calls_of_releasing hm
      obtain ⟨m, hid⟩ := State.live_of_calls h.data hcall (by simp [Pc.phase])
      exact .inl ⟨id, w, rem, hcall, hne, by rw [h.resume_eq hcall hid]; rfl⟩

end Sound

/-- `lockInfosLockId` is used as a lock: whoever releases it next has it, so has whoever is in the
section it protects, the server has not been killed, and while it is held somebody will release it.
-/
structure State.InfosLockUsed (s : State) : Prop where
  released : ∀ id pc, s.calls id = some pc → pc.ReleasesInfos →
    s.locks lockInfosLockId = some (.thread id)
  alone : ∀ id pc, s.calls id = some pc → pc.InSection →
    s.locks lockInfosLockId = some (.thread id)
  alive : s.dead = false
  inCare : ∀ holder, s.locks lockInfosLockId = some holder → s.InCare holder

/-- **`lockInfosLockId` is used as a lock** in every run in which followers do not overtake. -/
theorem infosLock_used {as : List Action} {s : State}
    (h : Run TwoPL.step NoOvertake State.start as s) : s.InfosLockUsed := by
  have hs := Sound.of_run h
  exact ⟨fun id pc hcall hpc => hs.section_held hcall hpc.inSection,
    fun id pc hcall => hs.section_held hcall, hs.map.alive, fun holder => hs.inCare⟩

/-- Transaction 1 writes an extent, transaction 2 waits for its lock, transaction 1 commits, and the
next step of transaction 2 is to release what has been left to it. -/
def handedOver : List Action :=
  List.flatten [[.begin, .begin, .call 1 (.set [107] [118])], List.replicate 8 (.resume 1),
    [.call 2 (.get [107])], List.replicate 5 (.resume 2),
    [.call 1 .transactionCommit], List.replicate 7 (.resume 1), List.replicate 2 (.resume 2)]

theorem infosLock_used_handedOver : ∃ s, Run TwoPL.step NoOvertake State.start handedOver s ∧
    s.calls 2 = some (.followRel (.get [107])) ∧ s.InfosLockUsed := by
  have hcall : (execute (guarded step NoOvertake) State.start handedOver).bind
      (fun s => s.calls 2) = some (.followRel (.get [107])) := by decide +kernel
  obtain ⟨s, hs, hcall⟩ := Option.bind_eq_some_iff.1 hcall
  exact ⟨s, .of_guarded hs, hcall, infosLock_used (.of_guarded hs)⟩

/-- Transaction 1 is recorded as owner and has still to acquire the lock; transaction 2 becomes a
follower and acquires it first. -/
def releasedFree : List Action :=
  List.flatten [[.begin, .begin, .call 1 (.set [107] [118])], List.replicate 5 (.resume 1),
    [.call 2 (.get [107])], List.replicate 7 (.resume 2)]

/-- **A follower that overtakes releases a free lock.** -/
theorem not_infosLock_used :
    ¬ ∀ as s, Run TwoPL.step anyStep State.start as s → s.InfosLockUsed := by
  intro h
  have hfree : (execute step State.start releasedFree).map
      (fun s => (s.calls 2, s.locks lockInfosLockId)) =
      some (some (.followRel (.get [107])), none) := by decide +kernel
  obtain ⟨s, hs, hpair⟩ := Option.map_eq_some_iff.1 hfree
  obtain ⟨hcall, hlock⟩ := Prod.ext_iff.1 hpair
  have hheld := (h releasedFree s (.of_execute hs)).released 2 _ hcall trivial
  rw [show s.locks lockInfosLockId = none from hlock] at hheld
  exact absurd hheld (by simp)

/-! ## Deadlocks -/

/-- `id` is blocked in `lc->acquire` for the lock of an extent, which `holder` has. -/
def State.Waits (s : State) (id holder : TransactionId) : Prop :=
  ∃ op, (s.calls id = some (.dataAcqF op) ∨ s.calls id = some (.dataAcqO op)) ∧
    s.locks op.eid = some (.thread holder)

namespace Sound

variable {s s' : State} {id u holder : TransactionId} {m : TContent} {op : Op} {lid : LockId}

theorem data_locks_of_thread (hlid : lid < maxKey) (hl : s.locks lid = some (.thread holder)) :
    s.table.locks lid = some holder := by
  simp [State.table, State.data, hlid, hl, Holder.id?]

theorem thread_of_data_locks (hl : s.table.locks lid = some holder) :
    s.locks lid = some (.thread holder) := by
  have hlid := State.lt_of_data_locks hl
  rw [State.table, State.data] at hl
  simp only [if_pos hlid] at hl
  obtain ⟨h, hh, hid⟩ := Option.bind_eq_some_iff.1 hl
  cases h with
  | thread t =>
    obtain rfl : t = holder := Option.some_inj.1 hid
    exact hh
  | heir l => exact absurd hid (by simp [Holder.id?])

/-- A transaction that waits is recorded as follower, or as the owner of a lock that is about to be
given back. -/
theorem mode_of_waits (h : s.Waits id holder) : ∃ lid, s.table.locks lid = some holder ∧
    (s.table.mode id = .following lid ∨ s.table.mode id = .onWay lid) := by
  obtain ⟨op, hcall, hl⟩ := h
  refine ⟨op.eid, data_locks_of_thread op.eid_lt hl, ?_⟩
  exact hcall.imp State.mode_of_calls State.mode_of_calls

/-- Whoever holds the lock a waiting transaction waits for, and waits itself, blocks it in the
table. -/
theorem blocks_of_waits (hs : Sound s) (h : s.Waits id holder) (hw : s.Waits holder u) :
    s.table.Blocks holder id := by
  obtain ⟨lid, hl, hm⟩ := mode_of_waits h
  obtain ⟨lid', -, hm'⟩ := mode_of_waits hw
  have howns : s.table.owns holder lid := by
    rcases hs.table.held holder lid hl with howns | hm'' | hm''
    · exact howns
    · rw [hm''] at hm'
      exact absurd hm' (by simp)
    · rcases hm' with hm' | hm' <;> rw [hm'] at hm'' <;> exact absurd hm'' (by simp [Mode.goes])
  have hown := (hs.table.owner lid holder).2 howns
  refine ⟨lid, hown, (hs.table.follower lid id).2 ?_⟩
  rcases hm with hm | hm
  · rw [hm]
    rfl
  · -- the one recorded as owner would have the lock
    have hcomes := hs.table.comes id lid (by rw [hm]; rfl)
    rw [(hs.table.owner lid id).2 hcomes.1, Option.some_inj] at hown
    rw [hown] at hcomes
    exact absurd hl hcomes.2

/-- Along a chain of waits that goes on, everybody blocks the one before. -/
theorem blocks_of_chain (hs : Sound s) (h : TransGen s.Waits id holder) (hw : s.Waits holder u) :
    TransGen s.table.Blocks holder id := by
  induction h generalizing u with
  | single h => exact .single (hs.blocks_of_waits h hw)
  | tail _ h ih => exact .head (hs.blocks_of_waits h hw) (ih h)

theorem no_circle (hs : Sound s) (id : TransactionId) : ¬ TransGen s.Waits id id := by
  intro h
  obtain ⟨u, hu, -⟩ := TransGen.head'_iff.1 h
  exact hs.table.acyclic id (hs.blocks_of_chain h hu)

/-- While somebody is inside, a follower waits, and has the locks it owns. -/
theorem waits_of_blocks (hs : Sound s) (hin : (s.table.mode id).Inside)
    (hne : (s.table.mode id).follows = none) (hb : s.table.Blocks holder u)
    (hown : ∀ lid, s.table.owns holder lid → s.table.locks lid = some holder) :
    s.Waits u holder ∧ ∀ lid, s.table.owns u lid → s.table.locks lid = some u := by
  obtain ⟨lid, howner, hmem⟩ := hb
  have hfollows := (hs.table.follower lid u).1 hmem
  have hout : ¬ (s.table.mode u).Inside := by
    intro hu
    rw [hs.table.only hin hu, hne] at hfollows
    exact absurd hfollows (by simp)
  have hm : s.table.mode u = .following lid := by
    generalize s.table.mode u = mode at hfollows hout
    cases mode with
    | following l => rw [Option.some_inj.1 hfollows]
    | joining | taking => exact absurd trivial hout
    | _ => exact absurd hfollows (by simp [Mode.follows])
  obtain ⟨op, rfl, hcall | hcall | hcall⟩ := State.calls_of_follows hfollows
  · rw [State.mode_of_calls hcall] at hout
    exact absurd trivial hout
  · have hlock := hown op.eid ((hs.table.owner op.eid holder).1 howner)
    refine ⟨⟨op, .inl hcall, thread_of_data_locks hlock⟩, fun lid howns => ?_⟩
    rcases hs.table.holds u lid howns with hl | hl
    · exact hl
    · rw [hm] at hl
      exact absurd hl (by simp [Mode.comes])
  · rw [State.mode_of_calls hcall] at hout
    exact absurd trivial hout

/-- A chain of blocks is a chain of waits. -/
theorem waits_of_chain (hs : Sound s) (hin : (s.table.mode id).Inside)
    (hne : (s.table.mode id).follows = none)
    (hown : ∀ lid, s.table.owns id lid → s.table.locks lid = some id)
    (h : TransGen s.table.Blocks id holder) :
    TransGen s.Waits holder id ∧
      ∀ lid, s.table.owns holder lid → s.table.locks lid = some holder := by
  induction h with
  | single hb =>
    obtain ⟨hw, hown'⟩ := hs.waits_of_blocks hin hne hb hown
    exact ⟨.single hw, hown'⟩
  | tail _ hb ih =>
    obtain ⟨hw, hown'⟩ := hs.waits_of_blocks hin hne hb ih.2
    exact ⟨.head hw ih.1, hown'⟩

/-- A requester that is aborted is waited for by the holder of the lock. -/
theorem victim_waited (hs : Sound s) (hcall : s.calls id = some (.infoCode op))
    (hstep : s.resume id = some s') {kept : List LockId}
    (hv : s'.data.phase id = .finishing (.victim op) kept) :
    ∃ holder, s.locks op.eid = some (.thread holder) ∧ TransGen s.Waits holder id := by
  obtain ⟨m, hid⟩ := State.live_of_calls hs.data hcall (by simp [Pc.phase])
  have hm : s.table.mode id = .inside := State.mode_of_calls hcall
  have howned := State.owns_of_calls hid hcall
  have hphase := State.phase_of_calls hcall
  rw [hs.resume_eq hcall hid, State.resumeAt, Option.some_inj] at hstep
  subst hstep
  rw [State.checkOwner] at hv
  split at hv
  · simp [Pc.phase] at hv
  · rename_i owner ho
    obtain ⟨b, hpath, hb⟩ := State.hasPath_spec hs.data hs.counted hs.table
      (State.settled_of_calls hid hcall rfl) owner
    rw [hpath] at hv
    cases b with
    | false => simp [Pc.phase] at hv
    | true =>
      have hown : ∀ lid, s.table.owns id lid → s.table.locks lid = some id := by
        intro lid howns
        refine (hs.data.locks lid id).2 ⟨m, hid, ?_⟩
        rw [hphase]
        exact (howned lid).1 howns
      have hnot : ¬ s.table.owns id op.eid := by
        have habout := hs.data.about id m hid
        rw [hphase] at habout
        rw [howned, Pc.owned, OrdMap.mem_keys, show m.find op.eid = none from habout]
        simp
      have hne : owner ≠ id := by
        rintro rfl
        exact hnot ((hs.table.owner op.eid owner).1 ho)
      rcases reflTransGen_iff_eq_or_transGen.1 (hb.1 rfl) with heq | htrans
      · exact absurd heq hne
      · obtain ⟨hw, hown'⟩ := hs.waits_of_chain (by rw [hm]; trivial) (by rw [hm]; rfl) hown htrans
        exact ⟨owner, thread_of_data_locks
          (hown' op.eid ((hs.table.owner op.eid owner).1 ho)), hw⟩

end Sound

/-- Every deadlock and only deadlocks are detected: there is no circle of waits, and if the next
step of a requester aborts it, the holder of the lock it asked for waits, directly or through
others, for a lock the requester has. -/
structure State.DeadlocksDetected (s : State) : Prop where
  every : ∀ id, ¬ TransGen s.Waits id id
  only : ∀ id op s' kept, s.calls id = some (.infoCode op) → step s (.resume id) = some s' →
    s'.data.phase id = .finishing (.victim op) kept →
    ∃ holder, s.locks op.eid = some (.thread holder) ∧ TransGen s.Waits holder id

/-- **Every deadlock and only deadlocks are detected** in every run in which followers do not
overtake. -/
theorem deadlocks_detected {as : List Action} {s : State}
    (h : Run TwoPL.step NoOvertake State.start as s) : s.DeadlocksDetected := by
  have hs := Sound.of_run h
  exact ⟨hs.no_circle, fun id op s' kept hcall hstep hv => hs.victim_waited hcall hstep hv⟩

/-- Transactions 1 and 2 have a lock each, transaction 1 waits for the other's and transaction 2
asks for transaction 1's. -/
def crosswise : List Action :=
  List.flatten [[.begin, .begin, .call 1 (.set [106] [118])], List.replicate 8 (.resume 1),
    [.call 2 (.set [107] [118])], List.replicate 8 (.resume 2),
    [.call 1 (.set [107] [118])], List.replicate 5 (.resume 1),
    [.call 2 (.set [106] [118])], List.replicate 3 (.resume 2)]

theorem deadlocks_detected_crosswise : ∃ s, Run TwoPL.step NoOvertake State.start crosswise s ∧
    (∃ s', step s (.resume 2) = some s' ∧
      s'.data.phase 2 = .finishing (.victim (.set [106] [118])) [107]) ∧
    s.DeadlocksDetected := by
  have hphase : (execute (guarded step NoOvertake) State.start crosswise).bind (fun s =>
      (step s (.resume 2)).map fun s' => s'.data.phase 2) =
      some (.finishing (.victim (.set [106] [118])) [107]) := by decide +kernel
  obtain ⟨s, hs, hphase⟩ := Option.bind_eq_some_iff.1 hphase
  exact ⟨s, .of_guarded hs, Option.map_eq_some_iff.1 hphase, deadlocks_detected (.of_guarded hs)⟩

/-- Transaction 1 has a lock and is recorded as the owner of another, which transaction 3 gets
before it, while transaction 2 is in the section; then transaction 3 asks for the first. -/
def undetected : List Action :=
  List.flatten [[.begin, .begin, .begin, .call 1 (.set [106] [118])], List.replicate 8 (.resume 1),
    [.call 1 (.set [107] [118])], List.replicate 5 (.resume 1),
    [.call 2 (.set [106] [118])], List.replicate 2 (.resume 2),
    [.call 3 (.set [107] [118])], List.replicate 5 (.resume 3), [.resume 2],
    List.replicate 5 (.resume 3), [.call 3 (.set [106] [118])], List.replicate 5 (.resume 3)]

/-- **With followers that overtake a deadlock goes undetected.** -/
theorem not_deadlocks_detected :
    ¬ ∀ as s, Run TwoPL.step anyStep State.start as s → s.DeadlocksDetected := by
  intro h
  have hwait : (execute step State.start undetected).map (fun s =>
      (s.calls 1, s.locks 107, s.calls 3, s.locks 106)) =
      some (some (.dataAcqO (.set [107] [118])), some (.thread 3),
        some (.dataAcqF (.set [106] [118])), some (.thread 1)) := by decide +kernel
  obtain ⟨s, hs, hwait⟩ := Option.map_eq_some_iff.1 hwait
  simp only [Prod.mk.injEq] at hwait
  obtain ⟨h₁, h₁₀₇, h₃, h₁₀₆⟩ := hwait
  have h₁₃ : s.Waits 1 3 := ⟨_, .inr h₁, h₁₀₇⟩
  have h₃₁ : s.Waits 3 1 := ⟨_, .inl h₃, h₁₀₆⟩
  exact (h undetected s (.of_execute hs)).every 1 (.tail (.single h₁₃) h₃₁)

end TwoPL
end Ydb
end CseLab
