import CseLab.Lib.Settles
import CseLab.Ydb.Ids
import CseLab.Ydb.TwoPL.Deadlock

/-!
# Calls of a transaction that is over

A client knows that its transaction is active: it has been given the id, and since then no commit or
abort has returned and no call has been answered `ABORT`.  `active` reads that off what has been
returned.  It is what `tMap` says in either server, so a call of a transaction that is not active
finds nothing there.

* In `ydb_server_2pl` it is then answered `TRANSIDINV`, whatever other calls do meanwhile, and has
  touched nothing but the lock of `tMap`.
* In `ydb_server_occ` so are all calls but `transaction_abort`, which works out the answer and
  returns another one.

`finished_rejected_iff` puts the two together.
-/

set_option autoImplicit false

namespace CseLab
namespace Ydb

/-! ## Active transactions -/

/-- What clients are told: an id by `transaction_begin`, and what the log records. -/
inductive Seen
  | begun (id : TransactionId)
  | event (e : Event)
  deriving DecidableEq

/-- A call has returned that is the end of transaction `id`. -/
def Event.ends (id : TransactionId) : Event → Bool
  | .returned i c ret _ => decide (i = id) &&
    (decide (ret = .abort) || decide (ret = .ok ∧ (c = .transactionCommit ∨ c = .transactionAbort)))
  | .committed _ => false

/-- Whether transaction `id` is active once this has been seen. -/
def Seen.after (id : TransactionId) (b : Bool) : Seen → Bool
  | .begun i => b || decide (i = id)
  | .event e => b && !e.ends id

/-- Transaction `id` has begun, and nothing has ended it. -/
def active (id : TransactionId) (l : List Seen) : Bool := l.foldl (Seen.after id) false

theorem foldl_after_false (id : TransactionId) (new : List Event) :
    (new.map Seen.event).foldl (Seen.after id) false = false := by
  induction new with
  | nil => rfl
  | cons e new ih => exact ih

/-- A call of another transaction ends nothing here. -/
theorem after_returned_ne {i id : TransactionId} (h : i ≠ id) (b : Bool) (c : Call) (ret : Status)
    (out : Bytes) : Seen.after id b (.event (.returned i c ret out)) = b := by
  simp [Seen.after, Event.ends, h]

section seen

variable {σ α : Type*} (next : σ → TransactionId) (log : σ → List Event) (draws : α → Prop)
  [DecidablePred draws]

/-- What clients are told by one step. -/
def seen (s : σ) (a : α) (s' : σ) : List Seen :=
  (drawn next draws s a s').map .begun ++ ((log s').drop (log s).length).map .event

variable {next log draws} {step : σ → α → Option σ} {s₀ s : σ} {as : List α}

/-- If each step says which transactions there are afterwards, a run says which there are. -/
theorem active_of_run {there : σ → TransactionId → Bool} {P : σ → Prop}
    (h : Run step anyStep s₀ as s) (hP : ∀ {as s}, Run step anyStep s₀ as s → P s)
    (h0 : ∀ id, there s₀ id = false)
    (hdraw : ∀ s a s', P s → step s a = some s' → draws a → log s' = log s ∧
      ∀ id, there s' id = (there s id || decide (next s = id)))
    (hkeep : ∀ s a s', P s → step s a = some s' → ¬ draws a → ∃ new, log s' = log s ++ new ∧
      ∀ id, there s' id = (new.map Seen.event).foldl (Seen.after id) (there s id))
    (id : TransactionId) : active id (observe step (seen next log draws) s₀ as) = there s id := by
  induction h with
  | nil => exact (h0 id).symm
  | @snoc as s s' a h _ hs ih =>
    rw [h.observe_snoc hs, active, List.foldl_append, ← active, ih, seen, drawn]
    by_cases ha : draws a
    · obtain ⟨hlog, hthere⟩ := hdraw s a s' (hP h) hs ha
      rw [if_pos ha, hlog, List.drop_length, hthere]
      rfl
    · obtain ⟨new, hlog, hthere⟩ := hkeep s a s' (hP h) hs ha
      rw [if_neg ha, hlog, List.drop_left, hthere]
      rfl

end seen

/-! ## The optimistic server -/

namespace Occ

/-- What clients are told in a run. -/
def told (n₀ : TransactionId) (as : List Action) : List Seen :=
  observe step (seen State.nextTransactionId State.log (· = .begin)) (State.start n₀) as

/-- The commit section has decided one way or the other. -/
def Decided (s : State) : Prop :=
  ∀ id ret, s.calls id = some (.erase ret) → ret = .ok ∨ ret = .abort

theorem Decided.update {s s' : State} {id : TransactionId} {pc : Option Pc} (h : Decided s)
    (hcalls : s'.calls = Function.update s.calls id pc)
    (hpc : ∀ ret, pc = some (.erase ret) → ret = .ok ∨ ret = .abort) : Decided s' := by
  intro u ret hu
  rw [hcalls] at hu
  by_cases hui : u = id
  · subst hui
    exact hpc ret (by simpa using hu)
  · exact h u ret (by simpa [hui] using hu)

theorem Decided.step {s s' : State} {a : Action} (h : Decided s) (hs : step s a = some s') :
    Decided s' := by
  cases step_cases hs with
  | begin => exact h
  | reject | hit | abort | readInsert | sampleInsert | erase => exact h.update rfl (by simp)
  | enter _ _ hpc =>
    refine h.update rfl fun ret hret => ?_
    rw [Option.some_inj] at hret
    subst hret
    exact hpc.elim
  | read | sample => exact h.update rfl (by simp)
  | commit | refuse => exact h.update rfl (by simp +contextual [eq_comm])

/-- What a step other than `transaction_begin` logs tells which transactions it leaves. -/
theorem there_step {s s' : State} {a : Action} (h : Inv s) (hd : Decided s)
    (hs : step s a = some s') (ha : a ≠ .begin) : ∃ new, s'.log = s.log ++ new ∧
      ∀ id, (s'.tMap id).isSome =
        (new.map Seen.event).foldl (Seen.after id) (s.tMap id).isSome := by
  cases step_cases hs with
  | begin => exact absurd rfl ha
  | @reject u c ret hu =>
    refine ⟨_, rfl, fun id => ?_⟩
    by_cases hid : u = id
    · subst hid
      simp [hu, Seen.after]
    · exact (after_returned_ne hid _ _ _ _).symm
  | @hit u c m m' d out hu _ _ _ hdone =>
    refine ⟨_, rfl, fun id => ?_⟩
    by_cases hid : u = id
    · subst hid
      cases c <;> simp [hu, Seen.after, Event.ends, Call.done] at hdone ⊢
    · simp [after_returned_ne hid, Ne.symm hid]
  | enter | read | sample | refuse => exact ⟨[], (List.append_nil _).symm, fun _ => rfl⟩
  | @abort u m hu =>
    refine ⟨_, rfl, fun id => ?_⟩
    by_cases hid : u = id
    · subst hid
      simp [Seen.after, Event.ends]
    · simp [after_returned_ne hid, Ne.symm hid]
  | @readInsert u key v g m hu =>
    refine ⟨_, rfl, fun id => ?_⟩
    by_cases hid : u = id
    · subst hid
      simp [hu, Seen.after, Event.ends]
    · simp [after_returned_ne hid, Ne.symm hid]
  | @sampleInsert u c eid value g m hu hcall =>
    refine ⟨_, rfl, fun id => ?_⟩
    by_cases hid : u = id
    · subst hid
      obtain ⟨m', hm', -, hdone⟩ := h.about _ _ hcall
      cases c <;> simp [hu, Seen.after, Event.ends, Call.done] at hdone ⊢
    · simp [after_returned_ne hid, Ne.symm hid]
  | commit => exact ⟨_, rfl, fun id => by simp [Seen.after, Event.ends]⟩
  | @erase u ret m hu hcall =>
    refine ⟨_, rfl, fun id => ?_⟩
    by_cases hid : u = id
    · subst hid
      rcases hd u ret hcall with rfl | rfl <;> simp [Seen.after, Event.ends]
    · simp [after_returned_ne hid, Ne.symm hid]

theorem there_begin {s s' : State} (hs : step s .begin = some s') : s'.log = s.log ∧
    ∀ id, (s'.tMap id).isSome = ((s.tMap id).isSome || decide (s.nextTransactionId = id)) := by
  cases step_cases hs
  refine ⟨rfl, fun id => ?_⟩
  by_cases hid : s.nextTransactionId = id
  · simp [hid]
  · simp [hid, Ne.symm hid]

/-- `tMap` has the active transactions. -/
theorem active_iff {n₀ : TransactionId} {as : List Action} {s : State}
    (h : Run step anyStep (State.start n₀) as s) (id : TransactionId) :
    active id (told n₀ as) = (s.tMap id).isSome := by
  refine active_of_run (P := fun s => Inv s ∧ Decided s) h (fun h => ⟨Inv.of_run h, ?_⟩)
    (fun _ => rfl) (fun s a s' _ hs ha => ?_)
    (fun s a s' hP hs ha => there_step hP.1 hP.2 hs ha) id
  · exact h.invariant (P := Decided) (by simp [Decided, State.start])
      fun _ _ _ hd _ hs => hd.step hs
  · subst ha
    exact there_begin hs

/-- The call `c` of transaction `id` is answered `TRANSIDINV`, and nothing else happens. -/
def Rejects (s : State) (id : TransactionId) (c : Call) : Prop :=
  ∃ s', step s (.call id c) = some s' ∧ s'.log = s.log ++ [.returned id c .transidinv []] ∧
    s'.tMap = s.tMap ∧ s'.store = s.store

theorem rejects_iff {s : State} {id : TransactionId} (hid : s.tMap id = none)
    (hidle : s.calls id = none) (c : Call) : Rejects s id c ↔ c ≠ .transactionAbort := by
  have hcall : step s (.call id c) = some (s.startUnknown id c) := by
    rw [step, State.call, hidle, hid]
  rw [Rejects]
  simp only [hcall, Option.some_inj, exists_eq_left', State.startUnknown, State.reply_log,
    State.reply_tMap, State.reply_store, and_true]
  by_cases hc : c = .transactionAbort <;> simp [hc]

end Occ

/-! ## The locking server -/

namespace TwoPL

open Relation

/-- What clients are told in a run. -/
def told (as : List Action) : List Seen :=
  observe step (seen State.nextTransactionId State.log (· = .begin)) State.start as

/-- What the log gets tells which transactions are left, unless one has begun. -/
def Told (d d' : Data) : Prop :=
  d.nextTransactionId ≤ d'.nextTransactionId ∧ ∃ new, d'.log = d.log ++ new ∧
    (d'.nextTransactionId = d.nextTransactionId → ∀ id, (d'.tMap id).isSome =
      (new.map Seen.event).foldl (Seen.after id) (d.tMap id).isSome)

theorem Told.trans {d d' d'' : Data} (h : Told d d') (h' : Told d' d'') : Told d d'' := by
  obtain ⟨hle, new, hlog, hthere⟩ := h
  obtain ⟨hle', new', hlog', hthere'⟩ := h'
  refine ⟨Int.le_trans hle hle', new ++ new', ?_, fun heq id => ?_⟩
  · rw [hlog', hlog, List.append_assoc]
  · have hsame : d'.nextTransactionId = d.nextTransactionId :=
      Int.le_antisymm (heq ▸ hle') hle
    rw [hthere' (heq.trans hsame.symm), hthere hsame, List.map_append, List.foldl_append]

theorem Data.Step.told {d d' : Data} (h : Data.Step d d') : Told d d' := by
  cases h with
  | begin => exact ⟨Int.le_of_lt (Int.lt_succ _), [], (List.append_nil _).symm, by
      intro h
      exact absurd h (Int.ne_of_gt (Int.lt_succ _))⟩
  | @reject u c hu =>
    refine ⟨Int.le_refl _, _, rfl, fun _ id => ?_⟩
    simp [Seen.after, Event.ends]
  | @read u m op e hu =>
    refine ⟨Int.le_refl _, _, rfl, fun _ id => ?_⟩
    cases op <;> simp [Seen.after, Event.ends, Op.call]
  | @write u m op e value hu | @insert u m op e hu =>
    refine ⟨Int.le_refl _, _, rfl, fun _ id => ?_⟩
    by_cases hid : u = id
    · subst hid
      cases op <;> simp [hu, Seen.after, Event.ends, Op.call]
    · simp [after_returned_ne hid, Ne.symm hid]
  | want | lock | enter | fetch | put | finish | unlock =>
    exact ⟨Int.le_refl _, [], (List.append_nil _).symm, fun _ _ => rfl⟩
  | commit => exact ⟨Int.le_refl _, _, rfl, fun _ id => by simp [Seen.after, Event.ends]⟩
  | @erase u m w hu =>
    refine ⟨Int.le_refl _, _, rfl, fun _ id => ?_⟩
    by_cases hid : u = id
    · subst hid
      cases w <;> simp [Seen.after, Event.ends, Why.status, Why.call]
    · simp [after_returned_ne hid, Ne.symm hid]

theorem there_step {s s' : State} {a : Action} (hs : step s a = some s') (ha : a ≠ .begin) :
    ∃ new, s'.log = s.log ++ new ∧ ∀ id, (s'.tMap id).isSome =
      (new.map Seen.event).foldl (Seen.after id) (s.tMap id).isSome := by
  have htold : ∀ d, ReflTransGen Data.Step s.data d → Told s.data d := by
    intro d hd
    induction hd with
    | refl => exact ⟨Int.le_refl _, [], (List.append_nil _).symm, fun _ _ => rfl⟩
    | tail _ hstep ih => exact ih.trans hstep.told
  obtain ⟨-, new, hlog, hthere⟩ := htold _ (refines hs)
  exact ⟨new, hlog, hthere (tickets.keep hs ha)⟩

theorem there_begin {s s' : State} (hs : step s .begin = some s') : s'.log = s.log ∧
    ∀ id, (s'.tMap id).isSome = ((s.tMap id).isSome || decide (s.nextTransactionId = id)) := by
  rw [step, State.begin, Option.ite_none_right_eq_some, Option.some_inj] at hs
  obtain ⟨-, rfl⟩ := hs
  refine ⟨rfl, fun id => ?_⟩
  by_cases hid : s.nextTransactionId = id
  · simp [hid]
  · simp [hid, Ne.symm hid]

/-- `tMap` has the active transactions. -/
theorem active_iff {as : List Action} {s : State} (h : Run step anyStep State.start as s)
    (id : TransactionId) : active id (told as) = (s.tMap id).isSome := by
  refine active_of_run (P := fun _ => True) h (fun _ => trivial) (fun _ => rfl)
    (fun s a s' _ hs ha => ?_) (fun s a s' _ hs ha => there_step hs ha) id
  subst ha
  exact there_begin hs

/-! ### Who has the lock of `tMap` -/

/-- Whoever is between its acquire and its release has it. -/
def MapHeld (s : State) : Prop :=
  ∀ u pc, s.calls u = some pc → pc.HoldsMap → s.locks tMapLockId = some (.thread u)

/-- The call of `id` goes on and leaves the lock of `tMap` and the other calls alone. -/
structure MapQuiet (s s' : State) (id : TransactionId) : Prop where
  map : s'.locks tMapLockId = s.locks tMapLockId
  others : ∀ u, u ≠ id → s'.calls u = s.calls u
  out : ∀ pc ∈ s'.calls id, ¬ pc.HoldsMap

/-- The call of `id` takes one step. -/
inductive MapStep (s s' : State) (id : TransactionId) : Prop
  | quiet (h : MapQuiet s s' id)
  | acquire (hfree : s.locks tMapLockId = none)
      (hheld : s'.locks tMapLockId = some (.thread id))
      (others : ∀ u, u ≠ id → s'.calls u = s.calls u)
  | release (hpc : ∃ pc ∈ s.calls id, pc.HoldsMap) (hfree : s'.locks tMapLockId = none)
      (others : ∀ u, u ≠ id → s'.calls u = s.calls u) (out : ∀ pc ∈ s'.calls id, ¬ pc.HoldsMap)

section

variable {s s' s₁ : State} {id : TransactionId} {m : TContent} {pc : Pc} {op : Op}

theorem MapStep.others (h : MapStep s s' id) {u : TransactionId} (hu : u ≠ id) :
    s'.calls u = s.calls u := by
  cases h with
  | quiet h => exact h.others u hu
  | acquire _ _ others | release _ _ others => exact others u hu

theorem MapHeld.step (h : MapHeld s) (hs : MapStep s s' id) : MapHeld s' := by
  intro u pc hu hpc
  cases hs with
  | quiet hs =>
    by_cases hui : u = id
    · subst hui
      exact absurd hpc (hs.out pc hu)
    · rw [hs.map]
      exact h u pc (hs.others u hui ▸ hu) hpc
  | acquire hfree hheld others =>
    by_cases hui : u = id
    · exact hui ▸ hheld
    · rw [others u hui] at hu
      cases hfree.symm.trans (h u pc hu hpc)
  | release hin hfree others out =>
    by_cases hui : u = id
    · subst hui
      exact absurd hpc (out pc hu)
    · rw [others u hui] at hu
      obtain ⟨pc', hpc', hin⟩ := hin
      have heq := (h u pc hu hpc).symm.trans (h id pc' hpc' hin)
      cases heq
      exact absurd rfl hui

/-- What is known of a step in which the server stays alive holds of it in any case. -/
theorem State.Aside.mapQuiet (h : State.Aside s₁ s' id)
    (hcalls : s₁.calls = s.calls) (hmap : s₁.locks tMapLockId = s.locks tMapLockId) :
    MapQuiet s s' id :=
  ⟨h.map.trans hmap, fun u hu => (h.others u hu).trans (by rw [hcalls]), h.out⟩

theorem release_map {lid : LockId} (hlid : lid ≠ tMapLockId) (s : State) :
    (s.release lid).locks tMapLockId = s.locks tMapLockId := by
  rw [State.release]
  split
  · rfl
  · exact Function.update_of_ne (Ne.symm hlid) ..

theorem release_map_self (s : State) : (s.release tMapLockId).locks tMapLockId = none := by
  rw [State.release]
  split
  · assumption
  · simp

theorem mapQuiet_goto (hpc : ¬ pc.HoldsMap) (hcalls : s₁.calls = s.calls)
    (hmap : s₁.locks tMapLockId = s.locks tMapLockId) : MapQuiet s (s₁.goto id pc) id :=
  (State.aside_goto s₁ id hpc).mapQuiet hcalls hmap

theorem mapQuiet_dead (hcall : s.calls id = some pc) (hpc : ¬ pc.HoldsMap) :
    MapQuiet s { s with dead := true } id := by
  refine ⟨rfl, fun _ _ => rfl, fun pc' hpc' => ?_⟩
  cases hcall.symm.trans hpc'
  exact hpc

theorem mapQuiet_checkOwner (hcall : s.calls id = some (.infoCode op)) :
    MapQuiet s (s.checkOwner id m op) id := by
  rw [State.checkOwner]
  split
  · exact mapQuiet_goto (fun h => h) rfl rfl
  · split
    · exact mapQuiet_dead hcall fun h => h
    · exact (State.aside_finishTHasLock s id _ _).mapQuiet rfl rfl
    · exact mapQuiet_goto (fun h => h) rfl rfl

/-- The call acquires the lock of `tMap`. -/
theorem mapStep_acquire (h : (s.acquire id tMapLockId).map (fun s => s.goto id pc) = some s') :
    MapStep s s' id := by
  obtain ⟨s₁, h₁, rfl⟩ := Option.map_eq_some_iff.1 h
  obtain ⟨hfree, rfl⟩ := State.acquire_cases h₁
  exact .acquire hfree (by simp [State.goto]) fun u hu => by simp [State.goto, hu]

/-- The call gives the lock of `tMap` back. -/
theorem mapStep_release (s₁ : State) (hcall : s.calls id = some pc) (hpc : pc.HoldsMap)
    (hcalls : s₁.calls = s.calls) (h : State.Aside (s₁.release tMapLockId) s' id) :
    MapStep s s' id :=
  .release ⟨pc, hcall, hpc⟩ (h.map.trans (release_map_self s₁))
    (fun u hu => (h.others u hu).trans (by rw [State.release_calls, hcalls])) h.out

/-- The call acquires another lock. -/
theorem calls_acquire {lid : LockId} (hlid : lid ≠ tMapLockId) (h : s.acquire id lid = some s₁) :
    s₁.calls = s.calls ∧ s₁.locks tMapLockId = s.locks tMapLockId := by
  obtain ⟨-, rfl⟩ := State.acquire_cases h
  exact ⟨rfl, Function.update_of_ne (Ne.symm hlid) _ _⟩

theorem mapStep_resumeAt (hd : Inv s.data) (hid : s.tMap id = some m)
    (hcall : s.calls id = some pc) (hs : s.resumeAt id m pc = some s') : MapStep s s' id := by
  have hne : lockInfosLockId ≠ tMapLockId := by decide
  cases pc with
  | findAcq | insAcq | eraseAcq => exact mapStep_acquire hs
  | findRel c =>
    rw [State.resumeAt, Option.some_inj] at hs
    exact mapStep_release s hcall trivial rfl (hs ▸ State.aside_found _ id m c)
  | insRel op e =>
    rw [State.resumeAt, Option.some_inj] at hs
    exact mapStep_release (s.setContent id (m.insert op.eid e)) hcall trivial rfl
      (hs ▸ State.aside_reply _ id _ _ _)
  | eraseRel w =>
    rw [State.resumeAt, Option.some_inj] at hs
    exact mapStep_release { s with tMap := Function.update s.tMap id none } hcall trivial
      rfl (hs ▸ State.aside_reply _ id _ _ _)
  | infoAcq | finAcq =>
    obtain ⟨s₁, h₁, rfl⟩ := Option.map_eq_some_iff.1 hs
    obtain ⟨hcalls, hmap⟩ := calls_acquire hne h₁
    exact .quiet (mapQuiet_goto (fun h => h) hcalls hmap)
  | infoCode op =>
    rw [State.resumeAt, Option.some_inj] at hs
    exact .quiet (hs ▸ mapQuiet_checkOwner hcall)
  | infoRelF | infoRelO | finInfoRel =>
    rw [State.resumeAt, Option.some_inj] at hs
    exact .quiet (hs ▸ mapQuiet_goto (fun h => h) (State.release_calls ..)
      (release_map hne s))
  | dataAcqF op =>
    obtain ⟨s₁, h₁, rfl⟩ := Option.map_eq_some_iff.1 hs
    obtain ⟨hcalls, hmap⟩ := calls_acquire (Nat.ne_of_lt op.eid_lt) h₁
    obtain ⟨-, hcalls', hmap', -⟩ := State.aside_handOver s₁ (.heir op.eid) (.thread id)
    exact .quiet (mapQuiet_goto (fun h => h) (hcalls'.trans hcalls)
      (hmap'.trans hmap))
  | followCode op =>
    simp only [State.resumeAt] at hs
    split at hs
    · rw [Option.some_inj] at hs
      exact .quiet (hs ▸ mapQuiet_goto (fun h => h) rfl rfl)
    · rw [Option.some_inj] at hs
      exact .quiet (hs ▸ mapQuiet_dead hcall fun h => h)
  | followRel op =>
    rw [State.resumeAt, Option.some_inj] at hs
    exact .quiet (hs ▸ (State.aside_locked _ id op).mapQuiet (State.release_calls ..)
      (release_map hne s))
  | dataAcqO op =>
    obtain ⟨s₁, h₁, rfl⟩ := Option.map_eq_some_iff.1 hs
    obtain ⟨hcalls, hmap⟩ := calls_acquire (Nat.ne_of_lt op.eid_lt) h₁
    exact .quiet ((State.aside_locked s₁ id op).mapQuiet hcalls hmap)
  | fetch key =>
    rw [State.resumeAt, Option.some_inj] at hs
    exact .quiet (hs ▸ mapQuiet_goto (fun h => h) rfl rfl)
  | put rem =>
    cases rem with
    | nil =>
      rw [State.resumeAt, Option.some_inj] at hs
      exact .quiet (hs ▸ (State.aside_finishT s id _ _).mapQuiet rfl rfl)
    | cons p rem =>
      rw [State.resumeAt, Option.some_inj] at hs
      subst hs
      have hgoto : State.Aside s (s.goto id (.put rem)) id := State.aside_goto s id fun h => h
      exact .quiet ⟨hgoto.map, hgoto.others, hgoto.out⟩
  | finCode w lid rem =>
    simp only [State.resumeAt] at hs
    split at hs
    · rw [Option.some_inj] at hs
      exact .quiet (hs ▸ mapQuiet_goto (fun h => h) rfl rfl)
    · rw [Option.some_inj] at hs
      obtain ⟨-, hcalls, hmap, -⟩ := State.aside_handOver
        (s.setInfo lid { s.lockInfos lid with owner := none }) (.thread id) (.heir lid)
      exact .quiet (hs ▸ mapQuiet_goto (fun h => h) hcalls hmap)
  | finDataRel w lid rem =>
    rw [State.resumeAt, Option.some_inj] at hs
    have hlock : s.data.locks lid = some id :=
      (hd.locks lid id).2 ⟨m, hid, by rw [State.phase_of_calls hcall]; exact List.mem_cons_self⟩
    exact .quiet (hs ▸ (State.aside_finishT _ id w rem).mapQuiet (State.release_calls ..)
      (release_map (Nat.ne_of_lt (State.lt_of_data_locks hlock)) s))

theorem mapStep_resume (hd : Inv s.data) (hs : s.resume id = some s') : MapStep s s' id := by
  rw [State.resume] at hs
  split at hs
  · cases hs
  · cases hs
  · rename_i pc _ hcall hid
    cases pc with
    | findAcq c => exact mapStep_acquire hs
    | findRel c =>
      rw [State.resumeUnknown, Option.some_inj] at hs
      exact mapStep_release s hcall trivial rfl (hs ▸ State.aside_reply _ id _ _ _)
    | _ => cases hs
  · rename_i pc m _ hcall hid
    exact mapStep_resumeAt hd hid hcall hs

/-- One step of the machine. -/
theorem MapHeld.of_step {a : Action} (h : MapHeld s) (hd : Inv s.data)
    (hs : TwoPL.step s a = some s') : MapHeld s' := by
  cases a with
  | begin =>
    rw [TwoPL.step, State.begin, Option.ite_none_right_eq_some, Option.some_inj] at hs
    obtain ⟨-, rfl⟩ := hs
    exact h
  | call u c =>
    rw [TwoPL.step, State.call, Option.ite_none_right_eq_some, Option.some_inj] at hs
    obtain ⟨-, rfl⟩ := hs
    exact h.step (.quiet (mapQuiet_goto (fun h => h) rfl rfl))
  | resume u => exact h.step (mapStep_resume hd hs)

theorem MapHeld.of_run {as : List Action} (h : Run TwoPL.step anyStep State.start as s) :
    MapHeld s :=
  h.invariant_with (P := MapHeld) (Q := fun s => Inv s.data) (fun h => Inv.of_run h)
    (by simp [MapHeld, State.start]) fun _ _ _ hd hm _ hs => hm.of_step hd hs

end

/-! ### The call itself -/

/-- Nothing but the lock of `tMap`, the calls in progress and the log is any different. -/
structure Unchanged (s s' : State) : Prop where
  tMap : s'.tMap = s.tMap
  lockInfos : s'.lockInfos = s.lockInfos
  store : s'.store = s.store
  locks : ∀ lid, lid ≠ tMapLockId → s'.locks lid = s.locks lid

/-- The call `c` of transaction `id` is to be answered `TRANSIDINV`, as long as the server lives and
the id is not handed out meanwhile. -/
def rejecting (id : TransactionId) (c : Call) : Errand State Action where
  own a := a = .resume id
  other s a := a ≠ .resume id ∧ ¬ (a = .begin ∧ s.nextTransactionId = id)
  waits s := s.dead = true ∨ s.calls id = some (.findAcq c) ∧ s.locks tMapLockId ≠ none
  keeps := Unchanged
  done s _ s' := s'.log = s.log ++ [.returned id c .transidinv []] ∧
    s'.locks tMapLockId = none ∧ s'.calls id = none

/-- The call `c` of transaction `id` is answered `TRANSIDINV`, and nothing else happens. -/
def Rejects (s : State) (id : TransactionId) (c : Call) : Prop :=
  s.dead = true ∨ ∃ s', step s (.call id c) = some s' ∧
    Unchanged s s' ∧ s'.log = s.log ∧ s'.locks = s.locks ∧ (rejecting id c).Settles step s'

/-- The call of a transaction that is not there has come to `pc`. -/
structure Stray (id : TransactionId) (pc : Pc) (s : State) : Prop where
  data : Inv s.data
  map : MapHeld s
  calls : s.calls id = some pc
  unknown : s.tMap id = none

section

variable {id : TransactionId} {c : Call} {pc : Pc} {s s' : State} {a : Action}

theorem Inv.of_step (h : Inv s.data) (hs : TwoPL.step s a = some s') : Inv s'.data := by
  have hsteps : ∀ d, ReflTransGen Data.Step s.data d → Inv d := by
    intro d hd
    induction hd with
    | refl => exact h
    | tail _ hstep ih => exact ih.step hstep
  exact hsteps _ (refines hs)

/-- Only `transaction_begin` makes a transaction. -/
theorem unknown_step (h : s.tMap id = none) (hs : step s a = some s') (ha : a ≠ .begin) :
    s'.tMap id = none := by
  obtain ⟨new, -, hthere⟩ := there_step hs ha
  have hthere := hthere id
  rw [h, Option.isSome_none, foldl_after_false] at hthere
  simpa using hthere

theorem Stray.other (h : Stray id pc s) (ha : (rejecting id c).other s a)
    (hs : step s a = some s') : Stray id pc s' := by
  refine ⟨h.data.of_step hs, h.map.of_step h.data hs, ?_, ?_⟩
  · cases a with
    | begin =>
      rw [step, State.begin, Option.ite_none_right_eq_some, Option.some_inj] at hs
      obtain ⟨-, rfl⟩ := hs
      exact h.calls
    | call u c =>
      rw [step, State.call, Option.ite_none_right_eq_some, Option.some_inj] at hs
      obtain ⟨⟨-, hidle⟩, rfl⟩ := hs
      have hne : id ≠ u := by
        rintro rfl
        cases h.calls.symm.trans hidle
      simpa [State.goto, hne] using h.calls
    | resume u =>
      have hne : id ≠ u := by
        rintro rfl
        exact ha.1 rfl
      exact ((mapStep_resume h.data hs).others hne).trans h.calls
  · by_cases hbegin : a = .begin
    · subst hbegin
      have hne : ¬ s.nextTransactionId = id := fun heq => ha.2 ⟨rfl, heq⟩
      have hthere := (there_begin hs).2 id
      rw [h.unknown, decide_eq_false hne] at hthere
      simpa using hthere
    · exact unknown_step h.unknown hs hbegin

theorem live_of_resume (hs : step s (.resume id) = some s') : s.dead = false := by
  cases hdead : s.dead with
  | false => rfl
  | true =>
    rw [step, State.resume, hdead] at hs
    cases hs

/-- The call gets the lock of `tMap`. -/
theorem Stray.findAcq (h : Stray id (.findAcq c) s) (hlive : s.dead = false) :
    step s (.resume id) = (s.acquire id tMapLockId).map fun s => s.goto id (.findRel c) := by
  rw [step, State.resume, hlive, h.calls, h.unknown]
  rfl

/-- It looks at `tMap` and returns. -/
theorem Stray.findRel (h : Stray id (.findRel c) s) (hlive : s.dead = false) :
    step s (.resume id) = some ({ s with
      locks := Function.update s.locks tMapLockId none }.reply id c .transidinv []) := by
  have hgo : step s (.resume id) = s.resumeUnknown id (.findRel c) := by
    rw [step, State.resume, hlive, h.calls, h.unknown]
  rw [hgo, State.resumeUnknown, State.release, h.map id _ h.calls trivial]

theorem Stray.settles_findRel (h : Stray id (.findRel c) s) :
    (rejecting id c).SettlesIn step 1 s := by
  refine .intro (I := Stray id (.findRel c)) h (fun _ _ _ h => h.other) ?_ ?_
  · intro s h
    cases hdead : s.dead with
    | true => exact .inl (.inl hdead)
    | false => exact .inr ⟨_, _, rfl, h.findRel hdead⟩
  · rintro s a s' h rfl hs
    rw [h.findRel (live_of_resume hs), Option.some_inj] at hs
    subst hs
    refine ⟨⟨rfl, rfl, rfl, fun lid hlid => ?_⟩, .inl ⟨rfl, ?_, ?_⟩⟩
    · exact Function.update_of_ne hlid ..
    · simp [State.reply]
    · simp [State.reply]

theorem Stray.settles_findAcq (h : Stray id (.findAcq c) s) :
    (rejecting id c).SettlesIn step 2 s := by
  refine .intro (I := Stray id (.findAcq c)) h (fun _ _ _ h => h.other) ?_ ?_
  · intro s h
    cases hdead : s.dead with
    | true => exact .inl (.inl hdead)
    | false =>
      cases hfree : s.locks tMapLockId with
      | some holder => exact .inl (.inr ⟨h.calls, by simp [hfree]⟩)
      | none =>
        have hgo := h.findAcq hdead
        rw [State.acquire, hfree] at hgo
        exact .inr ⟨_, _, rfl, hgo⟩
  · rintro s a s' h rfl hs
    have hdata := h.data.of_step hs
    have hmap := h.map.of_step h.data hs
    have hunknown := unknown_step h.unknown hs (by simp)
    rw [h.findAcq (live_of_resume hs)] at hs
    obtain ⟨s₁, h₁, rfl⟩ := Option.map_eq_some_iff.1 hs
    obtain ⟨-, rfl⟩ := State.acquire_cases h₁
    refine ⟨⟨rfl, rfl, rfl, fun lid hlid => ?_⟩, .inr ?_⟩
    · exact Function.update_of_ne hlid ..
    · exact Stray.settles_findRel ⟨hdata, hmap, Function.update_self .., hunknown⟩

end

theorem rejects {as : List Action} {s : State} {id : TransactionId}
    (h : Run step anyStep State.start as s) (hid : s.tMap id = none) (hidle : s.calls id = none)
    (c : Call) : Rejects s id c := by
  cases hdead : s.dead with
  | true => exact .inl hdead
  | false =>
    have hs : step s (.call id c) = some (s.goto id (.findAcq c)) := by
      rw [step, State.call, if_pos ⟨hdead, hidle⟩]
    refine .inr ⟨_, hs, ⟨rfl, rfl, rfl, fun _ _ => rfl⟩, rfl, rfl, 2, ?_⟩
    exact Stray.settles_findAcq ⟨(Inv.of_run h).of_step hs,
      (MapHeld.of_run h).of_step (Inv.of_run h) hs, Function.update_self ..,
      unknown_step hid hs (by simp)⟩

end TwoPL

/-! ## Both -/

/-- **The locking server rejects every call of a transaction that is not active, and the optimistic
server every one but `transaction_abort`.** -/
theorem finished_rejected_iff (n₀ : TransactionId) :
    (∀ as s id c, Run Occ.step anyStep (Occ.State.start n₀) as s →
      active id (Occ.told n₀ as) = false → (Occ.Rejects s id c ↔ c ≠ .transactionAbort)) ∧
    ∀ as s id c, Run TwoPL.step anyStep TwoPL.State.start as s →
      active id (TwoPL.told as) = false → s.calls id = none → TwoPL.Rejects s id c := by
  constructor
  · intro as s id c h hid
    rw [Occ.active_iff h, Option.isSome_eq_false_iff, Option.isNone_iff_eq_none] at hid
    refine Occ.rejects_iff hid ?_ c
    by_contra hcall
    obtain ⟨pc, hpc⟩ := Option.ne_none_iff_exists'.1 hcall
    obtain ⟨m, hm, -⟩ := (Occ.Inv.of_run h).about id pc hpc
    cases hid.symm.trans hm
  · intro as s id c h hid hidle
    rw [TwoPL.active_iff h, Option.isSome_eq_false_iff, Option.isNone_iff_eq_none] at hid
    exact TwoPL.rejects h hid hidle c

/-- A transaction of the optimistic server that is aborted. -/
def Occ.aborting : List Occ.Action := [.begin, .call 0 .transactionAbort]

/-- One of the locking server. -/
def TwoPL.aborting : List TwoPL.Action :=
  [.begin, .call 1 .transactionAbort] ++ List.replicate 4 (.resume 1)

theorem finished_rejected_get :
    (∃ s, Run Occ.step anyStep (Occ.State.start 0) Occ.aborting s ∧
      Occ.Rejects s 0 (.get [97])) ∧
    ∃ s, Run TwoPL.step anyStep TwoPL.State.start TwoPL.aborting s ∧
      TwoPL.Rejects s 1 (.get [97]) := by
  constructor
  · have hend : (execute Occ.step (Occ.State.start 0) Occ.aborting).isSome := by decide
    obtain ⟨s, hs⟩ := Option.isSome_iff_exists.1 hend
    exact ⟨s, .of_execute hs,
      ((finished_rejected_iff 0).1 _ s 0 _ (.of_execute hs) (by decide)).2 (by simp)⟩
  · have hend : (execute TwoPL.step TwoPL.State.start TwoPL.aborting).map
        (fun s => (s.calls 1).isNone) = some true := by decide
    obtain ⟨s, hs, hidle⟩ := Option.map_eq_some_iff.1 hend
    exact ⟨s, .of_execute hs, (finished_rejected_iff 0).2 _ s 1 _ (.of_execute hs) (by decide)
      (Option.isNone_iff_eq_none.1 hidle)⟩

/-- **A transaction can be aborted twice.** -/
theorem not_finished_rejected : ¬ ∀ as s id c,
    Run Occ.step anyStep (Occ.State.start 0) as s → active id (Occ.told 0 as) = false →
    Occ.Rejects s id c := by
  intro h
  have hend : (execute Occ.step (Occ.State.start 0) Occ.aborting).map
      (fun s => decide ((s.tMap 0).isNone ∧ (s.calls 0).isNone)) = some true := by decide
  obtain ⟨s, hs, hnone⟩ := Option.map_eq_some_iff.1 hend
  obtain ⟨hmap, hidle⟩ := of_decide_eq_true hnone
  exact (Occ.rejects_iff (Option.isNone_iff_eq_none.1 hmap) (Option.isNone_iff_eq_none.1 hidle)
    .transactionAbort).1 (h _ s 0 _ (.of_execute hs) (by decide)) rfl

end Ydb
end CseLab
