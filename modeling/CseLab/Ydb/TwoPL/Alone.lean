import CseLab.Ydb.TwoPL.Serial
import Mathlib.Data.Int.Interval

/-!
# Re-running the committed transactions on the server itself

`RunsAlone` gives the server one transaction and nothing else: it begins, its calls are served one
after another, each to its end, and it commits.  `RunsSerially` does that for a list of
transactions.  On a server with nothing else to do no lock is ever held by anyone else and nobody
ever follows, so every call goes straight through (`Lone.op`, `Lone.commit`).

`serialisable` is the outcome: whatever the schedule, the committed transactions can be run alone in
commit order, every call returns the same and the store ends up the same.
-/

set_option autoImplicit false

namespace CseLab
namespace Ydb
namespace TwoPL

open Serial

/-! ## Serial runs -/

/-- The call transaction `id` has in progress in `s` has returned in `s'`, and nobody else has done
anything in between. -/
inductive Finishes (id : TransactionId) : State → State → Prop
  | returned {s : State} (h : s.calls id = none) : Finishes id s s
  | more {s s₁ s' : State} (h : s.resume id = some s₁) (hf : Finishes id s₁ s') : Finishes id s s'

/-- The calls `cs` of transaction `id`, served one after another. -/
inductive Serves (id : TransactionId) : State → List Call → State → Prop
  | nil (s : State) : Serves id s [] s
  | cons {s s₁ s₂ s' : State} {c : Call} {cs : List Call} (h : s.call id c = some s₁)
      (hf : Finishes id s₁ s₂) (hs : Serves id s₂ cs s') : Serves id s (c :: cs) s'

/-- A transaction begins, its calls are served one after another, and it commits. -/
def RunsAlone (s : State) (cs : List Call) (s' : State) : Prop :=
  ∃ s₁, s.begin = some s₁ ∧ Serves s.nextTransactionId s₁ (cs ++ [.transactionCommit]) s'

/-- Transactions, one after another. -/
inductive RunsSerially : State → List (List Call) → State → Prop
  | nil (s : State) : RunsSerially s [] s
  | cons {s s₁ s' : State} {cs : List Call} {ts : List (List Call)} (h : RunsAlone s cs s₁)
      (hs : RunsSerially s₁ ts s') : RunsSerially s (cs :: ts) s'

theorem Serves.append {id : TransactionId} {s s₁ s' : State} {cs ds : List Call}
    (h : Serves id s cs s₁) (h' : Serves id s₁ ds s') : Serves id s (cs ++ ds) s' := by
  induction h with
  | nil => exact h'
  | cons h hf _ ih => exact .cons h hf (ih h')

/-! ## A server with one transaction -/

/-- `s` with the call of `id` at `pc`, the locks `L` and the lock table `I`. -/
def State.at (s : State) (id : TransactionId) (pc : Pc) (L : LockId → Option Holder)
    (I : LockId → LockInfo) : State :=
  { s with calls := Function.update s.calls id (some pc), locks := L, lockInfos := I }

/-- Transaction `id`, whose contents are `m`, is the only one that holds anything: it has the locks
`held`, and owns them. -/
structure Lone (s : State) (id : TransactionId) (m : TContent) (held : List LockId) : Prop where
  dead : s.dead = false
  known : s.tMap id = some m
  idle : ∀ u, u ≠ id → s.calls u = none
  data : ∀ l ∈ held, l < maxKey
  locks : ∀ l, s.locks l = if l ∈ held then some (.thread id) else none
  infos : ∀ l, s.lockInfos l = ⟨if l ∈ held then some id else none, []⟩

section steps

variable {s : State} {id : TransactionId} {m : TContent} {L : LockId → Option Holder}
  {I : LockId → LockInfo} {held : List LockId}

theorem Lone.table (h : Lone s id m held) {l : LockId} (hl : maxKey ≤ l) : s.locks l = none := by
  rw [h.locks, if_neg]
  intro hmem
  exact absurd (h.data l hmem) (Nat.not_lt.2 hl)

theorem at_acquire (hdead : s.dead = false) (hid : s.tMap id = some m) {pc pc' : Pc} {l : LockId}
    (hpc : ∀ s : State, s.resumeAt id m pc = (s.acquire id l).map fun s => s.goto id pc')
    (hfree : L l = none) :
    (s.at id pc L I).resume id = some (s.at id pc' (Function.update L l (some (.thread id))) I) := by
  simp [State.resume, State.at, hdead, hid, hpc, State.acquire, hfree, State.goto]

theorem at_release (hdead : s.dead = false) (hid : s.tMap id = some m) {pc pc' : Pc} {l : LockId}
    {h : Holder} (hpc : ∀ s : State, s.resumeAt id m pc = some ((s.release l).goto id pc'))
    (hfree : L l = none) :
    (s.at id pc (Function.update L l (some h)) I).resume id = some (s.at id pc' L I) := by
  have hback : Function.update L l none = L := by rw [← hfree, Function.update_eq_self]
  simp [State.resume, State.at, hdead, hid, hpc, State.release, State.goto, hback]

theorem at_found (pc : Pc) (c : Call) : (s.goto id pc).found id m c = s.found id m c := by
  have haccess : ∀ op, (s.goto id pc).access id m op = s.access id m op := by
    intro op
    rw [State.access, State.access]
    split <;> simp [State.goto, State.reply, State.setContent]
  cases c with
  | get | set | del => exact haccess _
  | transactionCommit => simp [State.found, State.goto]
  | transactionAbort =>
    rw [State.found, State.found]
    cases m.keys <;> simp [State.finishT, State.goto]

/-- The beginning of every call: the transaction is looked up. -/
theorem Lone.find (h : Lone s id m held) (hcall : s.calls id = none) (c : Call) {s' : State}
    (hf : Finishes id (s.found id m c) s') :
    ∃ s₁, s.call id c = some s₁ ∧ Finishes id s₁ s' := by
  have hfree := h.table (Nat.le_refl tMapLockId)
  have hback : Function.update s.locks tMapLockId none = s.locks := by
    rw [← hfree, Function.update_eq_self]
  refine ⟨s.goto id (.findAcq c), by simp [State.call, h.dead, hcall], ?_⟩
  have hacq : (s.at id (.findAcq c) s.locks s.lockInfos).resume id = some (s.at id (.findRel c)
      (Function.update s.locks tMapLockId (some (.thread id))) s.lockInfos) :=
    at_acquire h.dead h.known (fun _ => rfl) hfree
  refine .more hacq (.more ?_ hf)
  rw [← at_found (.findRel c)]
  simp [State.resume, State.at, h.dead, h.known, State.resumeAt, State.release, State.goto, hback]

/-! ## A read or write -/

/-- The contents after an access, and what it returns. -/
inductive Touch (store : IdealStore) (m : TContent) (op : Op) : TContent → Bytes → Prop
  | read {e : TValue} (he : m.find op.eid = some e) (hw : op.written = none) :
      Touch store m op m e.value
  | write {e : TValue} {value : Bytes} (he : m.find op.eid = some e)
      (hw : op.written = some value) : Touch store m op (m.set op.eid ⟨value, .write⟩) []
  | new {e : TValue} (he : m.find op.eid = none) (hg : op.Gives e (store op.eid)) :
      Touch store m op (m.set op.eid e) (op.out e)

/-- In `s'` the access `op` of the lone transaction `id` has returned `out`. -/
structure Answered (s : State) (id : TransactionId) (m : TContent) (op : Op) (s' : State)
    (m' : TContent) (out : Bytes) : Prop where
  touch : Touch s.store m op m' out
  lone : Lone s' id m' m'.keys
  idle : s'.calls id = none
  store : s'.store = s.store
  next : s'.nextTransactionId = s.nextTransactionId
  others : ∀ u, u ≠ id → s'.tMap u = s.tMap u
  log : s'.log = s.log ++ [.returned id op.call .ok out]

theorem Lone.access_hit (h : Lone s id m m.keys) {op : Op} {e : TValue}
    (he : m.find op.eid = some e) :
    ∃ s' m' out, Finishes id (s.access id m op) s' ∧ Answered s id m op s' m' out := by
  cases hw : op.written with
  | none =>
    have hgo : s.access id m op = s.reply id op.call .ok e.value := by rw [State.access, he, hw]
    have hlone : Lone (s.reply id op.call .ok e.value) id m m.keys :=
      ⟨h.dead, h.known, fun u hu => by simp [State.reply, hu, h.idle u hu], h.data, h.locks,
        h.infos⟩
    refine ⟨s.reply id op.call .ok e.value, m, e.value, ?_, .read he hw, hlone,
      by simp [State.reply], rfl, rfl, fun _ _ => rfl, rfl⟩
    rw [hgo]
    exact .returned (by simp [State.reply])
  | some value =>
    have hkey : op.eid ∈ m.keys := by rw [OrdMap.mem_keys, he]; rfl
    let m' : TContent := m.set op.eid ⟨value, .write⟩
    have hkeys : ∀ l, l ∈ m'.keys ↔ l ∈ m.keys := by
      intro l
      rw [OrdMap.mem_keys_set]
      exact ⟨fun h => h.elim (fun h => h ▸ hkey) fun h => h, .inr⟩
    have hgo : s.access id m op = (s.setContent id m').reply id op.call .ok [] := by
      rw [State.access, he, hw]
    have hlone : Lone ((s.setContent id m').reply id op.call .ok []) id m' m'.keys := by
      refine ⟨h.dead, by simp [State.reply, State.setContent],
        fun u hu => by simp [State.reply, State.setContent, hu, h.idle u hu],
        fun l hl => h.data l ((hkeys l).1 hl), fun l => ?_, fun l => ?_⟩
      · simp only [hkeys]
        exact h.locks l
      · simp only [hkeys]
        exact h.infos l
    refine ⟨(s.setContent id m').reply id op.call .ok [], m', [], ?_, .write he hw, hlone,
      by simp [State.reply], rfl, rfl, fun u hu => by simp [State.reply, State.setContent, hu], rfl⟩
    rw [hgo]
    exact .returned (by simp [State.reply])

/-- The last steps of an access that has the lock and its entry in hand. -/
theorem Lone.access_enter (h : Lone s id m m.keys) {op : Op} {e : TValue}
    (he : m.find op.eid = none) (hg : op.Gives e (s.store op.eid)) :
    ∃ s' m' out, Finishes id (s.at id (.insAcq op e)
        (Function.update s.locks op.eid (some (.thread id)))
        (Function.update s.lockInfos op.eid ⟨some id, []⟩)) s' ∧
      Answered s id m op s' m' out := by
  let L := Function.update s.locks op.eid (some (.thread id))
  let I := Function.update s.lockInfos op.eid ⟨some id, []⟩
  have hne : tMapLockId ≠ op.eid := Nat.ne_of_gt op.eid_lt
  have hfree : L tMapLockId = none := by
    rw [show L tMapLockId = s.locks tMapLockId from Function.update_of_ne hne ..]
    exact h.table (Nat.le_refl _)
  have hback : Function.update L tMapLockId none = L := by rw [← hfree, Function.update_eq_self]
  let s' : State := { s with
    tMap := Function.update s.tMap id (some (m.set op.eid e))
    locks := L
    lockInfos := I
    calls := Function.update s.calls id none
    log := s.log ++ [.returned id op.call .ok (op.out e)] }
  have hins : (s.at id (.insRel op e) (Function.update L tMapLockId (some (.thread id))) I).resume id
      = some s' := by
    simp [State.resume, State.at, h.dead, h.known, State.resumeAt, State.release, State.reply,
      State.setContent, hback, OrdMap.insert_of_find_none he, s', Op.out]
  have hlone : Lone s' id (m.set op.eid e) (m.set op.eid e : TContent).keys := by
    refine ⟨h.dead, by simp [s'], fun u hu => by simp [s', hu, h.idle u hu], fun l hl => ?_,
      fun l => ?_, fun l => ?_⟩
    · rcases OrdMap.mem_keys_set.1 hl with rfl | hl
      · exact op.eid_lt
      · exact h.data l hl
    · simp only [OrdMap.mem_keys_set]
      by_cases hl : l = op.eid
      · simp [s', L, hl]
      · simp [s', L, hl, h.locks]
    · simp only [OrdMap.mem_keys_set]
      by_cases hl : l = op.eid
      · simp [s', I, hl]
      · simp [s', I, hl, h.infos]
  refine ⟨s', m.set op.eid e, op.out e, ?_, .new he hg, hlone, by simp [s'], rfl, rfl,
    fun u hu => by simp [s', hu], rfl⟩
  exact .more (at_acquire h.dead h.known (fun _ => rfl) hfree)
    (.more hins (.returned (by simp [s'])))

/-- An access to an extent the transaction does not have: its lock is free and has no owner. -/
theorem Lone.access_miss (h : Lone s id m m.keys) {op : Op} (he : m.find op.eid = none) :
    ∃ s' m' out, Finishes id (s.access id m op) s' ∧ Answered s id m op s' m' out := by
  let L := Function.update s.locks op.eid (some (.thread id))
  let I := Function.update s.lockInfos op.eid ⟨some id, []⟩
  have hkey : op.eid ∉ m.keys := by rw [OrdMap.mem_keys, he]; simp
  have hinfo : s.lockInfos op.eid = ⟨none, []⟩ := by rw [h.infos, if_neg hkey]
  have hfree : s.locks op.eid = none := by rw [h.locks, if_neg hkey]
  have hinfos := h.table (Nat.le_succ maxKey)
  have hgo : s.access id m op = s.at id (.infoAcq op) s.locks s.lockInfos := by
    rw [State.access, he]
    rfl
  have hcode : (s.at id (.infoCode op)
      (Function.update s.locks lockInfosLockId (some (.thread id))) s.lockInfos).resume id =
      some (s.at id (.infoRelO op)
        (Function.update s.locks lockInfosLockId (some (.thread id))) I) := by
    simp [State.resume, State.at, h.dead, h.known, State.resumeAt, State.checkOwner, hinfo,
      State.setInfo, State.goto, I]
  have hlock : (s.at id (.dataAcqO op) s.locks I).resume id =
      some ({ s with locks := L, lockInfos := I }.locked id op) := by
    cases op <;> simp [State.resume, State.at, h.dead, h.known, State.resumeAt, State.acquire, hfree,
      State.locked, State.goto, L]
  have hrest : ∃ s' m' out, Finishes id ({ s with locks := L, lockInfos := I }.locked id op) s' ∧
      Answered s id m op s' m' out := by
    cases op with
    | get key =>
      obtain ⟨s', m', out, hf, ha⟩ := h.access_enter he
        (show (Op.get key).Gives ⟨s.store (hash key), .read⟩ _ from rfl)
      refine ⟨s', m', out, .more ?_ hf, ha⟩
      simp [State.resume, State.at, h.dead, h.known, State.resumeAt, State.locked, State.goto, L, I]
    | set key value =>
      exact h.access_enter he (show (Op.set key value).Gives ⟨value, .write⟩ _ from rfl)
    | del key => exact h.access_enter he (show (Op.del key).Gives ⟨[], .write⟩ _ from rfl)
  obtain ⟨s', m', out, hf, ha⟩ := hrest
  refine ⟨s', m', out, ?_, ha⟩
  rw [hgo]
  exact .more (at_acquire h.dead h.known (fun _ => rfl) hinfos) (.more hcode
    (.more (at_release h.dead h.known (fun _ => rfl) hinfos) (.more hlock hf)))

/-- **A read or write of a lone transaction** goes straight through. -/
theorem Lone.op (h : Lone s id m m.keys) (hcall : s.calls id = none) (op : Op) :
    ∃ s₁ s' m' out, s.call id op.call = some s₁ ∧ Finishes id s₁ s' ∧
      Answered s id m op s' m' out := by
  have haccess : ∃ s' m' out, Finishes id (s.access id m op) s' ∧ Answered s id m op s' m' out := by
    cases he : m.find op.eid with
    | none => exact h.access_miss he
    | some e => exact h.access_hit he
  obtain ⟨s', m', out, hf, ha⟩ := haccess
  have hfound : s.found id m op.call = s.access id m op := by cases op <;> rfl
  obtain ⟨s₁, hs₁, hf₁⟩ := h.find hcall op.call (hfound ▸ hf)
  exact ⟨s₁, s', m', out, hs₁, hf₁, ha⟩

/-! ## A commit -/

/-- The store after the loop of `transaction_commit`. -/
def putAll (store : IdealStore) (entries : List (ExtentId × TValue)) : IdealStore :=
  entries.foldl State.putEntry store

theorem put_loop (hdead : s.dead = false) (hid : s.tMap id = some m) {s' : State} :
    ∀ (rem : List (ExtentId × TValue)) (store : IdealStore),
      Finishes id ({ s with store := putAll store rem }.finishT id .commit m.keys) s' →
      Finishes id ({ s with store := store }.goto id (.put rem)) s' := by
  intro rem
  induction rem with
  | nil =>
    intro store hf
    refine .more ?_ hf
    cases hkeys : m.keys <;>
      simp [State.resume, State.goto, hdead, hid, State.resumeAt, hkeys, State.finishT, putAll]
  | cons p rem ih =>
    intro store hf
    refine .more ?_ (ih (State.putEntry store p) hf)
    simp [State.resume, State.goto, hdead, hid, State.resumeAt]

/-- What is left of a transaction when it is gone. -/
structure Ended (s : State) (id : TransactionId) (w : Why) (s' : State) : Prop where
  dead : s'.dead = false
  idle : ∀ u, s'.calls u = none
  locks : ∀ l, s'.locks l = none
  infos : ∀ l, s'.lockInfos l = ⟨none, []⟩
  gone : s'.tMap = Function.update s.tMap id none
  store : s'.store = s.store
  next : s'.nextTransactionId = s.nextTransactionId
  log : s'.log = s.log ++ [.returned id w.call w.status []]

/-- **`finishT` of a lone transaction** gives all its locks back. -/
theorem Lone.finish {s : State} {id : TransactionId} {m : TContent} {held : List LockId}
    (h : Lone s id m held) (hnd : held.Nodup) (w : Why) :
    ∃ s', Finishes id (s.finishT id w held) s' ∧ Ended s id w s' := by
  induction held generalizing s with
  | nil =>
    have hfree := h.table (Nat.le_refl tMapLockId)
    have hback : Function.update s.locks tMapLockId none = s.locks := by
      rw [← hfree, Function.update_eq_self]
    let s' : State := { s with
      tMap := Function.update s.tMap id none
      calls := Function.update s.calls id none
      log := s.log ++ [.returned id w.call w.status []] }
    have herase : (s.at id (.eraseRel w)
        (Function.update s.locks tMapLockId (some (.thread id))) s.lockInfos).resume id
        = some s' := by
      simp [State.resume, State.at, h.dead, h.known, State.resumeAt, State.release, State.reply,
        hback, s']
    refine ⟨s', .more (at_acquire h.dead h.known (fun _ => rfl) hfree)
      (.more herase (.returned (by simp [s']))), h.dead, fun u => ?_, fun l => ?_, fun l => ?_, rfl,
      rfl, rfl, rfl⟩
    · by_cases hu : u = id
      · simp [s', hu]
      · simp [s', hu, h.idle u hu]
    · simpa using h.locks l
    · simpa using h.infos l
  | cons lid held ih =>
    let L := Function.update s.locks lid none
    let I := Function.update s.lockInfos lid ⟨none, []⟩
    let s₁ : State := { s with locks := L, lockInfos := I }
    have hlid := h.locks lid
    have hinfo := h.infos lid
    rw [if_pos List.mem_cons_self] at hlid hinfo
    have hnot : lid ∉ held := (List.nodup_cons.1 hnd).1
    have hinfos := h.table (Nat.le_succ maxKey)
    have hlone : Lone s₁ id m held := by
      refine ⟨h.dead, h.known, h.idle, fun l hl => h.data l (List.mem_cons_of_mem _ hl),
        fun l => ?_, fun l => ?_⟩
      · by_cases hl : l = lid
        · simp [s₁, L, hl, hnot]
        · simp [s₁, L, hl, h.locks]
      · by_cases hl : l = lid
        · simp [s₁, I, hl, hnot]
        · simp [s₁, I, hl, h.infos]
    have hcode : (s.at id (.finCode w lid held)
        (Function.update s.locks lockInfosLockId (some (.thread id))) s.lockInfos).resume id =
        some (s.at id (.finInfoRel w lid held)
          (Function.update s.locks lockInfosLockId (some (.thread id))) I) := by
      simp [State.resume, State.at, h.dead, h.known, State.resumeAt, hinfo, State.setInfo,
        State.goto, I]
    have hrel : (s.at id (.finDataRel w lid held) s.locks I).resume id =
        some (s₁.finishT id w held) := by
      cases held <;> simp [State.resume, State.at, h.dead, h.known, State.resumeAt, State.release,
        hlid, State.finishT, State.goto, s₁, L]
    obtain ⟨s', hf, he⟩ := ih hlone (List.nodup_cons.1 hnd).2
    refine ⟨s', ?_, he.dead, he.idle, he.locks, he.infos, he.gone, he.store, he.next, he.log⟩
    exact .more (at_acquire h.dead h.known (fun _ => rfl) hinfos) (.more hcode
      (.more (at_release h.dead h.known (fun _ => rfl) hinfos) (.more hrel hf)))

/-- In `s'` the lone transaction `id` has committed. -/
structure Committed (s : State) (id : TransactionId) (m : TContent) (s' : State) : Prop where
  dead : s'.dead = false
  idle : ∀ u, s'.calls u = none
  locks : ∀ l, s'.locks l = none
  infos : ∀ l, s'.lockInfos l = ⟨none, []⟩
  gone : s'.tMap = Function.update s.tMap id none
  store : s'.store = putAll s.store m.entries
  next : s'.nextTransactionId = s.nextTransactionId
  log : s'.log = s.log ++ [.committed id] ++ [.returned id .transactionCommit .ok []]

/-- **A commit of a lone transaction** goes straight through. -/
theorem Lone.commit {s : State} {id : TransactionId} {m : TContent} (h : Lone s id m m.keys)
    (hcall : s.calls id = none) :
    ∃ s₁ s', s.call id .transactionCommit = some s₁ ∧ Finishes id s₁ s' ∧ Committed s id m s' := by
  let s₂ : State := { s with
    store := putAll s.store m.entries
    log := s.log ++ [.committed id] }
  have hlone : Lone s₂ id m m.keys := ⟨h.dead, h.known, h.idle, h.data, h.locks, h.infos⟩
  obtain ⟨s', hf, he⟩ := hlone.finish m.keys_nodup .commit
  have hloop := put_loop (s := s₂) h.dead h.known m.entries s.store hf
  obtain ⟨s₁, hs₁, hf₁⟩ := h.find hcall .transactionCommit hloop
  exact ⟨s₁, s', hs₁, hf₁, he.dead, he.idle, he.locks, he.infos, he.gone, he.store, he.next, he.log⟩

theorem putAll_apply (l : List (ExtentId × TValue)) (hl : l.Pairwise fun p q => p.1 < q.1)
    (store : IdealStore) (k : ExtentId) :
    putAll store l k =
      match l.lookup k with
      | some e => if e.status = .write then e.value else store k
      | none => store k := by
  induction l generalizing store with
  | nil => rfl
  | cons p l ih =>
    rw [List.pairwise_cons] at hl
    rw [putAll, List.foldl_cons, ← putAll, ih hl.2, OrdMap.lookup_pair]
    by_cases hk : k = p.1
    · subst hk
      have hnone : l.lookup p.1 = none := by
        rw [List.lookup_eq_none_iff]
        intro q hq
        simpa using ne_of_lt (hl.1 q hq)
      rw [hnone, if_pos rfl]
      exact putEntry_self store p
    · rw [if_neg hk, putEntry_of_ne _ hk]

/-- A commit leaves what its transaction's history says it wrote. -/
theorem putAll_eq_install {m : TContent} {l : Local ExtentId Bytes} (h : Matches m l)
    (store : IdealStore) : putAll store m.entries = install store l.wrote := by
  funext k
  rw [putAll_apply _ m.sorted, install, h.wrote]
  show (match m.find k with
    | some e => if e.status = TValueStatus.write then e.value else store k
    | none => store k) = _
  cases m.find k with
  | none => rfl
  | some e => cases hs : e.status <;> simp [hs]

end steps

/-! ## The calls of one transaction, served one after another -/

section touch

variable {store : IdealStore} {m m' : TContent} {l : Local ExtentId Bytes} {op : Op} {out : Bytes}

theorem Touch.matches (ht : Touch store m op m' out) (h : Matches m l) :
    Matches m' (l.after (op.done out)) := by
  cases ht with
  | read he hw =>
    rw [Op.done, hw, h.read he]
    exact h
  | write he hw =>
    rw [Op.done, hw]
    exact h.set_write _ _
  | new he hg => exact h.insert he hg

theorem Touch.fits (ht : Touch store m op m' out) (h : Matches m l) : l.Fits (op.done out) := by
  cases ht with
  | read he hw =>
    rw [Op.done, hw]
    exact h.fits_read he
  | write he hw =>
    rw [Op.done, hw]
    trivial
  | new he hg => exact h.fits_new he _

/-- A read of an extent the transaction has not touched returns what the store has. -/
theorem Touch.first (ht : Touch store m op m' out) (h : Matches m l) {k : ExtentId} {v : Bytes}
    (hd : op.done out = .get k v) (hk : l.touched k = none) : store k = v := by
  rw [h.touched, Option.map_eq_none_iff] at hk
  cases ht with
  | read he hw =>
    rw [Op.done, hw] at hd
    injection hd with hke
    rw [← hke, he] at hk
    exact absurd hk (by simp)
  | write he hw =>
    rw [Op.done, hw] at hd
    exact absurd hd (by simp)
  | new he hg =>
    rcases hg.cases with ⟨hw, rfl⟩ | ⟨value, hw, rfl⟩
    · rw [Op.done, Op.out, hw] at hd
      injection hd with hke hv
      rw [← hke, ← hv]
      rfl
    · rw [Op.done, hw] at hd
      exact absurd hd (by simp)

end touch

/-- Transaction `id` is alone on the server and has no call in progress, and what its contents and
its calls so far say is what the store says. -/
structure Alone (s : State) (id : TransactionId) (m : TContent) (l : Local ExtentId Bytes) :
    Prop where
  lone : Lone s id m m.keys
  idle : s.calls id = none
  told : Matches m l
  current : l.Of s.store
  tidy : l.Tidy

/-- What serving calls of transaction `id` leaves as it was. -/
structure Quiet (s s' : State) (id : TransactionId) : Prop where
  next : s'.nextTransactionId = s.nextTransactionId
  store : s'.store = s.store
  tMap : ∀ u, u ≠ id → s'.tMap u = s.tMap u
  order : commitOrder s'.log = commitOrder s.log
  others : ∀ u, u ≠ id → transcript s'.log u = transcript s.log u

theorem exists_op {c : Call} {out : Bytes} (h : (c.done out).isSome) : ∃ op : Op, c = op.call := by
  cases c with
  | get key => exact ⟨.get key, rfl⟩
  | set key value => exact ⟨.set key value, rfl⟩
  | del key => exact ⟨.del key, rfl⟩
  | transactionCommit | transactionAbort => exact absurd h (by simp [Call.done])

/-- **A read or write of a transaction that is alone** reads its own writes and otherwise the
store. -/
theorem Alone.op {s : State} {id : TransactionId} {m : TContent} {l : Local ExtentId Bytes}
    (h : Alone s id m l) (op : Op) :
    ∃ s₁ s₂ m₂ out, s.call id op.call = some s₁ ∧ Finishes id s₁ s₂ ∧
      Answered s id m op s₂ m₂ out ∧ Alone s₂ id m₂ (l.after (op.done out)) ∧
      ∀ k v, op.done out = .get k v → install s.store l.wrote k = v := by
  obtain ⟨s₁, s₂, m₂, out, hs₁, hf, ha⟩ := h.lone.op h.idle op
  refine ⟨s₁, s₂, m₂, out, hs₁, hf, ha,
    ⟨ha.lone, ha.idle, ha.touch.matches h.told, ?_, h.tidy.after _⟩, fun k v hd => ?_⟩
  · rw [ha.store]
    exact h.current.after h.tidy fun k v hd hk => ha.touch.first h.told hd hk
  · cases hk : l.touched k with
    | none => rw [install, (h.tidy k hk).1, Option.getD_none, ha.touch.first h.told hd hk]
    | some w =>
      have hfit := ha.touch.fits h.told
      rw [hd] at hfit
      rw [hfit w hk]
      exact h.current k w hk

/-- **The reads and writes of a transaction, served one after another**, return what was recorded,
when that is what a serial run returns. -/
theorem Alone.serveAll {cs : List (Call × Bytes)} {s : State} {id : TransactionId} {m : TContent}
    {l : Local ExtentId Bytes} (h : Alone s id m l) (hcs : ∀ p ∈ cs, (p.1.done p.2).isSome)
    (hr : rerun s.store l.wrote (doneOf cs) = doneOf cs) :
    ∃ s' m', Serves id s (cs.map Prod.fst) s' ∧ Alone s' id m' ((doneOf cs).foldl Local.after l) ∧
      Quiet s s' id ∧ history s'.log id = history s.log id ++ doneOf cs := by
  induction cs generalizing s m l with
  | nil =>
    exact ⟨s, m, .nil s, h, ⟨rfl, rfl, fun _ _ => rfl, rfl, fun _ _ => rfl⟩,
      (List.append_nil _).symm⟩
  | cons p cs ih =>
    obtain ⟨c, recorded⟩ := p
    obtain ⟨op, rfl⟩ := exists_op (hcs _ List.mem_cons_self)
    have hcons : doneOf ((op.call, recorded) :: cs) = op.done recorded :: doneOf cs :=
      List.filterMap_cons_some (op.done_call recorded)
    rw [hcons, rerun_cons_eq] at hr
    obtain ⟨s₁, s₂, m₂, out, hs₁, hf, ha, h₂, hget⟩ := h.op op
    have hsame : op.done out = op.done recorded := by
      rw [Op.done, Op.done]
      cases hw : op.written with
      | some value => rfl
      | none =>
        have h₁ := hget op.eid out (by rw [Op.done, hw])
        have h₂ := hr.1 op.eid recorded (by rw [Op.done, hw])
        show Done.get op.eid out = Done.get op.eid recorded
        rw [← h₁, ← h₂]
    obtain ⟨s', m', hserves, hs', hq, hhist⟩ :=
      ih (hsame ▸ h₂) (fun p hp => hcs p (List.mem_cons_of_mem _ hp)) (ha.store ▸ hr.2)
    refine ⟨s', m', .cons hs₁ hf hserves, hcons ▸ hs', ⟨hq.next.trans ha.next,
      hq.store.trans ha.store, fun u hu => (hq.tMap u hu).trans (ha.others u hu), ?_,
      fun u hu => ?_⟩, ?_⟩
    · rw [hq.order, ha.log, commitOrder_returned]
    · rw [hq.others u hu, ha.log, transcript_returned_ne _ _ _ _ hu]
    · rw [hhist, ha.log, history_returned_self _ _ (op.done_call out), hsame, hcons,
        List.append_assoc]
      rfl

/-! ## One transaction after another -/

/-- Nothing is going on: no call in progress, no lock held, and ids from the next one on are new. -/
structure Idle (s : State) : Prop where
  dead : s.dead = false
  idle : ∀ u, s.calls u = none
  locks : ∀ l, s.locks l = none
  infos : ∀ l, s.lockInfos l = ⟨none, []⟩
  unborn : ∀ u, s.nextTransactionId ≤ u → s.tMap u = none ∧ transcript s.log u = []
  born : ∀ u ∈ commitOrder s.log, u < s.nextTransactionId

/-- **A transaction that can be run alone on the store commits when it is**, returns what was
recorded, and installs what it wrote. -/
theorem runAlone_ok {s : State} {cs : List (Call × Bytes)} (hi : Idle s)
    (hlt : s.nextTransactionId < intMax) (hcs : ∀ p ∈ cs, (p.1.done p.2).isSome)
    (hr : rerun s.store (fun _ => none) (doneOf cs) = doneOf cs) :
    ∃ s', RunsAlone s (cs.map Prod.fst) s' ∧ Idle s' ∧
      s'.nextTransactionId = s.nextTransactionId + 1 ∧
      committedHistories s'.log = committedHistories s.log ++ [doneOf cs] ∧
      s'.store = install s.store (track (doneOf cs)).wrote := by
  obtain ⟨hmap, hlog⟩ := hi.unborn s.nextTransactionId (Int.le_refl _)
  let id := s.nextTransactionId
  let s₁ : State := { s with
    nextTransactionId := id + 1
    tMap := Function.update s.tMap id (some OrdMap.empty) }
  have hbegin : s.begin = some s₁ := by
    simp [State.begin, hi.dead, hi.locks, hlt, hmap, s₁, id]
  have h₁ : Alone s₁ id OrdMap.empty Local.start :=
    ⟨⟨hi.dead, by simp [s₁], fun u _ => hi.idle u, by simp, by simpa using hi.locks,
      by simpa using hi.infos⟩, hi.idle id, .empty, fun _ _ h => absurd h (by simp [Local.start]),
      .start⟩
  obtain ⟨s₂, m, hserves, h₂, hq, hhist⟩ := h₁.serveAll hcs hr
  obtain ⟨s₃, s', hs₃, hf, hc⟩ := h₂.lone.commit h₂.idle
  have hnew : history s₂.log id = doneOf cs := by
    rw [hhist, history, show transcript s₁.log id = [] from hlog]
    rfl
  have hold : ∀ u ∈ commitOrder s.log, u ≠ id := fun u hu => Int.ne_of_lt (hi.born u hu)
  have hlog' : ∀ u, u ≠ id → transcript s'.log u = transcript s.log u := by
    intro u hu
    rw [hc.log, transcript_returned_ne _ _ _ _ hu, transcript_committed, hq.others u hu]
  have hnext : s'.nextTransactionId = s.nextTransactionId + 1 := hc.next.trans hq.next
  have hcommitted : committedHistories s'.log = committedHistories s.log ++ [doneOf cs] := by
    rw [hc.log, committedHistories_returned (.inr fun _ => rfl), committedHistories_committed, hnew]
    refine congrArg (· ++ [doneOf cs]) ?_
    rw [committedHistories, hq.order, committedHistories]
    refine List.map_congr_left fun u hu => ?_
    rw [history, hq.others u (hold u hu)]
    rfl
  have horder : commitOrder s'.log = commitOrder s.log ++ [id] := by
    rw [hc.log, commitOrder_returned, commitOrder_committed, hq.order]
  refine ⟨s', ⟨s₁, hbegin, hserves.append (.cons hs₃ hf (.nil s'))⟩,
    ⟨hc.dead, hc.idle, hc.locks, hc.infos, fun u hu => ?_, fun u hu => ?_⟩, hnext, hcommitted, ?_⟩
  · rw [hnext] at hu
    have hlt' : id < u := hu
    have hui : u ≠ id := Int.ne_of_gt hlt'
    obtain ⟨h₁, h₂⟩ := hi.unborn u (Int.le_of_lt hlt')
    refine ⟨?_, by rw [hlog' u hui, h₂]⟩
    rw [hc.gone, Function.update_of_ne hui, hq.tMap u hui]
    simpa [s₁, hui] using h₁
  · rw [horder] at hu
    rw [hnext]
    rcases List.mem_append.1 hu with hu | hu
    · exact Int.lt_trans (hi.born u hu) (Int.lt_succ _)
    · rw [List.mem_singleton.1 hu]
      exact Int.lt_succ _
  · rw [hc.store, hq.store, putAll_eq_install h₂.told]
    rfl

/-- Transactions that have run as if one after another do the same when they are run one after
another. -/
theorem runSerially_ok {ts : List (List (Call × Bytes))} {s : State} (hi : Idle s)
    (hlt : ∀ n < ts.length, s.nextTransactionId + n < intMax)
    (hts : ∀ cs ∈ ts, ∀ p ∈ cs, (p.1.done p.2).isSome) (hok : SerialOK s.store (ts.map doneOf)) :
    ∃ s', RunsSerially s (ts.map (List.map Prod.fst)) s' ∧
      committedHistories s'.log = committedHistories s.log ++ ts.map doneOf ∧
      s'.store = serialStore s.store (ts.map doneOf) := by
  induction ts generalizing s with
  | nil => exact ⟨s, .nil s, (List.append_nil _).symm, rfl⟩
  | cons cs ts ih =>
    have hlt₀ : s.nextTransactionId < intMax := by simpa using hlt 0 (Nat.zero_lt_succ _)
    obtain ⟨s₁, hrun, hi₁, hnext, hhist, hstore⟩ :=
      runAlone_ok hi hlt₀ (hts cs List.mem_cons_self) hok.1
    have hlt₁ : ∀ n < ts.length, s₁.nextTransactionId + n < intMax := by
      intro n hn
      have h := hlt (n + 1) (Nat.succ_lt_succ hn)
      rw [hnext]
      push_cast at h
      rwa [Int.add_assoc, Int.add_comm 1]
    obtain ⟨s', hrest, hhist', hstore'⟩ := ih hi₁ hlt₁
      (fun cs hcs => hts cs (List.mem_cons_of_mem _ hcs)) (hstore ▸ hok.2)
    refine ⟨s', .cons hrun hrest, ?_, ?_⟩
    · rw [hhist', hhist, List.append_assoc]
      rfl
    · rw [hstore', hstore]
      rfl

/-! ## Ids do not run out in a serial run -/

/-- A new server has ids for as many transactions as have committed on the old one. -/
theorem Counted.room {d : Data} (h : Counted d) (hi : Inv d) {n : ℕ}
    (hn : n < (commitOrder d.log).length) : (1 : TransactionId) + n < intMax := by
  have hsub : (commitOrder d.log).toFinset ⊆ Finset.Ico (1 : TransactionId) d.nextTransactionId := by
    intro id hid
    rw [List.mem_toFinset] at hid
    exact Finset.mem_Ico.2 ⟨h.committed id hid, hi.born id hid⟩
  have hcard := Finset.card_le_card hsub
  rw [List.toFinset_card_of_nodup hi.once, Int.card_Ico] at hcard
  have hhigh := h.high
  simp only [TransactionId] at *
  omega

/-! ## Serialisability -/

/-- **The store is only ever changed by a commit.** -/
theorem store_unchanged {s s' : State} {a : Action} (h : step s a = some s')
    (hstore : s'.store ≠ s.store) : ∃ id rem, a = .resume id ∧ s.calls id = some (.put rem) := by
  cases a with
  | begin =>
    rw [step, State.begin] at h
    split at h
    · rw [Option.some_inj] at h
      exact absurd (h ▸ rfl) hstore
    · exact absurd h (by simp)
  | call id c =>
    rw [step, State.call] at h
    split at h
    · rw [Option.some_inj] at h
      exact absurd (h ▸ rfl) hstore
    · exact absurd h (by simp)
  | resume id =>
    rcases State.Frame.resume h with hframe | ⟨⟨rem, hcall⟩, -⟩
    · exact absurd hframe.store hstore
    · exact ⟨id, rem, rfl, hcall⟩

theorem idle_start : Idle State.start :=
  ⟨rfl, fun _ => rfl, fun _ => rfl, fun _ => rfl, fun _ _ => ⟨rfl, rfl⟩,
    fun _ h => absurd h (by simp [State.start])⟩

/-- **Serialisability.**  Whatever the schedule, the committed transactions can be run alone, one
after another in commit order, on a new server: every call returns what it returned before and the
store ends up the same, but for what a commit in progress has still to write.  A transaction that
has aborted has not committed, the store is only ever changed on behalf of a transaction that has
committed, and a `get` returns its transaction's own last write. -/
theorem serialisable {as : List Action} {s : State}
    (h : Run TwoPL.step anyStep State.start as s) :
    (∃ s', RunsSerially State.start (committedCalls s.log) s' ∧
      committedHistories s'.log = committedHistories s.log ∧
      (∀ k, (∀ v, ¬ Pending s.data.phase k v) → s.store k = s'.store k) ∧
      ∀ k v, Pending s.data.phase k v → s'.store k = v) ∧
    (∀ id, Aborted s.log id → id ∉ commitOrder s.log) ∧
    (∀ a s', step s a = some s' → s'.store ≠ s.store →
      ∃ id ∈ commitOrder s.log, a = .resume id) ∧
    ∀ id h₁ h₂ h₃ k v w, history s.log id = h₁ ++ .put k v :: (h₂ ++ .get k w :: h₃) →
      (∀ x, .put k x ∉ h₂) → w = v := by
  have hi := Inv.of_run h
  have hser := Serialised.of_run h
  refine ⟨?_, fun id hab => (hi.aborted id hab).2.1, fun a s' hs hstore => ?_,
    fun id h₁ h₂ h₃ k v w hh hput => ?_⟩
  · let ts := (commitOrder s.log).map (transcript s.log)
    have hts : ts.map doneOf = committedHistories s.log := by
      rw [List.map_map]
      rfl
    have hcalls : ts.map (List.map Prod.fst) = committedCalls s.log := by
      rw [List.map_map]
      rfl
    have hlt : ∀ n < ts.length, State.start.nextTransactionId + n < intMax := by
      intro n hn
      rw [List.length_map] at hn
      exact (Counted.of_run h).room hi hn
    have hdone : ∀ cs ∈ ts, ∀ p ∈ cs, (p.1.done p.2).isSome := by
      intro cs hcs p hp
      obtain ⟨id, -, rfl⟩ := List.mem_map.1 hcs
      exact transcript_done hp
    obtain ⟨s', hrun, hhist, hstore⟩ := runSerially_ok idle_start hlt hdone (hts ▸ hser.ok)
    have hvalues : s'.store = serialValues s.log := by
      rw [hstore, hts]
      rfl
    refine ⟨s', hcalls ▸ hrun, ?_, fun k hk => ?_, fun k v hk => ?_⟩
    · rw [hhist, hts]
      rfl
    · rw [hvalues]
      exact (hser.settled k hk).symm
    · rw [hvalues]
      exact hser.pending k v hk
  · obtain ⟨id, rem, rfl, hcall⟩ := store_unchanged hs hstore
    refine ⟨id, hi.committed id ?_, rfl⟩
    rw [State.phase_of_calls hcall]
    trivial
  · have hcoh := hi.coherent id
    rw [show history s.data.log id = _ from hh] at hcoh
    exact hcoh.own_write hput

/-- Transaction 1 writes an extent, transaction 2 waits for its lock as a follower and gets it, with
`lockInfosLockId`, from transaction 1's commit; then it reads and commits too. -/
def readAfterCommit : List Action :=
  List.flatten [[.begin, .begin, .call 1 (.set [107] [118])], List.replicate 8 (.resume 1),
    [.call 2 (.get [107])], List.replicate 5 (.resume 2),
    [.call 1 .transactionCommit], List.replicate 7 (.resume 1), List.replicate 6 (.resume 2),
    List.replicate 2 (.resume 1), [.call 2 .transactionCommit], List.replicate 10 (.resume 2)]

theorem serialisable_readAfterCommit : ∃ s,
    Run TwoPL.step anyStep State.start readAfterCommit s ∧
      committedHistories s.log = [[.put 107 [118]], [.get 107 [118]]] ∧
      ∃ s', RunsSerially State.start (committedCalls s.log) s' ∧
        committedHistories s'.log = committedHistories s.log ∧
        (∀ k, (∀ v, ¬ Pending s.data.phase k v) → s.store k = s'.store k) ∧
        ∀ k v, Pending s.data.phase k v → s'.store k = v := by
  have hsome : (execute step State.start readAfterCommit).isSome := by decide +kernel
  obtain ⟨s, hs⟩ := Option.isSome_iff_exists.1 hsome
  have hlog : (execute step State.start readAfterCommit).map (fun s => committedHistories s.log) =
      some [[.put 107 [118]], [.get 107 [118]]] := by decide +kernel
  rw [hs, Option.map_some, Option.some_inj] at hlog
  have hrun : Run TwoPL.step anyStep State.start readAfterCommit s := Run.of_execute hs
  exact ⟨s, hrun, hlog, (serialisable hrun).1⟩

end TwoPL
end Ydb
end CseLab
