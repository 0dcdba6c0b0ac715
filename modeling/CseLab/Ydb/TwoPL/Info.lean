import CseLab.Ydb.TwoPL.Invariant
import CseLab.Ydb.TwoPL.Table
import Mathlib.Data.Int.Interval

/-!
# The server keeps the lock table

`State.table` is the server seen as `Table`, and `table_refines` says that a step of the server is
then some steps of the lock-table protocol, provided that it obeys `NoOvertake`: no follower gets an
extent's lock while somebody is recorded as its owner.

Nothing in the server enforces that.  A requester that finds no owner records itself and gives
`lockInfosLockId` back before it asks for the extent's lock; others queue up behind it as followers,
and whichever of them asks first gets the lock.

Behind `checkOwner` stands `hasPath`.  `hasPath_spec` says that on a table that keeps its invariant
it returns, with the answer to the question whether one transaction waits for another.
-/

set_option autoImplicit false

namespace CseLab
namespace Ydb
namespace TwoPL

open Relation

/-! ## The server seen this way -/

namespace Pc

/-- Where the transaction of a call at `pc` stands with the table. -/
def mode : Pc → Mode
  | .infoCode _ | .followRel _ | .finCode _ _ _ => .inside
  | .infoRelO op => .claiming op.eid
  | .dataAcqO op => .onWay op.eid
  | .infoRelF op => .joining op.eid
  | .dataAcqF op => .following op.eid
  | .followCode op => .taking op.eid
  | .finInfoRel _ lid _ => .cleared lid
  | .finDataRel _ lid _ => .releasing lid
  | .findAcq _ | .findRel _ | .infoAcq _ | .fetch _ | .insAcq _ _ | .insRel _ _ | .put _
  | .finAcq _ _ _ | .eraseAcq _ | .eraseRel _ => .outside

/-- The locks the transaction of a call at `pc` should be recorded as owner of. -/
def owned (m : TContent) : Pc → List LockId
  | .findAcq _ | .findRel _ | .infoAcq _ | .infoCode _ | .infoRelF _ | .dataAcqF _ | .followCode _
  | .put _ => m.keys
  | .infoRelO op | .dataAcqO op | .followRel op | .insAcq op _ | .insRel op _ => op.eid :: m.keys
  | .fetch key => hash key :: m.keys
  | .finAcq _ lid rem | .finCode _ lid rem => lid :: rem
  | .finInfoRel _ _ rem | .finDataRel _ _ rem => rem
  | .eraseAcq _ | .eraseRel _ => []

end Pc

namespace State

/-- The server as `Table`. -/
def table (s : State) : Table where
  owner lid := (s.lockInfos lid).owner
  followers lid := (s.lockInfos lid).followers
  info := s.locks lockInfosLockId
  locks := s.data.locks
  owns id lid := ∃ m, s.tMap id = some m ∧ lid ∈ (s.calls id).elim m.keys (Pc.owned m)
  mode id := (s.calls id).elim .outside Pc.mode

variable {s s' s₁ : State} {id : TransactionId} {m : TContent} {pc pc' : Pc} {op : Op}

theorem mode_of_calls (hcall : s.calls id = some pc) : s.table.mode id = pc.mode := by
  simp [table, hcall]

theorem owns_of_calls (hid : s.tMap id = some m) (hcall : s.calls id = some pc) (lid : LockId) :
    s.table.owns id lid ↔ lid ∈ pc.owned m := by
  simp [table, hid, hcall]

/-- A call goes on, and the locks its transaction should own become those `p` says. -/
theorem table_goto {p : TransactionId → LockId → Prop} (hid : s.tMap id = some m) (pc : Pc)
    (hself : ∀ lid, p id lid ↔ lid ∈ pc.owned m)
    (hother : ∀ u, u ≠ id → ∀ lid, p u lid ↔ s.table.owns u lid) :
    (s.goto id pc).table =
      { s.table with owns := p, mode := Function.update s.table.mode id pc.mode } := by
  ext1
  · rfl
  · rfl
  · rfl
  · rfl
  · funext u lid
    by_cases hu : u = id
    · subst hu
      simp [table, goto, hid, hself]
    · simp only [hother u hu]
      simp [table, goto, hu]
  · funext u
    by_cases hu : u = id
    · subst hu
      simp [table, goto]
    · simp [table, goto, hu]

/-- A call goes on, and its transaction should own the locks it owned. -/
theorem table_goto_same (hid : s.tMap id = some m) (pc : Pc)
    (hself : ∀ lid, s.table.owns id lid ↔ lid ∈ pc.owned m) :
    (s.goto id pc).table =
      { s.table with mode := Function.update s.table.mode id pc.mode } :=
  table_goto hid pc hself fun _ _ _ => Iff.rfl

/-- A call returns. -/
theorem table_reply (hself : ∀ lid, s.table.owns id lid ↔ ∃ m, s.tMap id = some m ∧ lid ∈ m.keys)
    (c : Call) (ret : Status) (out : Bytes) : (s.reply id c ret out).table =
      { s.table with mode := Function.update s.table.mode id .outside } := by
  ext1
  · rfl
  · rfl
  · rfl
  · rfl
  · funext u lid
    by_cases hu : u = id
    · subst hu
      simp only [hself]
      simp [table, reply]
    · simp [table, reply, hu]
  · funext u
    by_cases hu : u = id
    · subst hu
      simp [table, reply]
    · simp [table, reply, hu]

theorem table_setContent {m' : TContent} (hid : s.tMap id = some m) (hcall : s.calls id = some pc)
    (hown : ∀ lid, lid ∈ pc.owned m' ↔ lid ∈ pc.owned m) :
    (s.setContent id m').table = s.table := by
  ext1
  · rfl
  · rfl
  · rfl
  · rfl
  · funext u lid
    by_cases hu : u = id
    · subst hu
      simp [table, setContent, hid, hcall, hown]
    · simp [table, setContent, hu]
  · rfl

theorem table_setInfo (s : State) (lid : LockId) (li : LockInfo) : (s.setInfo lid li).table =
    { s.table with
      owner := Function.update s.table.owner lid li.owner
      followers := Function.update s.table.followers lid li.followers } := by
  ext1
  · funext l
    by_cases hl : l = lid
    · subst hl
      simp [table, setInfo]
    · simp [table, setInfo, hl]
  · funext l
    by_cases hl : l = lid
    · subst hl
      simp [table, setInfo]
    · simp [table, setInfo, hl]
  · rfl
  · rfl
  · rfl
  · rfl

theorem table_dead (s : State) (b : Bool) : { s with dead := b }.table = s.table := rfl

/-- `tMapLockId` is no lock of the table protocol. -/
theorem table_locks_map (s : State) (h : Option Holder) :
    { s with locks := Function.update s.locks tMapLockId h }.table = s.table := by
  have hne : lockInfosLockId ≠ tMapLockId := by decide
  ext1
  · rfl
  · rfl
  · simp [table, hne]
  · exact congrArg Data.locks (data_locks_of_le s (Nat.le_refl _) h)
  · rfl
  · rfl

theorem table_locks_info (s : State) (h : Option Holder) :
    { s with locks := Function.update s.locks lockInfosLockId h }.table =
      { s.table with info := h } := by
  ext1
  · rfl
  · rfl
  · simp [table]
  · exact congrArg Data.locks (data_locks_of_le s (Nat.le_succ _) h)
  · rfl
  · rfl

theorem table_locks_data (s : State) {lid : LockId} (hlid : lid < maxKey) (h : Option Holder) :
    { s with locks := Function.update s.locks lid h }.table =
      { s.table with locks := Function.update s.table.locks lid (h.bind Holder.id?) } := by
  have hne : lockInfosLockId ≠ lid := by
    rintro rfl
    exact absurd hlid (by decide)
  ext1
  · rfl
  · rfl
  · simp [table, hne]
  · have hlocks := congrArg Data.locks (data_locks s lid h)
    rw [if_pos hlid] at hlocks
    exact hlocks
  · rfl
  · rfl

theorem table_release_map (s : State) : (s.release tMapLockId).table = s.table := by
  rw [release]
  split
  · rfl
  · exact table_locks_map s none

theorem table_release_info (s : State) :
    (s.release lockInfosLockId).table = { s.table with info := none } := by
  rw [release]
  split
  · rename_i hfree
    rw [table_dead, show none = s.table.info from hfree.symm]
  · exact table_locks_info s none

theorem table_release_data (s : State) {lid : LockId} (hlid : lid < maxKey) :
    (s.release lid).table =
      { s.table with locks := Function.update s.table.locks lid none } := by
  rw [release]
  split
  · rename_i hfree
    have hnone : s.table.locks lid = none := by simp [table, data, hfree]
    rw [table_dead, ← hnone, Function.update_eq_self]
  · exact table_locks_data s hlid none

theorem table_handOver (s : State) (h h' : Holder) : (s.handOver h h').table =
    { s.table with info := if s.table.info = some h then some h' else s.table.info } := by
  have hinfo : s.table.info = s.locks lockInfosLockId := rfl
  rw [handOver, hinfo]
  split
  · exact table_locks_info s _
  · rfl

/-! ## What `hasPath` answers -/

/-- `u` follows a lock that `t` has. -/
def HasFollower (s : State) (t u : TransactionId) : Prop :=
  ∃ m lid, s.tMap t = some m ∧ lid ∈ m.keys ∧ u ∈ (s.lockInfos lid).followers

theorem mem_waitersOf_iff {t u : TransactionId} : u ∈ s.waitersOf t ↔ s.HasFollower t u := by
  rw [waitersOf, HasFollower]
  cases s.tMap t with
  | none => simp
  | some m => simp

/-- **`hasPath` decides reachability** where nobody waits for itself, however the tables came to be
as they are: it goes no deeper than there are transactions. -/
theorem hasPath_decides {tMap : OrdMap TransactionId TContent} (htMap : s.tMap = tMap.find)
    (hacyc : Acyclic s.HasFollower) (start stop : TransactionId) :
    ∃ b, (∀ n, tMap.entries.length < n → s.hasPath n start stop = some b) ∧
      (b = true ↔ ReflTransGen s.HasFollower start stop) := by
  have hcard : tMap.keys.toFinset.card < tMap.entries.length + 1 := by
    have hle := List.toFinset_card_le tMap.keys
    rw [OrdMap.keys, List.length_map] at hle
    exact Nat.lt_succ_of_le hle
  have hkeys : ∀ t, s.waitersOf t ≠ [] → t ∈ tMap.keys.toFinset := by
    intro t hne
    obtain ⟨u, hu⟩ := List.exists_mem_of_ne_nil _ hne
    obtain ⟨m, -, hm, -⟩ := mem_waitersOf_iff.1 hu
    rw [List.mem_toFinset, OrdMap.mem_keys, ← htMap, hm]
    rfl
  obtain ⟨b, hb, hiff⟩ : ∃ b, s.hasPath (tMap.entries.length + 1) start stop = some b ∧
      (b = true ↔ ∃ t, ReflTransGen s.HasFollower start t ∧ decide (t = stop) = true) :=
    search_decides (P := fun _ => True) hacyc (fun _ _ _ hu => ⟨trivial, mem_waitersOf_iff.1 hu⟩)
      (fun _ _ _ hu => mem_waitersOf_iff.2 hu) trivial (fun t _ _ => hkeys t) hcard
  exact ⟨b, fun n hn => search_mono hb hn, hiff.trans (by simp)⟩

/-- Transaction 1 has the lock that transaction 2 waits for. -/
theorem hasPath_decides_two : ∃ s : State, ∃ tMap : OrdMap TransactionId TContent,
    s.tMap = tMap.find ∧ Acyclic s.HasFollower ∧
      ∃ b, (∀ n, tMap.entries.length < n → s.hasPath n 1 2 = some b) ∧
        (b = true ↔ ReflTransGen s.HasFollower 1 2) := by
  let m : TContent := OrdMap.empty.set 5 ⟨[], .read⟩
  let tMap : OrdMap TransactionId TContent := OrdMap.empty.set 1 m
  let s : State :=
    { State.start with
      tMap := tMap.find
      lockInfos := Function.update State.start.lockInfos 5 ⟨some 1, [2]⟩ }
  have hwaits : ∀ t u, s.HasFollower t u → t = 1 ∧ u = 2 := by
    rintro t u ⟨m', lid, hm', hlid, hu⟩
    have ht : t = 1 := by
      by_contra hne
      have hnone : s.tMap t = none := by
        change tMap.find t = none
        rw [OrdMap.find_set, if_neg hne, OrdMap.find_empty]
      rw [hnone] at hm'
      cases hm'
    subst ht
    obtain rfl : m = m' := by
      have hfind : s.tMap 1 = some m := OrdMap.find_set_self ..
      exact Option.some_inj.1 (hfind.symm.trans hm')
    obtain rfl : lid = 5 := by simpa [m, OrdMap.mem_keys_set] using hlid
    have hfollow : (s.lockInfos 5).followers = [2] := rfl
    rw [hfollow] at hu
    exact ⟨rfl, List.mem_singleton.1 hu⟩
  have hacyc : Acyclic s.HasFollower := by
    intro t ht
    obtain ⟨u, htu, hut⟩ := Relation.TransGen.head'_iff.1 ht
    obtain ⟨v, -, hvt⟩ := Relation.TransGen.tail'_iff.1 ht
    exact absurd ((hwaits t u htu).1.symm.trans (hwaits v t hvt).2) (by decide)
  exact ⟨s, tMap, rfl, hacyc, hasPath_decides rfl hacyc 1 2⟩

/-- A live transaction that owns exactly the locks it has. -/
def Settled (s : State) (id : TransactionId) : Prop :=
  ∃ m, s.tMap id = some m ∧ ∀ lid, s.table.owns id lid ↔ lid ∈ m.keys

theorem settled_of_calls (hid : s.tMap id = some m) (hcall : s.calls id = some pc)
    (h : pc.owned m = m.keys) : s.Settled id :=
  ⟨m, hid, fun lid => by rw [owns_of_calls hid hcall, h]⟩

/-- A transaction in the middle of a call that has found it is live. -/
theorem live_of_calls (hd : Inv s.data) (hcall : s.calls id = some pc) (hph : pc.phase ≠ .idle) :
    ∃ m, s.tMap id = some m := by
  by_contra hnone
  have hid : s.tMap id = none := by
    cases hid : s.tMap id with
    | none => rfl
    | some m => exact absurd ⟨m, hid⟩ hnone
  exact hph ((phase_of_calls hcall).symm.trans (hd.idle id hid))

/-- The call of a follower. -/
theorem calls_of_follows {lid : LockId} (h : (s.table.mode id).follows = some lid) :
    ∃ op, op.eid = lid ∧ (s.calls id = some (.infoRelF op) ∨ s.calls id = some (.dataAcqF op) ∨
      s.calls id = some (.followCode op)) := by
  cases hcall : s.calls id with
  | none => simp [table, hcall, Mode.follows] at h
  | some pc =>
    rw [mode_of_calls hcall] at h
    cases pc with
    | infoRelF op => exact ⟨op, Option.some_inj.1 h, .inl rfl⟩
    | dataAcqF op => exact ⟨op, Option.some_inj.1 h, .inr (.inl rfl)⟩
    | followCode op => exact ⟨op, Option.some_inj.1 h, .inr (.inr rfl)⟩
    | _ => exact absurd h (by simp [Pc.mode, Mode.follows])

theorem settled_of_follows (hd : Inv s.data) {lid : LockId}
    (h : (s.table.mode id).follows = some lid) : s.Settled id := by
  obtain ⟨op, -, hcall | hcall | hcall⟩ := calls_of_follows h <;>
  · obtain ⟨m, hid⟩ := live_of_calls hd hcall (by simp [Pc.phase])
    exact settled_of_calls hid hcall rfl

theorem mem_waitersOf (ht : s.table.Inv) (hs : s.Settled id) {u : TransactionId} :
    u ∈ s.waitersOf id ↔ s.table.Blocks id u := by
  obtain ⟨m, hid, hown⟩ := hs
  rw [waitersOf, hid]
  simp only [List.mem_flatMap]
  constructor
  · rintro ⟨lid, hlid, hu⟩
    exact ⟨lid, (ht.owner lid id).2 ((hown lid).2 hlid), hu⟩
  · rintro ⟨lid, hlid, hu⟩
    exact ⟨lid, (hown lid).1 ((ht.owner lid id).1 hlid), hu⟩

/-- The transactions `hasPath` comes to own exactly what they have. -/
theorem settled_step (hd : Inv s.data) (ht : s.table.Inv) (u : TransactionId) (hu : s.Settled u) :
    ∀ v ∈ s.waitersOf u, s.Settled v ∧ s.table.Blocks u v := by
  intro v hv
  have hblocks := (mem_waitersOf ht hu).1 hv
  obtain ⟨lid, -, hmem⟩ := hblocks
  exact ⟨settled_of_follows hd ((ht.follower lid v).1 hmem), (mem_waitersOf ht hu).1 hv⟩

/-- **`hasPath` returns**, and says whether `stop` waits for `start`. -/
theorem hasPath_spec (hd : Inv s.data) (hc : Counted s.data) (ht : s.table.Inv)
    {start : TransactionId} (hs : s.Settled start) (stop : TransactionId) :
    ∃ b, s.hasPath s.nextTransactionId.toNat start stop = some b ∧
      (b = true ↔ ReflTransGen s.table.Blocks start stop) := by
  have hcard : (Finset.Ico 1 s.nextTransactionId).card < s.nextTransactionId.toNat := by
    obtain ⟨m, hid, -⟩ := hs
    have hpos : (1 : ℤ) < s.nextTransactionId := (hc.live start m hid).trans_lt (hd.lt_next hid)
    rw [Int.card_Ico]
    omega
  obtain ⟨b, hb, hiff⟩ : ∃ b, s.hasPath s.nextTransactionId.toNat start stop = some b ∧
      (b = true ↔ ∃ t, ReflTransGen s.table.Blocks start t ∧ decide (t = stop) = true) :=
    search_decides ht.acyclic (settled_step hd ht)
      (fun u v hu huv => (mem_waitersOf ht hu).2 huv) hs
      (fun u ⟨m, hid, _⟩ _ _ => Finset.mem_Ico.2 ⟨hc.live u m hid, hd.lt_next hid⟩) hcard
  exact ⟨b, hb, hiff.trans (by simp)⟩

/-! ## Refinement -/

/-- A step that leaves the transaction where it stands is no step of the protocol. -/
theorem table_same (htable : s₁.table = s.table) (hid : s₁.tMap id = some m)
    (hcall : s.calls id = some pc) (hmode : pc'.mode = pc.mode)
    (hown : ∀ lid, s.table.owns id lid ↔ lid ∈ pc'.owned m) :
    (s₁.goto id pc').table = s.table := by
  rw [table_goto_same hid pc' (by simpa [htable] using hown), htable, hmode, ← mode_of_calls hcall,
    Function.update_eq_self]

theorem table_reply_same (htable : s₁.table = s.table) (hcall : s.calls id = some pc)
    (hmode : pc.mode = .outside)
    (hown : ∀ lid, s.table.owns id lid ↔ ∃ m, s₁.tMap id = some m ∧ lid ∈ m.keys)
    (c : Call) (ret : Status) (out : Bytes) : (s₁.reply id c ret out).table = s.table := by
  rw [table_reply (by simpa [htable] using hown), htable, ← hmode, ← mode_of_calls hcall,
    Function.update_eq_self]

/-- A call asks for `tMapLockId`. -/
theorem table_acquire_map (hcall : s.calls id = some pc)
    (h : (s.acquire id tMapLockId).map (fun s => s.goto id pc') = some s')
    (hid : s.tMap id = some m) (hmode : pc'.mode = pc.mode) (hown : pc'.owned m = pc.owned m) :
    ReflTransGen Table.Step s.table s'.table := by
  obtain ⟨s₁, h₁, rfl⟩ := Option.map_eq_some_iff.1 h
  obtain ⟨-, rfl⟩ := acquire_cases h₁
  rw [table_same (table_locks_map s _) hid hcall hmode
    fun lid => by rw [owns_of_calls hid hcall, hown]]

/-- A call asks for `lockInfosLockId`. -/
theorem table_acquire_info (hcall : s.calls id = some pc)
    (h : (s.acquire id lockInfosLockId).map (fun s => s.goto id pc') = some s')
    (hid : s.tMap id = some m) (hout : pc.mode = .outside) (hin : pc'.mode = .inside)
    (hown : pc'.owned m = pc.owned m) : ReflTransGen Table.Step s.table s'.table := by
  obtain ⟨s₁, h₁, rfl⟩ := Option.map_eq_some_iff.1 h
  obtain ⟨hfree, rfl⟩ := acquire_cases h₁
  have hm : s.table.mode id = .outside := (mode_of_calls hcall).trans hout
  rw [table_goto_same (s := { s with locks := Function.update s.locks _ _ }) hid pc' (by
    intro lid
    rw [table_locks_info, hown]
    exact owns_of_calls hid hcall lid), table_locks_info, hin]
  exact .single (.enter hm hfree)

/-- A call gives `lockInfosLockId` back. -/
theorem table_release_leave (hcall : s.calls id = some pc) (hid : s.tMap id = some m)
    (hl : pc.mode.Leaves) (hmode : pc'.mode = pc.mode.left) (hown : pc'.owned m = pc.owned m) :
    ReflTransGen Table.Step s.table ((s.release lockInfosLockId).goto id pc').table := by
  have hm := mode_of_calls hcall
  have hid' : (s.release lockInfosLockId).tMap id = some m := by
    rw [release]
    split <;> exact hid
  rw [table_goto_same hid' pc' (by
    intro lid
    rw [table_release_info, hown]
    exact owns_of_calls hid hcall lid), table_release_info, hmode, ← hm]
  exact .single (.leave (hm ▸ hl))

theorem table_access (htable : s₁.table = s.table) (hid : s₁.tMap id = some m)
    (hown : ∀ lid, s.table.owns id lid ↔ lid ∈ m.keys) (hcall : s.calls id = some pc)
    (hcalls : s₁.calls = s.calls) (hpc : pc.mode = .outside) (hpm : ∀ m, pc.owned m = m.keys)
    (op : Op) : (s₁.access id m op).table = s.table := by
  rw [access]
  split
  · exact table_same htable hid hcall hpc.symm hown
  · exact table_reply_same htable hcall hpc (by simpa [hid] using hown) _ _ _
  · rename_i e value he hw
    have hkeys : ∀ lid, lid ∈ (m.set op.eid ⟨value, .write⟩).keys ↔ lid ∈ m.keys := by
      intro lid
      rw [OrdMap.mem_keys_set]
      refine or_iff_right_of_imp ?_
      rintro rfl
      rw [OrdMap.mem_keys, he]
      rfl
    have hset : (s₁.setContent id (m.set op.eid ⟨value, .write⟩)).table = s.table := by
      rw [table_setContent hid (show s₁.calls id = some pc by rw [hcalls, hcall])
        (by simpa only [hpm] using hkeys), htable]
    refine table_reply_same hset hcall hpc (fun lid => ?_) _ _ _
    rw [hown]
    simp [setContent, hkeys]

theorem table_finishT (htable : s₁.table = s.table) (hid : s₁.tMap id = some m) (w : Why)
    {lids : List LockId} (hown : ∀ lid, s.table.owns id lid ↔ lid ∈ lids)
    (hcall : s.calls id = some pc) (hpc : pc.mode = .outside) :
    (s₁.finishT id w lids).table = s.table := by
  cases lids with
  | nil => exact table_same htable hid hcall hpc.symm hown
  | cons lid rem => exact table_same htable hid hcall hpc.symm hown

theorem table_found (htable : s₁.table = s.table) (hid : s₁.tMap id = some m)
    (hown : ∀ lid, s.table.owns id lid ↔ lid ∈ m.keys) (hcall : s.calls id = some pc)
    (hcalls : s₁.calls = s.calls) (hpc : pc.mode = .outside) (hpm : ∀ m, pc.owned m = m.keys)
    (c : Call) : (s₁.found id m c).table = s.table := by
  cases c with
  | get key | set key value | del key => exact table_access htable hid hown hcall hcalls hpc hpm _
  | transactionCommit =>
    have hgoto : (s₁.goto id (.put m.entries)).table = s.table :=
      table_same htable hid hcall hpc.symm hown
    exact hgoto
  | transactionAbort => exact table_finishT htable hid _ hown hcall hpc

/-- The extent's lock in hand, the call leaves the table alone. -/
theorem table_locked (hid : s.tMap id = some m)
    (hown : ∀ lid, s.table.owns id lid ↔ lid ∈ op.eid :: m.keys) : (s.locked id op).table =
      { s.table with mode := Function.update s.table.mode id .outside } := by
  cases op <;> exact table_goto_same hid _ hown

/-- A requester that finds no owner, that would wait in a circle, or that becomes a follower. -/
theorem table_checkOwner (hd : Inv s.data) (hc : Counted s.data) (ht : s.table.Inv)
    (hid : s.tMap id = some m) (hcall : s.calls id = some (.infoCode op)) :
    ReflTransGen Table.Step s.table (s.checkOwner id m op).table := by
  have hm : s.table.mode id = .inside := mode_of_calls hcall
  have hown := owns_of_calls hid hcall
  have hnot : op.eid ∉ m.keys := by
    have habout := hd.about id m hid
    rw [phase_of_calls hcall] at habout
    rw [OrdMap.mem_keys, show m.find op.eid = none from habout]
    simp
  rw [checkOwner]
  split
  · rename_i ho
    have hlock : s.table.locks op.eid ≠ some id := by
      intro hl
      obtain ⟨m', hid', hheld⟩ := (hd.locks op.eid id).1 hl
      obtain rfl : m' = m := Option.some_inj.1 (hid'.symm.trans hid)
      rw [phase_of_calls hcall] at hheld
      exact hnot hheld
    have hfollowers : Function.update s.table.followers op.eid (s.lockInfos op.eid).followers =
        s.table.followers := Function.update_eq_self op.eid s.table.followers
    rw [table_goto (s := s.setInfo _ _) (p := fun u l => s.table.owns u l ∨ u = id ∧ l = op.eid)
      hid, table_setInfo, hfollowers]
    · exact .single (.claim hm ho hlock)
    · intro lid
      simp [Pc.owned, hown, or_comm]
    · intro u hu lid
      rw [table_setInfo]
      simp [hu]
  · rename_i owner ho
    have hsettled := settled_of_calls hid hcall rfl
    obtain ⟨b, hpath, hb⟩ := hasPath_spec hd hc ht hsettled owner
    rw [hpath]
    cases b with
    | true =>
      have hreach := hb.1 rfl
      -- a transaction without locks waits for nobody
      have hne : m.keys ≠ [] := by
        intro hnil
        rcases ReflTransGen.cases_head hreach with rfl | ⟨u, ⟨lid, hlid, -⟩, -⟩
        · exact hnot ((hown op.eid).1 ((ht.owner op.eid id).1 ho))
        · have hmem := (hown lid).1 ((ht.owner lid id).1 hlid)
          rw [Pc.owned, hnil] at hmem
          exact absurd hmem (by simp)
      obtain ⟨lid, rem, hkeys⟩ := List.exists_cons_of_ne_nil hne
      have hgoto : (s.goto id (.finCode (.victim op) lid rem)).table = s.table :=
        table_same rfl hid hcall rfl (by simpa [Pc.owned, hkeys] using hown)
      simp only [hkeys, finishTHasLock]
      rw [hgoto]
    | false =>
      have hreach : ¬ ReflTransGen s.table.Blocks id owner := fun h => absurd (hb.2 h) (by simp)
      have howner : Function.update s.table.owner op.eid (s.lockInfos op.eid).owner =
          s.table.owner := Function.update_eq_self op.eid s.table.owner
      simp only
      rw [table_goto_same (s := s.setInfo _ _) hid, table_setInfo, howner]
      · exact .single (.follow hm ho hreach)
      · intro lid
        rw [table_setInfo]
        exact hown lid

theorem table_refl (h : s'.table = s.table) : ReflTransGen Table.Step s.table s'.table := h ▸ .refl

theorem lt_of_data_locks {lid : LockId} (h : s.data.locks lid = some id) : lid < maxKey := by
  by_contra hle
  simp [data, hle] at h

theorem table_erase (hcall : s.calls id = some pc) (hown : ∀ m, pc.owned m = []) :
    { s with tMap := Function.update s.tMap id none }.table = s.table := by
  ext1
  · rfl
  · rfl
  · rfl
  · rfl
  · funext u lid
    by_cases hu : u = id
    · subst hu
      simp [table, hcall, hown]
    · simp [table, hu]
  · rfl

theorem release_tMap (s : State) (lid : LockId) : (s.release lid).tMap = s.tMap := by
  rw [release]
  split <;> rfl

theorem release_calls (s : State) (lid : LockId) : (s.release lid).calls = s.calls := by
  rw [release]
  split <;> rfl

theorem handOver_tMap (s : State) (h h' : Holder) : (s.handOver h h').tMap = s.tMap := by
  rw [handOver]
  split <;> rfl

/-- A follower gets the extent's lock, and with it the table's if that was left to it. -/
theorem table_dataAcqF (hid : s.tMap id = some m) (hcall : s.calls id = some (.dataAcqF op))
    (hno : s.locks op.eid = none → (s.lockInfos op.eid).owner = none)
    (h : s.resumeAt id m (.dataAcqF op) = some s') :
    ReflTransGen Table.Step s.table s'.table := by
  obtain ⟨s₁, h₁, rfl⟩ := Option.map_eq_some_iff.1 h
  obtain ⟨hfree, rfl⟩ := acquire_cases h₁
  have hm := mode_of_calls hcall
  have hown := owns_of_calls hid hcall
  have hlock : s.table.locks op.eid = none := by simp [table, data, hfree]
  rw [table_goto_same (by rw [handOver_tMap]; exact hid) _
    (by rw [table_handOver, table_locks_data s op.eid_lt]; exact hown),
    table_handOver, table_locks_data s op.eid_lt]
  exact .single (.lockFollower hm hlock (hno hfree))

/-- A follower that has the lock becomes its owner. -/
theorem table_followCode (ht : s.table.Inv) (hid : s.tMap id = some m)
    (hcall : s.calls id = some (.followCode op))
    (h : s.resumeAt id m (.followCode op) = some s') :
    ReflTransGen Table.Step s.table s'.table := by
  have hm := mode_of_calls hcall
  have hown := owns_of_calls hid hcall
  have hmem : id ∈ (s.lockInfos op.eid).followers :=
    (ht.follower op.eid id).2 (by rw [hm]; rfl)
  simp only [resumeAt, if_pos hmem, Option.some_inj] at h
  subst h
  rw [table_goto (s := s.setInfo _ _) (p := fun u l => s.table.owns u l ∨ u = id ∧ l = op.eid)
    hid, table_setInfo]
  · exact .single (.become hm)
  · intro lid
    simp [Pc.owned, hown, or_comm]
  · intro u hu lid
    rw [table_setInfo]
    simp [hu]

theorem table_insRel {e : TValue} (hd : Inv s.data) (hid : s.tMap id = some m)
    (hcall : s.calls id = some (.insRel op e)) (c : Call) (ret : Status) (out : Bytes) :
    (((s.setContent id (m.insert op.eid e)).release tMapLockId).reply id c ret out).table =
      s.table := by
  have hown := owns_of_calls hid hcall
  have hfind : m.find op.eid = none := by
    have habout := hd.about id m hid
    rw [phase_of_calls hcall] at habout
    exact habout.1
  have hkeys : ∀ lid, lid ∈ (m.insert op.eid e).keys ↔ lid ∈ op.eid :: m.keys := by
    intro lid
    rw [OrdMap.insert_of_find_none hfind, OrdMap.mem_keys_set, List.mem_cons]
  have hset : (s.setContent id (m.insert op.eid e)).table = s.table :=
    table_setContent hid hcall fun lid => by simp [Pc.owned, hkeys]
  refine table_reply_same ((table_release_map _).trans hset) hcall rfl (fun lid => ?_) _ _ _
  rw [hown, release_tMap]
  simp [setContent, Pc.owned, hkeys]

/-- A lock's owner is cleared, and the table's lock left to the followers if there are any. -/
theorem table_finCode {w : Why} {lid : LockId} {rem : List LockId} (hd : Inv s.data)
    (ht : s.table.Inv) (hid : s.tMap id = some m) (hcall : s.calls id = some (.finCode w lid rem))
    (h : s.resumeAt id m (.finCode w lid rem) = some s') :
    ReflTransGen Table.Step s.table s'.table := by
  have hm : s.table.mode id = .inside := mode_of_calls hcall
  have hown := owns_of_calls hid hcall
  have hnot : lid ∉ rem := by
    have habout := hd.about id m hid
    rw [phase_of_calls hcall] at habout
    have hsuff : lid :: rem <:+ m.keys := habout
    exact (List.nodup_cons.1 (m.keys_nodup.sublist hsuff.sublist)).1
  have hmine : s.table.owns id lid := (hown lid).2 List.mem_cons_self
  have hfollowers : Function.update s.table.followers lid (s.lockInfos lid).followers =
      s.table.followers := Function.update_eq_self lid s.table.followers
  have hself : ∀ l, s.table.owns id l ∧ ¬ (id = id ∧ l = lid) ↔ l ∈ rem := by
    intro l
    rw [hown, Pc.owned, List.mem_cons]
    constructor
    · rintro ⟨rfl | hl, hne⟩
      · exact absurd ⟨rfl, rfl⟩ hne
      · exact hl
    · exact fun hl => ⟨.inr hl, fun h => hnot (h.2 ▸ hl)⟩
  have hother : ∀ u, u ≠ id → ∀ l, s.table.owns u l ∧ ¬ (u = id ∧ l = lid) ↔
      s.table.owns u l := fun u hu l => and_iff_left fun h => hu h.1
  simp only [resumeAt] at h
  split at h
  · rename_i hf
    rw [Option.some_inj] at h
    subst h
    rw [table_goto (s := s.setInfo _ _) hid _ hself
      (by rw [table_setInfo]; exact hother), table_setInfo, hfollowers]
    exact .single (.clearLast hm hmine hf)
  · rename_i hf
    rw [Option.some_inj] at h
    subst h
    have hinfo : s.table.info = some (.thread id) := ht.info (by rw [hm]; trivial)
    rw [table_goto (by rw [handOver_tMap]; exact hid) _ hself
      (by rw [table_handOver, table_setInfo]; exact hother), table_handOver, table_setInfo,
      hfollowers]
    simp only [hinfo, if_true]
    exact .single (.clear hm hmine hf)

theorem table_finDataRel {w : Why} {lid : LockId} {rem : List LockId} (hd : Inv s.data)
    (hid : s.tMap id = some m) (hcall : s.calls id = some (.finDataRel w lid rem)) :
    ReflTransGen Table.Step s.table ((s.release lid).finishT id w rem).table := by
  have hm := mode_of_calls hcall
  have hown := owns_of_calls hid hcall
  have hlock : s.data.locks lid = some id := by
    refine (hd.locks lid id).2 ⟨m, hid, ?_⟩
    rw [phase_of_calls hcall]
    exact List.mem_cons_self
  have hlid := lt_of_data_locks hlock
  have hid' : (s.release lid).tMap id = some m := by rw [release_tMap, hid]
  have hown' : ∀ l, (s.release lid).table.owns id l ↔ l ∈ rem := by
    intro l
    rw [table_release_data s hlid]
    exact hown l
  have htable : ((s.release lid).finishT id w rem).table = { s.table with
      locks := Function.update s.table.locks lid none
      mode := Function.update s.table.mode id .outside } := by
    cases rem with
    | nil =>
      rw [finishT, table_goto_same hid' (.eraseAcq w) hown', table_release_data s hlid]
      rfl
    | cons l rem =>
      rw [finishT, table_goto_same hid' (.finAcq w l rem) hown', table_release_data s hlid]
      rfl
  rw [htable]
  exact .single (.unlock hm)

theorem table_resumeAt (hd : Inv s.data) (hc : Counted s.data) (ht : s.table.Inv)
    (hid : s.tMap id = some m) (hcall : s.calls id = some pc)
    (hno : ∀ op, pc = .dataAcqF op → s.locks op.eid = none → (s.lockInfos op.eid).owner = none)
    (h : s.resumeAt id m pc = some s') : ReflTransGen Table.Step s.table s'.table := by
  have hm := mode_of_calls hcall
  have hown := owns_of_calls hid hcall
  cases pc with
  | findAcq | insAcq | eraseAcq => exact table_acquire_map hcall h hid rfl rfl
  | infoAcq | finAcq => exact table_acquire_info hcall h hid rfl rfl rfl
  | findRel c =>
    rw [resumeAt, Option.some_inj] at h
    subst h
    exact table_refl (table_found (table_release_map s) (by rw [release_tMap, hid]) hown hcall
      (release_calls s _) rfl (fun _ => rfl) c)
  | infoCode op =>
    rw [resumeAt, Option.some_inj] at h
    exact h ▸ table_checkOwner hd hc ht hid hcall
  | infoRelF | infoRelO | finInfoRel =>
    rw [resumeAt, Option.some_inj] at h
    exact h ▸ table_release_leave hcall hid trivial rfl rfl
  | dataAcqF op => exact table_dataAcqF hid hcall (hno op rfl) h
  | followCode op => exact table_followCode ht hid hcall h
  | followRel op =>
    rw [resumeAt, Option.some_inj] at h
    subst h
    rw [table_locked (m := m) (by rw [release_tMap, hid])
      (by rw [table_release_info]; exact hown), table_release_info]
    have hleave := @Table.Step.leave s.table id (hm ▸ trivial)
    rw [hm] at hleave
    exact .single hleave
  | dataAcqO op =>
    obtain ⟨s₁, h₁, rfl⟩ := Option.map_eq_some_iff.1 h
    obtain ⟨hfree, rfl⟩ := acquire_cases h₁
    have hlock : s.table.locks op.eid = none := by simp [table, data, hfree]
    rw [table_locked (s := { s with locks := Function.update s.locks _ _ }) hid
      (by rw [table_locks_data s op.eid_lt]; exact hown), table_locks_data s op.eid_lt]
    exact .single (.lockOwner hm hlock)
  | fetch key =>
    rw [resumeAt, Option.some_inj] at h
    subst h
    exact table_refl (table_same rfl hid hcall rfl hown)
  | insRel op e =>
    rw [resumeAt, Option.some_inj] at h
    subst h
    exact table_refl (table_insRel hd hid hcall _ _ _)
  | put rem =>
    cases rem with
    | nil =>
      rw [resumeAt, Option.some_inj] at h
      subst h
      exact table_refl (table_finishT rfl hid _ hown hcall rfl)
    | cons p rem =>
      rw [resumeAt, Option.some_inj] at h
      subst h
      have hgoto : (s.goto id (.put rem)).table = s.table := table_same rfl hid hcall rfl hown
      exact table_refl hgoto
  | finCode w lid rem => exact table_finCode hd ht hid hcall h
  | finDataRel w lid rem =>
    rw [resumeAt, Option.some_inj] at h
    exact h ▸ table_finDataRel hd hid hcall
  | eraseRel w =>
    rw [resumeAt, Option.some_inj] at h
    subst h
    refine table_refl (table_reply_same ((table_release_map _).trans
      (table_erase hcall fun _ => rfl)) hcall rfl (fun lid => ?_) _ _ _)
    rw [hown, release_tMap]
    simp [Pc.owned]

theorem table_resumeUnknown (hid : s.tMap id = none) (hcall : s.calls id = some pc)
    (h : s.resumeUnknown id pc = some s') : s'.table = s.table := by
  have hnone : ∀ s₁ : State, s₁.tMap = s.tMap → ∀ lid, ¬ s₁.table.owns id lid := by
    rintro s₁ hmap lid ⟨m, hm, -⟩
    rw [hmap, hid] at hm
    exact absurd hm (by simp)
  cases pc with
  | findAcq c =>
    obtain ⟨s₁, h₁, rfl⟩ := Option.map_eq_some_iff.1 h
    obtain ⟨-, rfl⟩ := acquire_cases h₁
    have htable := table_locks_map s (some (.thread id))
    rw [← htable]
    ext u lid
    · rfl
    · rfl
    · rfl
    · rfl
    · by_cases hu : u = id
      · subst hu
        exact iff_of_false (hnone (goto _ u _) rfl lid) (hnone { s with locks := _ } rfl lid)
      · simp [table, goto, hu]
    · by_cases hu : u = id
      · subst hu
        simp [table, goto, hcall, Pc.mode]
      · simp [table, goto, hu]
  | findRel c =>
    rw [resumeUnknown, Option.some_inj] at h
    subst h
    have hmap : (s.release tMapLockId).tMap = s.tMap := release_tMap s _
    refine table_reply_same (table_release_map s) hcall rfl (fun lid => ?_) _ _ _
    refine iff_of_false (hnone s rfl lid) ?_
    rintro ⟨m, hm, -⟩
    rw [hmap, hid] at hm
    exact absurd hm (by simp)
  | _ => exact absurd h (by simp [resumeUnknown])

theorem table_begin (hd : Inv s.data) (h : s.begin = some s') : s'.table = s.table := by
  obtain ⟨hmap, -⟩ := hd.unborn s.nextTransactionId (Int.le_refl _)
  have hmap : s.tMap s.nextTransactionId = none := hmap
  have hcall : (s.calls s.nextTransactionId).elim .idle Pc.phase = .idle := hd.idle _ hmap
  rw [begin] at h
  split at h
  · rw [Option.some_inj] at h
    subst h
    ext u lid
    · rfl
    · rfl
    · rfl
    · rfl
    · by_cases hu : u = s.nextTransactionId
      · subst hu
        cases hc : s.calls s.nextTransactionId with
        | none => simp [table, hmap, hc]
        | some pc =>
          rw [hc] at hcall
          have hpc : pc.owned OrdMap.empty = [] := by
            cases pc <;> first | rfl | exact absurd hcall (by simp [Pc.phase])
          simp [table, hmap, hc, hpc]
      · simp [table, hu]
    · rfl
  · exact absurd h (by simp)

theorem table_call {c : Call} (h : s.call id c = some s') : s'.table = s.table := by
  rw [call] at h
  split at h
  · rename_i hok
    rw [Option.some_inj] at h
    subst h
    ext u lid
    · rfl
    · rfl
    · rfl
    · rfl
    · by_cases hu : u = id
      · subst hu
        simp [table, goto, hok.2, Pc.owned]
      · simp [table, goto, hu]
    · by_cases hu : u = id
      · subst hu
        simp [table, goto, hok.2, Pc.mode]
      · simp [table, goto, hu]
  · exact absurd h (by simp)

end State

/-- No follower gets an extent's lock while somebody is recorded as its owner. -/
def NoOvertake (s : State) : Action → Prop
  | .resume id => ∀ op, s.calls id = some (.dataAcqF op) → s.locks op.eid = none →
      (s.lockInfos op.eid).owner = none
  | _ => True

/-- The access of a call that asks for an extent's lock as a follower. -/
def Pc.asFollower : Pc → Option Op
  | .dataAcqF op => some op
  | _ => none

theorem Pc.asFollower_eq {pc : Pc} {op : Op} : pc.asFollower = some op ↔ pc = .dataAcqF op := by
  cases pc <;> simp [asFollower]

instance (s : State) : ∀ a, Decidable (NoOvertake s a)
  | .resume id => decidable_of_iff (∀ op ∈ (s.calls id).bind Pc.asFollower,
      s.locks op.eid = none → (s.lockInfos op.eid).owner = none) <| by
    simp [NoOvertake, Option.bind_eq_some_iff, Pc.asFollower_eq]
  | .begin | .call _ _ => .isTrue trivial

/-- **A server in which followers do not overtake keeps the lock table.** -/
theorem table_refines {s s' : State} {a : Action} (hd : Inv s.data) (hc : Counted s.data)
    (ht : s.table.Inv) (hno : NoOvertake s a) (h : step s a = some s') :
    ReflTransGen Table.Step s.table s'.table := by
  cases a with
  | begin => exact State.table_refl (State.table_begin hd h)
  | call id c => exact State.table_refl (State.table_call h)
  | resume id =>
    rw [step, State.resume] at h
    split at h
    · exact absurd h (by simp)
    · exact absurd h (by simp)
    · rename_i pc hdead hcall hid
      exact State.table_refl (State.table_resumeUnknown hid hcall h)
    · rename_i pc m hdead hcall hid
      exact State.table_resumeAt hd hc ht hid hcall (fun op hpc => hno op (hpc ▸ hcall)) h

end TwoPL
end Ydb
end CseLab
