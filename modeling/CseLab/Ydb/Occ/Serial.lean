import CseLab.Ydb.Occ.Invariant

/-!
# When the optimistic server is serialisable

A transaction that passes validation has read nothing that has since become newer — provided the
generation of an extent really grows with every version of it.  The code makes it grow only in part:
`remove` takes an extent back to generation 0, and a write is installed under the generation its
transaction remembers plus one, however far the stored generation has moved on since.

`GenerationsGrow` is the condition on a commit that keeps the validation honest: whatever it writes
gets a generation above the one under which any transaction still on its way has read it.  Under it
`Current` holds in every run — what a transaction has read is either still stored or is under a
generation older than the stored one — and with that every commit extends a serial history
(`Serialised`).
-/

set_option autoImplicit false

namespace CseLab
namespace Ydb
namespace Occ

open Serial

/-! ## What a commit installs -/

/-- The string a written entry leaves in the store. -/
def newString (e : TValue) : Bytes :=
  if e.value.length = 0 then [] else composeValue (e.generation + 1) e.value

@[simp] theorem valuePart_newString (e : TValue) : valuePart (newString e) = e.value := by
  rw [newString]
  split
  · rename_i h
    simp [List.length_eq_zero_iff.1 h]
  · simp

@[simp] theorem getGeneration_newString (e : TValue) :
    getGeneration (newString e) = newGeneration e := by
  rw [newString, newGeneration]
  split <;> simp

theorem installEntry_apply (store : IdealStore) (k' : ExtentId) (e : TValue) (k : ExtentId) :
    installEntry store (k', e) k = if k = k' ∧ e.written = true then newString e else store k := by
  rw [installEntry]
  cases hw : e.written with
  | false => simp
  | true =>
    by_cases hk : k = k' <;> by_cases hv : e.value.length = 0 <;>
      simp [hk, hv, newString, IdealStore.remove, IdealStore.put]

theorem foldl_installEntry (l : List (ExtentId × TValue))
    (hl : l.Pairwise fun p q => p.1 < q.1) (store : IdealStore) (k : ExtentId) :
    l.foldl installEntry store k =
      match l.lookup k with
      | some e => if e.written = true then newString e else store k
      | none => store k := by
  induction l generalizing store with
  | nil => rfl
  | cons p l ih =>
    obtain ⟨k', e⟩ := p
    rw [List.pairwise_cons] at hl
    rw [List.foldl_cons, ih hl.2, OrdMap.lookup_pair, installEntry_apply]
    by_cases hk : k = k'
    · subst hk
      have hnone : l.lookup k = none := by
        rw [List.lookup_eq_none_iff]
        intro p hp
        simpa using ne_of_lt (hl.1 p hp)
      simp [hnone]
    · simp [hk]

theorem installAll_apply (store : IdealStore) (m : VMap) (k : ExtentId) :
    installAll store m k =
      match m.find k with
      | some e => if e.written = true then newString e else store k
      | none => store k :=
  foldl_installEntry m.entries m.sorted store k

theorem validates_iff {store : IdealStore} {m : VMap} :
    validates store m = true ↔ ∀ k e, m.find k = some e → e.readen = true →
      ¬ getGeneration (store k) > e.generation := by
  rw [validates, List.all_eq_true]
  constructor
  · intro h k e hk hr
    simpa [hr] using h (k, e) (OrdMap.mem_entries.2 hk)
  · rintro h ⟨k, e⟩ hp
    cases hr : e.readen with
    | false => simp
    | true => simpa [hr] using h k e (OrdMap.mem_entries.1 hp) hr

/-- Installing a map writes what the transaction's history says it wrote. -/
theorem valuePart_installAll {store : IdealStore} {m : VMap} {l : Local ExtentId Bytes}
    (h : Matches m l) (k : ExtentId) :
    valuePart (installAll store m k) = install (fun k => valuePart (store k)) l.wrote k := by
  rw [installAll_apply, install, h.wrote]
  cases m.find k with
  | none => rfl
  | some e => cases hw : e.written <;> simp [hw]

/-! ## The condition -/

/-- Transaction `u`, not yet past its commit section, has read extent `k` under generation `g`. -/
def ReadsUnder (s : State) (u : TransactionId) (k : ExtentId) (g : Int32) : Prop :=
  (∃ m e, s.tMap u = some m ∧ (∀ ret, s.calls u ≠ some (.erase ret)) ∧ m.find k = some e ∧
    e.readen = true ∧ e.generation = g) ∨
  ∃ key v, s.calls u = some (.readInsert key g v) ∧ hash key = k

/-- If the action is a commit section that passes validation, every extent it writes gets a
generation above the one under which another transaction still on its way has read that extent. -/
def GenerationsGrow (s : State) (a : Action) : Prop :=
  ∀ id m, a = .resume id → s.calls id = some .commit → s.tMap id = some m →
    validates s.store m = true → ∀ k e, m.find k = some e → e.written = true →
      ∀ u g, u ≠ id → ReadsUnder s u k g → g < newGeneration e

/-! ## What has been read is current or known to be old -/

/-- The stored string still carries the value `v` under generation `g`, or a newer generation. -/
def UpToDate (g : Int32) (v str : Bytes) : Prop :=
  g < getGeneration str ∨ getGeneration str = g ∧ valuePart str = v

/-- Every first read of a transaction on its way is up to date. -/
structure Current (s : State) : Prop where
  entries : ∀ id m k v, s.tMap id = some m → (∀ ret, s.calls id ≠ some (.erase ret)) →
    (track (history s.log id)).snap k = some v →
    ∃ e, m.find k = some e ∧ e.readen = true ∧ UpToDate e.generation v (s.store k)
  fetched : ∀ id key g v, s.calls id = some (.readInsert key g v) →
    UpToDate g v (s.store (hash key))

theorem Current.start (n₀ : TransactionId) : Current (State.start n₀) :=
  ⟨fun _ _ _ _ h => absurd h (by simp [State.start]),
    fun _ _ _ _ h => absurd h (by simp [State.start])⟩

/-- A call that touches the map keeps every first read on record under its generation; a first read
it makes itself is the one that was in hand. -/
theorem Touch.snap {m m' : VMap} {l : Local ExtentId Bytes} {d : Done ExtentId Bytes}
    {P : ExtentId → Int32 → Bytes → Prop} (hm : Matches m l) (ht : Touch m m' d)
    (hold : ∀ k v, l.snap k = some v →
      ∃ e, m.find k = some e ∧ e.readen = true ∧ P k e.generation v)
    (hnew : ∀ k e v, m.find k = none → m'.find k = some e → d = .get k v → P k e.generation v)
    {k : ExtentId} {v : Bytes} (hk : (l.after d).snap k = some v) :
    ∃ e, m'.find k = some e ∧ e.readen = true ∧ P k e.generation v := by
  cases ht with
  | @getHit eid e he =>
    have hl : l.touched eid = some e.value := by rw [hm.touched, he]; rfl
    rw [Local.after, hl] at hk
    obtain ⟨e', h1, h2, h3⟩ := hold k v hk
    rw [OrdMap.find_set]
    by_cases hke : k = eid
    · subst hke
      rw [he, Option.some_inj] at h1
      exact ⟨{ e with readen := true }, by simp, rfl, h1 ▸ h3⟩
    · exact ⟨e', by simp [hke, h1], h2, h3⟩
  | @writeHit eid e value he =>
    obtain ⟨e', h1, h2, h3⟩ := hold k v hk
    rw [OrdMap.find_set]
    by_cases hke : k = eid
    · subst hke
      rw [he, Option.some_inj] at h1
      subst h1
      exact ⟨{ e with written := true, value := value }, by simp, h2, h3⟩
    · exact ⟨e', by simp [hke, h1], h2, h3⟩
  | @getMiss eid g w he =>
    have hl : l.touched eid = none := by rw [hm.touched, he]; rfl
    simp only [Local.after, hl] at hk
    by_cases hke : k = eid
    · subst hke
      rw [Function.update_self, Option.some_inj] at hk
      exact ⟨⟨g, true, false, w⟩, by simp, rfl, hnew k _ v he (by simp) (by rw [hk])⟩
    · rw [Function.update_of_ne hke] at hk
      obtain ⟨e', h1, h2, h3⟩ := hold k v hk
      exact ⟨e', by simp [OrdMap.find_set, hke, h1], h2, h3⟩
  | @writeMiss eid g value he =>
    obtain ⟨e', h1, h2, h3⟩ := hold k v hk
    have hke : k ≠ eid := by
      rintro rfl
      rw [he] at h1
      exact absurd h1 (by simp)
    exact ⟨e', by simp [OrdMap.find_set, hke, h1], h2, h3⟩

theorem Current.goto {s : State} (h : Current s) {id : TransactionId} {pc : Pc}
    (hcall : ∀ ret, s.calls id ≠ some (.erase ret))
    (hpc : ∀ key g v, pc = .readInsert key g v → UpToDate g v (s.store (hash key))) :
    Current (s.goto id pc) := by
  refine ⟨fun u m k v hu hne hk => h.entries u m k v hu (fun ret => ?_) hk,
    fun u key g v hu => ?_⟩
  · by_cases hui : u = id
    · exact hui ▸ hcall ret
    · simpa [hui] using hne ret
  · by_cases hui : u = id
    · subst hui
      simp only [State.goto_calls, Function.update_self, Option.some_inj] at hu
      exact hpc key g v hu
    · simp only [State.goto_calls, Function.update_of_ne hui] at hu
      exact h.fetched u key g v hu

theorem Current.touch {s : State} (h : Current s) (hi : Inv s) {id : TransactionId} {m m' : VMap}
    {c : Call} {d : Done ExtentId Bytes} {out : Bytes} (hid : s.tMap id = some m)
    (ht : Touch m m' d) (hd : c.done out = some d) (hcall : ∀ ret, s.calls id ≠ some (.erase ret))
    (hnew : ∀ k e v, m.find k = none → m'.find k = some e → d = .get k v →
      UpToDate e.generation v (s.store k)) :
    Current ((s.setMap id m').reply id c .ok out) := by
  refine ⟨fun u m₁ k v hu hne hk => ?_, fun u key g v hu => ?_⟩
  · by_cases hui : u = id
    · subst hui
      rw [State.reply_log, State.setMap_log, history_returned_self _ _ hd, track_snoc] at hk
      simp only [State.reply_tMap, State.setMap_tMap, Function.update_self, Option.some_inj] at hu
      subst hu
      exact ht.snap (P := fun k g v => UpToDate g v (s.store k)) (hi.live u m hid)
        (fun k v hk => h.entries u m k v hid hcall hk) hnew hk
    · rw [history, State.reply_log, State.setMap_log, transcript_returned_ne _ _ _ _ hui] at hk
      simp only [State.reply_tMap, State.setMap_tMap, Function.update_of_ne hui] at hu
      exact h.entries u m₁ k v hu (fun ret => by simpa [hui] using hne ret) hk
  · have hui : u ≠ id := by rintro rfl; simp at hu
    simp only [State.reply_calls, State.setMap_calls, Function.update_of_ne hui] at hu
    exact h.fetched u key g v hu

theorem Current.leave {s : State} (h : Current s) {id : TransactionId} {c : Call} {ret : Status}
    (hd : c.done [] = none) : Current ((s.eraseMap id).reply id c ret []) := by
  refine ⟨fun u m k v hu hne hk => ?_, fun u key g v hu => ?_⟩
  · have hui : u ≠ id := by rintro rfl; simp at hu
    rw [history, State.reply_log, transcript_returned_of_none _ _ _ _ fun _ => hd] at hk
    simp only [State.reply_tMap, State.eraseMap_tMap, Function.update_of_ne hui] at hu
    exact h.entries u m k v hu (fun ret => by simpa [hui] using hne ret) hk
  · have hui : u ≠ id := by rintro rfl; simp at hu
    simp only [State.reply_calls, State.eraseMap_calls, Function.update_of_ne hui] at hu
    exact h.fetched u key g v hu

/-- A commit section that grows its generations leaves every other transaction's reads up to
date. -/
theorem UpToDate.installAll {s : State} {id u : TransactionId} {m : VMap} {k : ExtentId} {g : Int32}
    {v : Bytes} (h : UpToDate g v (s.store k)) (hgrow : GenerationsGrow s (.resume id))
    (hid : s.tMap id = some m) (hcall : s.calls id = some .commit)
    (hval : validates s.store m = true) (hu : u ≠ id) (hread : ReadsUnder s u k g) :
    UpToDate g v (installAll s.store m k) := by
  rw [installAll_apply]
  cases hfind : m.find k with
  | none => exact h
  | some e =>
    cases hw : e.written with
    | false => simpa [hw] using h
    | true =>
      have hlt := hgrow id m rfl hcall hid hval k e hfind hw u g hu hread
      simp only [hw, if_true]
      exact .inl (by rwa [getGeneration_newString])

theorem Current.step {s s' : State} {a : Action} (h : Current s) (hi : Inv s)
    (hgrow : GenerationsGrow s a) (hs : step s a = some s') : Current s' := by
  cases step_cases hs with
  | begin hlt =>
    have hnew := hi.unborn s.nextTransactionId (Int.le_refl _)
    refine ⟨fun u m k v hu hne hk => ?_, h.fetched⟩
    by_cases hui : u = s.nextTransactionId
    · subst hui
      have hnil : history s.log s.nextTransactionId = [] := by rw [history, hnew.2.2]; rfl
      exact absurd (show (track (history s.log s.nextTransactionId)).snap k = some v from hk)
        (by simp [hnil, Local.start])
    · simp only [Function.update_of_ne hui] at hu
      exact h.entries u m k v hu hne hk
  | @reject id c ret hid hcall hret =>
    have hd : ret = .ok → c.done [] = none := fun hr => by rw [hret hr]; rfl
    have hcalls : (s.reply id c ret []).calls = s.calls := by
      rw [State.reply_calls, ← hcall, Function.update_eq_self]
    refine ⟨fun u m k v hu hne hk => ?_, fun u key g v hu => h.fetched u key g v (hcalls ▸ hu)⟩
    rw [history, State.reply_log, transcript_returned_of_none _ _ _ _ hd] at hk
    exact h.entries u m k v hu (hcalls ▸ hne) hk
  | hit hid hcall ht hkey hd =>
    refine h.touch hi hid ht hd (by simp [hcall]) fun k e v hnone _ hdg => ?_
    rw [hdg, Done.key, hnone] at hkey
    exact absurd hkey (by simp)
  | enter hid hcall hpc =>
    refine h.goto (by simp [hcall]) ?_
    rintro key g v rfl
    exact hpc.elim
  | abort hid hcall => exact h.leave rfl
  | read hid hcall =>
    refine h.goto (by simp [hcall]) fun key g v hpc => ?_
    injection hpc with hkey hg hv
    subst hkey hg hv
    exact .inr ⟨rfl, rfl⟩
  | @readInsert id key v g m hid hcall =>
    obtain ⟨m', hid', habout⟩ := hi.about id _ hcall
    rw [hid, Option.some_inj] at hid'
    have hnone : m.find (hash key) = none := hid' ▸ habout
    rw [OrdMap.insert_of_find_none hnone]
    refine h.touch hi hid (.getMiss g v hnone) rfl (by simp [hcall]) fun k e w _ hsome hd => ?_
    injection hd with hk hw
    subst hk hw
    rw [OrdMap.find_set_self, Option.some_inj] at hsome
    exact hsome ▸ h.fetched id key g v hcall
  | sample hid hcall => exact h.goto (by simp [hcall]) (by simp)
  | @sampleInsert id c eid value g m hid hcall =>
    obtain ⟨m', hid', habout⟩ := hi.about id _ hcall
    rw [hid, Option.some_inj] at hid'
    subst hid'
    rw [OrdMap.insert_of_find_none habout.1]
    exact h.touch hi hid (.writeMiss g value habout.1) habout.2 (by simp [hcall])
      (fun _ _ _ _ _ hd => absurd hd (by simp))
  | @commit id m hid hcall hval =>
    refine ⟨fun u m' k v hu hne hk => ?_, fun u key g v hu => ?_⟩
    · have hui : u ≠ id := by rintro rfl; simp at hne
      have hne' : ∀ ret, s.calls u ≠ some (.erase ret) := fun ret => by simpa [hui] using hne ret
      rw [history, transcript_committed] at hk
      obtain ⟨e, h1, h2, h3⟩ := h.entries u m' k v hu hne' hk
      exact ⟨e, h1, h2, h3.installAll hgrow hid hcall hval hui
        (.inl ⟨m', e, hu, hne', h1, h2, rfl⟩)⟩
    · have hui : u ≠ id := by rintro rfl; simp at hu
      simp only [Function.update_of_ne hui] at hu
      exact (h.fetched u key g v hu).installAll hgrow hid hcall hval hui (.inr ⟨key, v, hu, rfl⟩)
  | refuse hid hcall hval => exact h.goto (by simp [hcall]) (by simp)
  | erase hid hcall => exact h.leave rfl

/-! ## Every commit extends a serial history -/

/-- What the committed transactions did is what they do when they are run alone one after another,
and the values in the store are the ones that leaves. -/
structure Serialised (s : State) : Prop where
  ok : SerialOK (fun _ => []) (committedHistories s.log)
  value : ∀ k, valuePart (s.store k) = serialStore (fun _ => []) (committedHistories s.log) k

theorem Serialised.start (n₀ : TransactionId) : Serialised (State.start n₀) :=
  ⟨trivial, fun _ => rfl⟩

theorem Serialised.returned {s : State} (h : Serialised s) {log : List Event} {tMap}
    {calls : TransactionId → Option Pc} (hlog : committedHistories log = committedHistories s.log) :
    Serialised { s with tMap := tMap, calls := calls, log := log } :=
  ⟨hlog ▸ h.ok, fun k => hlog ▸ h.value k⟩

/-- Validation finds everything the transaction has read first still in the store. -/
theorem snap_of_validates {s : State} (hc : Current s) {id : TransactionId} {m : VMap}
    (hid : s.tMap id = some m) (hcall : s.calls id = some .commit)
    (hval : validates s.store m = true) {k : ExtentId} {v : Bytes}
    (hk : (track (history s.log id)).snap k = some v) : valuePart (s.store k) = v := by
  obtain ⟨e, hfind, hread, hup⟩ := hc.entries id m k v hid (by simp [hcall]) hk
  rcases hup with hlt | ⟨_, hv⟩
  · exact absurd hlt (validates_iff.1 hval k e hfind hread)
  · exact hv

theorem Serialised.step {s s' : State} {a : Action} (h : Serialised s) (hi : Inv s)
    (hc : Current s) (hs : step s a = some s') : Serialised s' := by
  cases step_cases hs with
  | begin => exact ⟨h.ok, h.value⟩
  | @reject id c ret hid hcall hret =>
    exact h.returned (committedHistories_returned (.inr fun hr => by rw [hret hr]; rfl))
  | hit hid hcall ht hkey hd =>
    exact h.returned (committedHistories_returned (.inl (hi.not_committed hid (by simp [hcall]))))
  | enter | read | sample | refuse => exact ⟨h.ok, h.value⟩
  | readInsert hid hcall | sampleInsert hid hcall =>
    exact h.returned (committedHistories_returned (.inl (hi.not_committed hid (by simp [hcall]))))
  | abort | erase => exact h.returned (committedHistories_returned (.inr fun _ => rfl))
  | @commit id m hid hcall hval =>
    have hvals : (fun k => valuePart (s.store k)) =
        serialStore (fun _ => []) (committedHistories s.log) := funext h.value
    refine ⟨?_, fun k => ?_⟩
    · rw [committedHistories_committed]
      refine h.ok.snoc (hi.coherent id) fun k v hk => ?_
      rw [← hvals]
      exact snap_of_validates hc hid hcall hval hk
    · rw [committedHistories_committed, serialStore_snoc, ← hvals]
      exact valuePart_installAll (hi.live id m hid) k

/-- In a run whose commits all make their generations grow, the committed transactions have run as
if one after another. -/
theorem Serialised.of_run {n₀ : TransactionId} {as : List Action} {s : State}
    (h : Run Occ.step GenerationsGrow (State.start n₀) as s) : Serialised s := by
  have hcur : ∀ {as s}, Run Occ.step GenerationsGrow (State.start n₀) as s → Current s :=
    fun h => h.invariant_with Inv.of_run (Current.start n₀)
      fun _ _ _ hi hc hok hs => hc.step hi hok hs
  exact h.invariant_with (Q := fun s => Inv s ∧ Current s) (fun h => ⟨Inv.of_run h, hcur h⟩)
    (Serialised.start n₀) fun _ _ _ hq hser _ hs => hser.step hq.1 hq.2 hs

end Occ
end Ydb
end CseLab
