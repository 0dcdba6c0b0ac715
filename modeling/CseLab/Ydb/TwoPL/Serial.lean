import CseLab.Ydb.TwoPL.Invariant

/-!
# Two-phase locking is serialisable

While a transaction is on its way, what it has read first is still in the store: it holds the locks
of those extents, and nobody else writes to them.  The decision to commit therefore extends a serial
history (`Serialised`).  Until its loop has come to an extent, the store still has the old value
there; `pending` and `settled` say which is which.
-/

set_option autoImplicit false

namespace CseLab
namespace Ydb
namespace TwoPL

open Serial

/-- The values the committed transactions leave when they are run alone in commit order. -/
def serialValues (log : List Event) : IdealStore :=
  serialStore (fun _ => []) (committedHistories log)

/-- A commit in progress has still to write `value` to extent `k`. -/
def Pending (phase : TransactionId → Phase) (k : ExtentId) (value : Bytes) : Prop :=
  ∃ id rem, phase id = .committing rem ∧ (k, ⟨value, .write⟩) ∈ rem

/-- The phases in which a transaction has not decided yet. -/
def Phase.Active : Phase → Prop
  | .committing _ | .finishing _ _ => False
  | _ => True

/-- What the committed transactions did is what they do one after another, and the store has the
values that leaves, or will have them when the commits in progress are through. -/
structure Serialised (d : Data) : Prop where
  ok : SerialOK (fun _ => []) (committedHistories d.log)
  /-- What a transaction on its way has read first is still there. -/
  snap : ∀ id m k v, d.tMap id = some m → (d.phase id).Active →
    (track (history d.log id)).snap k = some v → d.store k = v
  pending : ∀ k v, Pending d.phase k v → serialValues d.log k = v
  settled : ∀ k, (∀ v, ¬ Pending d.phase k v) → serialValues d.log k = d.store k

theorem Serialised.start : Serialised State.start.data where
  ok := trivial
  snap _ _ _ _ h := absurd h (by simp [State.start, State.data])
  pending k v h := by
    obtain ⟨id, rem, hph, -⟩ := h
    exact absurd hph (by simp [State.start, State.data])
  settled _ _ := rfl

/-- What a transaction has read first it holds the lock of. -/
theorem Inv.held_of_snap {d : Data} (h : Inv d) {id : TransactionId} {m : TContent} {k : ExtentId}
    {v : Bytes} (hid : d.tMap id = some m) (hact : (d.phase id).Active)
    (hk : (track (history d.log id)).snap k = some v) : (d.phase id).Held m k := by
  have htouched : (track (history d.log id)).touched k ≠ none := by
    intro hnone
    rw [(track_tidy _ k hnone).2] at hk
    exact absurd hk (by simp)
  rw [(h.live id m hid).touched, ne_eq, Option.map_eq_none_iff] at htouched
  have hkey : k ∈ m.keys := by rwa [OrdMap.mem_keys, Option.isSome_iff_ne_none]
  cases hph : d.phase id with
  | idle | wanting => exact hkey
  | having | entering => exact .inl hkey
  | committing | finishing =>
    rw [hph] at hact
    exact hact.elim

/-- A pending write is to an extent whose lock its transaction holds. -/
theorem Inv.held_of_pending {d : Data} (h : Inv d) {id : TransactionId} {k : ExtentId} {e : TValue}
    {rem : List (ExtentId × TValue)} (hph : d.phase id = .committing rem) (hmem : (k, e) ∈ rem) :
    ∃ m, d.tMap id = some m ∧ (d.phase id).Held m k := by
  cases hid : d.tMap id with
  | none =>
    rw [h.idle id hid] at hph
    exact absurd hph (by simp)
  | some m => exact ⟨m, rfl, h.held_of_rem hid hph hmem⟩

/-- A change of a phase that is no part of a commit's loop changes nothing that is pending. -/
theorem pending_update {phase : TransactionId → Phase} {id : TransactionId} (ph : Phase)
    (hold : ∀ rem, phase id = .committing rem → rem = [])
    (hnew : ∀ rem, ph = .committing rem → rem = []) (k : ExtentId) (v : Bytes) :
    Pending (Function.update phase id ph) k v ↔ Pending phase k v := by
  constructor
  · rintro ⟨u, rem, hph, hmem⟩
    by_cases hui : u = id
    · subst hui
      rw [Function.update_self] at hph
      rw [hnew rem hph] at hmem
      exact absurd hmem (by simp)
    · rw [Function.update_of_ne hui] at hph
      exact ⟨u, rem, hph, hmem⟩
  · rintro ⟨u, rem, hph, hmem⟩
    by_cases hui : u = id
    · subst hui
      rw [hold rem hph] at hmem
      exact absurd hmem (by simp)
    · exact ⟨u, rem, by rwa [Function.update_of_ne hui], hmem⟩

/-- Moving on to another phase, outside a commit's loop. -/
theorem Serialised.move {d : Data} (h : Serialised d) {id : TransactionId} {ph : Phase}
    (hact : ph.Active → (d.phase id).Active)
    (hold : ∀ rem, d.phase id = .committing rem → rem = [])
    (hnew : ∀ rem, ph = .committing rem → rem = []) {locks : LockId → Option TransactionId} :
    Serialised { d with phase := Function.update d.phase id ph, locks := locks } := by
  refine ⟨h.ok, fun u m k v hu hactive hk => ?_, fun k v hp => ?_, fun k hp => ?_⟩
  · by_cases hui : u = id
    · subst hui
      exact h.snap u m k v hu (hact (by simpa using hactive)) hk
    · exact h.snap u m k v hu (by simpa [hui] using hactive) hk
  · exact h.pending k v ((pending_update ph hold hnew k v).1 hp)
  · exact h.settled k fun v hv => hp v ((pending_update ph hold hnew k v).2 hv)

/-- A call that returns, of a transaction that has not committed. -/
theorem Serialised.touch {d : Data} (h : Serialised d) {id : TransactionId} {m : TContent}
    (m' : TContent) (op : Op) (out : Bytes) (hid : d.tMap id = some m) (hph : (d.phase id).Active)
    (hnot : id ∉ commitOrder d.log)
    (hnew : ∀ k v, (track (history d.log id ++ [op.done out])).snap k = some v →
      (track (history d.log id)).snap k = some v ∨ d.store k = v) :
    Serialised { d with
      tMap := Function.update d.tMap id (some m')
      phase := Function.update d.phase id .idle
      log := d.log ++ [.returned id op.call .ok out] } := by
  have hhist : committedHistories (d.log ++ [.returned id op.call .ok out]) =
      committedHistories d.log := committedHistories_returned (.inl hnot)
  have hserial : serialValues (d.log ++ [.returned id op.call .ok out]) = serialValues d.log := by
    rw [serialValues, hhist, serialValues]
  have hold : ∀ rem, d.phase id = .committing rem → rem = [] := by
    intro rem hrem
    rw [hrem] at hph
    exact hph.elim
  have hsame := pending_update .idle hold (by simp)
  refine ⟨hhist ▸ h.ok, fun u m₁ k v hu hactive hk => ?_, fun k v hp => ?_, fun k hp => ?_⟩
  · by_cases hui : u = id
    · subst hui
      rw [history_returned_self _ _ (op.done_call out)] at hk
      exact (hnew k v hk).elim (h.snap u m k v hid hph) fun h => h
    · rw [history, transcript_returned_ne _ _ _ _ hui] at hk
      simp only [Function.update_of_ne hui] at hu hactive
      exact h.snap u m₁ k v hu hactive hk
  · rw [hserial]
    exact h.pending k v ((hsame k v).1 hp)
  · rw [hserial]
    exact h.settled k fun v hv => hp v ((hsame k v).2 hv)

/-- What is read for the first time is what the store has. -/
theorem Matches.snap_new {m : TContent} {l : Local ExtentId Bytes} {op : Op} {e : TValue}
    {store : IdealStore} (h : Matches m l) (hk : m.find op.eid = none)
    (he : op.Gives e (store op.eid)) {k : ExtentId} {v : Bytes}
    (hsnap : (l.after (op.done (op.out e))).snap k = some v) :
    l.snap k = some v ∨ store k = v := by
  rw [Op.done, Op.out] at hsnap
  rcases he.cases with ⟨hw, rfl⟩ | ⟨value, hw, rfl⟩
  · have hl : l.touched op.eid = none := by rw [h.touched, hk]; rfl
    simp only [hw, Local.after, hl, if_true] at hsnap
    by_cases hke : k = op.eid
    · subst hke
      rw [Function.update_self, Option.some_inj] at hsnap
      exact .inr hsnap
    · rw [Function.update_of_ne hke] at hsnap
      exact .inl hsnap
  · rw [hw] at hsnap
    exact .inl hsnap

/-- **The decision to commit** extends the serial history. -/
theorem Serialised.commit {d : Data} (h : Serialised d) (hi : Inv d) {id : TransactionId}
    {m : TContent} (hid : d.tMap id = some m) (hph : d.phase id = .idle) :
    Serialised { d with
      phase := Function.update d.phase id (.committing m.entries)
      log := d.log ++ [.committed id] } := by
  have hm := hi.live id m hid
  have hact : (d.phase id).Active := by simp [hph, Phase.Active]
  have hserial : serialValues (d.log ++ [.committed id]) =
      install (serialValues d.log) (track (history d.log id)).wrote := by
    rw [serialValues, committedHistories_committed, serialStore_snoc, serialValues]
  have hwrote : ∀ k v, (k, ⟨v, .write⟩) ∈ m.entries →
      (track (history d.log id)).wrote k = some v := by
    intro k v hmem
    rw [hm.wrote, OrdMap.mem_entries.1 hmem]
    rfl
  -- nobody else is about to write what this transaction has
  have hmine : ∀ k, (d.phase id).Held m k → ∀ v, ¬ Pending d.phase k v := by
    intro k hheld v hp
    obtain ⟨u, rem, hphu, hmem⟩ := hp
    obtain ⟨m', hu, hheld'⟩ := hi.held_of_pending hphu hmem
    rw [← hi.exclusive hid hu hheld hheld', hph] at hphu
    exact absurd hphu (by simp)
  refine ⟨?_, fun u m' k v hu hactive hk => ?_, fun k v hp => ?_, fun k hp => ?_⟩
  · rw [committedHistories_committed]
    refine h.ok.snoc (hi.coherent id) fun k v hk => ?_
    show serialValues d.log k = v
    rw [h.settled k (hmine k (hi.held_of_snap hid hact hk))]
    exact h.snap id m k v hid hact hk
  · have hui : u ≠ id := by rintro rfl; simp [Phase.Active] at hactive
    rw [history, transcript_committed] at hk
    exact h.snap u m' k v hu (by simpa [hui] using hactive) hk
  · rw [hserial, install]
    obtain ⟨u, rem, hphu, hmem⟩ := hp
    by_cases hui : u = id
    · subst hui
      simp only [Function.update_self, Phase.committing.injEq] at hphu
      rw [hwrote k v (hphu ▸ hmem), Option.getD_some]
    · simp only [Function.update_of_ne hui] at hphu
      have hpend : Pending d.phase k v := ⟨u, rem, hphu, hmem⟩
      have hnone : (track (history d.log id)).wrote k = none := by
        refine (track_tidy _ k ?_).1
        rw [hm.touched, Option.map_eq_none_iff, ← Option.not_isSome_iff_eq_none, ← OrdMap.mem_keys]
        intro hkey
        exact hmine k (by rw [hph]; exact hkey) v hpend
      rw [hnone, Option.getD_none]
      exact h.pending k v hpend
  · rw [hserial, install]
    have hnone : (track (history d.log id)).wrote k = none := by
      cases hw : (track (history d.log id)).wrote k with
      | none => rfl
      | some v =>
        rw [hm.wrote, Option.bind_eq_some_iff] at hw
        obtain ⟨e, he, hev⟩ := hw
        split at hev
        · rename_i hst
          refine absurd ⟨id, m.entries, by simp, ?_⟩ (hp e.value)
          rw [← hst]
          exact OrdMap.mem_entries.2 he
        · exact absurd hev (by simp)
    rw [hnone, Option.getD_none]
    refine h.settled k fun v hv => hp v ?_
    obtain ⟨u, rem, hphu, hmem⟩ := hv
    have hui : u ≠ id := by rintro rfl; simp [hph] at hphu
    exact ⟨u, rem, by simpa [hui] using hphu, hmem⟩

/-- **One round of a commit's loop.** -/
theorem Serialised.put {d : Data} (h : Serialised d) (hi : Inv d) {id : TransactionId}
    {m : TContent} {p : ExtentId × TValue} {rem : List (ExtentId × TValue)}
    (hid : d.tMap id = some m) (hph : d.phase id = .committing (p :: rem)) :
    Serialised { d with
      phase := Function.update d.phase id (.committing rem)
      store := State.putEntry d.store p } := by
  have hheld := hi.held_of_rem hid hph List.mem_cons_self
  have hkey : ∀ q ∈ rem, q.1 ≠ p.1 := by
    have hsuff : p :: rem <:+ m.entries := by
      have habout := hi.about id m hid
      rwa [hph] at habout
    intro q hq
    exact Ne.symm (ne_of_lt ((List.pairwise_cons.1 (m.sorted.sublist hsuff.sublist)).1 q hq))
  have hpend : ∀ k v, Pending (Function.update d.phase id (.committing rem)) k v →
      Pending d.phase k v ∧ k ≠ p.1 := by
    rintro k v ⟨u, rem', hphu, hmem⟩
    by_cases hui : u = id
    · subst hui
      rw [Function.update_self, Phase.committing.injEq] at hphu
      subst hphu
      exact ⟨⟨u, p :: rem, hph, List.mem_cons_of_mem _ hmem⟩, hkey _ hmem⟩
    · rw [Function.update_of_ne hui] at hphu
      refine ⟨⟨u, rem', hphu, hmem⟩, ?_⟩
      rintro rfl
      obtain ⟨m', hu, hheld'⟩ := hi.held_of_pending hphu hmem
      exact hui (hi.exclusive hu hid hheld' hheld)
  refine ⟨h.ok, fun u m' k v hu hactive hk => ?_, fun k v hp => h.pending k v (hpend k v hp).1,
    fun k hp => ?_⟩
  · have hui : u ≠ id := by rintro rfl; simp [Phase.Active] at hactive
    simp only [Function.update_of_ne hui] at hactive
    have hk' : k ≠ p.1 := by
      rintro rfl
      exact hui (hi.exclusive hu hid (hi.held_of_snap hu hactive hk) hheld)
    show State.putEntry d.store p k = v
    rw [putEntry_of_ne _ hk']
    exact h.snap u m' k v hu hactive hk
  · show serialValues d.log k = State.putEntry d.store p k
    -- the only write that is no longer pending is the one just made
    have hleft : ∀ v, Pending d.phase k v → k = p.1 ∧ p.2 = ⟨v, .write⟩ := by
      rintro v ⟨u, rem', hphu, hmem⟩
      by_cases hui : u = id
      · subst hui
        rw [hph, Phase.committing.injEq] at hphu
        subst hphu
        rcases List.mem_cons.1 hmem with rfl | hmem
        · exact ⟨rfl, rfl⟩
        · exact absurd ⟨u, rem, by simp, hmem⟩ (hp v)
      · exact absurd ⟨u, rem', by simpa [hui] using hphu, hmem⟩ (hp v)
    by_cases hk : k = p.1
    · subst hk
      rw [putEntry_self]
      split
      · rename_i hst
        refine h.pending p.1 p.2.value ⟨id, p :: rem, hph, ?_⟩
        rw [← hst]
        exact List.mem_cons_self
      · rename_i hst
        refine h.settled p.1 fun v hv => hst ?_
        rw [(hleft v hv).2]
    · rw [putEntry_of_ne _ hk]
      exact h.settled k fun v hv => hk (hleft v hv).1

/-- The end of a transaction, or a call that has found none. -/
theorem Serialised.returned {d : Data} (h : Serialised d) {id : TransactionId} (c : Call)
    (ret : Status) (out : Bytes) (hd : ret = .ok → c.done out = none)
    (tMap : TransactionId → Option TContent)
    (hmap : ∀ u m, tMap u = some m → u ≠ id ∧ d.tMap u = some m)
    (hph : ∀ rem, d.phase id = .committing rem → rem = []) :
    Serialised { d with
      tMap := tMap
      phase := Function.update d.phase id .idle
      log := d.log ++ [.returned id c ret out] } := by
  have hhist : committedHistories (d.log ++ [.returned id c ret out]) =
      committedHistories d.log := committedHistories_returned (.inr hd)
  have hserial : serialValues (d.log ++ [.returned id c ret out]) = serialValues d.log := by
    rw [serialValues, hhist, serialValues]
  have hsame := pending_update .idle hph (by simp)
  refine ⟨hhist ▸ h.ok, fun u m k v hu hactive hk => ?_, fun k v hp => ?_, fun k hp => ?_⟩
  · obtain ⟨hui, hu⟩ := hmap u m hu
    rw [history, transcript_returned_of_none _ _ _ _ hd] at hk
    exact h.snap u m k v hu (by simpa [hui] using hactive) hk
  · rw [hserial]
    exact h.pending k v ((hsame k v).1 hp)
  · rw [hserial]
    exact h.settled k fun v hv => hp v ((hsame k v).2 hv)

/-- **Every step keeps the history serial.** -/
theorem Serialised.step {d d' : Data} (h : Serialised d) (hi : Inv d) (hs : Data.Step d d') :
    Serialised d' := by
  cases hs with
  | begin =>
    refine ⟨h.ok, fun u m k v hu hactive hk => ?_, h.pending, h.settled⟩
    have hnew := (hi.unborn d.nextTransactionId (Int.le_refl _)).2
    by_cases hui : u = d.nextTransactionId
    · rw [hui, history, hnew] at hk
      exact absurd hk (by simp [doneOf, Local.start])
    · exact h.snap u m k v (by simpa [hui] using hu) hactive hk
  | @reject id c hid hph =>
    have hmap : ∀ u m, d.tMap u = some m → u ≠ id ∧ d.tMap u = some m :=
      fun u m hu => ⟨by rintro rfl; simp [hid] at hu, hu⟩
    have hreturned := h.returned c .transidinv [] (by simp) d.tMap hmap (by simp [hph])
    rwa [← hph, Function.update_eq_self] at hreturned
  | @read id m op e hid hph he hw =>
    have hact : (d.phase id).Active := by simp [hph, Phase.Active]
    have hd : op.done e.value = .get op.eid e.value := by rw [Op.done, hw]
    have hsame : track (history d.log id ++ [op.done e.value]) = track (history d.log id) := by
      rw [track_snoc, hd, (hi.live id m hid).read he]
    have hnot := hi.not_committed hid (by simp [hph, Phase.Committed])
    have htouch := h.touch m op e.value hid hact hnot fun k v hk => .inl (hsame ▸ hk)
    rwa [← hid, Function.update_eq_self, ← hph, Function.update_eq_self] at htouch
  | @write id m op e value hid hph he hw =>
    have hact : (d.phase id).Active := by simp [hph, Phase.Active]
    have hd : op.done [] = .put op.eid value := by rw [Op.done, hw]
    have hnot := hi.not_committed hid (by simp [hph, Phase.Committed])
    have htouch := h.touch (m.set op.eid ⟨value, .write⟩) op [] hid hact hnot fun k v hk =>
      .inl (by rwa [track_snoc, hd] at hk)
    rwa [← hph, Function.update_eq_self] at htouch
  | @want id m op hid hph he => exact h.move (by simp [hph, Phase.Active]) (by simp [hph]) (by simp)
  | @lock id m op hid hph hfree =>
    exact h.move (by simp [hph, Phase.Active]) (by simp [hph]) (by simp)
  | @enter id m op value hid hph hw =>
    exact h.move (by simp [hph, Phase.Active]) (by simp [hph]) (by simp)
  | @fetch id m op hid hph hw =>
    exact h.move (by simp [hph, Phase.Active]) (by simp [hph]) (by simp)
  | @insert id m op e hid hph =>
    have habout := hi.about id m hid
    rw [hph] at habout
    refine h.touch _ op _ hid (by simp [hph, Phase.Active])
      (hi.not_committed hid (by simp [hph, Phase.Committed])) fun k v hk => ?_
    exact (hi.live id m hid).snap_new habout.1 habout.2 (by rwa [track_snoc] at hk)
  | @commit id m hid hph => exact h.commit hi hid hph
  | @put id m p rem hid hph => exact h.put hi hid hph
  | @finish id m w hid hw =>
    refine h.move (by simp [Phase.Active]) (fun rem hrem => ?_) (by simp)
    rw [hrem] at hw
    exact hw.1
  | @unlock id m w lid kept hid hph =>
    exact h.move (by simp [Phase.Active]) (by simp [hph]) (by simp)
  | @erase id m w hid hph =>
    refine h.returned _ _ _ w.done_eq_none _ (fun u m' hu => ?_) (by simp [hph])
    have hui : u ≠ id := by rintro rfl; simp at hu
    exact ⟨hui, by simpa [hui] using hu⟩

/-- In every run of the server the committed transactions have run as if one after another. -/
theorem Serialised.of_run {ok : State → Action → Prop} {as : List Action} {s : State}
    (h : Run TwoPL.step ok State.start as s) : Serialised s.data := by
  have hboth := data_induct (P := fun d => Inv d ∧ Serialised d) h ⟨.start, .start⟩
    fun _ _ hp hs => ⟨hp.1.step hs, hp.2.step hp.1 hs⟩
  exact hboth.2

end TwoPL
end Ydb
end CseLab
