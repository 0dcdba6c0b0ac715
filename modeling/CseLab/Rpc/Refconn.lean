import CseLab.Lib.Refcount
import CseLab.Rpc.Calls

/-!
# The connections of a client

The `rpcc` holds its connection, and so does each call that has sent on it; a call that holds
another holds one that is dead (`Conns`).  So a connection is deleted when nobody holds it any
more, and not before (`connections_sound`).
-/

set_option autoImplicit false

namespace CseLab
namespace Rpc

/-- The counts are those of who holds what, and what nobody holds has been deleted. -/
structure Held (conn : ℕ → Chan) (held : List ℕ) : Prop where
  counts : Counts (fun c => (conn c).refno) held
  freed_iff : ∀ c, (conn c).freed = false ↔ c ∈ held

namespace Client

variable {s s' : Client} {a : Step} {c : ℕ} {held refs refs' : List ℕ} {t : Thread}
  {threads : List Thread}

theorem refno_update (conn : ℕ → Chan) (c : ℕ) (chan : Chan) :
    (fun d => (Function.update conn c chan d).refno) =
      Function.update (fun d => (conn d).refno) c chan.refno := by
  funext d
  rcases eq_or_ne d c with rfl | hne
  · rw [Function.update_self, Function.update_self]
  · rw [Function.update_of_ne hne, Function.update_of_ne hne]

theorem dead_update (conn : ℕ → Chan) {chan : Chan} (hdead : chan.dead = (conn c).dead) (d : ℕ) :
    (Function.update conn c chan d).dead = (conn d).dead := by
  rcases eq_or_ne d c with rfl | hne
  · rwa [Function.update_self]
  · rw [Function.update_of_ne hne]

theorem use_eq (hc : (s.conn c).freed = false) : s.use c = .ok (s.conn c) := by
  rw [use, hc]
  rfl

/-- One reference more to what is held. -/
theorem incref_spec (hs : Held s.conn held) (hc : c ∈ held) : ∃ conn,
    s.incref c = .ok { s with conn := conn } ∧ Held conn (c :: held) ∧
      ∀ d, (conn d).dead = (s.conn d).dead := by
  have hunfreed := (hs.freed_iff c).2 hc
  refine ⟨Function.update s.conn c { s.conn c with refno := (s.conn c).refno + 1 },
    by rw [incref, use_eq hunfreed]; rfl, ⟨?_, fun d => ?_⟩, dead_update s.conn rfl⟩
  · rw [refno_update]
    exact hs.counts.incref c
  · rw [List.mem_cons]
    rcases eq_or_ne d c with rfl | hne
    · rw [Function.update_self]
      exact iff_of_true hunfreed (.inl rfl)
    · rw [Function.update_of_ne hne, or_iff_right hne]
      exact hs.freed_iff d

/-- One reference less: to what others hold too, or to what is dead. -/
theorem decref_spec (hs : Held s.conn (c :: held)) (hlast : c ∈ held ∨ (s.conn c).dead = true) :
    ∃ conn, s.decref c = .ok { s with conn := conn } ∧ Held conn held ∧
      ∀ d, (conn d).dead = (s.conn d).dead := by
  have hunfreed := (hs.freed_iff c).2 List.mem_cons_self
  have hcount : (s.conn c).refno = held.count c + 1 :=
    (hs.counts c).trans List.count_cons_self
  have hne : (s.conn c).refno ≠ 0 := by omega
  refine ⟨Function.update s.conn c { s.conn c with
      refno := (s.conn c).refno - 1
      freed := (s.conn c).refno - 1 = 0 && (s.conn c).dead },
    by rw [decref, use_eq hunfreed]; simp only [bind, Except.bind, if_neg hne]; rfl,
    ⟨?_, fun d => ?_⟩, dead_update s.conn rfl⟩
  · rw [refno_update]
    exact hs.counts.decref
  · rcases eq_or_ne d c with rfl | hne
    · rw [Function.update_self, hcount, Nat.add_sub_cancel, ← List.count_pos_iff]
      rcases Nat.eq_zero_or_pos (held.count d) with hzero | hpos
      · have hdead := hlast.resolve_left (List.count_eq_zero.1 hzero)
        simp [hzero, hdead]
      · simp [Nat.ne_of_gt hpos, hpos]
    · rw [Function.update_of_ne hne, hs.freed_iff d, List.mem_cons, or_iff_right hne]

/-- What is kept of the connections, where the calls hold `refs`. -/
structure Conns (s : Client) (refs : List ℕ) : Prop where
  held : Held s.conn (s.chan.toList ++ refs)
  lt : ∀ c ∈ s.chan.toList ++ refs, c < s.next
  stale : ∀ c ∈ refs, s.chan = some c ∨ (s.conn c).dead = true

theorem Conns.perm (hs : s.Conns refs) (hp : refs'.Perm refs) : s.Conns refs' where
  held := ⟨hs.held.counts.perm (hp.append_left _), fun c =>
    (hs.held.freed_iff c).trans (hp.append_left _).mem_iff.symm⟩
  lt c hc := hs.lt c ((hp.append_left _).mem_iff.1 hc)
  stale c hc := hs.stale c (hp.mem_iff.1 hc)

theorem Conns.unfreed (hs : s.Conns refs) (hc : c ∈ refs) : (s.conn c).freed = false :=
  (hs.held.freed_iff c).2 (List.mem_append_right _ hc)

/-- A new connection is made, or none; those that are still held are dead. -/
theorem connectToDst_spec (hheld : Held s.conn refs) (hlt : ∀ c ∈ refs, c < s.next)
    (hdead : ∀ c ∈ refs, (s.conn c).dead = true) (succ : Bool) : ∃ chan conn next,
    s.connectToDst succ = { s with chan := chan, conn := conn, next := next } ∧
      Conns { s with chan := chan, conn := conn, next := next } refs := by
  cases succ with
  | false => exact ⟨none, s.conn, s.next, rfl, hheld, hlt, fun c hc => .inr (hdead c hc)⟩
  | true =>
    have hnew : s.next ∉ refs := fun hmem => Nat.lt_irrefl _ (hlt _ hmem)
    refine ⟨_, _, _, rfl, ⟨?_, fun c => ?_⟩, fun c hc => ?_, fun c hc => .inr ?_⟩
    · rw [refno_update]
      intro c
      show _ = (s.next :: refs).count c
      rcases eq_or_ne c s.next with rfl | hne
      · rw [Function.update_self, List.count_cons_self, List.count_eq_zero_of_not_mem hnew]
      · rw [Function.update_of_ne hne, List.count_cons_of_ne hne.symm]
        exact hheld.counts c
    · show (Function.update s.conn s.next _ c).freed = false ↔ c ∈ s.next :: refs
      rw [List.mem_cons]
      rcases eq_or_ne c s.next with rfl | hne
      · rw [Function.update_self]
        exact iff_of_true rfl (.inl rfl)
      · rw [Function.update_of_ne hne, or_iff_right hne]
        exact hheld.freed_iff c
    · rcases List.mem_cons.1 hc with rfl | hc
      · exact Nat.lt_succ_self _
      · exact Nat.lt_succ_of_lt (hlt c hc)
    · show (Function.update s.conn s.next _ c).dead = true
      rw [Function.update_of_ne (Nat.ne_of_lt (hlt c hc))]
      exact hdead c hc

theorem renew_none (hchan : s.chan = none) (succ : Bool) :
    s.renew succ = .ok (s.connectToDst succ) := by
  rw [renew, hchan]
  rfl

theorem renew_some (hchan : s.chan = some c) (hc : (s.conn c).freed = false) (succ : Bool) :
    s.renew succ = if (s.conn c).dead = true then s.decref c >>= fun s => .ok (s.connectToDst succ)
      else .ok s := by
  rw [renew, hchan]
  simp only [use_eq hc, bind, Except.bind]
  rfl

/-- The connection is there, or a new one is made, or there is none. -/
theorem renew_spec (hs : s.Conns refs) (succ : Bool) : ∃ chan conn next,
    s.renew succ = .ok { s with chan := chan, conn := conn, next := next } ∧
      Conns { s with chan := chan, conn := conn, next := next } refs := by
  obtain ⟨hheld, hlt, hstale⟩ := hs
  rcases Option.eq_none_or_eq_some s.chan with hchan | ⟨c, hchan⟩
  · rw [hchan] at hheld hlt
    have hdead : ∀ c ∈ refs, (s.conn c).dead = true := fun c hc =>
      (hstale c hc).resolve_left (by simp [hchan])
    obtain ⟨chan, conn, next, heq, hconns⟩ := connectToDst_spec hheld hlt hdead succ
    exact ⟨chan, conn, next, by rw [renew_none hchan, heq], hconns⟩
  · have hmem : c ∈ s.chan.toList ++ refs := by simp [hchan]
    rw [renew_some hchan ((hheld.freed_iff c).2 hmem)]
    split
    next hdead =>
      rw [hchan] at hheld hlt
      obtain ⟨conn, hdec, hheld', hsame⟩ := decref_spec hheld (.inr hdead)
      have hall : ∀ d ∈ refs, (conn d).dead = true := by
        intro d hd
        rw [hsame]
        rcases hstale d hd with hd | hd
        · obtain rfl := Option.some_inj.1 (hchan.symm.trans hd)
          exact hdead
        · exact hd
      obtain ⟨chan, conn', next, heq, hconns⟩ := connectToDst_spec (s := { s with conn := conn })
        hheld' (fun d hd => hlt d (List.mem_cons_of_mem _ hd)) hall succ
      refine ⟨chan, conn', next, ?_, hconns⟩
      rw [hdec]
      exact congrArg Except.ok heq
    next => exact ⟨s.chan, s.conn, s.next, rfl, hheld, hlt, hstale⟩

/-- A call gives up the connection it held. -/
theorem drop_spec (hs : s.Conns (c :: refs)) : ∃ conn,
    s.decref c = .ok { s with conn := conn } ∧ Conns { s with conn := conn } refs := by
  have hperm : (s.chan.toList ++ c :: refs).Perm (c :: (s.chan.toList ++ refs)) :=
    List.perm_middle
  have hheld : Held s.conn (c :: (s.chan.toList ++ refs)) :=
    ⟨hs.held.counts.perm hperm.symm, fun d => (hs.held.freed_iff d).trans hperm.mem_iff⟩
  have hlast : c ∈ s.chan.toList ++ refs ∨ (s.conn c).dead = true :=
    (hs.stale c List.mem_cons_self).imp_left fun hc => List.mem_append_left _ (by simp [hc])
  obtain ⟨conn, heq, hheld', hdead⟩ := decref_spec hheld hlast
  refine ⟨conn, heq, hheld', fun d hd => hs.lt d ?_, fun d hd => ?_⟩
  · exact hperm.mem_iff.2 (List.mem_cons_of_mem _ hd)
  · exact (hs.stale d (List.mem_cons_of_mem _ hd)).imp_right (hdead d).trans

theorem giveUp_spec {ch : Option ℕ} (hs : s.Conns (ch.toList ++ refs)) : ∃ conn,
    s.giveUp ch = .ok { s with conn := conn } ∧ Conns { s with conn := conn } refs := by
  cases ch with
  | none => exact ⟨s.conn, rfl, hs⟩
  | some c => exact drop_spec hs

theorem swap_none (hchan : s.chan = none) (ch : Option ℕ) : s.swap ch = .ok (ch, s) := by
  rw [swap, hchan]
  rfl

theorem swap_some (hchan : s.chan = some c) (ch : Option ℕ) : s.swap ch =
    s.giveUp ch >>= fun s => s.incref c >>= fun s => .ok (some c, s) := by
  rw [swap, hchan]
  rfl

/-- A call takes the connection for the one it held. -/
theorem swap_spec {ch : Option ℕ} (hs : s.Conns (ch.toList ++ refs)) : ∃ ch' conn,
    s.swap ch = .ok (ch', { s with conn := conn }) ∧
      Conns { s with conn := conn } (ch'.toList ++ refs) := by
  rcases Option.eq_none_or_eq_some s.chan with hchan | ⟨c, hchan⟩
  · exact ⟨ch, s.conn, swap_none hchan ch, hs⟩
  · obtain ⟨conn, hgive, hconns⟩ := giveUp_spec hs
    have hmem : c ∈ s.chan.toList ++ refs := by simp [hchan]
    obtain ⟨conn', hinc, hheld, hsame⟩ := incref_spec hconns.held hmem
    refine ⟨some c, conn', ?_, ⟨?_, ?_⟩, fun d hd => ?_, fun d hd => ?_⟩
    · rw [swap_some hchan, hgive]
      simp only [bind, Except.bind]
      rw [hinc]
    · exact hheld.counts.perm List.perm_middle
    · exact fun d => (hheld.freed_iff d).trans List.perm_middle.symm.mem_iff
    · rcases List.mem_cons.1 (List.perm_middle.mem_iff.1 hd) with rfl | hd
      · exact hconns.lt d hmem
      · exact hconns.lt d hd
    · rcases List.mem_cons.1 hd with rfl | hd
      · exact .inl hchan
      · exact (hconns.stale d hd).imp_right (hsame d).trans

/-- A connection dies. -/
theorem Conns.die (hs : s.Conns refs) (c : ℕ) :
    (s.setConn c { s.conn c with dead := true }).Conns refs := by
  refine ⟨⟨?_, fun d => ?_⟩, hs.lt, fun d hd => ?_⟩
  · have hcounts : Counts (fun d => (s.conn d).refno) (s.chan.toList ++ refs) := hs.held.counts
    rw [← Function.update_eq_self c fun d => (s.conn d).refno] at hcounts
    show Counts (fun d => (Function.update s.conn c _ d).refno) _
    rw [refno_update]
    exact hcounts
  · refine Iff.trans ?_ (hs.held.freed_iff d)
    show (Function.update s.conn c _ d).freed = false ↔ _
    rcases eq_or_ne d c with rfl | hne
    · rw [Function.update_self]
    · rw [Function.update_of_ne hne]
  · refine (hs.stale d hd).imp_right fun hdead => ?_
    show (Function.update s.conn c _ d).dead = true
    rcases eq_or_ne d c with rfl | hne
    · rw [Function.update_self]
    · rwa [Function.update_of_ne hne]

theorem hangUp_none (hchan : s.chan = none) : s.hangUp = .ok s := by
  rw [hangUp, hchan]
  rfl

theorem hangUp_some (hchan : s.chan = some c) (hc : (s.conn c).freed = false) :
    s.hangUp = (s.setConn c { s.conn c with dead := true }).decref c := by
  rw [hangUp, hchan]
  simp only [closeconn, use_eq hc, bind, Except.bind]
  rfl

/-- The connection is closed and given up, when no call holds any. -/
theorem hangUp_spec (hs : s.Conns []) : ∃ conn, s.hangUp = .ok { s with conn := conn } ∧
    Conns { s with chan := none, conn := conn } [] := by
  rcases Option.eq_none_or_eq_some s.chan with hchan | ⟨c, hchan⟩
  · refine ⟨s.conn, hangUp_none hchan, ?_⟩
    rw [← hchan]
    exact hs
  · have hmem : c ∈ s.chan.toList ++ [] := by simp [hchan]
    have hdied := (hs.die c).held
    rw [show (s.setConn c { s.conn c with dead := true }).chan.toList ++ [] = [c] by
      rw [List.append_nil]; exact congrArg Option.toList hchan] at hdied
    have hdead : ((s.setConn c { s.conn c with dead := true }).conn c).dead = true := by
      show (Function.update s.conn c _ c).dead = true
      rw [Function.update_self]
    obtain ⟨conn, hdec, hheld, -⟩ := decref_spec hdied (.inr hdead)
    exact ⟨conn, (hangUp_some hchan ((hs.held.freed_iff c).2 hmem)).trans hdec, hheld,
      fun d hd => absurd hd List.not_mem_nil, fun d hd => absurd hd List.not_mem_nil⟩

/-! ## Steps -/

/-- What the calls hold. -/
def chs (threads : List Thread) : List ℕ := threads.filterMap Thread.ch

theorem chs_cons (t : Thread) (threads : List Thread) :
    chs (t :: threads) = t.ch.toList ++ chs threads := by
  rw [chs, List.filterMap_cons]
  cases t.ch <;> rfl

theorem chs_map {f : Thread → Thread} (hf : ∀ t, (f t).ch = t.ch) (threads : List Thread) :
    chs (threads.map f) = chs threads := by
  rw [chs, List.filterMap_map]
  exact List.filterMap_congr fun t _ => hf t

/-- The step does not fail, and the connections are as they should be. -/
def Fine (s : Client) (r : Except ClientFault Client) : Prop :=
  ∃ s', r = .ok s' ∧ s'.Conns (chs s'.threads) ∧ s'.fault = s.fault

theorem fine_goto (hs : s.Conns (t.ch.toList ++ chs s.threads)) (stage : Stage) :
    Fine s (.ok (s.goto t stage)) := by
  refine ⟨_, rfl, ?_, rfl⟩
  rw [Client.goto, chs_cons]
  exact ⟨hs.held, hs.lt, hs.stale⟩

theorem fine_connect (hs : s.Conns (t.ch.toList ++ chs s.threads)) (final succ : Bool) :
    Fine s (s.connect t final succ) := by
  obtain ⟨chan, conn, next, hrenew, hs₁⟩ := renew_spec hs succ
  obtain ⟨ch, conn', hswap, hs₂⟩ := swap_spec hs₁
  rw [connect, hrenew]
  simp only [bind, Except.bind]
  rw [hswap]
  exact fine_goto (t := { t with ch := ch }) hs₂ _

theorem fine_send (hs : s.Conns (t.ch.toList ++ chs s.threads)) (final : Bool) :
    Fine s (s.send t final) := by
  rw [send]
  cases hch : t.ch with
  | none => exact fine_goto hs _
  | some c =>
    have hc : c ∈ t.ch.toList ++ chs s.threads := by simp [hch]
    simp only [use_eq (hs.unfreed hc), bind, Except.bind]
    exact fine_goto hs _

theorem fine_sent (hs : s.Conns (t.ch.toList ++ chs s.threads)) (final : Bool) :
    Fine s (s.sent t final) := by
  rw [sent]
  cases hch : t.ch with
  | none => exact fine_goto hs _
  | some c =>
    have hc : c ∈ t.ch.toList ++ chs s.threads := by simp [hch]
    simp only [use_eq (hs.unfreed hc), bind, Except.bind]
    exact fine_goto hs _

theorem fine_retry (hs : s.Conns (t.ch.toList ++ chs s.threads)) (final : Bool) :
    Fine s (s.retry t final) := by
  rw [retry]
  split
  next => exact fine_goto hs _
  next =>
    cases hch : t.ch with
    | none => exact fine_goto hs _
    | some c =>
      have hc : c ∈ t.ch.toList ++ chs s.threads := by simp [hch]
      simp only [use_eq (hs.unfreed hc), bind, Except.bind]
      exact fine_goto hs _

theorem fine_ret (hs : s.Conns (t.ch.toList ++ chs s.threads)) (ca : Caller) :
    Fine s (s.ret t ca) := by
  obtain ⟨conn, hgive, hconns⟩ := giveUp_spec hs
  rw [ret, hgive]
  exact ⟨_, rfl, ⟨hconns.held, hconns.lt, hconns.stale⟩, rfl⟩

theorem fine_runThread {r : Except ClientFault Client}
    (hs : s.Conns (t.ch.toList ++ chs s.threads)) (h : s.runThread t t.stage a = some r) :
    Fine s r := by
  unfold runThread at h
  split at h
  next => exact Option.some_inj.1 h ▸ fine_connect hs _ _
  next => exact Option.some_inj.1 h ▸ fine_send hs _
  next => exact Option.some_inj.1 h ▸ fine_sent hs _
  next =>
    obtain ⟨-, h⟩ := Option.ite_none_right_eq_some.1 h
    exact Option.some_inj.1 h ▸ fine_sent hs _
  next =>
    obtain rfl := Option.some_inj.1 h
    rw [sleep]
    split
    next => exact fine_goto hs _
    next => exact fine_goto hs _
  next => exact Option.some_inj.1 h ▸ fine_goto hs _
  next =>
    obtain rfl := Option.some_inj.1 h
    rw [wakeUp]
    split
    next => exact fine_goto hs _
    next => exact fine_goto hs _
  next =>
    obtain rfl := Option.some_inj.1 h
    rw [wakeUp]
    split
    next => exact fine_goto hs _
    next => exact fine_goto hs _
  next => exact Option.some_inj.1 h ▸ fine_retry hs _
  next =>
    obtain ⟨s₁, hleave, rfl⟩ := Option.map_eq_some_iff.1 h
    obtain ⟨ca, c, -, -, rfl⟩ := leave_cases hleave
    exact fine_goto (s := { s with rpcc := _, destroy_wait_c := c })
      ⟨hs.held, hs.lt, hs.stale⟩ (.left ca)
  next => exact Option.some_inj.1 h ▸ fine_ret hs _
  next => exact absurd h (by simp)

theorem fine_await (hs : s.Conns (chs s.threads)) (n : ℕ) : Fine s (.ok (s.await n)) := by
  rw [await]
  split
  next => exact ⟨_, rfl, ⟨hs.held, hs.lt, hs.stale⟩, rfl⟩
  next => exact ⟨s, rfl, hs, rfl⟩

theorem fine_destroy (hs : s.Conns (chs s.threads)) (hcalls : s.Calls) (hnone : s.threads = []) :
    Fine s s.destroy := by
  have hout : s.outstanding = false := by
    rw [outstanding, List.any_eq_false]
    intro xid _ hcall
    obtain ⟨t, ht, -⟩ := (hcalls.keys xid).1 hcall
    exact absurd (hnone ▸ ht) List.not_mem_nil
  rw [hnone] at hs
  obtain ⟨conn, hhang, hconns⟩ := hangUp_spec hs
  have hout' : ({ s with conn := conn } : Client).outstanding = false := hout
  refine ⟨{ s with chan := none, conn := conn, destroyed := true }, ?_, ?_, rfl⟩
  · rw [destroy, hhang]
    simp only [bind, Except.bind, hout', Bool.false_eq_true, if_false]
    rfl
  · show Conns _ (chs s.threads)
    rw [hnone]
    exact ⟨hconns.held, hconns.lt, hconns.stale⟩

theorem fine_run {r : Except ClientFault Client} (hs : s.Conns (chs s.threads)) (hcalls : s.Calls)
    (hok : s.Proper a) (h : s.run a = some r) : Fine s r := by
  cases hthread : a.thread with
  | some j =>
    rw [run_thread hthread] at h
    obtain ⟨⟨t, threads⟩, hpick, h⟩ := Option.bind_eq_some_iff.1 h
    have hconns : s.Conns (t.ch.toList ++ chs threads) :=
      hs.perm (chs_cons t threads ▸ (pick_perm hpick).symm.filterMap _)
    exact fine_runThread (s := { s with threads := threads })
      ⟨hconns.held, hconns.lt, hconns.stale⟩ h
  | none =>
    cases a with
    | call1 bind =>
      obtain rfl := Option.some_inj.1 h
      rw [enter]
      split
      next => exact ⟨s, rfl, hs, rfl⟩
      next =>
        split
        next => exact ⟨s, rfl, hs, rfl⟩
        next => exact ⟨_, rfl, ⟨hs.held, hs.lt, hs.stale⟩, rfl⟩
    | gotPdu xid ret =>
      obtain rfl := Option.some_inj.1 h
      refine ⟨_, rfl, ?_, rfl⟩
      rw [gotPdu, chs_map fun t => by split <;> rfl]
      exact ⟨hs.held, hs.lt, hs.stale⟩
    | cancel n =>
      obtain rfl := Option.some_inj.1 h
      refine fine_await ?_ n
      rw [failAll, chs_map (f := Thread.wake) fun t => rfl]
      exact ⟨hs.held, hs.lt, hs.stale⟩
    | wake i =>
      obtain ⟨c, -, rfl⟩ := Option.map_eq_some_iff.1 h
      exact ⟨_, rfl, ⟨hs.held, hs.lt, hs.stale⟩, rfl⟩
    | resume i =>
      obtain ⟨⟨n, c⟩, -, rfl⟩ := Option.map_eq_some_iff.1 h
      exact fine_await (s := { s with destroy_wait_c := c }) ⟨hs.held, hs.lt, hs.stale⟩ n
    | die c => exact Option.some_inj.1 h ▸ ⟨_, rfl, hs.die c, rfl⟩
    | destroy =>
      exact Option.some_inj.1 h ▸ fine_destroy hs hcalls (List.isEmpty_iff.1 hok.1)
    | connect | send | sent | unsent | sleep | spurious | wakeUp | timeout | retry | leave
    | ret => cases hthread

theorem conns_new (retrans : Bool) : (new retrans).Conns (chs (new retrans).threads) where
  held := ⟨fun _ => rfl, fun _ => iff_of_false Bool.true_eq_false.mp List.not_mem_nil⟩
  lt _ hc := absurd hc List.not_mem_nil
  stale _ hc := absurd hc List.not_mem_nil

theorem conns_of_run {retrans : Bool} {as : List Step} (h : Run step Proper (new retrans) as s) :
    s.Conns (chs s.threads) ∧ s.fault = none := by
  refine h.invariant_with (P := fun s => s.Conns (chs s.threads) ∧ s.fault = none)
    (Q := Calls) calls_of_run ⟨conns_new retrans, rfl⟩ ?_
  rintro s a s' hcalls ⟨hs, hfault⟩ hok hstep
  obtain ⟨-, -, hrun | ⟨f, hrun, -⟩⟩ := step_cases hstep
  · obtain ⟨s₁, heq, hs₁, hsame⟩ := fine_run hs hcalls hok hrun
    obtain rfl := ok_inj heq
    exact ⟨hs₁, hsame.trans hfault⟩
  · obtain ⟨s₁, heq, -⟩ := fine_run hs hcalls hok hrun
    exact absurd heq (by simp)

/-- No connection is touched that has been deleted, no count goes below zero, and no call is under
way when the client is deleted.  The count of each connection is the number of those that hold it,
and it has been deleted, or has never been made, if and only if nobody does. -/
theorem connections_sound {retrans : Bool} {as : List Step}
    (h : Run step Proper (new retrans) as s) : s.fault = none ∧
      (∀ c, (s.conn c).refno = (s.chan.toList ++ chs s.threads).count c) ∧
      ∀ c, (s.conn c).freed = false ↔ c ∈ s.chan.toList ++ chs s.threads := by
  obtain ⟨hs, hfault⟩ := conns_of_run h
  exact ⟨hfault, hs.held.counts, hs.held.freed_iff⟩

/-- Two calls have sent on a connection that has died since, the second not all of its request; the
first has got the next. -/
def reconnected : Client :=
  (execute (guarded step Proper) (new true)
    [.call1 true, .connect 0 true, .send 0, .sent 0, .sleep 0 false, .gotPdu 1 0, .wakeUp 0,
      .leave 0 0, .ret 0, .call1 false, .connect 0 true, .send 0, .sent 0, .sleep 0 false,
      .call1 false, .connect 0 true, .send 0, .die 0, .unsent 0, .sleep 0 false, .timeout 1,
      .retry 0, .connect 0 true]).get (by decide +kernel)

theorem connections_sound_reconnected : reconnected.fault = none ∧
    (reconnected.conn 0).refno = 1 ∧ (reconnected.conn 0).freed = false ∧
      (reconnected.conn 1).refno = 2 := by
  have hrun : Run step Proper (new true) _ reconnected := .of_guarded (Option.some_get _).symm
  have hheld : reconnected.chan.toList ++ chs reconnected.threads = [1, 1, 0] := by
    decide +kernel
  obtain ⟨hfault, hcounts, hfreed⟩ := connections_sound hrun
  rw [hheld] at hcounts hfreed
  exact ⟨hfault, hcounts 0, (hfreed 0).2 (by simp), hcounts 1⟩

end Client

end Rpc
end CseLab
