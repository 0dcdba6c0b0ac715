import CseLab.Rpc.Connection

/-!
# Sending

Many threads call `send`, and one of them owns `wpdu_` until its call returns.  While the connection
lives, what has been written is all PDUs that were in `wpdu_` before, and of the one that is in it
as much as `solong` says (`Busy`); the other half of the invariant (`Sending`) is who sleeps, and
why.

A call that has been told that its PDU is sent has it in the stream, behind all that were begun
before (`Conn.sent_is_written`).  Who sleeps waits for what is still to be written, except where
`closeconn` has come in between: it wakes nobody, and the call never returns
(`Conn.closed_never_completes`).
-/

set_option autoImplicit false

namespace CseLab
namespace Rpc
namespace Conn

variable {c c' : Conn} {bs : List Pdu} {b : Pdu} {o : Wr} {t i m n : ℕ}

/-- Of the PDUs `begun`, the last is in `wpdu`, and all else has been written. -/
structure Busy (begun : List Pdu) (wpdu : Charbuf) (out : Bytes) (bs : List Pdu) (b : Pdu) :
    Prop where
  begun : begun = bs ++ [b]
  sz : wpdu.sz = b.bytes.length
  nonneg : 0 ≤ wpdu.solong
  le : wpdu.solong ≤ b.bytes.length
  out : out = stream bs ++ b.frame.take wpdu.solong.toNat
  /-- Its size is put in front when the first bytes are written. -/
  buf : wpdu.buf = some b.frame ∨ wpdu.solong = 0 ∧ wpdu.buf = some b.bytes

/-- What `writepdu` makes of it. -/
theorem Busy.writepdu (h : Busy c.begun c.wpdu c.out bs b) (o : Wr) : ∃ w out r,
    c.writepdu o = .ok ({ c with wpdu := w, out := out }, r) ∧ w.buf.isSome ∧
      c.out <+: out ∧ (r = true → Busy c.begun w out bs b) ∧ (r = false → out = c.out) := by
  have hnonneg := h.nonneg
  have hsome : c.wpdu.buf.isSome := by
    rcases h.buf with hbuf | ⟨-, hbuf⟩ <;> rw [hbuf] <;> rfl
  rw [Conn.writepdu, if_neg (by omega)]
  split
  next => exact ⟨c.wpdu, c.out, true, rfl, hsome, List.prefix_refl _, fun _ => h, nofun⟩
  next hne =>
    obtain ⟨buf, hbuf⟩ := Option.isSome_iff_exists.1 hsome
    rw [hbuf]
    dsimp only
    -- whatever has been in it, the buffer now has the size in front
    have hframe : (if c.wpdu.solong = 0 then sizeWord c.wpdu.sz.toNat ++ buf.drop 4 else buf) =
        b.frame := by
      have hsize : sizeWord c.wpdu.sz.toNat ++ b.bytes.drop 4 = b.frame := by
        rw [h.sz, Int.toNat_natCast]
        rfl
      rcases h.buf with hbuf' | ⟨h0, hbuf'⟩
      · obtain rfl := Option.some_inj.1 (hbuf.symm.trans hbuf')
        split
        · rw [← hsize]
          rfl
        · rfl
      · obtain rfl := Option.some_inj.1 (hbuf.symm.trans hbuf')
        rw [if_pos h0, hsize]
    rw [hframe]
    cases o with
    | took n =>
      refine ⟨_, _, true, rfl, rfl, List.prefix_append _ _, fun _ => ?_, nofun⟩
      obtain ⟨k, hk⟩ := Int.eq_ofNat_of_zero_le hnonneg
      have hlen : ((b.frame.drop k).take (c.wpdu.sz - k).toNat).length ≤ b.bytes.length - k := by
        rw [List.length_take, List.length_drop, b.length_frame]
        omega
      have hle := h.le
      rw [hk] at hle
      generalize hx : ((b.frame.drop c.wpdu.solong.toNat).take
        (c.wpdu.sz - c.wpdu.solong).toNat).take n = x
      rw [hk, Int.toNat_natCast] at hx
      have hxlen : x.length ≤ b.bytes.length - k := by
        rw [← hx]
        exact (List.length_take_le' ..).trans hlen
      have hprefix : x <+: b.frame.drop k :=
        hx ▸ (List.take_prefix ..).trans (List.take_prefix ..)
      refine ⟨h.begun, h.sz, ?_, ?_, ?_, .inl rfl⟩
      · show 0 ≤ c.wpdu.solong + x.length
        omega
      · show c.wpdu.solong + x.length ≤ b.bytes.length
        omega
      · show c.out ++ x = stream bs ++ b.frame.take (c.wpdu.solong + x.length).toNat
        have hsum : (c.wpdu.solong + x.length).toNat = k + x.length := by omega
        rw [hsum, h.out, List.take_add, ← List.prefix_iff_eq_take.1 hprefix, List.append_assoc, hk,
          Int.toNat_natCast]
    | error again =>
      cases again with
      | true =>
        exact ⟨{ c.wpdu with buf := some b.frame }, c.out, true, rfl, rfl,
          List.prefix_refl _, fun _ => { h with buf := .inl rfl }, nofun⟩
      | false => exact ⟨_, c.out, false, rfl, rfl, List.prefix_refl _, nofun, fun _ => rfl⟩

/-! ## What holds in every run -/

/-- What is known of the senders.  `n` is 1 while the thread that owns `wpdu` runs, and `m` while
one of those that have waited for it does. -/
structure Sending (n m : ℕ) (c : Conn) : Prop where
  owner : c.send_complete.waiters.length + c.removing.length + n =
    if c.wpdu.buf.isSome then 1 else 0
  idle : c.wpdu.buf = none → c.wpdu = .empty ∧ c.results.length = c.begun.length ∧
    (c.dead = false → c.out = stream c.begun)
  busy : c.wpdu.buf.isSome → c.results.length + 1 = c.begun.length ∧
    (c.dead = false → ∃ bs b, Busy c.begun c.wpdu c.out bs b)
  begins : c.out <+: stream c.begun
  sent : ∀ i, c.results[i]? = some true → stream (c.begun.take (i + 1)) <+: c.out
  removing : c.dead = false → c.removing = []
  waits : c.send_wait.asleep ≠ [] → c.wpdu.buf.isSome
  waiters : c.waiters = c.send_wait.waiters.length + m
  /-- Who sleeps on `send_complete` waits for something that is still to be written, or has been
  forgotten by `closeconn`. -/
  complete : c.send_complete.asleep ≠ [] →
    (c.dead = false ∧ c.wpdu.solong < c.wpdu.sz) ∨ c.closed = true
  closed : c.closed = true → c.dead = true

theorem Sending.new : Sending 0 0 new :=
  ⟨rfl, fun _ => ⟨rfl, rfl, fun _ => rfl⟩, nofun, List.nil_prefix, nofun, fun _ => rfl,
    fun h => absurd rfl h, rfl, fun h => absurd rfl h, nofun⟩

/-- `send` returns.  If the connection lives, the PDU is sent. -/
theorem Sending.finish (h : Sending 1 m c)
    (hdone : c.dead = false → c.wpdu.solong = c.wpdu.sz) : Sending 0 m c.finish := by
  have howner := h.owner
  have hsome : c.wpdu.buf.isSome := by
    by_contra hne
    rw [if_neg hne] at howner
    omega
  rw [if_pos hsome] at howner
  obtain ⟨hresults, halive⟩ := h.busy hsome
  have hwritten : c.dead = false → c.out = stream c.begun := by
    intro hd
    obtain ⟨bs, b, hbusy⟩ := halive hd
    have hlen : c.wpdu.solong.toNat = b.frame.length := by
      rw [hdone hd, hbusy.sz, Int.toNat_natCast, b.length_frame]
    rw [hbusy.out, hlen, List.take_length, hbusy.begun, stream_append, stream_singleton]
  have hasleep : c.finish.send_wait.asleep = [] ∧
      c.finish.send_wait.waiters.length = c.send_wait.waiters.length := by
    have hwaiters := h.waiters
    simp only [Conn.finish]
    split
    · exact ⟨rfl, (Cond.waiters_broadcast _).length_eq⟩
    · have hnil : c.send_wait.waiters = [] := List.length_eq_zero_iff.1 (by omega)
      exact ⟨(List.append_eq_nil_iff.1 hnil).1, rfl⟩
  refine ⟨?_, fun _ => ⟨rfl, ?_, hwritten⟩, nofun, h.begins, fun i hi => ?_, h.removing,
    fun hne => absurd hasleep.1 hne, hasleep.2 ▸ h.waiters, fun hne => ?_, h.closed⟩
  · show c.send_complete.waiters.length + c.removing.length + 0 = 0
    omega
  · exact List.length_append.trans hresults
  · rcases Nat.lt_trichotomy i c.results.length with hlt | heq | hgt
    · exact h.sent i ((List.getElem?_append_left hlt).symm.trans hi)
    · have hret : (!c.dead && c.wpdu.solong == c.wpdu.sz) = true := by
        rw [heq] at hi
        simpa [Conn.finish] using hi
      have hd : c.dead = false := by
        rw [Bool.and_eq_true, Bool.not_eq_true'] at hret
        exact hret.1
      show stream (c.begun.take (i + 1)) <+: c.out
      rw [hwritten hd, List.take_of_length_le (by omega)]
    · rw [List.getElem?_eq_none (by rw [Conn.finish, List.length_append]; exact hgt)] at hi
      exact absurd hi nofun
  · have hnil : c.send_complete.waiters = [] := List.length_eq_zero_iff.1 (by omega)
    exact absurd (List.append_eq_nil_iff.1 hnil).1 hne

/-- Whose PDU is being sent waits for it, or has waited. -/
theorem Sending.completeLoop (h : Sending 1 m c) (t : ℕ) : Sending 0 m (c.completeLoop t) := by
  have howner := h.owner
  have hsome : c.wpdu.buf.isSome := by
    by_contra hne
    rw [if_neg hne] at howner
    omega
  rw [Conn.completeLoop]
  split
  next hwait =>
    simp only [Bool.and_eq_true, Bool.not_eq_true', decide_eq_true_eq] at hwait
    refine { h with owner := ?_, complete := fun _ => .inl ⟨hwait.1.1, hwait.2⟩ }
    have hlen := (Cond.waiters_wait c.send_complete t).length_eq
    rw [List.length_cons] at hlen
    rw [← howner]
    simp only [hlen]
    omega
  next hwait =>
    refine h.finish fun hd => ?_
    obtain ⟨bs, b, hbusy⟩ := (h.busy hsome).2 hd
    have hnonneg := hbusy.nonneg
    have hle := hbusy.le
    simp only [hd, Bool.not_false, Bool.true_and, Bool.and_eq_true, decide_eq_true_eq, not_and,
      not_lt] at hwait
    have hge := hwait hnonneg
    rw [hbusy.sz] at hge ⊢
    omega

/-- Where nobody's PDU is being sent. -/
theorem Sending.enter (h : Sending 0 m c) (hfree : c.dead = true ∨ c.wpdu.buf = none) :
    ∃ c', c.enter t b o = .ok c' ∧ Sending 0 m c' := by
  rw [Conn.enter]
  split
  next => exact ⟨c, rfl, h⟩
  next hd =>
    have hd : c.dead = false := Bool.eq_false_iff.2 hd
    have hnone := hfree.resolve_left (by rw [hd]; exact Bool.false_ne_true)
    obtain ⟨-, hresults, hout⟩ := h.idle hnone
    have howner := h.owner
    rw [hnone, Option.isSome_none, if_neg Bool.false_ne_true] at howner
    have hcomplete : c.send_complete.waiters = [] := List.length_eq_zero_iff.1 (by omega)
    have hremoving : c.removing = [] := List.length_eq_zero_iff.1 (by omega)
    have hnil := (List.append_eq_nil_iff.1 hcomplete).1
    have hbusy : Busy (c.begun ++ [b]) ⟨some b.bytes, b.bytes.length, 0⟩ c.out c.begun b :=
      ⟨rfl, rfl, Int.le_refl 0, Int.natCast_nonneg _, (hout hd).trans (List.append_nil _).symm,
        .inr ⟨rfl, rfl⟩⟩
    obtain ⟨w, out, r, hr, hsome, hgrow, htrue, hfalse⟩ := Busy.writepdu (c := { c with
      wpdu := ⟨some b.bytes, b.bytes.length, 0⟩, begun := c.begun ++ [b] }) hbusy o
    rw [hr]
    have hsent : ∀ i, c.results[i]? = some true →
        stream ((c.begun ++ [b]).take (i + 1)) <+: c.out := by
      intro i hi
      obtain ⟨hlt, -⟩ := List.getElem?_eq_some_iff.1 hi
      rw [List.take_append_of_le_length (by omega)]
      exact h.sent i hi
    cases r with
    | false =>
      obtain rfl : out = c.out := hfalse rfl
      refine ⟨_, rfl, ?_, ?_, fun _ => ⟨?_, nofun⟩, ?_, hsent, nofun, fun _ => hsome, h.waiters,
        fun hne => absurd hnil hne, fun _ => rfl⟩
      · simp [hcomplete, hremoving, hsome]
      · intro hw
        rw [hw] at hsome
        exact Bool.noConfusion hsome
      · simp only [hresults, List.length_append, List.length_singleton]
      · refine h.begins.trans ?_
        rw [stream_append]
        exact List.prefix_append _ _
    | true =>
      have hbusy' := htrue rfl
      have hs : Sending 1 m { c with begun := c.begun ++ [b], wpdu := w, out := out } := by
        refine ⟨?_, ?_, fun _ => ⟨?_, fun _ => ⟨_, _, hbusy'⟩⟩, ?_,
          fun i hi => (hsent i hi).trans hgrow, fun _ => hremoving, fun _ => hsome, h.waiters,
          fun hne => absurd hnil hne, h.closed⟩
        · simp [hcomplete, hremoving, hsome]
        · intro hw
          rw [hw] at hsome
          exact Bool.noConfusion hsome
        · simp only [hresults, List.length_append, List.length_singleton]
        · have hout' := hbusy'.out
          show out <+: stream (c.begun ++ [b])
          rw [hout', stream_append, stream_singleton]
          exact (List.prefix_append_right_inj _).2 (List.take_prefix ..)
      dsimp only
      split
      next hdone => exact ⟨_, rfl, hs.finish fun _ => hdone⟩
      next => exact ⟨_, rfl, hs.completeLoop t⟩

/-- A call of `send` that waits, or has waited, for its turn. -/
theorem Sending.waitLoop (h : Sending 0 (m + 1) c) :
    ∃ c', c.waitLoop t b o = .ok c' ∧ Sending 0 m c' := by
  have hwaiters := h.waiters
  rw [Conn.waitLoop]
  split
  next hwait =>
    simp only [Bool.and_eq_true] at hwait
    refine ⟨_, rfl, { h with waits := fun _ => hwait.2, waiters := ?_ }⟩
    have hlen := (Cond.waiters_wait c.send_wait (t, b)).length_eq
    rw [List.length_cons] at hlen
    show c.waiters = (c.send_wait.wait (t, b)).waiters.length + m
    omega
  next hwait =>
    have hs : Sending 0 m { c with waiters := c.waiters - 1 } := by
      refine { h with waiters := ?_ }
      show c.waiters - 1 = c.send_wait.waiters.length + m
      omega
    refine hs.enter ?_
    simp only [Bool.and_eq_true, Bool.not_eq_true', not_and, Bool.not_eq_true,
      Option.isSome_eq_false_iff, Option.isNone_iff_eq_none] at hwait
    rcases Bool.eq_false_or_eq_true c.dead with hd | hd
    · exact .inl hd
    · exact .inr (hwait hd)

theorem Sending.one_waiter (h : Sending 0 m c) : c.send_complete.waiters.length ≤ 1 := by
  have howner := h.owner
  split at howner <;> omega

/-- Where at most one sleeps on `send_complete`, a signal wakes it. -/
theorem signalComplete_cases (hle : c.send_complete.waiters.length ≤ 1)
    (hs : c.signalComplete i = some c') : ∃ cond, c' = { c with send_complete := cond } ∧
      cond.asleep = [] ∧ cond.waiters.length = c.send_complete.waiters.length := by
  obtain ⟨cond, hc, rfl⟩ := Option.map_eq_some_iff.1 hs
  refine ⟨cond, rfl, ?_, (Cond.waiters_signal hc).length_eq⟩
  rcases Cond.signal_cases hc with ⟨hnil, rfl⟩ | hwake
  · exact hnil
  · obtain ⟨t, hasleep, -⟩ := Cond.wake_cases hwake
    have hlen := hasleep.length_eq
    rw [Cond.waiters, List.length_append] at hle
    rw [List.length_cons] at hlen
    exact List.length_eq_zero_iff.1 (by omega)

/-- The connection dies, and its owner is told. -/
theorem Sending.died (h : Sending 0 m c) {cond : Cond ℕ} (hnil : cond.asleep = [])
    (hlen : cond.waiters.length = c.send_complete.waiters.length) {w : Charbuf}
    (hw : w = c.wpdu ∨ c.wpdu.buf.isSome ∧ w.buf.isSome) :
    Sending 0 m { c with wpdu := w, dead := true, send_complete := cond } := by
  have hiff : w.buf.isSome = c.wpdu.buf.isSome := by
    rcases hw with rfl | ⟨hsome, hwsome⟩
    · rfl
    · rw [hsome, hwsome]
  refine { h with
    owner := hlen ▸ hiff ▸ h.owner
    idle := fun hnone => ?_
    busy := fun hsome => ⟨(h.busy (hiff ▸ hsome)).1, nofun⟩
    removing := nofun
    waits := fun hne => hiff ▸ h.waits hne
    complete := fun hne => absurd hnil hne
    closed := fun _ => rfl }
  rcases hw with rfl | ⟨-, hwsome⟩
  · exact ⟨(h.idle hnone).1, (h.idle hnone).2.1, nofun⟩
  · have hnone : w.buf = none := hnone
    rw [hnone] at hwsome
    exact Bool.noConfusion hwsome

/-- Some more has been written of what is being sent. -/
theorem Sending.wrote (h : Sending 0 m c) (hsome : c.wpdu.buf.isSome) {w : Charbuf} {out : Bytes}
    (hw : w.buf.isSome) (hbusy : Busy c.begun w out bs b) (hgrow : c.out <+: out)
    {cond : Cond ℕ} (hlen : cond.waiters.length = c.send_complete.waiters.length)
    (hcomplete : cond.asleep ≠ [] → (c.dead = false ∧ w.solong < w.sz) ∨ c.closed = true) :
    Sending 0 m { c with wpdu := w, out := out, send_complete := cond } :=
  { h with
    owner := by
      have howner := h.owner
      rw [if_pos hsome, ← hlen] at howner
      rw [if_pos hw]
      exact howner
    idle := fun hnone => by
      have hnone : w.buf = none := hnone
      rw [hnone] at hw
      exact Bool.noConfusion hw
    busy := fun _ => ⟨(h.busy hsome).1, fun _ => ⟨bs, b, hbusy⟩⟩
    begins := by
      show out <+: stream c.begun
      rw [hbusy.out, hbusy.begun, stream_append, stream_singleton]
      exact (List.prefix_append_right_inj _).2 (List.take_prefix ..)
    sent := fun i hi => (h.sent i hi).trans hgrow
    waits := fun _ => hw
    complete := hcomplete }

theorem Sending.writeCb (h : Sending 0 m c) {r : Except Fault Conn} (hr : c.writeCb o i = some r) :
    (∃ c', r = .ok c' ∧ Sending 0 m c') ∨ (r = .error .writeDead ∧ c.dead = true) := by
  rw [Conn.writeCb] at hr
  split at hr
  next hd => exact .inr ⟨(Option.some_inj.1 hr).symm, hd⟩
  next hd =>
    have hd : c.dead = false := Bool.eq_false_iff.2 hd
    refine .inl ?_
    split at hr
    next => exact ⟨c, (Option.some_inj.1 hr).symm, h⟩
    next hsz =>
      have hsome : c.wpdu.buf.isSome := by
        by_contra hnone
        rw [(h.idle (by simpa using hnone)).1] at hsz
        exact hsz rfl
      obtain ⟨-, halive⟩ := h.busy hsome
      obtain ⟨bs, b, hbusy⟩ := halive hd
      obtain ⟨w, out, ret, hw, hwsome, hgrow, htrue, hfalse⟩ := hbusy.writepdu o
      rw [hw] at hr
      cases ret with
      | false =>
        obtain rfl : out = c.out := hfalse rfl
        obtain ⟨c', hs, rfl⟩ := Option.map_eq_some_iff.1 hr
        obtain ⟨cond, rfl, hnil, hlen⟩ := signalComplete_cases
          (c := { c with wpdu := w, dead := true }) h.one_waiter hs
        exact ⟨_, rfl, h.died hnil hlen (.inr ⟨hsome, hwsome⟩)⟩
      | true =>
        have hbusy' := htrue rfl
        dsimp only at hr
        rw [if_neg (not_lt.2 hbusy'.nonneg)] at hr
        split at hr
        next hlt =>
          exact ⟨_, (Option.some_inj.1 hr).symm,
            h.wrote hsome hwsome hbusy' hgrow rfl fun _ => .inl ⟨hd, hlt⟩⟩
        next =>
          obtain ⟨c', hs, rfl⟩ := Option.map_eq_some_iff.1 hr
          obtain ⟨cond, rfl, hnil, hlen⟩ := signalComplete_cases
            (c := { c with wpdu := w, out := out }) h.one_waiter hs
          exact ⟨_, rfl, h.wrote hsome hwsome hbusy' hgrow hlen fun hne => absurd hnil hne⟩

/-! ## Receiving leaves all this alone -/

theorem setSize_frame {b₃ b₂ b₁ b₀ : UInt8} {r : Bool} (h : c.setSize b₃ b₂ b₁ b₀ = .ok (c', r)) :
    ∃ rpdu, c' = { c with rpdu := rpdu } := by
  rw [setSize] at h
  split at h
  · obtain ⟨rfl, -⟩ := Prod.mk.inj (Except.ok.inj h)
    exact ⟨_, rfl⟩
  · split at h
    · exact absurd h nofun
    · split at h
      · exact absurd h nofun
      · split at h
        · exact absurd h nofun
        · obtain ⟨rfl, -⟩ := Prod.mk.inj (Except.ok.inj h)
          exact ⟨_, rfl⟩

/-- What reading the size comes to. -/
theorem readHeader_cases (c : Conn) (o : Rd) :
    c.readHeader o = .ok (c, false) ∨ c.readHeader o = .error .readAgain ∨
      c.readHeader o = .ok (c.take ((o.data c.sock).take 4), false) ∨
      ∃ b₃ b₂ b₁ b₀, (o.data c.sock).take 4 = [b₃, b₂, b₁, b₀] ∧
        c.readHeader o = (c.take [b₃, b₂, b₁, b₀]).setSize b₃ b₂ b₁ b₀ := by
  rw [readHeader.eq_def]
  split
  next =>
    split
    · exact .inl rfl
    · exact .inr (.inl rfl)
    · exact .inr (.inl rfl)
    · exact .inl rfl
  next b₃ b₂ b₁ b₀ hbs => exact .inr (.inr (.inr ⟨b₃, b₂, b₁, b₀, hbs, rfl⟩))
  next => exact .inr (.inr (.inl rfl))

theorem readHeader_frame {o : Rd} {r : Bool} (h : c.readHeader o = .ok (c', r)) :
    ∃ rpdu sock inn, c' = { c with rpdu := rpdu, sock := sock, inn := inn } := by
  rcases readHeader_cases c o with hr | hr | hr | ⟨b₃, b₂, b₁, b₀, -, hr⟩
  · obtain ⟨rfl, -⟩ := Prod.mk.inj (Except.ok.inj (hr.symm.trans h))
    exact ⟨_, _, _, rfl⟩
  · exact absurd (hr.symm.trans h) nofun
  · obtain ⟨rfl, -⟩ := Prod.mk.inj (Except.ok.inj (hr.symm.trans h))
    exact ⟨_, _, _, rfl⟩
  · obtain ⟨rpdu, rfl⟩ := setSize_frame (hr.symm.trans h)
    exact ⟨_, _, _, rfl⟩

theorem readBody_frame {o : Rd} {r : Bool} (h : c.readBody o = .ok (c', r)) :
    ∃ rpdu sock inn, c' = { c with rpdu := rpdu, sock := sock, inn := inn } := by
  rw [readBody] at h
  split at h
  · exact absurd h nofun
  · split at h
    · exact absurd h nofun
    · split at h
      · split at h
        · obtain ⟨rfl, -⟩ := Prod.mk.inj (Except.ok.inj h)
          exact ⟨_, _, _, rfl⟩
        · obtain ⟨rfl, -⟩ := Prod.mk.inj (Except.ok.inj h)
          exact ⟨_, _, _, rfl⟩
      · obtain ⟨rfl, -⟩ := Prod.mk.inj (Except.ok.inj h)
        exact ⟨_, _, _, rfl⟩

theorem readpdu_frame {o o' : Rd} {r : Bool} (h : c.readpdu o o' = .ok (c', r)) :
    ∃ rpdu sock inn, c' = { c with rpdu := rpdu, sock := sock, inn := inn } := by
  rw [readpdu] at h
  split at h
  · exact readBody_frame h
  · split at h
    next c₁ hc₁ =>
      obtain ⟨rpdu, sock, inn, rfl⟩ := readHeader_frame hc₁
      obtain ⟨rpdu, sock, inn, rfl⟩ := readBody_frame h
      exact ⟨_, _, _, rfl⟩
    next => exact readHeader_frame h

theorem offer_frame (c : Conn) (accepts : Bool) :
    ∃ rpdu got, c.offer accepts = { c with rpdu := rpdu, got := got } := by
  rw [offer]
  split
  · exact ⟨_, _, rfl⟩
  · split <;> exact ⟨_, _, rfl⟩

theorem Sending.read (h : Sending 0 m c) (rpdu : Charbuf) (sock inn : Bytes) (got : List Bytes) :
    Sending 0 m { c with rpdu := rpdu, sock := sock, inn := inn, got := got } :=
  { h with }

theorem Sending.readCb (h : Sending 0 m c) {o o' : Rd} {accepts : Bool}
    (hr : c.readCb o o' accepts i = some (.ok c')) : Sending 0 m c' := by
  rw [Conn.readCb] at hr
  split at hr
  · exact Except.ok.inj (Option.some_inj.1 hr) ▸ h
  · split at hr
    next => exact absurd hr nofun
    next c₁ hc₁ =>
      have hframe : ∃ rpdu sock inn, c₁ =
          { c with rpdu := rpdu, sock := sock, inn := inn } := by
        split at hc₁
        · exact readpdu_frame hc₁
        · obtain ⟨rfl, -⟩ := Prod.mk.inj (Except.ok.inj hc₁)
          exact ⟨_, _, _, rfl⟩
      obtain ⟨rpdu, sock, inn, rfl⟩ := hframe
      obtain ⟨rpdu', got, hoffer⟩ := offer_frame
        { c with rpdu := rpdu, sock := sock, inn := inn } accepts
      rw [← Except.ok.inj (Option.some_inj.1 hr), hoffer]
      exact h.read rpdu' sock inn got
    next c₁ hc₁ =>
      have hframe : ∃ rpdu sock inn, c₁ =
          { c with rpdu := rpdu, sock := sock, inn := inn } := by
        split at hc₁
        · exact readpdu_frame hc₁
        · exact absurd hc₁ (by simp)
      obtain ⟨rpdu, sock, inn, rfl⟩ := hframe
      obtain ⟨c₂, hs, hc'⟩ := Option.map_eq_some_iff.1 hr
      obtain ⟨cond, rfl, hnil, hlen⟩ := signalComplete_cases
        (c := { c with rpdu := rpdu, sock := sock, inn := inn, dead := true }) h.one_waiter hs
      obtain ⟨rpdu', got, hoffer⟩ := offer_frame
        { c with
          rpdu := rpdu, sock := sock, inn := inn, dead := true, send_complete := cond } accepts
      rw [← Except.ok.inj hc', hoffer]
      exact (h.died hnil hlen (.inl rfl)).read rpdu' sock inn got

/-! ## Every step -/

theorem Sending.closeconn (h : Sending 0 m c) : Sending 0 m c.closeconn := by
  rw [Conn.closeconn]
  split
  · exact h
  · exact { h with
      idle := fun hnone => ⟨(h.idle hnone).1, (h.idle hnone).2.1, nofun⟩
      busy := fun hsome => ⟨(h.busy hsome).1, nofun⟩
      removing := nofun
      complete := fun _ => .inr rfl
      closed := fun _ => rfl }

/-- A step leads to where the same holds, and the only fault of the sending half there can be is
that `write_cb` is called when the connection is dead. -/
theorem Sending.run (h : Sending 0 0 c) {a : Step} {r : Except Fault Conn} (hr : c.run a = some r) :
    (∃ c', r = .ok c' ∧ Sending 0 0 c') ∨
      (∃ o i, a = .writeCb o i ∧ r = .error .writeDead ∧ c.dead = true) ∨
      ∃ o o' accepts i f, a = .readCb o o' accepts i ∧ r = .error f := by
  cases a with
  | send t b o =>
    have hs : Sending 0 1 { c with waiters := c.waiters + 1 } :=
      { h with waiters := congrArg (· + 1) h.waiters }
    obtain ⟨c', hc', hs'⟩ := hs.waitLoop (t := t) (b := b) (o := o)
    exact .inl ⟨c', (Option.some_inj.1 hr).symm.trans hc', hs'⟩
  | sendAgain j o =>
    obtain ⟨⟨⟨t, b⟩, cond⟩, hc, rfl⟩ := Option.map_eq_some_iff.1 hr
    have hlen := (Cond.waiters_resume hc).length_eq
    rw [List.length_cons] at hlen
    have hs : Sending 0 1 { c with send_wait := cond } :=
      { h with
        waits := fun hne => h.waits ((Cond.resume_cases hc).1 ▸ hne)
        waiters := h.waiters.trans hlen }
    obtain ⟨c', hc', hs'⟩ := hs.waitLoop (t := t) (b := b) (o := o)
    exact .inl ⟨c', hc', hs'⟩
  | removed k =>
    obtain ⟨⟨t, removing⟩, hk, rfl⟩ := Option.map_eq_some_iff.1 hr
    have hlen := (pick_perm hk).length_eq
    have hd : c.dead = true := by
      by_contra hd
      rw [h.removing (Bool.eq_false_iff.2 hd)] at hlen
      exact absurd hlen (by simp)
    have hs : Sending 1 0 { c with removing := removing } :=
      { h with
        owner := by
          have howner := h.owner
          rw [List.length_cons] at hlen
          rw [← howner]
          simp only [hlen]
          omega
        removing := fun hd' => absurd (hd.symm.trans hd') nofun }
    exact .inl ⟨_, rfl, hs.finish fun hd' => absurd (hd.symm.trans hd') nofun⟩
  | completeAgain j =>
    obtain ⟨⟨t, cond⟩, hc, rfl⟩ := Option.map_eq_some_iff.1 hr
    have hlen := (Cond.waiters_resume hc).length_eq
    have hs : Sending 1 0 { c with send_complete := cond } :=
      { h with
        owner := by
          have howner := h.owner
          rw [List.length_cons] at hlen
          rw [← howner]
          simp only [hlen]
          omega
        complete := fun hne => h.complete ((Cond.resume_cases hc).1 ▸ hne) }
    exact .inl ⟨_, rfl, hs.completeLoop t⟩
  | writeCb o i =>
    rcases h.writeCb hr with hok | ⟨hf, hd⟩
    · exact .inl hok
    · exact .inr (.inl ⟨o, i, rfl, hf, hd⟩)
  | readCb o o' accepts i =>
    cases r with
    | error f => exact .inr (.inr ⟨o, o', accepts, i, f, rfl, rfl⟩)
    | ok c' => exact .inl ⟨c', rfl, h.readCb hr⟩
  | closeconn => exact .inl ⟨_, (Option.some_inj.1 hr).symm, h.closeconn⟩
  | arrive bs => exact .inl ⟨_, (Option.some_inj.1 hr).symm, { h with }⟩
  | spuriousWait j =>
    obtain ⟨cond, hc, rfl⟩ := Option.map_eq_some_iff.1 hr
    refine .inl ⟨_, rfl, { h with waits := fun hne => h.waits ?_, waiters := ?_ }⟩
    · obtain ⟨t, hasleep, -⟩ := Cond.wake_cases hc
      exact fun hnil => absurd (hnil ▸ hasleep).symm (by simp)
    · exact h.waiters.trans (Cond.waiters_wake hc).length_eq.symm
  | spuriousComplete j =>
    obtain ⟨cond, hc, rfl⟩ := Option.map_eq_some_iff.1 hr
    refine .inl ⟨_, rfl, { h with owner := ?_, complete := fun hne => h.complete ?_ }⟩
    · rw [← h.owner]
      simp only [(Cond.waiters_wake hc).length_eq]
    · obtain ⟨t, hasleep, -⟩ := Cond.wake_cases hc
      exact fun hnil => absurd (hnil ▸ hasleep).symm (by simp)

/-- What a step comes to. -/
theorem step_cases {a : Step} (h : c.step a = some c') : c.fault = none ∧
    ((∃ f, c.run a = some (.error f) ∧ c' = { c with fault := some f }) ∨
      c.run a = some (.ok c')) := by
  rw [step] at h
  split at h
  next => exact absurd h nofun
  next hf =>
    refine ⟨by simpa using hf, ?_⟩
    split at h
    next => exact absurd h nofun
    next f hr => exact .inl ⟨f, hr, (Option.some_inj.1 h).symm⟩
    next c₁ hr => exact .inr (Option.some_inj.1 h ▸ hr)

theorem Sending.step (h : Sending 0 0 c) {a : Step} (hs : c.step a = some c') :
    Sending 0 0 c' := by
  obtain ⟨-, ⟨f, hr, rfl⟩ | hr⟩ := step_cases hs
  · exact { h with }
  · rcases h.run hr with ⟨c₁, heq, hs'⟩ | ⟨-, -, -, heq, -⟩ | ⟨_, _, _, _, _, -, heq⟩
    · exact Except.ok.inj heq ▸ hs'
    · exact absurd heq nofun
    · exact absurd heq nofun

variable {ok : Conn → Step → Prop} {as as' : List Step}

theorem sending (h : Run step ok new as c) : Sending 0 0 c :=
  h.invariant .new fun _ _ _ hs _ hstep => hs.step hstep

/-- What has been written is as much of the PDUs, one behind the other in the order in which their
calls have got hold of the connection, and it goes at least as far as the last one whose call has
returned `true`. -/
theorem sent_is_written (h : Run step ok new as c) : c.out <+: stream c.begun ∧
    ∀ i, c.results[i]? = some true → stream (c.begun.take (i + 1)) <+: c.out :=
  ⟨(sending h).begins, (sending h).sent⟩

/-- A PDU of which the socket takes ten bytes at first. -/
theorem sent_is_written_later : ∃ c, Run step anyStep new
      [.send 0 Pdu.blank (.took 10), .writeCb (.took 20) 0, .completeAgain 0] c ∧
    c.results = [true] ∧ c.out <+: stream c.begun ∧
    ∀ i, c.results[i]? = some true → stream (c.begun.take (i + 1)) <+: c.out := by
  have hrun : Run step anyStep new
      [.send 0 Pdu.blank (.took 10), .writeCb (.took 20) 0, .completeAgain 0] _ := .of_execute rfl
  exact ⟨_, hrun, by decide, sent_is_written hrun⟩

/-- Who sleeps until its PDU is written has one that is not, and a connection that lives, or else
`closeconn` has killed it; and who sleeps until it is its turn has somebody in front. -/
theorem sleeps_for_a_reason (h : Run step ok new as c) :
    (c.send_complete.asleep ≠ [] →
      (c.dead = false ∧ c.wpdu.solong < c.wpdu.sz) ∨ c.closed = true) ∧
    (c.send_wait.asleep ≠ [] → c.send_complete.waiters.length + c.removing.length = 1) := by
  have hs := sending h
  refine ⟨hs.complete, fun hne => ?_⟩
  have howner := hs.owner
  rwa [if_pos (hs.waits hne)] at howner

/-- One call has its PDU half written, and another one waits behind it. -/
theorem sleeps_for_a_reason_two : ∃ c, Run step anyStep new
      [.send 0 Pdu.blank (.took 10), .send 1 Pdu.blank (.took 0)] c ∧
    c.send_complete.asleep = [0] ∧ c.send_wait.asleep.length = 1 ∧
    ((c.dead = false ∧ c.wpdu.solong < c.wpdu.sz) ∨ c.closed = true) ∧
    c.send_complete.waiters.length + c.removing.length = 1 := by
  have hrun : Run step anyStep new
      [.send 0 Pdu.blank (.took 10), .send 1 Pdu.blank (.took 0)] _ := .of_execute rfl
  obtain ⟨hcomplete, hwait⟩ := sleeps_for_a_reason hrun
  exact ⟨_, hrun, by decide, by decide, hcomplete (by decide), hwait (by decide)⟩

def Step.isSpuriousComplete : Step → Bool
  | .spuriousComplete _ => true
  | _ => false

theorem enter_dead (hd : c.dead = true) : c.enter t b o = .ok c := by rw [Conn.enter, if_pos hd]

theorem waitLoop_dead (hw : c.waitLoop t b o = .ok c') (hd : c.dead = true) :
    c' = { c with waiters := c.waiters - 1 } := by
  rw [Conn.waitLoop, if_neg (by simp [hd])] at hw
  exact (Except.ok.inj ((enter_dead (by exact hd)).symm.trans hw)).symm

/-- Where `closeconn` comes while a call of `send` sleeps until its PDU is written, the call does
not return, unless the wakeup is spurious. -/
theorem closed_never_completes (h : Run step ok new as c) (hclosed : c.closed = true)
    (hasleep : c.send_complete.asleep = [t])
    (hrun : Run step (fun _ a => a.isSpuriousComplete = false) c as' c') :
    c'.send_complete.asleep = [t] ∧ c'.begun = c.begun ∧ c'.results = c.results := by
  have hs := sending h
  have hone := hs.one_waiter
  have howner := hs.owner
  rw [Cond.waiters, hasleep, List.length_append, List.length_singleton] at hone howner
  have hwoken : c.send_complete.woken = [] := List.length_eq_zero_iff.1 (by omega)
  have hremoving : c.removing = [] :=
    List.length_eq_zero_iff.1 (by split at howner <;> omega)
  -- all that may change is who waits for its turn, and what comes in
  suffices hsame : c'.dead = true ∧ c'.send_complete = ⟨[t], []⟩ ∧ c'.removing = [] ∧
      c'.begun = c.begun ∧ c'.results = c.results from
    ⟨by rw [hsame.2.1], hsame.2.2.2⟩
  have hcond : c.send_complete = ⟨[t], []⟩ := by
    rw [← hasleep, ← hwoken]
  refine hrun.invariant (P := fun c' => c'.dead = true ∧ c'.send_complete = ⟨[t], []⟩ ∧
    c'.removing = [] ∧ c'.begun = c.begun ∧ c'.results = c.results)
    ⟨hs.closed hclosed, hcond, hremoving, rfl, rfl⟩ fun c₁ a c₂ hsame hok hstep => ?_
  obtain ⟨hd, hcomplete, hnil, hbegun, hresults⟩ := hsame
  obtain ⟨-, ⟨f, -, rfl⟩ | hr⟩ := step_cases hstep
  · exact ⟨hd, hcomplete, hnil, hbegun, hresults⟩
  cases a with
  | send t b o =>
    rw [waitLoop_dead (Option.some_inj.1 hr) hd]
    exact ⟨hd, hcomplete, hnil, hbegun, hresults⟩
  | sendAgain j o =>
    obtain ⟨⟨⟨t, b⟩, cond⟩, hc, hw⟩ := Option.map_eq_some_iff.1 hr
    rw [waitLoop_dead hw hd]
    exact ⟨hd, hcomplete, hnil, hbegun, hresults⟩
  | removed k =>
    rw [run, hnil] at hr
    cases hr
  | completeAgain j =>
    rw [run, hcomplete] at hr
    cases hr
  | writeCb o i =>
    rw [run, Conn.writeCb, if_pos hd] at hr
    cases hr
  | readCb o o' accepts i =>
    rw [run, Conn.readCb, if_pos hd] at hr
    obtain rfl := Except.ok.inj (Option.some_inj.1 hr)
    exact ⟨hd, hcomplete, hnil, hbegun, hresults⟩
  | closeconn =>
    rw [run, Conn.closeconn, if_pos hd] at hr
    obtain rfl := Except.ok.inj (Option.some_inj.1 hr)
    exact ⟨hd, hcomplete, hnil, hbegun, hresults⟩
  | arrive bs =>
    obtain rfl := Except.ok.inj (Option.some_inj.1 hr)
    exact ⟨hd, hcomplete, hnil, hbegun, hresults⟩
  | spuriousWait j =>
    obtain ⟨cond, hc, hw⟩ := Option.map_eq_some_iff.1 hr
    obtain rfl := Except.ok.inj hw
    exact ⟨hd, hcomplete, hnil, hbegun, hresults⟩
  | spuriousComplete j => exact Bool.noConfusion hok

/-- The connection is closed while a PDU is half written. -/
def halfWritten : Conn :=
  (execute step new [.send 0 Pdu.blank (.took 10), .closeconn]).get rfl

theorem closed_never_completes_halfWritten : ∃ c' : Conn, c'.send_complete.asleep = [0] ∧
    c'.begun = halfWritten.begun ∧ c'.results = halfWritten.results := by
  have hrun : Run step anyStep new _ halfWritten := .of_execute (Option.some_get _).symm
  have hrest : Run step (fun _ a => a.isSpuriousComplete = false) halfWritten
      [.send 1 Pdu.blank (.took 24), .readCb (.bytes 4) (.bytes 20) true 0] _ := .of_guarded rfl
  exact ⟨_, closed_never_completes hrun rfl rfl hrest⟩

end Conn
end Rpc
end CseLab
