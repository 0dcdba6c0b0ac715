import CseLab.Rpc.Sender

/-!
# Receiving

What a connection has read is the PDUs that the channel manager has taken, one behind the other, and
the beginning of one more (`Receiving`); a PDU that is refused stays in `rpdu_` and nothing is read
behind it.  Where the connection dies, what has been read of the last one is lost.

Nothing is known of the peer here.  A peer may send what is no size: a negative one, or less than
the four bytes that the size takes up itself.  Then the process ends for want of memory, or bytes
are asked for that the buffer has no room for; `Fed` says that the peer does not.
-/

set_option autoImplicit false

namespace CseLab
namespace Rpc
namespace Conn

variable {c c' : Conn} {t i : ℕ} {b : Pdu} {o : Wr}

/-! ## What sending leaves alone -/

/-- All that `send`, `write_cb` and `closeconn` do as far as receiving goes. -/
structure Writes (c c' : Conn) : Prop where
  out : c.out <+: c'.out
  inn : c'.inn = c.inn
  sock : c'.sock = c.sock
  rpdu : c'.rpdu = c.rpdu
  got : c'.got = c.got
  fault : c'.fault = c.fault
  dead : c'.dead = false → c.dead = false

theorem Writes.refl (c : Conn) : Writes c c := ⟨List.prefix_refl _, rfl, rfl, rfl, rfl, rfl, id⟩

theorem Writes.trans {c'' : Conn} (h : Writes c c') (h' : Writes c' c'') : Writes c c'' :=
  ⟨h.out.trans h'.out, h'.inn.trans h.inn, h'.sock.trans h.sock, h'.rpdu.trans h.rpdu,
    h'.got.trans h.got, h'.fault.trans h.fault, fun hd => h.dead (h'.dead hd)⟩

theorem Writes.writepdu {r : Bool} (h : c.writepdu o = .ok (c', r)) : Writes c c' := by
  rw [Conn.writepdu] at h
  split at h
  · cases h
  · split at h
    · obtain ⟨rfl, -⟩ := Prod.mk.inj (Except.ok.inj h)
      exact .refl _
    · split at h
      · cases h
      · dsimp only at h
        split at h
        · obtain ⟨rfl, -⟩ := Prod.mk.inj (Except.ok.inj h)
          exact ⟨List.prefix_append _ _, rfl, rfl, rfl, rfl, rfl, id⟩
        · obtain ⟨rfl, -⟩ := Prod.mk.inj (Except.ok.inj h)
          exact ⟨List.prefix_refl _, rfl, rfl, rfl, rfl, rfl, id⟩
        · obtain ⟨rfl, -⟩ := Prod.mk.inj (Except.ok.inj h)
          exact ⟨List.prefix_refl _, rfl, rfl, rfl, rfl, rfl, id⟩

theorem Writes.finish (c : Conn) : Writes c c.finish :=
  ⟨List.prefix_refl _, rfl, rfl, rfl, rfl, rfl, id⟩

theorem Writes.completeLoop (c : Conn) (t : ℕ) : Writes c (c.completeLoop t) := by
  rw [Conn.completeLoop]
  split
  · exact ⟨List.prefix_refl _, rfl, rfl, rfl, rfl, rfl, id⟩
  · exact .finish c

theorem Writes.enter (h : c.enter t b o = .ok c') : Writes c c' := by
  have hbegin : Writes c { c with
      wpdu := ⟨some b.bytes, b.bytes.length, 0⟩, begun := c.begun ++ [b] } :=
    ⟨List.prefix_refl _, rfl, rfl, rfl, rfl, rfl, id⟩
  rw [Conn.enter] at h
  split at h
  · exact Except.ok.inj h ▸ .refl c
  · split at h
    next => cases h
    next c₁ hr =>
      refine hbegin.trans ((Writes.writepdu hr).trans ?_)
      rw [← Except.ok.inj h]
      exact ⟨List.prefix_refl _, rfl, rfl, rfl, rfl, rfl, Bool.noConfusion⟩
    next c₁ hr =>
      refine hbegin.trans ((Writes.writepdu hr).trans ?_)
      rw [← Except.ok.inj h]
      split
      · exact .finish c₁
      · exact .completeLoop c₁ t

theorem Writes.waitLoop (h : c.waitLoop t b o = .ok c') : Writes c c' := by
  rw [Conn.waitLoop] at h
  split at h
  · rw [← Except.ok.inj h]
    exact ⟨List.prefix_refl _, rfl, rfl, rfl, rfl, rfl, id⟩
  · have hwaiters : Writes c { c with waiters := c.waiters - 1 } :=
      ⟨List.prefix_refl _, rfl, rfl, rfl, rfl, rfl, id⟩
    exact hwaiters.trans (.enter h)

theorem Writes.signalComplete (h : c.signalComplete i = some c') : Writes c c' := by
  obtain ⟨cond, -, rfl⟩ := Option.map_eq_some_iff.1 h
  exact ⟨List.prefix_refl _, rfl, rfl, rfl, rfl, rfl, id⟩

theorem Writes.writeCb (h : c.writeCb o i = some (.ok c')) : Writes c c' := by
  rw [Conn.writeCb] at h
  split at h
  · cases h
  · split at h
    · exact Except.ok.inj (Option.some_inj.1 h) ▸ .refl c
    · split at h
      next => cases h
      next c₁ hr =>
        obtain ⟨c₂, hs, hc⟩ := Option.map_eq_some_iff.1 h
        have hdie : Writes c₁ { c₁ with dead := true } :=
          ⟨List.prefix_refl _, rfl, rfl, rfl, rfl, rfl, Bool.noConfusion⟩
        exact Except.ok.inj hc ▸ (Writes.writepdu hr).trans (hdie.trans (.signalComplete hs))
      next c₁ hr =>
        refine (Writes.writepdu hr).trans ?_
        split at h
        · cases h
        · split at h
          · exact Except.ok.inj (Option.some_inj.1 h) ▸ .refl c₁
          · obtain ⟨c₂, hs, hc⟩ := Option.map_eq_some_iff.1 h
            exact Except.ok.inj hc ▸ .signalComplete hs

/-! ## What reading does -/

variable {r : Bool} {o₁ o₂ : Rd}

/-- The beginning of a PDU that may be received, or nothing. -/
def Partial (p : Charbuf) : Prop :=
  p = .empty ∨ ∃ buf, p.buf = some buf ∧ p.solong = buf.length ∧ 4 ≤ buf.length ∧
    p.solong ≤ p.sz ∧ p.sz ≤ maxPdu ∧ buf.take 4 = sizeWord p.sz.toNat

/-- What is known of the receiving half. -/
structure Receiving (c : Conn) : Prop where
  got : ∀ g ∈ c.got, IsFrame g ∧ (g.length : ℤ) ≤ maxPdu
  begins : c.got.flatten <+: c.inn
  alive : c.dead = false → c.inn = c.got.flatten ++ c.rpdu.buf.getD [] ∧ Partial c.rpdu

theorem Receiving.new : new.Receiving :=
  ⟨nofun, List.prefix_refl _, fun _ => ⟨rfl, .inl rfl⟩⟩

theorem Receiving.writes (h : c.Receiving) (hw : Writes c c') : c'.Receiving :=
  ⟨hw.got ▸ h.got, hw.got ▸ hw.inn ▸ h.begins,
    fun hd => hw.got ▸ hw.inn ▸ hw.rpdu ▸ h.alive (hw.dead hd)⟩

theorem data_isPrefix (sock : Bytes) (o : Rd) : o.data sock <+: sock := by
  cases o with
  | bytes n => exact List.take_prefix ..
  | zero _ => exact List.nil_prefix
  | error _ => exact List.nil_prefix

/-- Nothing is lost between the socket and what has been read. -/
theorem take_sock {bs : Bytes} (h : bs <+: c.sock) :
    (c.take bs).inn ++ (c.take bs).sock = c.inn ++ c.sock := by
  obtain ⟨rest, hrest⟩ := h
  rw [take, ← hrest, List.drop_left, List.append_assoc]

theorem setSize_cases (c : Conn) (b₃ b₂ b₁ b₀ : UInt8) :
    c.setSize b₃ b₂ b₁ b₀ = .ok (c, false) ∨
    (c.setSize b₃ b₂ b₁ b₀ = .error .verify ∧ c.rpdu.buf.isSome) ∨
    (wordSize b₃ b₂ b₁ b₀ < 0 ∧ ∃ f, c.setSize b₃ b₂ b₁ b₀ = .error f) ∨
    (0 ≤ wordSize b₃ b₂ b₁ b₀ ∧ wordSize b₃ b₂ b₁ b₀ ≤ maxPdu ∧ c.setSize b₃ b₂ b₁ b₀ =
      .ok ({ c with rpdu := ⟨some [b₃, b₂, b₁, b₀], wordSize b₃ b₂ b₁ b₀, 4⟩ }, true)) := by
  rw [setSize]
  split
  next => exact .inl rfl
  next hle =>
    split
    next hsome => exact .inr (.inl ⟨rfl, hsome⟩)
    next =>
      split
      next hlt => exact .inr (.inr (.inl ⟨by omega, _, rfl⟩))
      next =>
        split
        next hlt => exact .inr (.inr (.inl ⟨hlt, _, rfl⟩))
        next hge => exact .inr (.inr (.inr ⟨not_lt.1 hge, not_lt.1 hle, rfl⟩))

/-- What `readpdu` does where the size has been read. -/
theorem readBody_cases {buf : Bytes} (hbuf : c.rpdu.buf = some buf)
    (hsolong : c.rpdu.solong = buf.length) (o : Rd) :
    (c.readBody o = .error .overrun ∧ c.rpdu.sz < c.rpdu.solong) ∨
    (c.rpdu.solong ≤ c.rpdu.sz ∧
      (c.readBody o = .ok (c, true) ∨ c.readBody o = .ok ({ c with rpdu := .empty }, false) ∨
        ∃ bs, bs <+: c.sock ∧ ((buf ++ bs).length : ℤ) ≤ c.rpdu.sz ∧ c.readBody o = .ok ({ c.take bs
          with rpdu := ⟨some (buf ++ bs), c.rpdu.sz, ((buf ++ bs).length : ℤ)⟩ }, true))) := by
  rw [readBody, hbuf]
  dsimp only
  split
  next hlt => exact .inl ⟨rfl, hlt⟩
  next hge =>
    refine .inr ⟨not_lt.1 hge, ?_⟩
    split
    next =>
      split
      · exact .inl rfl
      · exact .inr (.inl rfl)
    next =>
      refine .inr (.inr ⟨(o.data c.sock).take (c.rpdu.sz - c.rpdu.solong).toNat,
        (List.take_prefix ..).trans (data_isPrefix ..), ?_, ?_⟩)
      · have hle := List.length_take_le (c.rpdu.sz - c.rpdu.solong).toNat (o.data c.sock)
        rw [List.length_append]
        omega
      · rw [hsolong, List.length_append]
        rfl

/-- What is in `rpdu` before `readpdu` has come to its second half. -/
structure Begun (c : Conn) (buf : Bytes) : Prop where
  holds : c.rpdu.buf = some buf
  solong : c.rpdu.solong = buf.length
  four_le : 4 ≤ buf.length
  le_max : c.rpdu.sz ≤ maxPdu
  size : buf.take 4 = sizeWord c.rpdu.sz.toNat
  inn : c.inn = c.got.flatten ++ buf

/-- What reading leaves: the socket and what has been read make up the same, and unless the
connection is to die, what has been read is PDUs and the beginning of one. -/
structure Reads (c c' : Conn) (r : Bool) : Prop where
  flow : c'.inn ++ c'.sock = c.inn ++ c.sock
  inn : c.inn <+: c'.inn
  got : c'.got = c.got
  out : c'.out = c.out
  fault : c'.fault = c.fault
  alive : r = true → c'.inn = c'.got.flatten ++ c'.rpdu.buf.getD [] ∧ Partial c'.rpdu
  lost : r = false → c'.rpdu.buf = none

theorem Begun.readBody {buf : Bytes} (h : c.Begun buf) (hr : c.readBody o₁ = .ok (c', r)) :
    Reads c c' r := by
  have hsize : ∀ bs : Bytes, (buf ++ bs).take 4 = sizeWord c.rpdu.sz.toNat := fun bs => by
    rw [List.take_append_of_le_length h.four_le, h.size]
  rcases readBody_cases h.holds h.solong o₁ with ⟨heq, -⟩ | ⟨hle, heq | heq | ⟨bs, hbs, hlen, heq⟩⟩
  · cases heq.symm.trans hr
  · obtain ⟨rfl, rfl⟩ := Prod.mk.inj (Except.ok.inj (heq.symm.trans hr))
    exact ⟨rfl, List.prefix_refl _, rfl, rfl, rfl, fun _ => ⟨h.holds ▸ h.inn,
      .inr ⟨buf, h.holds, h.solong, h.four_le, hle, h.le_max, h.size⟩⟩, Bool.noConfusion⟩
  · obtain ⟨rfl, rfl⟩ := Prod.mk.inj (Except.ok.inj (heq.symm.trans hr))
    exact ⟨rfl, List.prefix_refl _, rfl, rfl, rfl, Bool.noConfusion, fun _ => rfl⟩
  · obtain ⟨rfl, rfl⟩ := Prod.mk.inj (Except.ok.inj (heq.symm.trans hr))
    refine ⟨take_sock hbs, List.prefix_append _ _, rfl, rfl, rfl, fun _ => ⟨?_,
      .inr ⟨buf ++ bs, rfl, rfl, ?_, hlen, h.le_max, hsize bs⟩⟩, Bool.noConfusion⟩
    · show c.inn ++ bs = c.got.flatten ++ (buf ++ bs)
      rw [h.inn, List.append_assoc]
    · rw [List.length_append]
      exact Nat.le_trans h.four_le (Nat.le_add_right ..)

/-- Where the size is to be read, nothing is in `rpdu`. -/
theorem Receiving.none_of_sz (h : c.Receiving) (hd : c.dead = false) (hsz : c.rpdu.sz = 0) :
    c.rpdu.buf = none := by
  rcases (h.alive hd).2 with hempty | ⟨buf, -, hsolong, hfour, hle, -, -⟩
  · rw [hempty]
    rfl
  · omega

theorem Receiving.readpdu (h : c.Receiving) (hd : c.dead = false)
    (hr : c.readpdu o₁ o₂ = .ok (c', r)) : Reads c c' r := by
  obtain ⟨hinn, hpiece⟩ := h.alive hd
  rw [Conn.readpdu] at hr
  split at hr
  next hsz =>
    rcases hpiece with hempty | ⟨buf, hbuf, hsolong, hfour, -, hmax, hsize⟩
    · rw [hempty] at hsz
      exact absurd rfl hsz
    · rw [hbuf] at hinn
      exact Begun.readBody ⟨hbuf, hsolong, hfour, hmax, hsize, hinn⟩ hr
  next hsz =>
    rw [not_not] at hsz
    have hnone := h.none_of_sz hd hsz
    rw [hnone, Option.getD_none, List.append_nil] at hinn
    rcases readHeader_cases c o₁ with heq | heq | heq | ⟨b₃, b₂, b₁, b₀, hbs, heq⟩
    · rw [heq] at hr
      obtain ⟨rfl, rfl⟩ := Prod.mk.inj (Except.ok.inj hr)
      exact ⟨rfl, List.prefix_refl _, rfl, rfl, rfl, Bool.noConfusion, fun _ => hnone⟩
    · rw [heq] at hr
      cases hr
    · rw [heq] at hr
      obtain ⟨rfl, rfl⟩ := Prod.mk.inj (Except.ok.inj hr)
      exact ⟨take_sock ((List.take_prefix ..).trans (data_isPrefix ..)), List.prefix_append _ _, rfl,
        rfl, rfl, Bool.noConfusion, fun _ => hnone⟩
    · have hword : [b₃, b₂, b₁, b₀] <+: c.sock :=
        hbs ▸ (List.take_prefix ..).trans (data_isPrefix ..)
      have hflow := take_sock hword
      rw [heq] at hr
      rcases setSize_cases (c.take [b₃, b₂, b₁, b₀]) b₃ b₂ b₁ b₀ with
        hset | ⟨hset, -⟩ | ⟨-, f, hset⟩ | ⟨hnonneg, hmax, hset⟩
      · rw [hset] at hr
        obtain ⟨rfl, rfl⟩ := Prod.mk.inj (Except.ok.inj hr)
        exact ⟨hflow, List.prefix_append _ _, rfl, rfl, rfl, Bool.noConfusion, fun _ => hnone⟩
      · rw [hset] at hr
        cases hr
      · rw [hset] at hr
        cases hr
      · rw [hset] at hr
        have hbody := Begun.readBody (c := { c.take [b₃, b₂, b₁, b₀] with
          rpdu := ⟨some [b₃, b₂, b₁, b₀], wordSize b₃ b₂ b₁ b₀, 4⟩ }) ⟨rfl, rfl, Nat.le_refl 4, hmax,
            (sizeWord_wordSize hnonneg).symm, congrArg (· ++ _) hinn⟩ hr
        exact ⟨hbody.flow.trans hflow, (List.prefix_append _ _).trans hbody.inn, hbody.got,
          hbody.out, hbody.fault, hbody.alive, hbody.lost⟩

/-- The channel manager takes a PDU if it is whole. -/
theorem Receiving.offer (h : c.Receiving) (hinn : c.inn = c.got.flatten ++ c.rpdu.buf.getD [])
    (hpiece : Partial c.rpdu) (accepts : Bool) : (c.offer accepts).Receiving := by
  rw [Conn.offer]
  split
  next => exact h
  next buf hbuf =>
    split
    next hwhole =>
      rw [Bool.and_eq_true, decide_eq_true_eq] at hwhole
      rw [hbuf, Option.getD_some] at hinn
      have hflatten : (c.got ++ [buf]).flatten = c.inn := by
        rw [List.flatten_append, hinn]
        exact congrArg (_ ++ ·) (List.append_nil _)
      refine ⟨fun g hg => ?_, hflatten ▸ List.prefix_refl _, fun _ => ⟨hflatten.symm.trans
        (List.append_nil _).symm, .inl rfl⟩⟩
      rcases List.mem_append.1 hg with hg | hg
      · exact h.got g hg
      · rw [List.mem_singleton.1 hg]
        rcases hpiece with hempty | ⟨buf', hbuf', hsolong, hfour, -, hmax, hsize⟩
        · rw [hempty] at hbuf
          cases hbuf
        · obtain rfl := Option.some_inj.1 (hbuf.symm.trans hbuf')
          have hlen : (buf.length : ℤ) = c.rpdu.sz := hsolong.symm.trans hwhole.1.symm
          have hle : (buf.length : ℤ) ≤ maxPdu := hlen ▸ hmax
          refine ⟨⟨hfour, ?_, ?_⟩, hle⟩
          · have hmax' : maxPdu = 10485760 := rfl
            omega
          · rw [hsize, ← hlen, Int.toNat_natCast]
    next => exact h

theorem Receiving.readCb (h : c.Receiving) {accepts : Bool}
    (hr : c.readCb o₁ o₂ accepts i = some (.ok c')) :
    c'.Receiving ∧ c'.inn ++ c'.sock = c.inn ++ c.sock ∧ c'.out = c.out ∧ c'.fault = c.fault := by
  rw [Conn.readCb] at hr
  split at hr
  next => exact Except.ok.inj (Option.some_inj.1 hr) ▸ ⟨h, rfl, rfl, rfl⟩
  next hd =>
    have hd : c.dead = false := Bool.eq_false_iff.2 hd
    -- where nothing is to be read, a PDU is there that has been refused
    have hreads : ∀ c₁ r, (if c.rpdu.buf.isNone || c.rpdu.solong < c.rpdu.sz then c.readpdu o₁ o₂
        else .ok (c, true)) = Except.ok (c₁, r) → Reads c c₁ r := by
      intro c₁ r hc₁
      split at hc₁
      · exact h.readpdu hd hc₁
      · obtain ⟨rfl, rfl⟩ := Prod.mk.inj (Except.ok.inj hc₁)
        exact ⟨rfl, List.prefix_refl _, rfl, rfl, rfl, fun _ => h.alive hd, Bool.noConfusion⟩
    split at hr
    next => cases hr
    next c₁ hc₁ =>
      have hread := hreads c₁ true hc₁
      obtain ⟨hinn, hpiece⟩ := hread.alive rfl
      have hc₁ : c₁.Receiving :=
        ⟨hread.got ▸ h.got, hread.got ▸ h.begins.trans hread.inn, fun _ => hread.alive rfl⟩
      obtain ⟨rpdu, got, hoffer⟩ := offer_frame c₁ accepts
      obtain rfl := Except.ok.inj (Option.some_inj.1 hr)
      refine ⟨hc₁.offer hinn hpiece accepts, ?_⟩
      rw [hoffer]
      exact ⟨hread.flow, hread.out, hread.fault⟩
    next c₁ hc₁ =>
      have hread := hreads c₁ false hc₁
      obtain ⟨c₂, hs, hc'⟩ := Option.map_eq_some_iff.1 hr
      have hw := Writes.signalComplete hs
      have hrpdu : c₂.rpdu.buf = none := hw.rpdu ▸ hread.lost rfl
      obtain rfl := Except.ok.inj hc'
      rw [Conn.offer, hrpdu]
      have hdead : Receiving { c₁ with dead := true } :=
        ⟨hread.got ▸ h.got, hread.got ▸ h.begins.trans hread.inn, Bool.noConfusion⟩
      obtain ⟨cond, -, rfl⟩ := Option.map_eq_some_iff.1 hs
      exact ⟨hdead.writes hw, hread.flow, hread.out, hread.fault⟩

/-! ## Every step -/

/-- What comes in at the socket in a step. -/
def Step.arrives : Step → Bytes
  | .arrive bs => bs
  | _ => []

theorem Receiving.run (h : c.Receiving) {a : Step} (hr : c.run a = some (.ok c')) :
    c'.Receiving ∧ c'.inn ++ c'.sock = c.inn ++ c.sock ++ a.arrives ∧ c.out <+: c'.out ∧
      c'.fault = c.fault := by
  have hwrites : Writes c c' → a.arrives = [] → c'.Receiving ∧
      c'.inn ++ c'.sock = c.inn ++ c.sock ++ a.arrives ∧ c.out <+: c'.out ∧ c'.fault = c.fault := by
    intro hw hnil
    rw [hnil, List.append_nil, hw.inn, hw.sock]
    exact ⟨h.writes hw, rfl, hw.out, hw.fault⟩
  cases a with
  | send t b o =>
    have hw : Writes c { c with waiters := c.waiters + 1 } :=
      ⟨List.prefix_refl _, rfl, rfl, rfl, rfl, rfl, id⟩
    exact hwrites (hw.trans (.waitLoop (Option.some_inj.1 hr))) rfl
  | sendAgain j o =>
    obtain ⟨⟨⟨t, b⟩, cond⟩, hc, hloop⟩ := Option.map_eq_some_iff.1 hr
    have hw : Writes c { c with send_wait := cond } :=
      ⟨List.prefix_refl _, rfl, rfl, rfl, rfl, rfl, id⟩
    exact hwrites (hw.trans (.waitLoop hloop)) rfl
  | removed k =>
    obtain ⟨⟨t, removing⟩, hk, hc⟩ := Option.map_eq_some_iff.1 hr
    exact hwrites (Except.ok.inj hc ▸ ⟨List.prefix_refl _, rfl, rfl, rfl, rfl, rfl, id⟩) rfl
  | completeAgain j =>
    obtain ⟨⟨t, cond⟩, hk, hc⟩ := Option.map_eq_some_iff.1 hr
    have hw : Writes c { c with send_complete := cond } :=
      ⟨List.prefix_refl _, rfl, rfl, rfl, rfl, rfl, id⟩
    exact hwrites (Except.ok.inj hc ▸ hw.trans (.completeLoop _ t)) rfl
  | writeCb o i => exact hwrites (.writeCb hr) rfl
  | readCb o o' accepts i =>
    obtain ⟨hc', hflow, hout, hfault⟩ := h.readCb hr
    exact ⟨hc', hflow.trans (List.append_nil _).symm, hout ▸ List.prefix_refl _, hfault⟩
  | closeconn =>
    refine hwrites ?_ rfl
    rw [← Except.ok.inj (Option.some_inj.1 hr), Conn.closeconn]
    split
    · exact .refl c
    · exact ⟨List.prefix_refl _, rfl, rfl, rfl, rfl, rfl, Bool.noConfusion⟩
  | arrive bs =>
    rw [← Except.ok.inj (Option.some_inj.1 hr)]
    exact ⟨⟨h.got, h.begins, h.alive⟩, (List.append_assoc ..).symm, List.prefix_refl _, rfl⟩
  | spuriousWait j =>
    obtain ⟨cond, -, hc⟩ := Option.map_eq_some_iff.1 hr
    exact hwrites (Except.ok.inj hc ▸ ⟨List.prefix_refl _, rfl, rfl, rfl, rfl, rfl, id⟩) rfl
  | spuriousComplete j =>
    obtain ⟨cond, -, hc⟩ := Option.map_eq_some_iff.1 hr
    exact hwrites (Except.ok.inj hc ▸ ⟨List.prefix_refl _, rfl, rfl, rfl, rfl, rfl, id⟩) rfl

/-! ## Faults -/

/-- Where a size is to be read next, what has arrived does not start with what is none. -/
def Fed (c : Conn) : Prop :=
  c.dead = false → c.rpdu.buf = none →
    ∀ b₃ b₂ b₁ b₀, [b₃, b₂, b₁, b₀] <+: c.sock → 4 ≤ wordSize b₃ b₂ b₁ b₀

/-- Where the peer sends sizes, reading fails at most by finding nothing. -/
theorem Receiving.fault (h : c.Receiving) (hfed : c.Fed) {accepts : Bool} {f : Fault}
    (hr : c.readCb o₁ o₂ accepts i = some (.error f)) : f = .readAgain := by
  have hbody : ∀ {c : Conn} {buf : Bytes}, c.rpdu.buf = some buf → c.rpdu.solong = buf.length →
      c.rpdu.solong ≤ c.rpdu.sz → c.readBody o₂ ≠ .error f := by
    intro c buf hbuf hsolong hle heq'
    rcases readBody_cases hbuf hsolong o₂ with ⟨-, hlt⟩ | ⟨-, heq | heq | ⟨bs, -, -, heq⟩⟩
    · exact absurd hlt (not_lt.2 hle)
    · cases heq.symm.trans heq'
    · cases heq.symm.trans heq'
    · cases heq.symm.trans heq'
  rw [Conn.readCb] at hr
  split at hr
  next => cases hr
  next hd =>
    have hd : c.dead = false := Bool.eq_false_iff.2 hd
    split at hr
    next f' hf =>
      obtain rfl := Except.error.inj (Option.some_inj.1 hr)
      split at hf
      swap
      · cases hf
      rw [Conn.readpdu] at hf
      split at hf
      next hsz =>
        rcases (h.alive hd).2 with hempty | ⟨buf, hbuf, hsolong, -, hle, -, -⟩
        · rw [hempty] at hsz
          exact absurd rfl hsz
        · exact absurd hf (hbody hbuf hsolong hle)
      next hsz =>
        have hnone := h.none_of_sz hd (not_not.1 hsz)
        rcases readHeader_cases c o₁ with heq | heq | heq | ⟨b₃, b₂, b₁, b₀, hbs, heq⟩
        · rw [heq] at hf
          cases hf
        · rw [heq] at hf
          exact (Except.error.inj hf).symm
        · rw [heq] at hf
          cases hf
        · have hsize := hfed hd hnone b₃ b₂ b₁ b₀
            (hbs ▸ (List.take_prefix ..).trans (data_isPrefix ..))
          rcases setSize_cases (c.take [b₃, b₂, b₁, b₀]) b₃ b₂ b₁ b₀ with
            hset | ⟨-, hsome⟩ | ⟨hlt, -⟩ | ⟨-, -, hset⟩
          · rw [heq, hset] at hf
            cases hf
          · have hsome : c.rpdu.buf.isSome := hsome
            rw [hnone] at hsome
            exact Bool.noConfusion hsome
          · omega
          · rw [heq, hset] at hf
            exact absurd hf (hbody rfl rfl hsize)
    next => cases hr
    next =>
      obtain ⟨c₂, -, hc⟩ := Option.map_eq_some_iff.1 hr
      cases hc

end Conn
end Rpc
end CseLab
