import CseLab.Rpc.Receiver

/-!
# Two connections and what is between them

The socket of each carries to the other what has been written to it, in order; when it arrives, and
in what pieces, is open.  At each end any number of threads send, callbacks come at any time, and
either end may die; what has not arrived by then need not.

* What one end has taken is the PDUs of the other in the order in which their calls of `send` have
  got hold of the connection, none twice and none left out (`Channel.delivered_in_order`), and
  nothing behind a PDU that is too big.
* A call of `send` that has returned `true` has its PDU taken, once all that has been written has
  been read by an end that lives and has nothing left in hand (`Channel.told_is_delivered`).
* No buffer is overrun and no `VERIFY` fails but those on late or idle callbacks
  (`Channel.only_late_callbacks`).
-/

set_option autoImplicit false

namespace CseLab
namespace Rpc

structure Channel where
  a : Conn
  b : Conn

namespace Channel

inductive Step
  | atA (s : Conn.Step)
  | atB (s : Conn.Step)
  /-- The next bytes arrive. -/
  | toA (n : ℕ)
  | toB (n : ℕ)

def new : Channel := ⟨.new, .new⟩

/-- The next `n` bytes for `c` of those that `peer` has written. -/
def transit (c peer : Conn) (n : ℕ) : Bytes :=
  (peer.out.drop (c.inn.length + c.sock.length)).take n

/-- A step of the connection itself. -/
def own (c : Conn) : Conn.Step → Option Conn
  | .arrive _ => none
  | s => c.step s

def step (s : Channel) : Step → Option Channel
  | .atA x => (own s.a x).map fun a => { s with a := a }
  | .atB x => (own s.b x).map fun b => { s with b := b }
  | .toA n => (s.a.step (.arrive (transit s.a s.b n))).map fun a => { s with a := a }
  | .toB n => (s.b.step (.arrive (transit s.b s.a n))).map fun b => { s with b := b }

variable {s s' : Channel} {c c' peer peer' : Conn} {n : ℕ}

/-- What one end knows about the other. -/
structure End (c peer : Conn) : Prop where
  sending : c.Sending 0 0
  receiving : c.Receiving
  /-- What has arrived has been written. -/
  flow : c.inn ++ c.sock <+: peer.out
  fault : c.fault = none ∨ c.fault = some .writeDead ∨ c.fault = some .readAgain

theorem own_run {x : Conn.Step} (h : own c x = some c') : c.step x = some c' ∧ x.arrives = [] := by
  cases x with
  | arrive bs => exact absurd h nofun
  | _ => exact ⟨h, rfl⟩

/-- What has been taken of what the peer has begun to send. -/
theorem End.got_prefix (h : End c peer) (hpeer : peer.Sending 0 0) :
    c.got <+: peer.begun.map Pdu.frame := by
  obtain ⟨rest, hrest⟩ := h.receiving.begins.trans ((List.prefix_append _ _).trans
    (h.flow.trans hpeer.begins))
  refine prefixFree_isFrame.prefix_of_flatten (fun x hx => ?_)
    (fun y hy => (h.receiving.got y hy).1) (fun y => not_isFrame_prefix_nil)
    ((List.append_nil _).trans hrest.symm)
  obtain ⟨b, -, rfl⟩ := List.mem_map.1 hx
  exact isFrame_frame b

/-- What arrives next where a size is to be read is the size of a PDU. -/
theorem End.fed (h : End c peer) (hpeer : peer.Sending 0 0) : c.Fed := by
  intro hd hnone b₃ b₂ b₁ b₀ hword
  obtain ⟨rest, hgot⟩ := h.got_prefix hpeer
  have hinn := (h.receiving.alive hd).1
  rw [hnone, Option.getD_none, List.append_nil] at hinn
  -- behind what has been taken, the word is the beginning of the rest
  have hflow : c.got.flatten ++ [b₃, b₂, b₁, b₀] <+: c.got.flatten ++ rest.flatten := by
    rw [← List.flatten_append, hgot, ← hinn]
    exact ((List.prefix_append_right_inj _).2 hword).trans (h.flow.trans hpeer.begins)
  have hrest := (List.prefix_append_right_inj _).1 hflow
  cases rest with
  | nil => exact absurd (List.prefix_nil.1 hrest) nofun
  | cons x rest =>
    have hx : x ∈ peer.begun.map Pdu.frame := hgot ▸ List.mem_append_right _ (.head _)
    obtain ⟨b, -, rfl⟩ := List.mem_map.1 hx
    have hframe := isFrame_frame b
    have hsize : sizeWord b.frame.length = [b₃, b₂, b₁, b₀] := by
      rw [← hframe.2.2]
      have htake := List.prefix_iff_eq_take.1 hrest
      rw [List.flatten_cons] at htake
      exact (List.take_append_of_le_length hframe.1).symm.trans htake.symm
    have hlen := wordSize_of_sizeWord hframe.2.1 hsize
    have hfour := hframe.1
    omega

/-- One end goes on. -/
theorem End.step (h : End c peer) (hpeer : peer.Sending 0 0) {x : Conn.Step}
    (harrives : c.inn ++ c.sock ++ x.arrives <+: peer.out) (hs : c.step x = some c') :
    End c' peer ∧ c.out <+: c'.out := by
  obtain ⟨hnone, ⟨f, hr, rfl⟩ | hr⟩ := Conn.step_cases hs
  · refine ⟨⟨{ h.sending with }, ⟨h.receiving.got, h.receiving.begins, h.receiving.alive⟩, h.flow,
      .inr ?_⟩, List.prefix_refl _⟩
    rcases h.sending.run hr with ⟨c₁, heq, -⟩ | ⟨o, i, rfl, heq, -⟩ | ⟨o, o', accepts, i, f', rfl, heq⟩
    · exact absurd heq nofun
    · rw [Except.error.inj heq]
      exact .inl rfl
    · rw [h.receiving.fault (h.fed hpeer) hr]
      exact .inr rfl
  · obtain ⟨hreceiving, hflow, hout, hfault⟩ := h.receiving.run hr
    exact ⟨⟨h.sending.step hs, hreceiving, hflow ▸ harrives, .inl (hfault.trans hnone)⟩, hout⟩

/-- The peer has written more. -/
theorem End.grow (h : End c peer) (hout : peer.out <+: peer'.out) : End c peer' :=
  { h with flow := h.flow.trans hout }

theorem End.transit (h : End c peer) (n : ℕ) :
    c.inn ++ c.sock ++ Channel.transit c peer n <+: peer.out := by
  obtain ⟨rest, hrest⟩ := h.flow
  rw [Channel.transit, ← hrest, ← List.length_append, List.drop_left]
  exact (List.prefix_append_right_inj _).2 (List.take_prefix ..)

variable {ok : Channel → Step → Prop} {as : List Step}

theorem ends (h : Run step ok new as s) : End s.a s.b ∧ End s.b s.a := by
  have hnew : End .new .new := ⟨.new, .new, List.nil_prefix, .inl rfl⟩
  refine h.invariant (P := fun s => End s.a s.b ∧ End s.b s.a) ⟨hnew, hnew⟩
    fun s x s' hs _ hstep => ?_
  obtain ⟨ha, hb⟩ := hs
  cases x with
  | atA x =>
    obtain ⟨a, hx, rfl⟩ := Option.map_eq_some_iff.1 hstep
    obtain ⟨hx, hnil⟩ := own_run hx
    obtain ⟨ha', hout⟩ := ha.step hb.sending (by rw [hnil, List.append_nil]; exact ha.flow) hx
    exact ⟨ha', hb.grow hout⟩
  | atB x =>
    obtain ⟨b, hx, rfl⟩ := Option.map_eq_some_iff.1 hstep
    obtain ⟨hx, hnil⟩ := own_run hx
    obtain ⟨hb', hout⟩ := hb.step ha.sending (by rw [hnil, List.append_nil]; exact hb.flow) hx
    exact ⟨ha.grow hout, hb'⟩
  | toA n =>
    obtain ⟨a, hx, rfl⟩ := Option.map_eq_some_iff.1 hstep
    obtain ⟨ha', hout⟩ := ha.step hb.sending (x := .arrive _) (ha.transit n) hx
    exact ⟨ha', hb.grow hout⟩
  | toB n =>
    obtain ⟨b, hx, rfl⟩ := Option.map_eq_some_iff.1 hstep
    obtain ⟨hb', hout⟩ := hb.step ha.sending (x := .arrive _) (hb.transit n) hx
    exact ⟨ha.grow hout, hb'⟩

/-! ## What comes out -/

/-- `c` is one end and `peer` the other. -/
def Ends (s : Channel) (c peer : Conn) : Prop := (c = s.a ∧ peer = s.b) ∨ (c = s.b ∧ peer = s.a)

theorem end_of_run (h : Run step ok new as s) (he : s.Ends c peer) :
    End c peer ∧ End peer c := by
  obtain ⟨ha, hb⟩ := ends h
  rcases he with ⟨rfl, rfl⟩ | ⟨rfl, rfl⟩
  · exact ⟨ha, hb⟩
  · exact ⟨hb, ha⟩

/-- Two PDUs, of which the first is written in two pieces and arrives in three. -/
def twoPieces : List Step :=
  [.atA (.send 0 .blank (.took 10)), .atA (.send 1 .blank (.took 24)), .toB 6,
    .atB (.readCb (.bytes 4) (.bytes 9) true 0), .atA (.writeCb (.took 14) 0), .toB 9,
    .atB (.readCb (.error true) (.bytes 9) true 0), .atA (.completeAgain 0),
    .atA (.sendAgain 0 (.took 24)), .toB 100, .atB (.readCb (.error true) (.bytes 100) true 0),
    .atB (.readCb (.bytes 4) (.bytes 20) true 0)]

/-- What is taken at one end are the PDUs of the other, byte for byte with their sizes put in, in
the order in which they were begun, up to some point; and none of them is too big, so that one that
is too big is that point at the latest. -/
theorem delivered_in_order (h : Run step ok new as s) (he : s.Ends c peer) :
    c.got <+: peer.begun.map Pdu.frame ∧ ∀ g ∈ c.got, (g.length : ℤ) ≤ maxPdu := by
  obtain ⟨hc, hpeer⟩ := end_of_run h he
  exact ⟨hc.got_prefix hpeer.sending, fun g hg => (hc.receiving.got g hg).2⟩

theorem delivered_in_order_twoPieces : ∃ s : Channel, s.b.got.length = 2 ∧
    s.b.got <+: s.a.begun.map Pdu.frame ∧ ∀ g ∈ s.b.got, (g.length : ℤ) ≤ maxPdu := by
  have hrun : Run step anyStep new twoPieces _ := .of_execute rfl
  exact ⟨_, by decide, delivered_in_order hrun (.inr ⟨rfl, rfl⟩)⟩

/-- Where `send` has returned `true`, and all that was written is read at an end that lives and has
nothing in hand, the PDU is taken, and so are all before it. -/
theorem told_is_delivered (h : Run step ok new as s) (he : s.Ends c peer) {i : ℕ}
    (hsent : peer.results[i]? = some true) (hd : c.dead = false) (hnone : c.rpdu.buf = none)
    (hread : c.inn = peer.out) : (peer.begun.take (i + 1)).map Pdu.frame <+: c.got := by
  obtain ⟨hc, hpeer⟩ := end_of_run h he
  have hinn := (hc.receiving.alive hd).1
  rw [hnone, Option.getD_none, List.append_nil] at hinn
  obtain ⟨rest, hrest⟩ := hpeer.sending.sent i hsent
  refine prefixFree_isFrame.prefix_of_flatten (fun x hx => (hc.receiving.got x hx).1)
    (fun y hy => ?_) (fun y => not_isFrame_prefix_nil) (q := rest) ?_
  · obtain ⟨b, -, rfl⟩ := List.mem_map.1 hy
    exact isFrame_frame b
  · rw [List.append_nil, ← hinn, hread, ← hrest]
    rfl

theorem told_is_delivered_twoPieces : ∃ s : Channel, s.a.results = [true, true] ∧
    (s.a.begun.take 2).map Pdu.frame <+: s.b.got := by
  have hrun : Run step anyStep new twoPieces _ := .of_execute rfl
  exact ⟨_, by decide, told_is_delivered hrun (.inr ⟨rfl, rfl⟩) rfl rfl rfl rfl⟩

/-- The only assertions that fail are those on a callback that comes to a connection that is dead,
or that has nothing to read; and no buffer is overrun. -/
theorem only_late_callbacks (h : Run step ok new as s) (he : s.Ends c peer) :
    c.fault = none ∨ c.fault = some .writeDead ∨ c.fault = some .readAgain :=
  (end_of_run h he).1.fault

/-- The connection has died in `send` when `write_cb` comes. -/
theorem only_late_callbacks_late : ∃ s : Channel, s.a.fault = some .writeDead ∧
    (s.a.fault = none ∨ s.a.fault = some .writeDead ∨ s.a.fault = some .readAgain) := by
  have hrun : Run step anyStep new
      [.atA (.send 0 .blank (.error false)), .atA (.writeCb (.took 24) 0)] _ := .of_execute rfl
  exact ⟨_, by decide, only_late_callbacks hrun (.inl ⟨rfl, rfl⟩)⟩

end Channel

end Rpc
end CseLab
