import CseLab.Rpc.Values
import Mathlib.Data.List.GetD

/-!
# There and back

A message is a header, of a request or of a reply, and values.  The header has its own place at the
front of the buffer; it is packed there before the values are marshalled, after that or in between.

* `round_trips_iff` — a message comes back as it was, and what is cut off is not taken for one, if
  and only if the capacity of the buffer does not overflow.
-/

set_option autoImplicit false

namespace CseLab
namespace Rpc

open Unmarshall

/-! ## Headers -/

/-- Which of the two headers there is. -/
inductive HeaderKind
  | req
  | reply
  deriving DecidableEq

/-- A header. -/
inductive Header
  | req (h : ReqHeader)
  | reply (h : ReplyHeader)
  deriving DecidableEq

namespace Header

/-- Which it is. -/
def kind : Header → HeaderKind
  | req _ => .req
  | reply _ => .reply

/-- `pack_req_header` or `pack_reply_header`. -/
def pack : Header → Marshall → Option Marshall
  | req h => Marshall.packReqHeader h
  | reply h => Marshall.packReplyHeader h

/-- The numbers in it. -/
def words : Header → List UInt32
  | req h => [h.xid.toUInt32, h.proc.toUInt32, h.clt_nonce, h.srv_nonce, h.xid_rep.toUInt32]
  | reply h => [h.xid.toUInt32, h.ret.toUInt32]

/-- The bytes of these. -/
def bytes (h : Header) : Bytes := h.words.flatMap netBytes

theorem length_bytes (h : Header) : 4 + h.bytes.length ≤ rpcHeaderSz := by
  cases h <;> simp [bytes, words, netBytes, rpcHeaderSz]

end Header

/-- `unpack_req_header` or `unpack_reply_header`. -/
def unpackHeader : HeaderKind → Reads Header
  | .req => do
    let h ← unpackReqHeader
    return .req h
  | .reply => do
    let h ← unpackReplyHeader
    return .reply h

/-! ## Messages -/

/-- A value, with its type. -/
abbrev Value : Type := (t : Ty) × t.Val

/-- `operator<<` of one value after another. -/
def putAll (vs : List Value) (m : Marshall) : Option Marshall :=
  vs.foldlM (fun m v => v.1.put v.2 m) m

/-- `operator>>` into one variable after another. -/
def getAll : List Ty → Reads (List Value)
  | [] => pure []
  | t :: ts => do
    let x ← t.get
    let vs ← getAll ts
    return ⟨t, x⟩ :: vs

/-- A message: the header is packed when some of the values are there. -/
def marshalled (mem : ℕ → UInt8) (h : Header) (vs vs' : List Value) : Option Marshall := do
  let m ← putAll vs (.new mem)
  let m ← h.pack m
  putAll vs' m

/-- A message is read. -/
def unmarshalled (kind : HeaderKind) (ts : List Ty) : Reads (Header × List Value) := do
  let h ← unpackHeader kind
  let vs ← getAll ts
  return (h, vs)

/-- What is written of the values, write by write. -/
def valueChunks (vs : List Value) : List Bytes := vs.flatMap fun v => v.1.chunks v.2

/-- How large a message is. -/
def messageSize (vs : List Value) : ℕ := rpcHeaderSz + (valueChunks vs).flatten.length

/-- How large the buffer for it becomes. -/
def messageCapacity (vs : List Value) : ℕ :=
  capacity 1024 rpcHeaderSz ((valueChunks vs).map List.length)

theorem Marshall.message_lt (m : Marshall) : m.message.length < 2147483648 := by
  rw [message, bytes, List.length_map, List.length_range']
  exact m.ind_le.trans_lt m.capa_lt

/-- The buffer `b` is read: what comes of it, and what state that leaves. -/
def received (kind : HeaderKind) (ts : List Ty) (b : Bytes) (hb : b.length < 2147483648) :
    (Header × List Value) × Unmarshall :=
  (unmarshalled kind ts).run (.ofBuf b hb)

/-- The message comes back, and no part of it, from its header on, is taken for a message. -/
def RoundTrips (mem : ℕ → UInt8) (h : Header) (vs vs' : List Value) : Prop :=
  let ts := (vs ++ vs').map Sigma.fst
  ∃ m, marshalled mem h vs vs' = some m ∧
    (received h.kind ts m.message m.message_lt).1 = (h, vs ++ vs') ∧
    (received h.kind ts m.message m.message_lt).2.okdone = true ∧
    ∀ b hb, b <+: m.message → b ≠ m.message → rpcHeaderSz ≤ b.length →
      (received h.kind ts b hb).2.ok = false

/-! ## Writing it -/

variable {vs vs' : List Value} {m m' m'' : Marshall} {h : Header}

theorem putAll_eq (hlt : (valueChunks vs).flatten.length < 2147483648) (m : Marshall) :
    putAll vs m = m.rawAll (valueChunks vs) := by
  have hput : ∀ v ∈ vs, ∀ m, v.1.put v.2 m = m.rawAll (v.1.chunks v.2) := fun v hv =>
    (lawful_ty v.1).puts v.2 ((length_flatMap_chunks hv).trans_lt hlt)
  exact foldlM_put hput m

theorem Header.pack_eq (h : Header) (m : Marshall) :
    h.pack m = (m.seek 4).bind fun m' =>
      (m'.rawAll (h.words.flatMap netChunks)).bind (Marshall.seek m.ind) := by
  cases h <;>
    simp only [pack, Marshall.packReqHeader, Marshall.packReplyHeader, Marshall.pack, putUint_eq,
      words, List.flatMap_cons, List.flatMap_nil, Marshall.rawAll_append, Marshall.rawAll_nil,
      Option.bind_eq_bind, Option.bind_assoc, Option.bind_some, UInt32.toUInt32_toInt32]

/-- The header is written in its place. -/
theorem Header.pack_some (h : Header) (m : Marshall) : ∃ m', h.pack m = some m' ∧
    m'.ind = m.ind ∧ m'.capa = m.capa ∧ ∀ i, m'.buf i =
      if 4 ≤ i ∧ i < 4 + h.bytes.length then h.bytes.getD (i - 4) 0 else m.buf i := by
  have hge := m.capa_ge
  have hbytes : (h.words.flatMap netChunks).flatten = h.bytes := flatten_flatMap netChunks h.words
  have hlength := h.length_bytes
  rw [rpcHeaderSz] at hlength
  let m₀ : Marshall := { m with ind := 4, ind_le := by omega }
  have hseek : m.seek 4 = some m₀ := dif_pos (by omega)
  have hcapa : capacity m₀.capa m₀.ind ((h.words.flatMap netChunks).map List.length) = m.capa := by
    refine capacity_of_fits ?_
    rw [← List.length_flatten, hbytes]
    change 4 + h.bytes.length ≤ m.capa
    omega
  obtain ⟨m₁, hm₁, hplaced⟩ := Marshall.rawAll_some (hcapa.symm ▸ m.capa_lt)
  rw [hcapa, hbytes] at hplaced
  have hback : m.ind ≤ m₁.capa := by
    rw [hplaced.capa]
    exact m.ind_le
  refine ⟨{ m₁ with ind := m.ind, ind_le := hback }, ?_, rfl, hplaced.capa, hplaced.buf⟩
  rw [pack_eq, hseek, Option.bind_some, hm₁, Option.bind_some]
  exact dif_pos hback

theorem Marshall.bytes_eq {pos : ℕ} {p : Bytes}
    (hp : ∀ i < p.length, m.buf (pos + i) = p.getD i 0) : m.bytes pos p.length = p := by
  refine List.ext_getElem (by rw [bytes, List.length_map, List.length_range']) fun i h₁ h₂ => ?_
  rw [← List.getD_eq_getElem p 0 h₂, ← hp i h₂]
  simp [bytes]

theorem Marshall.message_drop (m : Marshall) (k : ℕ) :
    m.message.drop k = m.bytes k (m.ind - k) := by
  rw [message, bytes, ← List.map_drop, List.drop_range', Nat.zero_add, Nat.mul_one]
  rfl

theorem Marshall.bytes_append (m : Marshall) (pos a b : ℕ) :
    m.bytes pos (a + b) = m.bytes pos a ++ m.bytes (pos + a) b := by
  rw [bytes, bytes, bytes, ← List.map_append, List.range'_append_1]

theorem valueChunks_append (vs vs' : List Value) :
    valueChunks (vs ++ vs') = valueChunks vs ++ valueChunks vs' := List.flatMap_append

/-- What is in the message: the header from byte 4 on, and the values from byte 24 on. -/
theorem marshalled_some (mem : ℕ → UInt8) (h : Header)
    (hsize : messageSize (vs ++ vs') < 2147483648)
    (hcapa : messageCapacity (vs ++ vs') < 2147483648) : ∃ m, marshalled mem h vs vs' = some m ∧
      m.ind = messageSize (vs ++ vs') ∧ h.bytes <+: m.message.drop 4 ∧
      m.message.drop rpcHeaderSz = (valueChunks (vs ++ vs')).flatten := by
  rw [messageCapacity, valueChunks_append, List.map_append, capacity_append,
    ← List.length_flatten] at hcapa
  rw [messageSize, valueChunks_append, List.flatten_append, List.length_append] at hsize
  rw [messageSize, valueChunks_append, List.flatten_append]
  have hfirst := (le_capacity ((valueChunks vs).map List.length)
    (show rpcHeaderSz ≤ 1024 by decide)).2
  rw [← List.length_flatten] at hfirst
  obtain ⟨m₁, hm₁, hplaced₁⟩ := Marshall.rawAll_some (m := .new mem)
    ((le_capacity _ hfirst).1.trans_lt hcapa)
  obtain ⟨m₂, hm₂, hind₂, hcapa₂, hbuf₂⟩ := h.pack_some m₁
  have hind : m₂.ind = rpcHeaderSz + (valueChunks vs).flatten.length := hind₂.trans hplaced₁.ind
  have hcapa' : capacity m₂.capa m₂.ind ((valueChunks vs').map List.length) < 2147483648 := by
    rw [hind, hcapa₂, hplaced₁.capa]
    exact hcapa
  obtain ⟨m₃, hm₃, hplaced₃⟩ := Marshall.rawAll_some hcapa'
  have hbuf₁ := hplaced₁.buf
  have hbuf₃ := hplaced₃.buf
  have hslot := h.length_bytes
  have hnew : (Marshall.new mem).ind = rpcHeaderSz := rfl
  rw [hnew] at hbuf₁
  rw [hind] at hbuf₃
  have hind₃ :
      m₃.ind = rpcHeaderSz + ((valueChunks vs).flatten ++ (valueChunks vs').flatten).length := by
    rw [hplaced₃.ind, hind, List.length_append, Nat.add_assoc]
  refine ⟨m₃, ?_, hind₃, ?_, ?_⟩
  · rw [marshalled, putAll_eq (by omega), hm₁]
    change (h.pack m₁).bind (putAll vs') = some m₃
    rw [hm₂, Option.bind_some, putAll_eq (by omega), hm₃]
  · have hsplit : m₃.ind - 4 = h.bytes.length + (m₃.ind - 4 - h.bytes.length) := by omega
    have hheader : m₃.bytes 4 h.bytes.length = h.bytes := by
      refine Marshall.bytes_eq fun i hi => ?_
      rw [hbuf₃, if_neg (by omega), hbuf₂, if_pos (by omega), Nat.add_sub_cancel_left]
    rw [Marshall.message_drop, hsplit, Marshall.bytes_append, hheader]
    exact List.prefix_append ..
  · rw [Marshall.message_drop, hind₃, Nat.add_sub_cancel_left]
    refine Marshall.bytes_eq fun i hi => ?_
    rw [List.length_append] at hi
    rw [hbuf₃, hbuf₂, if_neg (c := 4 ≤ _ ∧ _) (by omega), hbuf₁]
    simp only [List.getD_eq_getElem?_getD, List.getElem?_append]
    grind

/-- Where the capacity overflows nothing is written. -/
theorem marshalled_none (mem : ℕ → UInt8) (h : Header)
    (hsize : messageSize (vs ++ vs') < 2147483648)
    (hcapa : ¬ messageCapacity (vs ++ vs') < 2147483648) : marshalled mem h vs vs' = none := by
  rw [messageCapacity, valueChunks_append, List.map_append, capacity_append,
    ← List.length_flatten] at hcapa
  rw [messageSize, valueChunks_append, List.flatten_append, List.length_append] at hsize
  rw [marshalled, putAll_eq (by omega)]
  by_cases hlt : capacity 1024 rpcHeaderSz ((valueChunks vs).map List.length) < 2147483648
  · obtain ⟨m₁, hm₁, hplaced₁⟩ := Marshall.rawAll_some (m := .new mem) hlt
    obtain ⟨m₂, hm₂, hind₂, hcapa₂, -⟩ := h.pack_some m₁
    rw [hm₁]
    change (h.pack m₁).bind (putAll vs') = none
    rw [hm₂, Option.bind_some, putAll_eq (by omega)]
    refine Marshall.rawAll_none ?_
    rw [hcapa₂, hind₂, hplaced₁.capa, hplaced₁.ind]
    exact hcapa
  · rw [Marshall.rawAll_none (m := .new mem) hlt]
    rfl

/-! ## Reading it -/

theorem sticky_unpack : Sticky Failed unpack := sticky_getUint.bind fun x => .pure x.toInt32

theorem decodes_unpack (x : Int32) : Decodes Left Failed unpack (netBytes x.toUInt32) x :=
  (decodes_word x.toUInt32).map UInt32.toInt32

theorem careful_unpack : Careful unpack := careful_get (s := .int) nofun

/-- What a header is read with, between the two settings of the position. -/
def headerFields : HeaderKind → Reads Header
  | .req => do
    let xid ← unpack
    let proc ← unpack
    let clt_nonce ← unpack
    let srv_nonce ← unpack
    let xid_rep ← unpack
    return .req ⟨xid, proc, clt_nonce.toUInt32, srv_nonce.toUInt32, xid_rep⟩
  | .reply => do
    let xid ← unpack
    let ret ← unpack
    return .reply ⟨xid, ret⟩

theorem unpackHeader_eq (kind : HeaderKind) : unpackHeader kind = (do
    seek 4
    let h ← headerFields kind
    seek rpcHeaderSz
    return h) := by
  cases kind <;>
    simp only [unpackHeader, unpackReqHeader, unpackReplyHeader, headerFields, bind_assoc,
      pure_bind]

theorem unpackHeader_apply (kind : HeaderKind) (u : Unmarshall) : (unpackHeader kind).run u =
    (((headerFields kind).run { u with ind := 4 }).1,
      { ((headerFields kind).run { u with ind := 4 }).2 with ind := rpcHeaderSz }) := by
  rw [unpackHeader_eq]
  rfl

theorem careful_headerFields (kind : HeaderKind) : Careful (headerFields kind) := by
  cases kind with
  | req =>
    exact careful_unpack.bind fun _ => careful_unpack.bind fun _ => careful_unpack.bind fun _ =>
      careful_unpack.bind fun _ => careful_unpack.bind fun _ => .pure _
  | reply => exact careful_unpack.bind fun _ => careful_unpack.bind fun _ => .pure _

theorem decodes_headerFields (h : Header) :
    Decodes Left Failed (headerFields h.kind) h.bytes h := by
  cases h with
  | req h =>
    obtain ⟨xid, proc, clt_nonce, srv_nonce, xid_rep⟩ := h
    have hdec : Decodes Left Failed (headerFields .req)
        (netBytes xid.toUInt32 ++ (netBytes proc.toUInt32 ++ (netBytes clt_nonce.toInt32.toUInt32 ++
          (netBytes srv_nonce.toInt32.toUInt32 ++ netBytes xid_rep.toUInt32)))) _ :=
      (decodes_unpack xid).bind ((decodes_unpack proc).bind ((decodes_unpack clt_nonce.toInt32).bind
        ((decodes_unpack srv_nonce.toInt32).bind ((decodes_unpack xid_rep).map _)
          fun _ => sticky_unpack.bind fun _ => .pure _)
          fun _ => sticky_unpack.bind fun _ => sticky_unpack.bind fun _ => .pure _)
          fun _ => sticky_unpack.bind fun _ => sticky_unpack.bind fun _ => sticky_unpack.bind
            fun _ => .pure _)
          fun _ => sticky_unpack.bind fun _ => sticky_unpack.bind fun _ => sticky_unpack.bind
            fun _ => sticky_unpack.bind fun _ => .pure _
    rw [UInt32.toUInt32_toInt32, UInt32.toUInt32_toInt32] at hdec
    exact hdec
  | reply h =>
    obtain ⟨xid, ret⟩ := h
    exact (decodes_unpack xid).bind ((decodes_unpack ret).map _) fun _ =>
      sticky_unpack.bind fun _ => .pure _

/-- From a buffer with the header in its place. -/
theorem unpackHeader_run {h : Header} {u : Unmarshall} (hok : u.ok = true)
    (hlen : rpcHeaderSz ≤ u.buf.length) (hpre : h.bytes <+: u.buf.drop 4) :
    ((unpackHeader h.kind).run u).1 = h ∧
      Left ((unpackHeader h.kind).run u).2 (u.buf.drop rpcHeaderSz) := by
  obtain ⟨rest, hrest⟩ := hpre
  have hle : 4 ≤ u.buf.length := Nat.le_trans (by decide) hlen
  have hleft : Left { u with ind := 4 } (h.bytes ++ rest) := ⟨hok, hle, hrest.symm⟩
  have hin := careful_headerFields h.kind { u with ind := 4 }
  obtain ⟨hval, hleft'⟩ := (decodes_headerFields h).full _ _ hleft
  rw [unpackHeader_apply]
  refine ⟨hval, hleft'.ok, ?_, ?_⟩
  · dsimp only
    rw [hin.buf]
    exact hlen
  · dsimp only
    rw [hin.buf]

theorem sticky_getAll (ts : List Ty) : Sticky Failed (getAll ts) := by
  induction ts with
  | nil => exact .pure _
  | cons t ts ih => exact (lawful_ty t).sticky.bind fun x => ih.bind fun vs => .pure (⟨t, x⟩ :: vs)

theorem decodes_getAll (hlt : (valueChunks vs).flatten.length < 2147483648) :
    Decodes Left Failed (getAll (vs.map Sigma.fst)) (valueChunks vs).flatten vs := by
  induction vs with
  | nil => exact .pure _
  | cons v vs ih =>
    obtain ⟨t, x⟩ := v
    rw [valueChunks, List.flatMap_cons, List.flatten_append, List.length_append] at hlt
    rw [valueChunks, List.flatMap_cons, List.flatten_append]
    dsimp only at hlt ⊢
    exact ((lawful_ty t).decodes x (by omega)).bind ((ih (by rw [valueChunks]; omega)).map _)
      fun x => (sticky_getAll _).bind fun vs => .pure (⟨t, x⟩ :: vs)

/-- A buffer is read header first, and then what is behind the header. -/
theorem received_eq {kind : HeaderKind} {ts : List Ty} {b : Bytes} (hb : b.length < 2147483648) :
    let r := (unpackHeader kind).run (.ofBuf b hb)
    received kind ts b hb = ((r.1, ((getAll ts).run r.2).1), ((getAll ts).run r.2).2) := rfl

/-- All of it, if the values are all that is behind the header. -/
theorem received_full {b : Bytes} (hb : b.length < 2147483648) (hlen : rpcHeaderSz ≤ b.length)
    (hpre : h.bytes <+: b.drop 4) (hrest : b.drop rpcHeaderSz = (valueChunks vs).flatten) :
    (received h.kind (vs.map Sigma.fst) b hb).1 = (h, vs) ∧
      (received h.kind (vs.map Sigma.fst) b hb).2.okdone = true := by
  have hlt : (valueChunks vs).flatten.length < 2147483648 := by
    rw [← hrest, List.length_drop]
    omega
  obtain ⟨hval, hleft⟩ := unpackHeader_run (u := .ofBuf b hb) rfl hlen hpre
  have hleft' :
      Left ((unpackHeader h.kind).run (.ofBuf b hb)).2 ((valueChunks vs).flatten ++ []) := by
    rw [List.append_nil, ← hrest]
    exact hleft
  obtain ⟨hvals, hend⟩ := (decodes_getAll hlt).full _ _ hleft'
  rw [received_eq]
  refine ⟨by rw [hval, hvals], ?_⟩
  have hdone := List.drop_eq_nil_iff.1 hend.drop
  rw [okdone, hend.ok, Bool.true_and, beq_iff_eq]
  exact Nat.le_antisymm hend.ind_le hdone

/-- And nothing, if some of them are missing. -/
theorem received_short {b : Bytes} (hb : b.length < 2147483648) (hlen : rpcHeaderSz ≤ b.length)
    (hlt : (valueChunks vs).flatten.length < 2147483648)
    (hpre : h.bytes <+: b.drop 4) (hrest : b.drop rpcHeaderSz <+: (valueChunks vs).flatten)
    (hne : b.drop rpcHeaderSz ≠ (valueChunks vs).flatten) :
    (received h.kind (vs.map Sigma.fst) b hb).2.ok = false := by
  obtain ⟨-, hleft⟩ := unpackHeader_run (u := .ofBuf b hb) rfl hlen hpre
  exact (decodes_getAll hlt).short _ _ hleft hrest hne

/-- **Marshalling round-trips** if and only if the buffer can be made as large as the writes make
it; what its size is depends on nothing but the sizes of these. -/
theorem round_trips_iff (mem : ℕ → UInt8) (h : Header) (vs vs' : List Value)
    (hsize : messageSize (vs ++ vs') < 2147483648) :
    RoundTrips mem h vs vs' ↔ messageCapacity (vs ++ vs') < 2147483648 := by
  constructor
  · rintro ⟨m, hm, -⟩
    by_contra hcapa
    rw [marshalled_none mem h hsize hcapa] at hm
    cases hm
  · intro hcapa
    obtain ⟨m, hm, hind, hpre, hrest⟩ := marshalled_some mem h hsize hcapa
    have hlength : m.message.length = messageSize (vs ++ vs') := by
      rw [Marshall.message, Marshall.bytes, List.length_map, List.length_range', hind]
    have hlen : rpcHeaderSz ≤ m.message.length := by
      rw [hlength]
      exact Nat.le_add_right ..
    obtain ⟨hval, hdone⟩ := received_full m.message_lt hlen hpre hrest
    refine ⟨m, hm, hval, hdone, fun b hb hprefix hne hlenb => ?_⟩
    obtain ⟨t, ht⟩ := hprefix
    have hdrop : ∀ k ≤ b.length, m.message.drop k = b.drop k ++ t := fun k hk => by
      rw [← ht, List.drop_append_of_le_length hk]
    have hslot := h.length_bytes
    have hpre' : h.bytes <+: b.drop 4 := by
      refine List.prefix_of_prefix_length_le hpre ⟨t, (hdrop 4 (by omega)).symm⟩ ?_
      rw [List.length_drop]
      omega
    have hrest' := (hdrop rpcHeaderSz hlenb).symm.trans hrest
    have hlt : (valueChunks (vs ++ vs')).flatten.length < 2147483648 :=
      (Nat.le_add_left ..).trans_lt hsize
    refine received_short hb hlenb hlt hpre' ⟨t, hrest'⟩ fun heq => hne ?_
    rw [← heq] at hrest'
    rw [← ht, List.append_right_eq_self.1 hrest', List.append_nil]

/-- A message of at most `2 ^ 30` bytes is not too large. -/
theorem messageCapacity_lt (hsize : messageSize vs ≤ 1073741824) :
    messageCapacity vs < 2147483648 := by
  rw [messageSize, List.length_flatten] at hsize
  exact capacity_lt (by decide) hsize

/-- A request with two strings in a vector, and a number. -/
theorem round_trips_request :
    RoundTrips (fun _ => 0) (.req ⟨1, 2, 3, 4, 5⟩) [⟨.vector (.scalar .string), [[104, 97], []]⟩]
      [⟨.scalar .int, (12345 : Int32)⟩] :=
  (round_trips_iff _ _ _ _ (by decide)).2 (messageCapacity_lt (by decide))

/-- One string of 100 bytes less than `2 ^ 31`. -/
theorem not_round_trips : ¬ ∀ (mem : ℕ → UInt8) (h : Header) (vs vs' : List Value),
    messageSize (vs ++ vs') < 2147483648 → RoundTrips mem h vs vs' := by
  intro hall
  obtain ⟨s, hs⟩ : ∃ s : Bytes, s.length = 2147483548 :=
    ⟨List.replicate 2147483548 0, List.length_replicate⟩
  let v : Value := ⟨.scalar .string, s⟩
  have hsizes : (valueChunks [v]).map List.length = [1, 1, 1, 1, 2147483548] := by
    rw [← hs]
    rfl
  have hsize : messageSize ([v] ++ []) < 2147483648 := by
    rw [messageSize, List.length_flatten, List.append_nil, hsizes]
    decide
  have hcapa : ¬ messageCapacity ([v] ++ []) < 2147483648 := by
    rw [messageCapacity, List.append_nil, hsizes]
    decide
  obtain ⟨m, hm, -⟩ := hall (fun _ => 0) (.reply ⟨1, 0⟩) [v] [] hsize
  rw [marshalled_none _ _ hsize hcapa] at hm
  cases hm

end Rpc
end CseLab
