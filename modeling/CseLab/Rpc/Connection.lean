import CseLab.Lib.Cond
import CseLab.Lib.Framing
import CseLab.Lib.Run
import CseLab.Rpc.Marshall

/-!
# Connections

`connection` sends and receives PDUs over a socket.  Any number of threads may call `send`; one at a
time has its PDU in `wpdu_`, and what the socket does not take at once is written by `write_cb`, in
the thread of the poll manager.  `read_cb` puts the PDUs together that come in and offers them to
the channel manager, which may refuse one for now.  In front of a PDU, within its header, its size
is sent.

Each step is what a thread does from where it gets `m_` to where it gives it up.  What the socket
does with a `read` or a `write` is up to the step, as is which thread comes next; callbacks may come
at any time.  A step may fail an assertion, or ask the socket for more bytes than a buffer has room
for; then there is no other (`Conn.fault`).
-/

set_option autoImplicit false

namespace CseLab
namespace Rpc

/-! ## On the wire -/

/-- What `send` is called with: a whole buffer of a `marshall`. -/
structure Pdu where
  bytes : Bytes
  header_le : rpcHeaderSz ≤ bytes.length
  length_lt : bytes.length < 2147483648

/-- The smallest one. -/
def Pdu.blank : Pdu := ⟨List.replicate 24 0, by decide, by decide⟩

/-- `MAX_PDU`. -/
def maxPdu : ℤ := 10 * 2 ^ 20

/-- `htonl` of a size, as bytes. -/
def sizeWord (sz : ℕ) : Bytes := netBytes (UInt32.ofNat sz)

/-- `ntohl` of four bytes, as an `int`. -/
def wordSize (b₃ b₂ b₁ b₀ : UInt8) : ℤ := (wordOf b₀ b₁ b₂ b₃).toInt32.toInt

/-- A PDU with its size in front, in place of its first four bytes. -/
def sized (bytes : Bytes) : Bytes := sizeWord bytes.length ++ bytes.drop 4

def Pdu.frame (b : Pdu) : Bytes := sized b.bytes

/-- What is sent for some PDUs. -/
def stream (bs : List Pdu) : Bytes := (bs.map Pdu.frame).flatten

/-- It starts with its size. -/
def IsFrame (g : Bytes) : Prop :=
  4 ≤ g.length ∧ g.length < 2147483648 ∧ g.take 4 = sizeWord g.length

@[simp] theorem length_sizeWord (sz : ℕ) : (sizeWord sz).length = 4 := rfl

theorem length_sized {bytes : Bytes} (h : 4 ≤ bytes.length) :
    (sized bytes).length = bytes.length := by
  rw [sized, List.length_append, length_sizeWord, List.length_drop]
  omega

theorem Pdu.four_le (b : Pdu) : 4 ≤ b.bytes.length := Nat.le_trans (by decide) b.header_le

theorem Pdu.length_frame (b : Pdu) : b.frame.length = b.bytes.length := length_sized b.four_le

theorem isFrame_frame (b : Pdu) : IsFrame b.frame := by
  refine ⟨b.length_frame ▸ b.four_le, b.length_frame ▸ b.length_lt, ?_⟩
  rw [b.length_frame]
  exact List.take_left' rfl

theorem sizeWord_inj {m n : ℕ} (hm : m < 2147483648) (hn : n < 2147483648)
    (h : sizeWord m = sizeWord n) : m = n := by
  have hword : UInt32.ofNat m = UInt32.ofNat n := by
    obtain ⟨h3, h⟩ := List.cons.inj h
    obtain ⟨h2, h⟩ := List.cons.inj h
    obtain ⟨h1, h⟩ := List.cons.inj h
    obtain ⟨h0, -⟩ := List.cons.inj h
    rw [← wordOf_byteOf (UInt32.ofNat m), ← wordOf_byteOf (UInt32.ofNat n), h0, h1, h2, h3]
  have hnat := congrArg UInt32.toNat hword
  rw [UInt32.toNat_ofNat', UInt32.toNat_ofNat'] at hnat
  omega

theorem prefixFree_isFrame : PrefixFree IsFrame := by
  intro x y hx hy hxy
  refine hxy.eq_of_length (sizeWord_inj hx.2.1 hy.2.1 ?_)
  obtain ⟨z, rfl⟩ := hxy
  rw [← hx.2.2, ← hy.2.2, List.take_append_of_le_length hx.1]

theorem not_isFrame_prefix_nil {y : Bytes} (hy : IsFrame y) : ¬ y <+: [] := by
  intro h
  rw [List.prefix_nil.1 h] at hy
  exact absurd hy.1 (by decide)

theorem stream_append (bs bs' : List Pdu) : stream (bs ++ bs') = stream bs ++ stream bs' := by
  rw [stream, List.map_append, List.flatten_append]
  rfl

theorem stream_singleton (b : Pdu) : stream [b] = b.frame := List.append_nil _

/-- A word that is a size as an `int` is that number. -/
theorem ofNat_wordSize {b₃ b₂ b₁ b₀ : UInt8} (h : 0 ≤ wordSize b₃ b₂ b₁ b₀) :
    UInt32.ofNat (wordSize b₃ b₂ b₁ b₀).toNat = wordOf b₀ b₁ b₂ b₃ := by
  have hlt := (wordOf b₀ b₁ b₂ b₃).toNat_lt
  have hint : wordSize b₃ b₂ b₁ b₀ = (wordOf b₀ b₁ b₂ b₃).toBitVec.toInt := rfl
  rw [BitVec.toInt_eq_toNat_cond, UInt32.toNat_toBitVec] at hint
  apply UInt32.toNat_inj.1
  rw [UInt32.toNat_ofNat']
  split at hint <;> omega

theorem netBytes_wordOf (b₀ b₁ b₂ b₃ : UInt8) : netBytes (wordOf b₀ b₁ b₂ b₃) = [b₃, b₂, b₁, b₀] := by
  have h₀ := b₀.toNat_lt
  have h₁ := b₁.toNat_lt
  have h₂ := b₂.toNat_lt
  have h₃ := b₃.toNat_lt
  have hbyte : ∀ (b : UInt8) (i : ℕ), (wordOf b₀ b₁ b₂ b₃).toNat / 256 ^ i % 256 = b.toNat →
      byteOf (wordOf b₀ b₁ b₂ b₃) i = b := by
    intro b i h
    apply UInt8.toNat_inj.1
    rw [byteOf, UInt8.toNat_ofNat']
    exact h
  have hword : (wordOf b₀ b₁ b₂ b₃).toNat =
      b₀.toNat + 256 * b₁.toNat + 65536 * b₂.toNat + 16777216 * b₃.toNat := by
    rw [wordOf, UInt32.toNat_ofNat']
    omega
  rw [netBytes, hbyte b₃ 3 (by omega), hbyte b₂ 2 (by omega), hbyte b₁ 1 (by omega),
    hbyte b₀ 0 (by omega)]

/-- The size that is read, if it can be one, is the one that has been written. -/
theorem sizeWord_wordSize {b₃ b₂ b₁ b₀ : UInt8} (h : 0 ≤ wordSize b₃ b₂ b₁ b₀) :
    sizeWord (wordSize b₃ b₂ b₁ b₀).toNat = [b₃, b₂, b₁, b₀] := by
  rw [sizeWord, ofNat_wordSize h, netBytes_wordOf]

theorem wordSize_of_sizeWord {n : ℕ} {b₃ b₂ b₁ b₀ : UInt8} (hn : n < 2147483648)
    (h : sizeWord n = [b₃, b₂, b₁, b₀]) : wordSize b₃ b₂ b₁ b₀ = n := by
  have hword : wordOf b₀ b₁ b₂ b₃ = UInt32.ofNat n := by
    obtain ⟨h3, h⟩ := List.cons.inj h
    obtain ⟨h2, h⟩ := List.cons.inj h
    obtain ⟨h1, h⟩ := List.cons.inj h
    obtain ⟨h0, -⟩ := List.cons.inj h
    rw [← h3, ← h2, ← h1, ← h0, wordOf_byteOf]
  show (wordOf b₀ b₁ b₂ b₃).toBitVec.toInt = n
  have hnat : (UInt32.ofNat n).toNat = n := by
    rw [UInt32.toNat_ofNat']
    omega
  rw [hword, BitVec.toInt_eq_toNat_cond, UInt32.toNat_toBitVec, hnat, if_pos (by omega)]

/-! ## The connection -/

/-- `connection::charbuf`; of a buffer that is being read, only what has been read. -/
structure Charbuf where
  buf : Option Bytes
  sz : ℤ
  solong : ℤ

def Charbuf.empty : Charbuf := ⟨none, 0, 0⟩

inductive Fault
  /-- `VERIFY(!dead_)` of `write_cb`. -/
  | writeDead
  /-- `VERIFY(errno != EAGAIN)` of `readpdu`. -/
  | readAgain
  /-- `VERIFY(rpdu_.buf)`: there is no memory for a PDU of the size. -/
  | noMemory
  /-- Another `VERIFY`. -/
  | verify
  /-- Bytes are written where there is no buffer. -/
  | null
  /-- Bytes are written, or asked for, behind the end of a buffer. -/
  | overrun
  deriving DecidableEq

/-- `connection`. -/
structure Conn where
  dead : Bool
  wpdu : Charbuf
  rpdu : Charbuf
  waiters : ℕ
  /-- Those who wait for `wpdu`, each with its PDU. -/
  send_wait : Cond (ℕ × Pdu)
  /-- Who waits for its PDU to be written. -/
  send_complete : Cond ℕ
  /-- Who is in `block_remove_fd`, called by `send`. -/
  removing : List ℕ
  fault : Option Fault
  /-- What has arrived at the socket and has not been read. -/
  sock : Bytes
  /-- For the record: what has been written to the socket, and what has been read from it. -/
  out : Bytes
  inn : Bytes
  /-- For the record: the PDUs that have got into `wpdu`, and what `send` has returned for them. -/
  begun : List Pdu
  results : List Bool
  /-- For the record: what the channel manager has taken. -/
  got : List Bytes
  /-- For the record: that it was `closeconn` by which the connection has died. -/
  closed : Bool

/-- What `write` does: it takes so many bytes, or as many as there are, or fails. -/
inductive Wr
  | took (n : ℕ)
  | error (again : Bool)

/-- What `read` does: it returns so many bytes of those that have arrived, or as many as are asked
for, or none, or fails.  `again` is whether `errno` is `EAGAIN`, which a `read` that returns none
leaves as it is. -/
inductive Rd
  | bytes (n : ℕ)
  | zero (again : Bool)
  | error (again : Bool)

/-- The bytes that it returns, if as many are asked for. -/
def Rd.data (sock : Bytes) : Rd → Bytes
  | .bytes n => sock.take n
  | _ => []

/-- Whether `errno` is `EAGAIN` where it returns none. -/
def Rd.again : Rd → Bool
  | .bytes _ => true
  | .zero again => again
  | .error again => again

namespace Conn

/-- `connection::connection`. -/
def new : Conn :=
  ⟨false, .empty, .empty, 0, .init, .init, [], none, [], [], [], [], [], [], false⟩

/-- `connection::writepdu`. -/
def writepdu (c : Conn) (o : Wr) : Except Fault (Conn × Bool) :=
  if c.wpdu.solong < 0 then .error .verify
  else if c.wpdu.solong = c.wpdu.sz then .ok (c, true)
  else
    match c.wpdu.buf with
    | none => .error .null
    | some buf =>
      let buf := if c.wpdu.solong = 0 then sizeWord c.wpdu.sz.toNat ++ buf.drop 4 else buf
      match o with
      | .took n =>
        let bs := ((buf.drop c.wpdu.solong.toNat).take (c.wpdu.sz - c.wpdu.solong).toNat).take n
        .ok ({ c with
          wpdu := ⟨some buf, c.wpdu.sz, c.wpdu.solong + bs.length⟩, out := c.out ++ bs }, true)
      | .error true => .ok ({ c with wpdu := { c.wpdu with buf := some buf } }, true)
      | .error false => .ok ({ c with wpdu := ⟨some buf, 0, -1⟩ }, false)

/-- The end of `connection::send`. -/
def finish (c : Conn) : Conn :=
  { c with
    wpdu := .empty
    send_wait := if 0 < c.waiters then c.send_wait.broadcast else c.send_wait
    results := c.results ++ [!c.dead && c.wpdu.solong == c.wpdu.sz] }

/-- The loop of `connection::send` on `send_complete_`, once round, and what comes after it. -/
def completeLoop (c : Conn) (t : ℕ) : Conn :=
  if !c.dead && 0 ≤ c.wpdu.solong && c.wpdu.solong < c.wpdu.sz then
    { c with send_complete := c.send_complete.wait t }
  else c.finish

/-- `connection::send` after its loop on `send_wait_`. -/
def enter (c : Conn) (t : ℕ) (b : Pdu) (o : Wr) : Except Fault Conn :=
  if c.dead then .ok c
  else
    match ({ c with
      wpdu := ⟨some b.bytes, b.bytes.length, 0⟩, begun := c.begun ++ [b] }).writepdu o with
    | .error f => .error f
    | .ok (c, false) => .ok { c with dead := true, removing := c.removing ++ [t] }
    | .ok (c, true) => .ok (if c.wpdu.solong = c.wpdu.sz then c.finish else c.completeLoop t)

/-- The loop of `connection::send` on `send_wait_`, once round, and what comes after it. -/
def waitLoop (c : Conn) (t : ℕ) (b : Pdu) (o : Wr) : Except Fault Conn :=
  if !c.dead && c.wpdu.buf.isSome then .ok { c with send_wait := c.send_wait.wait (t, b) }
  else ({ c with waiters := c.waiters - 1 }).enter t b o

/-- `pthread_cond_signal(&send_complete_)`. -/
def signalComplete (c : Conn) (i : ℕ) : Option Conn :=
  (c.send_complete.signal i).map fun cond => { c with send_complete := cond }

/-- `connection::write_cb`. -/
def writeCb (c : Conn) (o : Wr) (i : ℕ) : Option (Except Fault Conn) :=
  if c.dead then some (.error .writeDead)
  else if c.wpdu.sz = 0 then some (.ok c)
  else
    match c.writepdu o with
    | .error f => some (.error f)
    | .ok (c, false) => (({ c with dead := true }).signalComplete i).map .ok
    | .ok (c, true) =>
      if c.wpdu.solong < 0 then some (.error .verify)
      else if c.wpdu.solong < c.wpdu.sz then some (.ok c)
      else (c.signalComplete i).map .ok

/-- Bytes are taken from the socket. -/
def take (c : Conn) (bs : Bytes) : Conn :=
  { c with sock := c.sock.drop bs.length, inn := c.inn ++ bs }

/-- `connection::readpdu` from where it has read the size. -/
def setSize (c : Conn) (b₃ b₂ b₁ b₀ : UInt8) : Except Fault (Conn × Bool) :=
  let sz := wordSize b₃ b₂ b₁ b₀
  if maxPdu < sz then .ok (c, false)
  else if c.rpdu.buf.isSome then .error .verify
  -- the size that `malloc` is asked for is not negative
  else if sz < -4 then .error .noMemory
  else if sz < 0 then .error .overrun
  else .ok ({ c with rpdu := ⟨some [b₃, b₂, b₁, b₀], sz, 4⟩ }, true)

/-- `connection::readpdu` where it has to read the size. -/
def readHeader (c : Conn) (o : Rd) : Except Fault (Conn × Bool) :=
  match (o.data c.sock).take 4 with
  | [] =>
    match o with
    | .zero _ => .ok (c, false)
    | .bytes _ | .error true => .error .readAgain
    | .error false => .ok (c, false)
  | [b₃, b₂, b₁, b₀] => (c.take [b₃, b₂, b₁, b₀]).setSize b₃ b₂ b₁ b₀
  | bs => .ok (c.take bs, false)

/-- The rest of `connection::readpdu`. -/
def readBody (c : Conn) (o : Rd) : Except Fault (Conn × Bool) :=
  match c.rpdu.buf with
  | none => .error .null
  | some buf =>
    -- as a `size_t`, what is left to read would be no end of bytes
    if c.rpdu.sz < c.rpdu.solong then .error .overrun
    else
      match (o.data c.sock).take (c.rpdu.sz - c.rpdu.solong).toNat with
      | [] => if o.again then .ok (c, true) else .ok ({ c with rpdu := .empty }, false)
      | bs => .ok ({ c.take bs with
        rpdu := ⟨some (buf ++ bs), c.rpdu.sz, c.rpdu.solong + bs.length⟩ }, true)

/-- `connection::readpdu`. -/
def readpdu (c : Conn) (o o' : Rd) : Except Fault (Conn × Bool) :=
  if c.rpdu.sz ≠ 0 then c.readBody o'
  else
    match c.readHeader o with
    | .ok (c, true) => c.readBody o'
    | r => r

/-- The end of `connection::read_cb`: a whole PDU is offered to the channel manager. -/
def offer (c : Conn) (accepts : Bool) : Conn :=
  match c.rpdu.buf with
  | none => c
  | some buf =>
    if c.rpdu.sz = c.rpdu.solong && accepts then { c with rpdu := .empty, got := c.got ++ [buf] }
    else c

/-- `connection::read_cb`. -/
def readCb (c : Conn) (o o' : Rd) (accepts : Bool) (i : ℕ) : Option (Except Fault Conn) :=
  if c.dead then some (.ok c)
  else
    match if c.rpdu.buf.isNone || c.rpdu.solong < c.rpdu.sz then c.readpdu o o' else .ok (c, true) with
    | .error f => some (.error f)
    | .ok (c, true) => some (.ok (c.offer accepts))
    | .ok (c, false) =>
      (({ c with dead := true }).signalComplete i).map fun c => .ok (offer c accepts)

/-- `connection::closeconn`. -/
def closeconn (c : Conn) : Conn := if c.dead then c else { c with dead := true, closed := true }

inductive Step
  | send (t : ℕ) (b : Pdu) (o : Wr)
  /-- The `j`-th of those that have been woken on `send_wait_`. -/
  | sendAgain (j : ℕ) (o : Wr)
  /-- `block_remove_fd` returns, and `send` goes on. -/
  | removed (k : ℕ)
  /-- The `j`-th of those that have been woken on `send_complete_`. -/
  | completeAgain (j : ℕ)
  | writeCb (o : Wr) (i : ℕ)
  | readCb (o o' : Rd) (accepts : Bool) (i : ℕ)
  | closeconn
  /-- Bytes come in. -/
  | arrive (bs : Bytes)
  | spuriousWait (j : ℕ)
  | spuriousComplete (j : ℕ)

def run (c : Conn) : Step → Option (Except Fault Conn)
  | .send t b o => some (({ c with waiters := c.waiters + 1 }).waitLoop t b o)
  | .sendAgain j o => (c.send_wait.resume j).map fun ((t, b), cond) =>
    ({ c with send_wait := cond }).waitLoop t b o
  | .removed k => (pick c.removing k).map fun (_, removing) =>
    .ok ({ c with removing := removing }).finish
  | .completeAgain j => (c.send_complete.resume j).map fun (t, cond) =>
    .ok (({ c with send_complete := cond }).completeLoop t)
  | .writeCb o i => c.writeCb o i
  | .readCb o o' accepts i => c.readCb o o' accepts i
  | .closeconn => some (.ok c.closeconn)
  | .arrive bs => some (.ok { c with sock := c.sock ++ bs })
  | .spuriousWait j => (c.send_wait.wake j).map fun cond => .ok { c with send_wait := cond }
  | .spuriousComplete j =>
    (c.send_complete.wake j).map fun cond => .ok { c with send_complete := cond }

/-- After a fault nothing more is done. -/
def step (c : Conn) (a : Step) : Option Conn :=
  if c.fault.isSome then none
  else
    match c.run a with
    | none => none
    | some (.error f) => some { c with fault := some f }
    | some (.ok c) => some c

end Conn

end Rpc
end CseLab
