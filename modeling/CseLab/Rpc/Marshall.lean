import CseLab.Lib.Network
import CseLab.Lib.OrdMap
import Mathlib.Algebra.Group.Int.Defs
import Mathlib.Algebra.GroupWithZero.Nat

/-!
# Marshalling

`marshall` writes integers and strings into a buffer that grows.  What an overflow of an `int` does
is not defined, so where the capacity overflows there is no result; memory is taken to suffice.

* `Marshall.rawAll_eq` — many writes at once: which bytes are where, if the capacity does not come
  to `2 ^ 31`.
-/

set_option autoImplicit false

namespace CseLab
namespace Rpc

/-- `bool`, the integers and `std::string`. -/
inductive Scalar
  | bool
  | uchar
  | char
  | ushort
  | short
  | uint
  | int
  | ulonglong
  | string
  deriving DecidableEq

namespace Scalar

/-- The values. -/
abbrev Val : Scalar → Type
  | bool => Bool
  | uchar => UInt8
  | char => Int8
  | ushort => UInt16
  | short => Int16
  | uint => UInt32
  | int => Int32
  | ulonglong => UInt64
  | string => Bytes

end Scalar

/-- `RPC_HEADER_SZ`, without checksums. -/
def rpcHeaderSz : ℕ := 24

/-- `marshall`.  What has not been written in `buf` is what the memory held. -/
structure Marshall where
  buf : ℕ → UInt8
  capa : ℕ
  ind : ℕ
  ind_le : ind ≤ capa
  capa_ge : 1024 ≤ capa
  capa_lt : capa < 2147483648

namespace Marshall

/-- A new one; `DEFAULT_RPC_SZ` is 1024. -/
def new (mem : ℕ → UInt8) : Marshall :=
  ⟨mem, 1024, rpcHeaderSz, by decide, Nat.le_refl _, by decide⟩

/-- The bytes `p` at the position, in a buffer of which the capacity is `capa`. -/
def place (m : Marshall) (p : Bytes) (capa : ℕ) (h : m.ind + p.length ≤ capa) (hge : 1024 ≤ capa)
    (hlt : capa < 2147483648) : Marshall where
  buf i := if m.ind ≤ i ∧ i < m.ind + p.length then p.getD (i - m.ind) 0 else m.buf i
  capa := capa
  ind := m.ind + p.length
  ind_le := h
  capa_ge := hge
  capa_lt := hlt

/-- `marshall::rawbyte`. -/
def rawbyte (x : UInt8) (m : Marshall) : Option Marshall :=
  have hle := m.ind_le
  have hge := m.capa_ge
  if hfull : m.capa ≤ m.ind then
    if hlt : 2 * m.capa < 2147483648 then
      some (m.place [x] (2 * m.capa) (by rw [List.length_singleton]; omega) (by omega) hlt)
    else none
  else
    some (m.place [x] m.capa (by rw [List.length_singleton]; omega) hge m.capa_lt)

/-- `marshall::rawbytes`. -/
def rawbytes (p : Bytes) (m : Marshall) : Option Marshall :=
  have hle := m.ind_le
  have hge := m.capa_ge
  if hfit : m.ind + p.length ≤ m.capa then some (m.place p m.capa hfit hge m.capa_lt)
  else
    let capa := if p.length < m.capa then 2 * m.capa else m.capa + p.length
    if hlt : capa < 2147483648 then
      some (m.place p capa (by grind) (by grind) hlt)
    else none

/-- Writes one after another. -/
def rawAll (cs : List Bytes) (m : Marshall) : Option Marshall :=
  cs.foldlM (fun m c => m.rawbytes c) m

/-- The `len` bytes from `pos` on. -/
def bytes (m : Marshall) (pos len : ℕ) : Bytes := (List.range' pos len).map m.buf

/-- What goes out: the header and all that has been written. -/
def message (m : Marshall) : Bytes := m.bytes 0 m.ind

/-- `_ind` is set; there is no result outside the buffer. -/
def seek (ind : ℕ) (m : Marshall) : Option Marshall :=
  if h : ind ≤ m.capa then some { m with ind := ind, ind_le := h } else none

end Marshall

/-! ## `operator<<` -/

def putBool (x : Bool) (m : Marshall) : Option Marshall := m.rawbyte x.toUInt8

def putUchar (x : UInt8) (m : Marshall) : Option Marshall := m.rawbyte x

def putChar (x : Int8) (m : Marshall) : Option Marshall := putUchar x.toUInt8 m

def putUshort (x : UInt16) (m : Marshall) : Option Marshall := do
  let m ← m.rawbyte ((x >>> 8) &&& 0xff).toUInt8
  m.rawbyte (x &&& 0xff).toUInt8

def putShort (x : Int16) (m : Marshall) : Option Marshall := putUshort x.toUInt16 m

def putUint (x : UInt32) (m : Marshall) : Option Marshall := do
  let m ← m.rawbyte ((x >>> 24) &&& 0xff).toUInt8
  let m ← m.rawbyte ((x >>> 16) &&& 0xff).toUInt8
  let m ← m.rawbyte ((x >>> 8) &&& 0xff).toUInt8
  m.rawbyte (x &&& 0xff).toUInt8

def putInt (x : Int32) (m : Marshall) : Option Marshall := putUint x.toUInt32 m

/-- `rawbytes` takes an `int` for the size. -/
def putString (s : Bytes) (m : Marshall) : Option Marshall := do
  let m ← putUint (UInt32.ofNat s.length) m
  let n : ℤ := (s.length : ℤ).bmod 4294967296
  if n < 0 then none else m.rawbytes (s.take n.toNat)

def putUlonglong (x : UInt64) (m : Marshall) : Option Marshall := do
  let m ← putUint (x >>> 32).toUInt32 m
  putUint x.toUInt32 m

/-- `operator<<` of each of these. -/
def Scalar.put : (s : Scalar) → s.Val → Marshall → Option Marshall
  | bool => putBool
  | uchar => putUchar
  | char => putChar
  | ushort => putUshort
  | short => putShort
  | uint => putUint
  | int => putInt
  | ulonglong => putUlonglong
  | string => putString

section

variable {α β : Type}

/-- `std::vector<C>`. -/
def putVector (put : α → Marshall → Option Marshall) (v : List α) (m : Marshall) :
    Option Marshall := do
  let m ← putUint (UInt32.ofNat v.length) m
  v.foldlM (fun m x => put x m) m

/-- `std::map<A,B>`. -/
def putMap [LinearOrder α] (putA : α → Marshall → Option Marshall)
    (putB : β → Marshall → Option Marshall) (d : OrdMap α β) (m : Marshall) : Option Marshall := do
  let m ← putUint (UInt32.ofNat d.entries.length) m
  d.entries.foldlM (fun m p => do
    let m ← putA p.1 m
    putB p.2 m) m

end

/-! ## Headers -/

/-- `req_header`. -/
structure ReqHeader where
  xid : Int32
  proc : Int32
  clt_nonce : UInt32
  srv_nonce : UInt32
  xid_rep : Int32
  deriving DecidableEq

/-- `reply_header`. -/
structure ReplyHeader where
  xid : Int32
  ret : Int32
  deriving DecidableEq

namespace Marshall

/-- `marshall::pack`; what `>>` brings in at the top of a negative `int` is masked out. -/
def pack (x : Int32) (m : Marshall) : Option Marshall := putUint x.toUInt32 m

/-- `marshall::pack_req_header`. -/
def packReqHeader (h : ReqHeader) (m : Marshall) : Option Marshall := do
  let saved_sz := m.ind
  let m ← m.seek 4
  let m ← m.pack h.xid
  let m ← m.pack h.proc
  let m ← m.pack h.clt_nonce.toInt32
  let m ← m.pack h.srv_nonce.toInt32
  let m ← m.pack h.xid_rep
  m.seek saved_sz

/-- `marshall::pack_reply_header`. -/
def packReplyHeader (h : ReplyHeader) (m : Marshall) : Option Marshall := do
  let saved_sz := m.ind
  let m ← m.seek 4
  let m ← m.pack h.xid
  let m ← m.pack h.ret
  m.seek saved_sz

end Marshall

/-! ## How the buffer grows -/

/-- The capacity after `n` bytes more than `used`. -/
def grown (capa used n : ℕ) : ℕ :=
  if used + n ≤ capa then capa else if n < capa then 2 * capa else capa + n

/-- The capacity after writes of these sizes. -/
def capacity (capa used : ℕ) : List ℕ → ℕ
  | [] => capa
  | n :: ns => capacity (grown capa used n) (used + n) ns

variable {capa used n : ℕ} {ns : List ℕ}

theorem le_grown (h : used ≤ capa) : capa ≤ grown capa used n ∧ used + n ≤ grown capa used n := by
  rw [grown]
  split
  · omega
  · split <;> omega

theorem le_capacity (ns : List ℕ) (h : used ≤ capa) :
    capa ≤ capacity capa used ns ∧ used + ns.sum ≤ capacity capa used ns := by
  induction ns generalizing capa used with
  | nil => exact ⟨Nat.le_refl _, h⟩
  | cons n ns ih =>
    obtain ⟨hcapa, hused⟩ := le_grown (n := n) h
    obtain ⟨hle, hsum⟩ := ih hused
    rw [List.sum_cons, capacity]
    omega

/-- What fits does not make it grow. -/
theorem capacity_of_fits (h : used + ns.sum ≤ capa) : capacity capa used ns = capa := by
  induction ns generalizing used with
  | nil => rfl
  | cons n ns ih =>
    rw [List.sum_cons] at h
    rw [capacity, grown, if_pos (by omega), ih (by omega)]

theorem capacity_append (ns ms : List ℕ) : capacity capa used (ns ++ ms) =
    capacity (capacity capa used ns) (used + ns.sum) ms := by
  induction ns generalizing capa used with
  | nil => rfl
  | cons n ns ih => rw [List.cons_append, capacity, capacity, ih, List.sum_cons, Nat.add_assoc]

/-- As long as there are no more than `2 ^ 30` bytes it does not come to `2 ^ 31`. -/
theorem capacity_lt (hcapa : capa < 2147483648) (hle : used + ns.sum ≤ 1073741824) :
    capacity capa used ns < 2147483648 := by
  induction ns generalizing capa used with
  | nil => exact hcapa
  | cons n ns ih =>
    rw [List.sum_cons] at hle
    refine ih ?_ (by omega)
    rw [grown]
    split
    · exact hcapa
    · split <;> omega

namespace Marshall

variable {m m' : Marshall} {p q : Bytes} {cs : List Bytes}

theorem rawbyte_eq (x : UInt8) (m : Marshall) : m.rawbyte x = m.rawbytes [x] := by
  have hle := m.ind_le
  have hge := m.capa_ge
  have hone : [x].length = 1 := rfl
  by_cases hfull : m.capa ≤ m.ind
  · have hfit : ¬ m.ind + [x].length ≤ m.capa := by omega
    have hlen : [x].length < m.capa := by omega
    simp only [rawbyte, rawbytes, hfull, hfit, hlen, dite_true, dite_false, if_true]
  · have hfit : m.ind + [x].length ≤ m.capa := by omega
    simp only [rawbyte, rawbytes, hfull, hfit, dite_true, dite_false]

/-- `m'` is `m` with the bytes `p` at its position and a capacity of `capa`. -/
structure Placed (m : Marshall) (p : Bytes) (capa : ℕ) (m' : Marshall) : Prop where
  buf : ∀ i, m'.buf i = if m.ind ≤ i ∧ i < m.ind + p.length then p.getD (i - m.ind) 0 else m.buf i
  capa : m'.capa = capa
  ind : m'.ind = m.ind + p.length

theorem rawbytes_some (h : grown m.capa m.ind p.length < 2147483648) :
    ∃ m', m.rawbytes p = some m' ∧ Placed m p (grown m.capa m.ind p.length) m' := by
  rw [rawbytes]
  rw [grown] at h ⊢
  by_cases hfit : m.ind + p.length ≤ m.capa
  · rw [dif_pos hfit, if_pos hfit]
    exact ⟨_, rfl, fun _ => rfl, rfl, rfl⟩
  · rw [if_neg hfit] at h ⊢
    rw [dif_neg hfit]
    exact ⟨_, dif_pos h, fun _ => rfl, rfl, rfl⟩

theorem rawbytes_none (h : ¬ grown m.capa m.ind p.length < 2147483648) : m.rawbytes p = none := by
  rw [grown] at h
  rw [rawbytes]
  by_cases hfit : m.ind + p.length ≤ m.capa
  · rw [if_pos hfit] at h
    exact absurd m.capa_lt h
  · rw [if_neg hfit] at h
    rw [dif_neg hfit]
    exact dif_neg h

namespace Placed

theorem refl (m : Marshall) : Placed m [] m.capa m :=
  ⟨fun i => (if_neg (by rw [List.length_nil]; omega)).symm, rfl, rfl⟩

theorem trans {capa' : ℕ} {m'' : Marshall} (h : Placed m p capa m') (h' : Placed m' q capa' m'') :
    Placed m (p ++ q) capa' m'' where
  buf i := by
    rw [h'.buf, h.buf, h.ind, List.length_append]
    grind
  capa := h'.capa
  ind := by rw [h'.ind, h.ind, List.length_append, Nat.add_assoc]

end Placed

/-- Many writes are one, if the capacity suffices. -/
theorem rawAll_some (h : capacity m.capa m.ind (cs.map List.length) < 2147483648) :
    ∃ m', m.rawAll cs = some m' ∧
      Placed m cs.flatten (capacity m.capa m.ind (cs.map List.length)) m' := by
  induction cs generalizing m with
  | nil => exact ⟨m, rfl, .refl m⟩
  | cons c cs ih =>
    rw [List.map_cons, capacity] at h ⊢
    have hgrown := (le_grown (n := c.length) m.ind_le).2
    obtain ⟨m₁, hm₁, hplaced⟩ := rawbytes_some ((le_capacity _ hgrown).1.trans_lt h)
    rw [← hplaced.capa, ← hplaced.ind] at h ⊢
    obtain ⟨m', hm', hplaced'⟩ := ih h
    refine ⟨m', ?_, hplaced.trans hplaced'⟩
    rw [rawAll, List.foldlM_cons, hm₁]
    exact hm'

theorem rawAll_none (h : ¬ capacity m.capa m.ind (cs.map List.length) < 2147483648) :
    m.rawAll cs = none := by
  induction cs generalizing m with
  | nil => exact absurd m.capa_lt h
  | cons c cs ih =>
    rw [List.map_cons, capacity] at h
    rw [rawAll, List.foldlM_cons]
    by_cases hlt : grown m.capa m.ind c.length < 2147483648
    · obtain ⟨m₁, hm₁, hplaced⟩ := rawbytes_some hlt
      rw [← hplaced.capa, ← hplaced.ind] at h
      rw [hm₁]
      exact ih h
    · rw [rawbytes_none hlt]
      rfl

@[simp] theorem rawAll_nil (m : Marshall) : m.rawAll [] = some m := rfl

theorem rawAll_append (cs ds : List Bytes) (m : Marshall) :
    m.rawAll (cs ++ ds) = (m.rawAll cs).bind fun m => m.rawAll ds := by
  rw [rawAll, List.foldlM_append]
  rfl

theorem rawAll_singleton (p : Bytes) (m : Marshall) : m.rawAll [p] = m.rawbytes p := by
  rw [rawAll, List.foldlM_cons]
  cases m.rawbytes p <;> rfl

end Marshall

/-! ## The writes that make up a value -/

/-- A byte at a time. -/
def netChunks (w : UInt32) : List Bytes := (netBytes w).map fun b => [b]

/-- The two bytes of a `short`. -/
def halfChunks (x : UInt16) : List Bytes := [[((x >>> 8) &&& 0xff).toUInt8], [(x &&& 0xff).toUInt8]]

namespace Scalar

/-- What is written, write by write. -/
def chunks : (s : Scalar) → s.Val → List Bytes
  | bool, x => [[x.toUInt8]]
  | uchar, x => [[x]]
  | char, x => [[x.toUInt8]]
  | ushort, x => halfChunks x
  | short, x => halfChunks x.toUInt16
  | uint, x => netChunks x
  | int, x => netChunks x.toUInt32
  | ulonglong, x => netChunks (x >>> 32).toUInt32 ++ netChunks x.toUInt32
  | string, s => netChunks (UInt32.ofNat s.length) ++ [s]

end Scalar

theorem putUint_eq (x : UInt32) (m : Marshall) : putUint x m = m.rawAll (netChunks x) := by
  have h24 := byte_of_shift x (i := 24) (k := 3) rfl
  have h16 := byte_of_shift x (i := 16) (k := 2) rfl
  have h8 := byte_of_shift x (i := 8) (k := 1) rfl
  simp only [putUint, h24, h16, h8, byte_of_low, Marshall.rawbyte_eq, Marshall.rawAll, netChunks,
    netBytes, List.map_cons, List.map_nil, List.foldlM_cons, List.foldlM_nil, bind_pure]

theorem putUshort_eq (x : UInt16) (m : Marshall) : putUshort x m = m.rawAll (halfChunks x) := by
  simp only [putUshort, Marshall.rawbyte_eq, Marshall.rawAll, halfChunks, List.foldlM_cons,
    List.foldlM_nil, bind_pure]

/-- Strings are as long as an `int` can say. -/
theorem putString_eq (s : Bytes) (h : s.length < 2147483648) (m : Marshall) :
    putString s m = m.rawAll (netChunks (UInt32.ofNat s.length) ++ [s]) := by
  have hn : (s.length : ℤ).bmod 4294967296 = s.length := by
    rw [Int.bmod_eq_of_le] <;> omega
  have hpos : ¬ (s.length : ℤ) < 0 := by omega
  simp only [putString, putUint_eq, hn, hpos, if_false, Int.toNat_natCast, List.take_length]
  rw [Marshall.rawAll_append]
  simp only [Marshall.rawAll_singleton]
  rfl

/-- **Marshalling a value** is writing its chunks. -/
theorem Scalar.put_eq (s : Scalar) (x : s.Val) (h : (s.chunks x).flatten.length < 2147483648)
    (m : Marshall) : s.put x m = m.rawAll (s.chunks x) := by
  cases s with
  | bool => rw [Scalar.put, chunks, Marshall.rawAll_singleton]; exact Marshall.rawbyte_eq ..
  | uchar => rw [Scalar.put, chunks, Marshall.rawAll_singleton]; exact Marshall.rawbyte_eq ..
  | char => rw [Scalar.put, chunks, Marshall.rawAll_singleton]; exact Marshall.rawbyte_eq ..
  | ushort => exact putUshort_eq x m
  | short => exact putUshort_eq x.toUInt16 m
  | uint => exact putUint_eq x m
  | int => exact putUint_eq x.toUInt32 m
  | ulonglong =>
    rw [chunks, Marshall.rawAll_append]
    simp only [Scalar.put, putUlonglong, putUint_eq]
    rfl
  | string =>
    refine putString_eq x ?_ m
    rw [chunks, List.flatten_append, List.length_append, List.flatten_singleton] at h
    omega

section

variable {α : Type} {put : α → Marshall → Option Marshall} {chunks : α → List Bytes}

/-- One element after another. -/
theorem foldlM_put {v : List α} (h : ∀ x ∈ v, ∀ m, put x m = m.rawAll (chunks x)) (m : Marshall) :
    v.foldlM (fun m x => put x m) m = m.rawAll (v.flatMap chunks) := by
  induction v generalizing m with
  | nil => rfl
  | cons x v ih =>
    rw [List.foldlM_cons, h x List.mem_cons_self, List.flatMap_cons, Marshall.rawAll_append]
    exact Option.bind_congr fun m _ => ih (fun y hy => h y (List.mem_cons_of_mem _ hy)) m

/-- The chunks of what is counted. -/
def listChunks (chunks : α → List Bytes) (v : List α) : List Bytes :=
  netChunks (UInt32.ofNat v.length) ++ v.flatMap chunks

theorem putVector_eq {v : List α} (h : ∀ x ∈ v, ∀ m, put x m = m.rawAll (chunks x))
    (m : Marshall) : putVector put v m = m.rawAll (listChunks chunks v) := by
  rw [putVector, putUint_eq, listChunks, Marshall.rawAll_append]
  exact Option.bind_congr fun m _ => foldlM_put h m

end

end Rpc
end CseLab
