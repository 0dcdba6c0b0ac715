import CseLab.Lib.Bits
import CseLab.Lib.Loop
import Mathlib.Data.Finset.Max

/-!
# The disk and the block manager

The layers below `inode_manager`: `disk` is an array of blocks, and `block_manager` keeps the sets
of the free inodes and of the free data blocks, which `load_bitmap` reads from the disk once and
nothing writes back.

Block numbers and ids are `uint32_t` in the source and natural numbers here; where the arithmetic of
the macros can leave the 32 bits it is reduced.  A block number from `BLOCK_NUM` on is outside the
array.  What memory is there is not modelled, a write to it is lost; that it happens is seen in
`accesses`, which lists every place an operation has been to.
-/

set_option autoImplicit false

namespace CseLab
namespace Inode

/-! ## Geometry -/

/-- `CEIL_DIV`. -/
def ceilDiv (a b : ℕ) : ℕ := if a = 0 then 0 else (a - 1) / b + 1

def diskSize : ℕ := 1024 * 1024 * 16
def blockSize : ℕ := 512
def blockNum : ℕ := diskSize / blockSize
def inodeNum : ℕ := 1024
def nDirect : ℕ := 100
def nIndirect : ℕ := blockSize / 4
def maxFile : ℕ := nDirect + nIndirect
def bitmapStart : ℕ := 2

/-- `sizeof(inode)`: five words and the ids of the blocks. -/
def sizeofInode : ℕ := 4 * (5 + (nDirect + 1))

def ipb : ℕ := blockSize / sizeofInode
def inodeBlockNum : ℕ := ceilDiv inodeNum ipb
def inodeBitmapByteNum : ℕ := ceilDiv inodeNum 8
def dataBlockNum : ℕ := blockNum - inodeBlockNum
def dataBitmapByteNum : ℕ := ceilDiv dataBlockNum 8
def bitmapByteNum : ℕ := dataBitmapByteNum + inodeBitmapByteNum
def bitmapBlockNum : ℕ := ceilDiv bitmapByteNum blockSize

/-- `IBLOCK`, as the `uint32_t` that `read_block` and `write_block` get. -/
def iblock (i : ℕ) : ℕ := (bitmapStart + bitmapBlockNum + i / ipb) % 2 ^ 32

/-- `BBLOCK`. -/
def bblock (i : ℕ) : ℕ := (bitmapStart + bitmapBlockNum + inodeBlockNum + i) % 2 ^ 32

/-- `(uint32_t)-1`, the id for none. -/
def noId : ℕ := 2 ^ 32 - 1

section geometry

@[simp] theorem blockSize_eq : blockSize = 512 := rfl
@[simp] theorem blockNum_eq : blockNum = 32768 := rfl
@[simp] theorem inodeNum_eq : inodeNum = 1024 := rfl
@[simp] theorem nDirect_eq : nDirect = 100 := rfl
@[simp] theorem maxFile_eq : maxFile = 228 := rfl
@[simp] theorem bitmapStart_eq : bitmapStart = 2 := rfl
@[simp] theorem ipb_eq : ipb = 1 := rfl
@[simp] theorem inodeBlockNum_eq : inodeBlockNum = 1024 := rfl
@[simp] theorem dataBlockNum_eq : dataBlockNum = 31744 := rfl
@[simp] theorem bitmapBlockNum_eq : bitmapBlockNum = 8 := rfl
@[simp] theorem noId_eq : noId = 4294967295 := rfl

theorem iblock_eq {i : ℕ} (h : i < inodeNum) : iblock i = 10 + i := by
  simp only [inodeNum_eq] at h
  simp only [iblock, bitmapStart_eq, bitmapBlockNum_eq, ipb_eq]
  omega

theorem bblock_eq {i : ℕ} (h : i < dataBlockNum) : bblock i = 1034 + i := by
  simp only [dataBlockNum_eq] at h
  simp only [bblock, bitmapStart_eq, bitmapBlockNum_eq, inodeBlockNum_eq]
  omega

end geometry

/-! ## `block_manager` -/

/-- Where an operation has been. -/
inductive Access
  /-- A block number of the disk, reached by way of the bitmap, of an inode or of data. -/
  | bitmap (block : ℕ)
  | inode (block : ℕ)
  | data (block : ℕ)
  /-- `len` bytes at `off` of a caller's buffer. -/
  | source (off len : ℤ)
  deriving DecidableEq

/-- `disk` and `block_manager`. -/
structure BlockManager where
  blocks : ℕ → Buffer
  freedData : Finset ℕ
  freedInode : Finset ℕ
  /-- For the record only. -/
  accesses : List Access

namespace BlockManager

/-- `disk::read_block`. -/
def readBlock (m : BlockManager) (id : ℕ) : Buffer :=
  if id < blockNum then m.blocks id else Buffer.zero

/-- `disk::write_block`. -/
def writeBlock (m : BlockManager) (id : ℕ) (b : Buffer) : BlockManager :=
  if id < blockNum then { m with blocks := Function.update m.blocks id b } else m

/-- An access goes on the record. -/
def touch (m : BlockManager) (a : Access) : BlockManager := { m with accesses := m.accesses ++ [a] }

def readData (m : BlockManager) (id : ℕ) : Buffer × BlockManager :=
  (m.readBlock (bblock id), m.touch (.data (bblock id)))

def writeData (m : BlockManager) (id : ℕ) (b : Buffer) : BlockManager :=
  (m.touch (.data (bblock id))).writeBlock (bblock id) b

def readInode (m : BlockManager) (id : ℕ) : Buffer × BlockManager :=
  (m.readBlock (iblock id), m.touch (.inode (iblock id)))

def writeInode (m : BlockManager) (id : ℕ) (b : Buffer) : BlockManager :=
  (m.touch (.inode (iblock id))).writeBlock (iblock id) b

/-- `alloc_block` takes the least id. -/
def allocBlock (m : BlockManager) : ℕ × BlockManager :=
  if h : m.freedData.Nonempty then
    (m.freedData.min' h, { m with freedData := m.freedData.erase (m.freedData.min' h) })
  else (noId, m)

def freeBlock (m : BlockManager) (id : ℕ) : BlockManager :=
  { m with freedData := insert id m.freedData }

def allocInode (m : BlockManager) : ℕ × BlockManager :=
  if h : m.freedInode.Nonempty then
    (m.freedInode.min' h, { m with freedInode := m.freedInode.erase (m.freedInode.min' h) })
  else (noId, m)

def freeInode (m : BlockManager) (id : ℕ) : BlockManager :=
  { m with freedInode := insert id m.freedInode }

/-! ### `load_bitmap` -/

/-- The locals of `load_bitmap`: the next id, which bitmap is being read, and whether it has
returned. -/
structure Loading where
  m : BlockManager
  K : ℕ
  imap : Bool
  returned : Bool

/-- What it makes of bit `k` of the byte `ch`. -/
def loadBit (ch : UInt8) (k : ℕ) (l : Loading) : Loading :=
  let m :=
    if ch.toNat.testBit k then l.m
    else if l.imap then { l.m with freedInode := insert l.K l.m.freedInode }
    else { l.m with freedData := insert l.K l.m.freedData }
  { l with m := m, K := l.K + 1 }

/-- What it makes of the byte `ch`. -/
def loadByte (ch : UInt8) (l : Loading) : Loading :=
  if l.returned then l
  else
    let l := loop 0 8 (loadBit ch) l
    let l := if l.K = inodeNum ∧ l.imap then { l with K := 0, imap := false } else l
    if l.K = dataBlockNum ∧ ¬ l.imap then { l with returned := true } else l

/-- What it makes of block `i` of the bitmap. -/
def loadBlock (i : ℕ) (l : Loading) : Loading :=
  if l.returned then l
  else
    loop 0 blockSize (fun j => loadByte (l.m.readBlock (bitmapStart + i) j))
      { l with m := l.m.touch (.bitmap (bitmapStart + i)) }

/-- What the loop leaves of the manager.  As a projection it would have the loop run wherever two
terms are compared. -/
def Loading.loaded (l : Loading) : BlockManager := l.m

def loadBitmap (m : BlockManager) : BlockManager :=
  (loop 0 bitmapBlockNum loadBlock ⟨m, 0, true, false⟩).loaded

/-- The constructor: a disk of zeros with inode 0 marked. -/
def new : BlockManager :=
  let m : BlockManager := ⟨fun _ => Buffer.zero, ∅, ∅, []⟩
  let tmp : Buffer := Function.update Buffer.zero 0 1
  ((m.touch (.bitmap bitmapStart)).writeBlock bitmapStart tmp).loadBitmap

/-! ### What the constructor leaves -/

/-- `l'` is what `n` bits of the byte `ch` make of `l`. -/
structure BitsLoaded (ch : UInt8) (l : Loading) (n : ℕ) (l' : Loading) : Prop where
  K : l'.K = l.K + n
  imap : l'.imap = l.imap
  returned : l'.returned = l.returned
  blocks : l'.m.blocks = l.m.blocks
  inode : ∀ x, x ∈ l'.m.freedInode ↔ x ∈ l.m.freedInode ∨
    l.imap = true ∧ ∃ k < n, x = l.K + k ∧ ch.toNat.testBit k = false
  data : ∀ x, x ∈ l'.m.freedData ↔ x ∈ l.m.freedData ∨
    l.imap = false ∧ ∃ k < n, x = l.K + k ∧ ch.toNat.testBit k = false

theorem BitsLoaded.bit {ch : UInt8} {l l' : Loading} {n : ℕ} (h : BitsLoaded ch l n l') :
    BitsLoaded ch l (n + 1) (loadBit ch n l') := by
  obtain ⟨hK, himap, hret, hblocks, hinode, hdata⟩ := h
  have hsplit : ∀ x, (∃ k < n + 1, x = l.K + k ∧ ch.toNat.testBit k = false) ↔
      x = l.K + n ∧ ch.toNat.testBit n = false ∨
        ∃ k < n, x = l.K + k ∧ ch.toNat.testBit k = false := by
    intro x
    simp only [Nat.lt_succ_iff_lt_or_eq, or_and_right, exists_or, exists_eq_left, or_comm]
  refine ⟨by rw [loadBit, hK, Nat.add_assoc], himap, hret, ?_, fun x => ?_, fun x => ?_⟩
  · simp only [loadBit]
    split
    · exact hblocks
    · split <;> exact hblocks
  · rw [hsplit, loadBit, himap]
    cases hbit : ch.toNat.testBit n with
    | true => simp [hinode]
    | false =>
      cases hm : l.imap with
      | true => simp [hinode, hm, hK, or_left_comm]
      | false => simp [hinode, hm]
  · rw [hsplit, loadBit, himap]
    cases hbit : ch.toNat.testBit n with
    | true => simp [hdata]
    | false =>
      cases hm : l.imap with
      | true => simp [hdata, hm]
      | false => simp [hdata, hm, hK, or_left_comm]

theorem bitsLoaded (ch : UInt8) (l : Loading) (n : ℕ) :
    BitsLoaded ch l n (loop 0 n (loadBit ch) l) :=
  loop_induct (Nat.zero_le n) (by constructor <;> simp) fun _ _ _ _ => .bit

/-- Bit `p` of the bitmap: the inodes' bits come first, then those of the data blocks. -/
def bitAt (m : BlockManager) (p : ℕ) : Bool :=
  (m.readBlock (bitmapStart + p / (8 * blockSize))).bit (p % (8 * blockSize))

theorem bitAt_byte {m : BlockManager} {i j k : ℕ} (hj : j < blockSize) (hk : k < 8) :
    m.bitAt (8 * (blockSize * i + j) + k) =
      (m.readBlock (bitmapStart + i) j).toNat.testBit k := by
  have hdiv : (8 * (blockSize * i + j) + k) / (8 * blockSize) = i := by
    simp only [blockSize_eq] at hj ⊢
    omega
  have hmod : (8 * (blockSize * i + j) + k) % (8 * blockSize) = 8 * j + k := by
    simp only [blockSize_eq] at hj ⊢
    omega
  have hbyte : (8 * j + k) / 8 = j := by omega
  have hbit : (8 * j + k) % 8 = k := by omega
  rw [bitAt, hdiv, hmod, Buffer.bit, hbyte, hbit]

/-- How far the bitmap, whose bits are `bits`, has been read when `n` of its bytes have been. -/
structure Loaded (blocks : ℕ → Buffer) (bits : ℕ → Bool) (n : ℕ) (l : Loading) : Prop where
  returned : l.returned = decide (n = 4096)
  imap : l.imap = decide (n < 128)
  K : l.K = if n < 128 then 8 * n else 8 * (n - 128)
  blocks : l.m.blocks = blocks
  inode : ∀ x, x ∈ l.m.freedInode ↔ (x < 8 * n ∧ x < 1024) ∧ bits x = false
  data : ∀ x, x ∈ l.m.freedData ↔ x < 8 * (n - 128) ∧ bits (1024 + x) = false

theorem Loaded.byte {blocks : ℕ → Buffer} {bits : ℕ → Bool} {n : ℕ} {l : Loading} {ch : UInt8}
    (h : Loaded blocks bits n l) (hn : n < 4096)
    (hbit : ∀ k < 8, ch.toNat.testBit k = bits (8 * n + k)) :
    Loaded blocks bits (n + 1) (loadByte ch l) := by
  obtain ⟨hret, himap, hK, hblocks, hinode, hdata⟩ := h
  obtain ⟨hK', himap', hret', hblocks', hinode', hdata'⟩ := bitsLoaded ch l 8
  have hinode₁ : ∀ x, x ∈ (loop 0 8 (loadBit ch) l).m.freedInode ↔
      (x < 8 * (n + 1) ∧ x < 1024) ∧ bits x = false := by
    intro x
    rw [hinode', hinode, himap, decide_eq_true_eq]
    constructor
    · rintro (⟨h, hclear⟩ | ⟨h, k, hk, rfl, hclear⟩)
      · exact ⟨by omega, hclear⟩
      · rw [if_pos h] at hK
        rw [hbit k hk, ← hK] at hclear
        exact ⟨by omega, hclear⟩
    · rintro ⟨⟨hx, hlt⟩, hclear⟩
      by_cases hold : x < 8 * n
      · exact .inl ⟨⟨hold, hlt⟩, hclear⟩
      · have h : n < 128 := by omega
        obtain ⟨k, rfl⟩ := Nat.exists_eq_add_of_le (not_lt.1 hold)
        rw [if_pos h] at hK
        exact .inr ⟨h, k, by omega, by rw [hK], (hbit k (by omega)).trans hclear⟩
  have hdata₁ : ∀ x, x ∈ (loop 0 8 (loadBit ch) l).m.freedData ↔
      x < 8 * (n + 1 - 128) ∧ bits (1024 + x) = false := by
    intro x
    rw [hdata', hdata, himap, decide_eq_false_iff_not]
    constructor
    · rintro (⟨h, hclear⟩ | ⟨h, k, hk, rfl, hclear⟩)
      · exact ⟨by omega, hclear⟩
      · rw [if_neg h] at hK
        have hp : 8 * n + k = 1024 + (l.K + k) := by omega
        rw [hbit k hk, hp] at hclear
        exact ⟨by omega, hclear⟩
    · rintro ⟨hx, hclear⟩
      by_cases hold : x < 8 * (n - 128)
      · exact .inl ⟨hold, hclear⟩
      · have h : ¬ n < 128 := by omega
        obtain ⟨k, rfl⟩ := Nat.exists_eq_add_of_le (not_lt.1 hold)
        rw [if_neg h] at hK
        have hp : 8 * n + k = 1024 + (8 * (n - 128) + k) := by omega
        exact .inr ⟨h, k, by omega, by rw [hK], (hbit k (by omega)).trans (hp ▸ hclear)⟩
  have hret : l.returned = false := by simp [hret, hn.ne]
  rw [loadByte, hret, if_neg Bool.false_ne_true]
  generalize loop 0 8 (loadBit ch) l = l₁ at *
  rw [himap] at himap'
  rw [hblocks] at hblocks'
  rw [hK] at hK'
  have hKlt : n < 128 → l₁.K = 8 * (n + 1) := by
    intro h
    rw [hK', if_pos h]
    omega
  have hKge : ¬ n < 128 → l₁.K = 8 * (n + 1 - 128) := by
    intro h
    rw [hK', if_neg h]
    omega
  by_cases hlast : n + 1 = 128
  · -- the last byte of the inodes' bitmap
    have hcond : l₁.K = inodeNum ∧ l₁.imap := by
      rw [hKlt (by omega), himap', inodeNum_eq, decide_eq_true_eq]
      omega
    simp only [hcond, and_self, if_true]
    rw [if_neg (by simp)]
    refine ⟨?_, ?_, ?_, hblocks', hinode₁, hdata₁⟩
    · simp only [hret', hret]
      exact (decide_eq_false (by omega)).symm
    · exact (decide_eq_false (by omega)).symm
    · simp only [hlast]
      rfl
  · have hcond : ¬ (l₁.K = inodeNum ∧ l₁.imap) := by
      rintro ⟨hKn, him⟩
      rw [himap', decide_eq_true_eq] at him
      rw [hKlt him, inodeNum_eq] at hKn
      omega
    dsimp only
    rw [if_neg hcond]
    have himap₁ : l₁.imap = decide (n + 1 < 128) := by
      rw [himap', decide_eq_decide]
      omega
    have hK₁ : l₁.K = if n + 1 < 128 then 8 * (n + 1) else 8 * (n + 1 - 128) := by
      by_cases h : n < 128
      · rw [hKlt h, if_pos (by omega)]
      · rw [hKge h, if_neg (by omega)]
    by_cases hend : n + 1 = 4096
    · rw [if_pos (by rw [hKge (by omega), himap', dataBlockNum_eq, decide_eq_true_eq]; omega)]
      exact ⟨(decide_eq_true hend).symm, himap₁, hK₁, hblocks', hinode₁, hdata₁⟩
    · have hgo : ¬ (l₁.K = dataBlockNum ∧ ¬ l₁.imap) := by
        rintro ⟨hKn, him⟩
        rw [himap', decide_eq_true_eq] at him
        rw [hKge him, dataBlockNum_eq] at hKn
        omega
      rw [if_neg hgo]
      refine ⟨?_, himap₁, hK₁, hblocks', hinode₁, hdata₁⟩
      rw [hret', hret]
      exact (decide_eq_false hend).symm

theorem Loaded.block {m : BlockManager} {i : ℕ} {l : Loading}
    (h : Loaded m.blocks m.bitAt (blockSize * i) l) (hi : i < bitmapBlockNum) :
    Loaded m.blocks m.bitAt (blockSize * (i + 1)) (loadBlock i l) := by
  have hret : l.returned = false := by
    rw [h.returned]
    simp only [bitmapBlockNum_eq] at hi
    exact decide_eq_false (by simp only [blockSize_eq]; omega)
  have hread : l.m.readBlock (bitmapStart + i) = m.readBlock (bitmapStart + i) := by
    rw [readBlock, readBlock, h.blocks]
  rw [loadBlock, hret, if_neg Bool.false_ne_true, hread, Nat.mul_succ]
  refine loop_induct (P := fun j l => Loaded m.blocks m.bitAt (blockSize * i + j) l)
    (Nat.zero_le blockSize) ⟨hret.symm.trans h.1, h.2, h.3, h.4, h.5, h.6⟩ fun j l _ hj hl => ?_
  refine hl.byte ?_ fun k hk => (bitAt_byte hj hk).symm
  simp only [blockSize_eq, bitmapBlockNum_eq] at hi hj ⊢
  omega

/-- **What `load_bitmap` finds is what the bitmap says.** -/
theorem loaded_of_empty {m : BlockManager} (hinode : m.freedInode = ∅) (hdata : m.freedData = ∅) :
    Loaded m.blocks m.bitAt (blockSize * bitmapBlockNum)
      (loop 0 bitmapBlockNum loadBlock ⟨m, 0, true, false⟩) := by
  have h0 : Loaded m.blocks m.bitAt (blockSize * 0) ⟨m, 0, true, false⟩ :=
    ⟨rfl, rfl, rfl, rfl, by simp [hinode], by simp [hdata]⟩
  exact loop_induct (P := fun i => Loaded m.blocks m.bitAt (blockSize * i))
    (Nat.zero_le bitmapBlockNum) h0 fun i l _ hi hl => hl.block hi

theorem Loaded.free {m : BlockManager} {l : Loading}
    (h : Loaded m.blocks m.bitAt (blockSize * bitmapBlockNum) l) :
    (∀ x, x ∈ l.loaded.freedInode ↔ x < inodeNum ∧ m.bitAt x = false) ∧
      (∀ x, x ∈ l.loaded.freedData ↔ x < dataBlockNum ∧ m.bitAt (inodeNum + x) = false) ∧
      l.loaded.blocks = m.blocks := by
  refine ⟨fun x => (h.inode x).trans ?_, h.data, h.blocks⟩
  simp only [blockSize_eq, bitmapBlockNum_eq, inodeNum_eq]
  exact and_congr_left fun _ => by omega

/-- A disk of zeros with inode 0 marked. -/
def emptyDisk : ℕ → Buffer :=
  Function.update (fun _ => Buffer.zero) bitmapStart (Function.update Buffer.zero 0 1)

theorem new_eq : new = loadBitmap ⟨emptyDisk, ∅, ∅, [.bitmap bitmapStart]⟩ := by
  have hwrite : ∀ (m : BlockManager) (b : Buffer), m.writeBlock bitmapStart b =
      { m with blocks := Function.update m.blocks bitmapStart b } := fun m b => by
    rw [writeBlock, if_pos (by simp)]
  exact congrArg loadBitmap (hwrite ..)

theorem bit_zero (p : ℕ) : Buffer.zero.bit p = false := Nat.zero_testBit _

theorem bit_one (p : ℕ) : Buffer.bit (Function.update Buffer.zero 0 1) p = decide (p = 0) := by
  rw [Buffer.bit, Function.update_apply]
  split
  next h =>
    rw [Bool.eq_iff_iff, decide_eq_true_eq]
    refine Nat.testBit_one_eq_true_iff_self_eq_zero.trans ?_
    omega
  next h => exact (bit_zero p).trans (decide_eq_false (by rintro rfl; exact h rfl)).symm

theorem bitAt_emptyDisk {m : BlockManager} (h : m.blocks = emptyDisk) {p : ℕ} (hp : p < 32768) :
    m.bitAt p = decide (p = 0) := by
  have hlt : bitmapStart + p / (8 * blockSize) < blockNum := by
    simp only [bitmapStart_eq, blockSize_eq, blockNum_eq]
    omega
  rw [bitAt, readBlock, if_pos hlt, h, emptyDisk, Function.update_apply]
  split
  next hblock =>
    rw [bit_one, decide_eq_decide]
    simp only [bitmapStart_eq, blockSize_eq] at hblock ⊢
    omega
  next hblock =>
    refine (bit_zero _).trans (decide_eq_false ?_).symm
    rintro rfl
    exact hblock rfl

/-- **The constructor leaves every inode but 0 free and every data block free.** -/
theorem new_spec : new.freedInode = (Finset.range inodeNum).erase 0 ∧
    new.freedData = Finset.range dataBlockNum ∧ new.blocks = emptyDisk := by
  obtain ⟨hinode, hdata, hblocks⟩ :=
    (loaded_of_empty (m := ⟨emptyDisk, ∅, ∅, [.bitmap bitmapStart]⟩) rfl rfl).free
  rw [new_eq, loadBitmap]
  refine ⟨?_, ?_, hblocks⟩
  · ext x
    rw [hinode, Finset.mem_erase, Finset.mem_range, and_comm]
    refine and_congr_left fun hx => ?_
    rw [bitAt_emptyDisk rfl (by simp at hx; omega), decide_eq_false_iff_not]
  · ext x
    rw [hdata, Finset.mem_range]
    refine and_iff_left_of_imp fun hx => ?_
    rw [bitAt_emptyDisk rfl (by simp at hx ⊢; omega), decide_eq_false_iff_not]
    simp

end BlockManager

end Inode
end CseLab
