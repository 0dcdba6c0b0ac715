import CseLab.Inode.Layout
import Mathlib.Algebra.Group.Int.Defs

/-!
# The bitmap that is kept up to date

`block_manager` of lab 2, on the same disk as that of `CseLab.Inode`: it has the same sets of free
inodes and blocks, and `load_bitmap` finds them in the same way, but every change goes to the bitmap
on the disk too.  `save_bitmap` adds a power of two to a `char`, or subtracts it.

* `bitAt_saveBitmap` — the one bit it changes, if that was the other way before.
* `bitmap_matches` — as long as only what was allocated is freed, the bitmap says what the sets say,
  no call changes a bit that is not its own, and nothing else on the disk is written.
-/

set_option autoImplicit false

namespace CseLab
namespace Lab2

open Inode
open Inode.BlockManager (Loading loadBlock)

/-! ## `block_manager` -/

/-- A `uint32_t` where the source has an `int`. -/
def asInt (id : ℕ) : ℤ := if id < 2 ^ 31 then id else (id : ℤ) - 2 ^ 32

/-- `save_bitmap`.  A `char` wraps around; an `id` below zero, whose shift C++ does not define,
leaves the byte alone, and so does an index below zero. -/
def saveBitmap (m : BlockManager) (is_inode : Bool) (id : ℤ) (status : Bool) : BlockManager :=
  let byteI : ℤ := id.tdiv 8 + if is_inode then 0 else inodeBitmapByteNum
  let bitmap_blockid := ((bitmapStart + byteI.tdiv blockSize) % 2 ^ 32).toNat
  let buf := m.readBlock bitmap_blockid
  let bufI := byteI.tmod blockSize
  let change := UInt8.ofNat (2 ^ (id.tmod 8).toNat)
  let buf :=
    if id < 0 ∨ bufI < 0 then buf
    else if id = 0 ∧ is_inode then Function.update buf bufI.toNat 1
    else if status then Function.update buf bufI.toNat (buf bufI.toNat + change)
    else Function.update buf bufI.toNat (buf bufI.toNat - change)
  (m.touch (.bitmap bitmap_blockid)).writeBlock bitmap_blockid buf

/-- `alloc_block` takes the least id; there is none in an empty set. -/
def allocBlock (m : BlockManager) : Option (ℕ × BlockManager) :=
  if h : m.freedData.Nonempty then
    let id := m.freedData.min' h
    some (id, saveBitmap { m with freedData := m.freedData.erase id } false (asInt id) true)
  else none

def freeBlock (m : BlockManager) (id : ℕ) : BlockManager :=
  saveBitmap { m with freedData := insert id m.freedData } false (asInt id) false

def allocInode (m : BlockManager) : Option (ℕ × BlockManager) :=
  if h : m.freedInode.Nonempty then
    let id := m.freedInode.min' h
    some (id, saveBitmap { m with freedInode := m.freedInode.erase id } true (asInt id) true)
  else none

def freeInode (m : BlockManager) (id : ℕ) : BlockManager :=
  saveBitmap { m with freedInode := insert id m.freedInode } true (asInt id) false

/-- What `load_bitmap` does before it returns. -/
def finish (l : Loading) : BlockManager :=
  if l.returned then
    saveBitmap { l.loaded with freedInode := l.loaded.freedInode.erase 0 } true 0 false
  else l.loaded

/-- `load_bitmap`; up to its return its loops are those of the other lab. -/
def loadBitmap (m : BlockManager) : BlockManager :=
  finish (loop 0 bitmapBlockNum loadBlock ⟨m, 0, true, false⟩)

/-- The constructor, on a disk of zeros. -/
def new : BlockManager := loadBitmap ⟨fun _ => Buffer.zero, ∅, ∅, []⟩

/-! ## One bit -/

variable {m m' : BlockManager} {is_inode status : Bool} {id p q : ℕ}

/-- The place of an id in the bitmap. -/
def bitOf (is_inode : Bool) (id : ℕ) : ℕ := if is_inode then id else inodeNum + id

theorem saveBitmap_eq (hid : id < 2 ^ 31)
    (h0 : ¬ (id = 0 ∧ is_inode)) : saveBitmap m is_inode id status =
      let p := bitOf is_inode id
      let a := bitmapStart + p / (8 * blockSize)
      let b := m.readBlock a
      (m.touch (.bitmap a)).writeBlock a
        (if status then b.addBit (p % (8 * blockSize)) else b.subBit (p % (8 * blockSize))) := by
  have hof : bitOf is_inode id = id + 8 * (if is_inode then 0 else inodeBitmapByteNum) := by
    cases is_inode
    · exact Nat.add_comm ..
    · rfl
  have hle : (if is_inode then 0 else inodeBitmapByteNum) ≤ 128 := by
    cases is_inode <;> decide
  have h0' : ¬ ((id : ℤ) = 0 ∧ is_inode) := fun h => h0 ⟨by exact_mod_cast h.1, h.2⟩
  simp only [saveBitmap]
  generalize (if is_inode then 0 else inodeBitmapByteNum) = first at hof hle ⊢
  have hbyte : (id : ℤ).tdiv 8 + (first : ℤ) = ((bitOf is_inode id / 8 : ℕ) : ℤ) := by
    rw [Int.natCast_tdiv_eq_ediv, hof]
    omega
  have hshift : ((id : ℤ).tmod 8).toNat = bitOf is_inode id % 8 := by
    rw [Int.tmod_eq_emod_of_nonneg (by omega), hof]
    omega
  have hp : bitOf is_inode id < 2 ^ 32 := by omega
  rw [hbyte, hshift]
  generalize bitOf is_inode id = p at *
  have hblock : ((bitmapStart + ((p / 8 : ℕ) : ℤ).tdiv blockSize) % 2 ^ 32).toNat =
      bitmapStart + p / (8 * blockSize) := by
    rw [Int.natCast_tdiv_eq_ediv]
    simp only [bitmapStart_eq, blockSize_eq]
    omega
  have hidx : (((p / 8 : ℕ) : ℤ).tmod blockSize) = ((p % (8 * blockSize) / 8 : ℕ) : ℤ) := by
    rw [Int.tmod_eq_emod_of_nonneg (by omega)]
    simp only [blockSize_eq]
    omega
  have hbit : p % (8 * blockSize) % 8 = p % 8 := by
    simp only [blockSize_eq]
    omega
  rw [hblock, hidx, Int.toNat_natCast, if_neg (by omega), if_neg h0', ← hbit]
  cases status <;> rfl

/-- How many ids there are. -/
def idNum (is_inode : Bool) : ℕ := if is_inode then inodeNum else dataBlockNum

/-- The set of the free ones. -/
def freed (m : BlockManager) (is_inode : Bool) : Finset ℕ :=
  if is_inode then m.freedInode else m.freedData

theorem bitOf_lt (hid : id < idNum is_inode) : bitOf is_inode id < 32768 := by
  cases is_inode
  · simp only [bitOf, idNum, Bool.false_eq_true, if_false, inodeNum_eq, dataBlockNum_eq] at hid ⊢
    omega
  · simp only [bitOf, idNum, if_true, inodeNum_eq] at hid ⊢
    omega

theorem lt_two_pow (hid : id < idNum is_inode) : id < 2 ^ 31 := by
  cases is_inode <;> simp [idNum] at hid <;> omega

theorem asInt_eq (hid : id < idNum is_inode) : asInt id = id := if_pos (lt_two_pow hid)

theorem bitOf_inj {k : Bool} {j : ℕ} (hid : id < idNum is_inode) (hj : j < idNum k) :
    bitOf k j = bitOf is_inode id ↔ k = is_inode ∧ j = id := by
  cases is_inode <;> cases k <;>
    simp only [bitOf, idNum, Bool.false_eq_true, if_false, if_true, inodeNum_eq,
      dataBlockNum_eq] at hid hj ⊢ <;> simp <;> omega

@[simp] theorem saveBitmap_freedData (m : BlockManager) (is_inode : Bool) (id : ℤ) (status : Bool) :
    (saveBitmap m is_inode id status).freedData = m.freedData :=
  BlockManager.writeBlock_freedData ..

@[simp] theorem saveBitmap_freedInode (m : BlockManager) (is_inode : Bool) (id : ℤ)
    (status : Bool) : (saveBitmap m is_inode id status).freedInode = m.freedInode :=
  BlockManager.writeBlock_freedInode ..

theorem freed_saveBitmap (m : BlockManager) (is_inode : Bool) (id : ℤ) (status : Bool) (k : Bool) :
    freed (saveBitmap m is_inode id status) k = freed m k := by
  cases k
  · exact saveBitmap_freedData ..
  · exact saveBitmap_freedInode ..

/-- Only bit `p` of the bitmap may have changed, and of the rest of the disk nothing. -/
structure OnlyBit (m : BlockManager) (p : ℕ) (m' : BlockManager) : Prop where
  bits : ∀ q ≠ p, m'.bitAt q = m.bitAt q
  blocks : ∀ a, ¬ (Access.bitmap a).Proper → m'.blocks a = m.blocks a
  accesses : ∃ a, (Access.bitmap a).Proper ∧ m'.accesses = m.accesses ++ [.bitmap a]

/-- **`save_bitmap` changes one bit**, if that is not what it ought to be yet. -/
theorem saveBitmap_spec (hid : id < idNum is_inode) (h0 : ¬ (id = 0 ∧ is_inode))
    (hbit : m.bitAt (bitOf is_inode id) = !status) :
    (saveBitmap m is_inode id status).bitAt (bitOf is_inode id) = status ∧
      OnlyBit m (bitOf is_inode id) (saveBitmap m is_inode id status) := by
  have hlt := bitOf_lt hid
  rw [saveBitmap_eq (lt_two_pow hid) h0]
  generalize bitOf is_inode id = p at *
  dsimp only
  have hproper : (Access.bitmap (bitmapStart + p / (8 * blockSize))).Proper := by
    simp only [Access.Proper, bitmapStart_eq, bitmapBlockNum_eq, blockSize_eq]
    omega
  have hdisk : bitmapStart + p / (8 * blockSize) < blockNum := by
    simp only [bitmapStart_eq, blockSize_eq, blockNum_eq]
    omega
  generalize hb : (if status then _ else _ : Buffer) = b
  have hnew : ∀ r, b.bit r = if r = p % (8 * blockSize) then status
      else (m.readBlock (bitmapStart + p / (8 * blockSize))).bit r := by
    intro r
    rw [← hb]
    cases status with
    | true => rw [if_pos rfl, Buffer.bit_addBit hbit]; split <;> simp_all
    | false => rw [if_neg (by simp), Buffer.bit_subBit hbit]; split <;> simp_all
  have hbits : ∀ q, ((m.touch (.bitmap (bitmapStart + p / (8 * blockSize)))).writeBlock
      (bitmapStart + p / (8 * blockSize)) b).bitAt q = if q = p then status else m.bitAt q := by
    intro q
    rw [BlockManager.bitAt, BlockManager.readBlock_writeBlock hdisk]
    split
    next hq =>
      rw [hnew]
      split
      next hr => rw [if_pos (by simp only [blockSize_eq] at hq hr; omega)]
      next hr =>
        rw [if_neg (by rintro rfl; exact hr rfl), ← hq]
        rfl
    next hq =>
      rw [if_neg (by rintro rfl; exact hq rfl)]
      rfl
  refine ⟨by rw [hbits, if_pos rfl], fun q hq => by rw [hbits, if_neg hq], fun a ha => ?_,
    _, hproper, BlockManager.writeBlock_accesses ..⟩
  rw [BlockManager.writeBlock, if_pos hdisk]
  exact Function.update_of_ne (by rintro rfl; exact ha hproper) ..

/-- The inodes and the data blocks are not touched. -/
theorem saveBitmap_keeps (hid : id < idNum is_inode) (h0 : ¬ (id = 0 ∧ is_inode)) :
    m.Keeps (saveBitmap m is_inode (asInt id) status) := by
  have hlt := bitOf_lt hid
  rw [asInt_eq hid, saveBitmap_eq (lt_two_pow hid) h0]
  generalize bitOf is_inode id = p at *
  dsimp only
  have ha : (Access.bitmap (bitmapStart + p / (8 * blockSize))).Proper := by
    simp only [Access.Proper, bitmapStart_eq, bitmapBlockNum_eq, blockSize_eq]
    omega
  generalize bitmapStart + p / (8 * blockSize) = a at *
  have hlo := ha.1
  have hhi := ha.2
  simp only [bitmapStart_eq, bitmapBlockNum_eq] at hlo hhi
  have hread : ∀ b buf, a ≠ b →
      ((m.touch (.bitmap a)).writeBlock a buf).readBlock b = m.readBlock b := by
    intro b buf hb
    rw [BlockManager.readBlock_writeBlock (by simp; omega), if_neg hb.symm]
    rfl
  refine ⟨fun x hx => hread _ _ ?_, fun j hj => hread _ _ ?_, BlockManager.writeBlock_freedInode ..,
    (BlockManager.OnTrack.touch ha).trans (.of_eq (BlockManager.writeBlock_accesses ..))⟩
  · rw [bblock_eq hx]
    omega
  · rw [iblock_eq hj]
    omega

/-! ## The bitmap and the sets -/

/-- The bit of an id is set exactly if the id is not free. -/
def Matches (m : BlockManager) : Prop :=
  ∀ k, ∀ j < idNum k, m.bitAt (bitOf k j) = true ↔ j ∉ freed m k

theorem Matches.save {m₀ : BlockManager} (h : Matches m₀) (hid : id < idNum is_inode)
    (h0 : ¬ (id = 0 ∧ is_inode)) (hblocks : m.blocks = m₀.blocks)
    (hbit : m₀.bitAt (bitOf is_inode id) = !status)
    (hfreed : ∀ k j, j ∈ freed m k ↔
      if k = is_inode ∧ j = id then status = false else j ∈ freed m₀ k) :
    Matches (saveBitmap m is_inode id status) := by
  have hsame : ∀ q, m.bitAt q = m₀.bitAt q := fun q => by
    rw [BlockManager.bitAt, BlockManager.readBlock, hblocks]
    rfl
  obtain ⟨hself, hother⟩ := saveBitmap_spec hid h0 ((hsame _).trans hbit)
  intro k j hj
  rw [freed_saveBitmap, hfreed]
  by_cases hkj : k = is_inode ∧ j = id
  · obtain ⟨rfl, rfl⟩ := hkj
    rw [hself, if_pos ⟨rfl, rfl⟩, Bool.not_eq_false]
  · rw [if_neg hkj, hother.bits _ (mt (bitOf_inj hid hj).1 hkj), hsame]
    exact h k j hj

/-! ### The calls -/

/-- The manager with another set of free ids. -/
def setFreed (m : BlockManager) (is_inode : Bool) (ids : Finset ℕ) : BlockManager :=
  if is_inode then { m with freedInode := ids } else { m with freedData := ids }

@[simp] theorem setFreed_blocks (m : BlockManager) (is_inode : Bool) (ids : Finset ℕ) :
    (setFreed m is_inode ids).blocks = m.blocks := by
  cases is_inode <;> rfl

@[simp] theorem setFreed_accesses (m : BlockManager) (is_inode : Bool) (ids : Finset ℕ) :
    (setFreed m is_inode ids).accesses = m.accesses := by
  cases is_inode <;> rfl

theorem freed_setFreed (m : BlockManager) (is_inode : Bool) (ids : Finset ℕ) (k : Bool) :
    freed (setFreed m is_inode ids) k = Function.update (freed m) is_inode ids k := by
  cases is_inode <;> cases k <;> rfl

theorem mem_update_insert {f : Bool → Finset ℕ} {k : Bool} {j : ℕ} :
    j ∈ Function.update f is_inode (insert id (f is_inode)) k ↔
      if k = is_inode ∧ j = id then True else j ∈ f k := by
  rw [Function.update_apply]
  by_cases hk : k = is_inode
  · subst hk
    by_cases hj : j = id <;> simp [hj]
  · simp [hk]

theorem mem_update_erase {f : Bool → Finset ℕ} {k : Bool} {j : ℕ} :
    j ∈ Function.update f is_inode ((f is_inode).erase id) k ↔
      if k = is_inode ∧ j = id then False else j ∈ f k := by
  rw [Function.update_apply]
  by_cases hk : k = is_inode
  · subst hk
    by_cases hj : j = id <;> simp [hj]
  · simp [hk]

theorem allocBlock_some {r : ℕ × BlockManager} (h : allocBlock m = some r) :
    ∃ hne : (freed m false).Nonempty, r = ((freed m false).min' hne,
      saveBitmap (setFreed m false ((freed m false).erase ((freed m false).min' hne))) false
        (asInt ((freed m false).min' hne)) true) := by
  rw [allocBlock] at h
  split at h
  next hne => exact ⟨hne, (Option.some_inj.1 h).symm⟩
  next => cases h

theorem allocInode_some {r : ℕ × BlockManager} (h : allocInode m = some r) :
    ∃ hne : (freed m true).Nonempty, r = ((freed m true).min' hne,
      saveBitmap (setFreed m true ((freed m true).erase ((freed m true).min' hne))) true
        (asInt ((freed m true).min' hne)) true) := by
  rw [allocInode] at h
  split at h
  next hne => exact ⟨hne, (Option.some_inj.1 h).symm⟩
  next => cases h

/-! ### What the constructor leaves -/

theorem saveBitmap_zero (m : BlockManager) (status : Bool) : saveBitmap m true 0 status =
    (m.touch (.bitmap bitmapStart)).writeBlock bitmapStart
      (Function.update (m.readBlock bitmapStart) 0 1) :=
  rfl

/-- What has been read of a disk of zeros. -/
theorem finish_spec {m : BlockManager} {l : Loading} (hblocks : m.blocks = fun _ => Buffer.zero)
    (h : BlockManager.Loaded m.blocks m.bitAt (blockSize * bitmapBlockNum) l) :
    (finish l).freedInode = (Finset.range inodeNum).erase 0 ∧
      (finish l).freedData = Finset.range dataBlockNum ∧
      (finish l).blocks = BlockManager.emptyDisk := by
  have hzero : ∀ p, m.bitAt p = false := by
    intro p
    rw [BlockManager.bitAt, BlockManager.readBlock, hblocks]
    split <;> exact BlockManager.bit_zero _
  have hreturned : l.returned = true := h.returned
  obtain ⟨hinode, hdata, hsame⟩ := h.free
  rw [finish, if_pos hreturned, saveBitmap_zero, BlockManager.writeBlock_freedInode,
    BlockManager.writeBlock_freedData]
  refine ⟨?_, ?_, ?_⟩
  · ext x
    simp [BlockManager.touch, hinode, hzero]
  · ext x
    simp [BlockManager.touch, hdata, hzero]
  · rw [BlockManager.writeBlock, if_pos (by simp), BlockManager.readBlock, if_pos (by simp)]
    simp only [BlockManager.touch, hsame, hblocks, BlockManager.emptyDisk]

/-- **The constructor leaves every inode but 0 free and every data block free**, and marks
inode 0. -/
theorem new_spec : new.freedInode = (Finset.range inodeNum).erase 0 ∧
    new.freedData = Finset.range dataBlockNum ∧ new.blocks = BlockManager.emptyDisk :=
  finish_spec rfl (BlockManager.loaded_of_empty (m := ⟨fun _ => Buffer.zero, ∅, ∅, []⟩) rfl rfl)

theorem matches_new : Matches new := by
  obtain ⟨hinode, hdata, hblocks⟩ := new_spec
  intro k j hj
  rw [BlockManager.bitAt_emptyDisk hblocks (bitOf_lt hj), decide_eq_true_eq]
  cases k
  · simp only [bitOf, freed, idNum, Bool.false_eq_true, if_false, hdata, Finset.mem_range] at hj ⊢
    exact iff_of_false (by simp) (not_not.2 hj)
  · simp only [bitOf, freed, idNum, if_true, hinode, Finset.mem_erase, Finset.mem_range] at hj ⊢
    simp only [hj, and_true, ne_eq, not_not]

/-! ## Any sequence of calls -/

/-- The manager, and what has been allocated and not been freed. -/
structure Books where
  m : BlockManager
  out : Bool → Finset ℕ

/-- A call. -/
inductive Op
  | allocBlock
  | freeBlock (id : ℕ)
  | allocInode
  | freeInode (id : ℕ)

namespace Books

def start : Books := ⟨new, fun _ => ∅⟩

/-- An id is handed out. -/
def give (s : Books) (is_inode : Bool) (r : ℕ × BlockManager) : Books :=
  ⟨r.2, Function.update s.out is_inode (insert r.1 (s.out is_inode))⟩

/-- An id is taken back. -/
def take (s : Books) (is_inode : Bool) (id : ℕ) (m : BlockManager) : Books :=
  ⟨m, Function.update s.out is_inode ((s.out is_inode).erase id)⟩

/-- No call allocates from an empty set. -/
def step (s : Books) : Op → Option Books
  | .allocBlock => (allocBlock s.m).map (s.give false)
  | .freeBlock id => some (s.take false id (freeBlock s.m id))
  | .allocInode => (allocInode s.m).map (s.give true)
  | .freeInode id => some (s.take true id (freeInode s.m id))

/-- Only what is allocated is freed. -/
def OnlyAllocated (s : Books) : Op → Prop
  | .freeBlock id => id ∈ s.out false
  | .freeInode id => id ∈ s.out true
  | _ => True

/-- The bit of the id a call is about. -/
def bitAbout (s : Books) : Op → Option ℕ
  | .allocBlock => (allocBlock s.m).map fun r => bitOf false r.1
  | .freeBlock id => some (bitOf false id)
  | .allocInode => (allocInode s.m).map fun r => bitOf true r.1
  | .freeInode id => some (bitOf true id)

/-! ### What a call does -/

/-- One call: `id` goes out if `status`, and else it comes back. -/
structure Moved (s : Books) (is_inode : Bool) (id : ℕ) (status : Bool) (s' : Books) : Prop where
  lt : id < idNum is_inode
  nonzero : ¬ (id = 0 ∧ is_inode)
  was : id ∈ freed s.m is_inode ↔ status = true
  m : ∃ m : BlockManager, s'.m = saveBitmap m is_inode id status ∧ m.blocks = s.m.blocks ∧
    m.accesses = s.m.accesses ∧ ∀ k j, j ∈ freed m k ↔
      if k = is_inode ∧ j = id then status = false else j ∈ freed s.m k
  out : ∀ k j, j ∈ s'.out k ↔ if k = is_inode ∧ j = id then status = true else j ∈ s.out k

/-- What holds between two calls. -/
structure Inv (s : Books) : Prop where
  bits : Matches s.m
  free : ∀ k, ∀ j ∈ freed s.m k, j < idNum k ∧ ¬ (j = 0 ∧ k)
  out : ∀ k, ∀ j ∈ s.out k, j < idNum k ∧ ¬ (j = 0 ∧ k) ∧ j ∉ freed s.m k

variable {s s' : Books} {op : Op} {ops : List Op}

theorem Moved.mem_freed (hm : s.Moved is_inode id status s') (k : Bool) (j : ℕ) :
    j ∈ freed s'.m k ↔ if k = is_inode ∧ j = id then status = false else j ∈ freed s.m k := by
  obtain ⟨m, heq, -, -, hfreed⟩ := hm.m
  rw [heq, freed_saveBitmap]
  exact hfreed k j

theorem Inv.moved (h : s.Inv) (hm : s.Moved is_inode id status s') :
    s'.Inv ∧ OnlyBit s.m (bitOf is_inode id) s'.m := by
  have hset := hm.mem_freed
  obtain ⟨hlt, h0, hwas, ⟨m, heq, hblocks, hacc, hfreed⟩, hout⟩ := hm
  have hbit : s.m.bitAt (bitOf is_inode id) = !status := by
    have hmatch := h.bits is_inode id hlt
    rw [hwas] at hmatch
    cases status <;> simpa using hmatch
  have hsame : ∀ q, m.bitAt q = s.m.bitAt q := fun q => by
    rw [BlockManager.bitAt, BlockManager.readBlock, hblocks]
    rfl
  obtain ⟨-, hbits, hrest, a, ha, haccess⟩ := saveBitmap_spec hlt h0 ((hsame _).trans hbit)
  refine ⟨⟨heq ▸ h.bits.save hlt h0 hblocks hbit hfreed, fun k j hj => ?_, fun k j hj => ?_⟩, ?_⟩
  · rw [hset] at hj
    split at hj
    next hkj =>
      obtain ⟨rfl, rfl⟩ := hkj
      exact ⟨hlt, h0⟩
    next => exact h.free k j hj
  · rw [hout] at hj
    rw [hset]
    split at hj
    next hkj =>
      obtain ⟨rfl, rfl⟩ := hkj
      rw [if_pos ⟨rfl, rfl⟩, hj]
      exact ⟨hlt, h0, by simp⟩
    next hkj =>
      rw [if_neg hkj]
      exact h.out k j hj
  · rw [heq]
    exact ⟨fun q hq => (hbits q hq).trans (hsame q), fun b hb => (hrest b hb).trans
      (congrFun hblocks b), a, ha, haccess.trans (congrArg (· ++ _) hacc)⟩

/-- An id that was free is handed out. -/
theorem Inv.give (h : s.Inv) (hid : id ∈ freed s.m is_inode) : s.Moved is_inode id true
    (s.give is_inode (id, saveBitmap (setFreed s.m is_inode ((freed s.m is_inode).erase id))
      is_inode (asInt id) true)) := by
  obtain ⟨hlt, h0⟩ := h.free is_inode id hid
  refine ⟨hlt, h0, iff_of_true hid rfl, ⟨_, by rw [Books.give, asInt_eq hlt],
    setFreed_blocks .., setFreed_accesses .., fun k j => ?_⟩, fun k j => ?_⟩
  · rw [freed_setFreed, mem_update_erase]
    simp
  · exact mem_update_insert.trans (by simp)

/-- An id that was handed out is taken back. -/
theorem Inv.take (h : s.Inv) (hid : id ∈ s.out is_inode) : s.Moved is_inode id false
    (s.take is_inode id (saveBitmap (setFreed s.m is_inode (insert id (freed s.m is_inode)))
      is_inode (asInt id) false)) := by
  obtain ⟨hlt, h0, hnot⟩ := h.out is_inode id hid
  refine ⟨hlt, h0, iff_of_false hnot (by simp), ⟨_, by rw [Books.take, asInt_eq hlt],
    setFreed_blocks .., setFreed_accesses .., fun k j => ?_⟩, fun k j => ?_⟩
  · rw [freed_setFreed, mem_update_insert]
    simp
  · exact mem_update_erase.trans (by simp)

/-- Every call moves one id. -/
theorem Inv.step_moved (h : s.Inv) (hok : s.OnlyAllocated op) (hs : s.step op = some s') :
    ∃ is_inode id status, s.bitAbout op = some (bitOf is_inode id) ∧
      s.Moved is_inode id status s' := by
  cases op with
  | allocBlock =>
    obtain ⟨r, hr, rfl⟩ := Option.map_eq_some_iff.1 hs
    rw [bitAbout, hr]
    obtain ⟨hne, rfl⟩ := allocBlock_some hr
    exact ⟨_, _, _, rfl, h.give (Finset.min'_mem _ hne)⟩
  | freeBlock id =>
    obtain rfl := Option.some_inj.1 hs
    exact ⟨_, _, _, rfl, h.take hok⟩
  | allocInode =>
    obtain ⟨r, hr, rfl⟩ := Option.map_eq_some_iff.1 hs
    rw [bitAbout, hr]
    obtain ⟨hne, rfl⟩ := allocInode_some hr
    exact ⟨true, _, true, rfl, h.give (Finset.min'_mem _ hne)⟩
  | freeInode id =>
    obtain rfl := Option.some_inj.1 hs
    exact ⟨true, _, false, rfl, h.take hok⟩

theorem Inv.start : start.Inv := by
  obtain ⟨hinode, hdata, -⟩ := new_spec
  refine ⟨matches_new, fun k j hj => ?_, fun k j hj => absurd hj (Finset.notMem_empty j)⟩
  cases k
  · rw [Books.start, freed, if_neg (by simp), hdata, Finset.mem_range] at hj
    exact ⟨hj, by simp⟩
  · rw [Books.start, freed, if_pos rfl, hinode, Finset.mem_erase, Finset.mem_range] at hj
    exact ⟨hj.2, fun h => hj.1 h.1⟩

theorem Inv.of_run (h : Run Books.step OnlyAllocated Books.start ops s) : s.Inv :=
  h.invariant Inv.start fun _ _ _ hinv hok hs => by
    obtain ⟨k, id, status, -, hm⟩ := hinv.step_moved hok hs
    exact (hinv.moved hm).1

/-- **The bitmap on the disk says what the sets say**, whatever is allocated and freed, as long as
only what is allocated is freed; and a call changes its own bit at most, and writes to no other
block. -/
theorem bitmap_matches (h : Run step OnlyAllocated start ops s) :
    (∀ i < inodeNum, s.m.bitAt (bitOf true i) = true ↔ i ∉ s.m.freedInode) ∧
    (∀ b < dataBlockNum, s.m.bitAt (bitOf false b) = true ↔ b ∉ s.m.freedData) ∧
    ∀ op s', s.OnlyAllocated op → s.step op = some s' →
      ∃ p, s.bitAbout op = some p ∧ OnlyBit s.m p s'.m := by
  have hinv := Inv.of_run h
  refine ⟨hinv.bits true, hinv.bits false, fun op s' hok hs => ?_⟩
  obtain ⟨k, id, status, habout, hm⟩ := hinv.step_moved hok hs
  exact ⟨_, habout, (hinv.moved hm).2⟩

/-- The least of those that are free goes out. -/
theorem exists_alloc (h : s.Inv) (hid : id ∈ freed s.m is_inode)
    (hleast : ∀ j ∈ freed s.m is_inode, id ≤ j) :
    ∃ s', s.step (if is_inode then .allocInode else .allocBlock) = some s' ∧
      s.Moved is_inode id true s' := by
  have hmin : (freed s.m is_inode).min' ⟨id, hid⟩ = id :=
    le_antisymm (Finset.min'_le _ _ hid) (hleast _ (Finset.min'_mem _ _))
  refine ⟨_, ?_, h.give hid⟩
  cases is_inode with
  | false =>
    have halloc : allocBlock s.m = some (id, saveBitmap
        { s.m with freedData := s.m.freedData.erase id } false (asInt id) true) := by
      rw [allocBlock, dif_pos ⟨id, hid⟩, show s.m.freedData.min' ⟨id, hid⟩ = id from hmin]
    exact congrArg (Option.map _) halloc
  | true =>
    have halloc : allocInode s.m = some (id, saveBitmap
        { s.m with freedInode := s.m.freedInode.erase id } true (asInt id) true) := by
      rw [allocInode, dif_pos ⟨id, hid⟩, show s.m.freedInode.min' ⟨id, hid⟩ = id from hmin]
    exact congrArg (Option.map _) halloc

/-- Two blocks and an inode are allocated, and the first block is freed. -/
theorem bitmap_matches_some : ∃ s,
    Run step OnlyAllocated start [.allocBlock, .allocInode, .allocBlock, .freeBlock 0] s ∧
      s.m.bitAt (bitOf false 0) = false ∧ s.m.bitAt (bitOf false 1) = true ∧
      s.m.bitAt (bitOf true 1) = true ∧ s.m.bitAt (bitOf true 2) = false := by
  obtain ⟨hinode, hdata, -⟩ := new_spec
  have hfreed₀ : ∀ k j, j ∈ freed start.m k ↔ j < idNum k ∧ ¬ (j = 0 ∧ k) := by
    intro k j
    cases k <;> simp [Books.start, freed, hinode, hdata, idNum, and_comm]
  obtain ⟨s₁, hs₁, hm₁⟩ := exists_alloc Inv.start
    ((hfreed₀ false 0).2 (by decide)) fun j _ => Nat.zero_le j
  have hinv₁ := (Inv.start.moved hm₁).1
  obtain ⟨s₂, hs₂, hm₂⟩ := exists_alloc hinv₁
    ((hm₁.mem_freed true 1).2 ((hfreed₀ true 1).2 (by decide))) fun j hj => by
      have hj := (hfreed₀ true j).1 ((hm₁.mem_freed true j).1 hj)
      exact Nat.pos_of_ne_zero fun h0 => hj.2 ⟨h0, rfl⟩
  have hinv₂ := (hinv₁.moved hm₂).1
  obtain ⟨s₃, hs₃, hm₃⟩ := exists_alloc hinv₂
    ((hm₂.mem_freed false 1).2 ((hm₁.mem_freed false 1).2 ((hfreed₀ false 1).2 (by decide))))
    fun j hj => by
      have hj := (hm₁.mem_freed false j).1 ((hm₂.mem_freed false j).1 hj)
      refine Nat.pos_of_ne_zero fun h0 => ?_
      rw [if_pos ⟨rfl, h0⟩] at hj
      cases hj
  have hout : 0 ∈ s₃.out false := by
    simp [hm₃.out, hm₂.out, hm₁.out]
  have hinv₃ := (hinv₂.moved hm₃).1
  have hm₄ : s₃.Moved false 0 false (s₃.take false 0 (freeBlock s₃.m 0)) := hinv₃.take hout
  have hrun : Run step OnlyAllocated start
      [.allocBlock, .allocInode, .allocBlock, .freeBlock 0] _ :=
    (((Run.nil.snoc (a := Op.allocBlock) trivial hs₁).snoc (a := Op.allocInode) trivial hs₂).snoc
      (a := Op.allocBlock) trivial hs₃).snoc (a := Op.freeBlock 0) hout rfl
  obtain ⟨hinodes, hblocks, -⟩ := bitmap_matches hrun
  have hfreed : ∀ k j, j ∈ freed (s₃.take false 0 (freeBlock s₃.m 0)).m k ↔
      if k = true then j ∈ freed start.m true ∧ j ≠ 1
      else j = 0 ∨ j ∈ freed start.m false ∧ j ≠ 0 ∧ j ≠ 1 := by
    intro k j
    rw [hm₄.mem_freed, hm₃.mem_freed, hm₂.mem_freed, hm₁.mem_freed]
    cases k <;> by_cases h0 : j = 0 <;> by_cases h1 : j = 1 <;> simp [h0, h1]
  refine ⟨_, hrun, Bool.eq_false_iff.2 fun hbit => (hblocks 0 (by simp)).1 hbit ?_,
    (hblocks 1 (by simp)).2 fun hmem => ?_, (hinodes 1 (by simp)).2 fun hmem => ?_,
    Bool.eq_false_iff.2 fun hbit => (hinodes 2 (by simp)).1 hbit ?_⟩
  · exact (hfreed false 0).2 (.inl rfl)
  · exact absurd ((hfreed false 1).1 hmem) (by simp)
  · exact absurd ((hfreed true 1).1 hmem) (by simp)
  · exact (hfreed true 2).2 ⟨(hfreed₀ true 2).2 (by decide), by decide⟩

end Books

end Lab2
end CseLab
