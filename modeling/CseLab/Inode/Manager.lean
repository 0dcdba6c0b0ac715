import CseLab.Inode.Disk
import CseLab.Lib.Run

/-!
# `inode_manager`

Files in blocks.  An inode lies at the start of its block; its file's first `NDIRECT` block ids are
in it and the others in an indirect block, which is a data block.

A file's contents and their length are one `Bytes`, no longer than an `int` can say.  What an
uninitialised array holds, and what lies around the buffer a caller hands over, is any `Junk`; the
time is whatever `time` returns.  `write_file` and `remove_file` look at no inode's type, and a file
that is not there is theirs as well; only `System` asks for live ones.
-/

set_option autoImplicit false

namespace CseLab
namespace Inode

/-! ## `struct inode` -/

/-- What `getattr` copies. -/
structure Attr where
  type : UInt32
  atime : UInt32
  mtime : UInt32
  ctime : UInt32
  size : UInt32
  deriving DecidableEq

/-- `T_DIR`. -/
def tDir : UInt32 := 1

namespace Ino

def type (b : Buffer) : UInt32 := b.word 0

def size (b : Buffer) : UInt32 := b.word 4

/-- `blocks[i]`. -/
def blocks (b : Buffer) (i : ℕ) : ℕ := (b.word (5 + i)).toNat

def attr (b : Buffer) : Attr := ⟨b.word 0, b.word 1, b.word 2, b.word 3, b.word 4⟩

def setType (b : Buffer) (type : UInt32) : Buffer := b.setWord 0 type

def setAtime (b : Buffer) (now : UInt32) : Buffer := b.setWord 1 now

/-- `atime = ctime = mtime = now`. -/
def setTimes (b : Buffer) (now : UInt32) : Buffer :=
  ((b.setWord 2 now).setWord 3 now).setWord 1 now

def setSize (b : Buffer) (size : UInt32) : Buffer := b.setWord 4 size

/-- `blocks[i] = id`. -/
def setBlocks (b : Buffer) (i id : ℕ) : Buffer := b.setWord (5 + i) (UInt32.ofNat id)

end Ino

/-! ## Where a write comes from -/

/-- What `write_file` finds in memory that nobody has written. -/
structure Junk where
  indirectBlock : Buffer
  lastBlock : Buffer
  /-- Byte `k` counted from the start of the caller's buffer, where it is not in it. -/
  around : ℤ → UInt8

/-- A `char *` of `write_file`. -/
inductive Ptr
  /-- Into the caller's buffer. -/
  | buf (off : ℕ)
  /-- Into `lastBlock`. -/
  | lastBlock (off : ℕ)
  deriving DecidableEq

/-- `p + BLOCK_SIZE`. -/
def Ptr.next : Ptr → Ptr
  | .buf off => .buf (off + blockSize)
  | .lastBlock off => .lastBlock (off + blockSize)

/-- The arguments of a `write_file` call that do not change, and `newBlockN`. -/
structure Source where
  buf : Bytes
  junk : Junk
  newBlockN : ℕ

namespace Source

/-- Byte `k` of the caller's buffer. -/
def byteAt (c : Source) (k : ℤ) : UInt8 :=
  if 0 ≤ k ∧ k < c.buf.length then c.buf.getD k.toNat 0 else c.junk.around k

/-- `(newBlockN - 1) * BLOCK_SIZE`. -/
def lastOff (c : Source) : ℤ := ((c.newBlockN : ℤ) - 1) * blockSize

/-- `lastBlock` after `memcpy(lastBlock, buf + lastOff, size - lastOff)`. -/
def lastBlock (c : Source) : Buffer := fun k =>
  if k < (c.buf.length : ℤ) - c.lastOff then c.byteAt (c.lastOff + k) else c.junk.lastBlock k

/-- What is in memory at `tmp`. -/
def fetch (c : Source) : Ptr → Buffer
  | .buf off => fun k => c.byteAt (off + k)
  | .lastBlock off => fun k => c.lastBlock (off + k)

/-- `if (i == newBlockN - 1) tmp = lastBlock`. -/
def turn (c : Source) (i : ℕ) (tmp : Ptr) : Ptr := if i + 1 = c.newBlockN then .lastBlock 0 else tmp

end Source

namespace BlockManager

/-- `write_data(id, tmp)`. -/
def writeFrom (m : BlockManager) (c : Source) (id : ℕ) (tmp : Ptr) : BlockManager :=
  match tmp with
  | .buf off => (m.touch (.source off blockSize)).writeData id (c.fetch tmp)
  | .lastBlock _ => m.writeData id (c.fetch tmp)

/-! ## `inode_manager` -/

def createFile (m : BlockManager) (type now : UInt32) : ℕ × BlockManager :=
  let (inum, m) := m.allocInode
  let (ino, m) := m.readInode inum
  (inum, m.writeInode inum (Ino.setTimes (Ino.setSize (Ino.setType ino type) 0) now))

def getattr (m : BlockManager) (inum : ℕ) (now : UInt32) : Attr × BlockManager :=
  let (ino, m) := m.readInode inum
  (Ino.attr ino, m.writeInode inum (Ino.setAtime ino now))

/-- `get_blockids`: the ids, whether there is an indirect block, and `indirectBlock`. -/
def getBlockids (m : BlockManager) (ino indirectBlock : Buffer) :
    List ℕ × Bool × Buffer × BlockManager :=
  let allBlockN := ceilDiv (Ino.size ino).toNat blockSize
  if allBlockN ≤ nDirect then
    ((List.range allBlockN).map (Ino.blocks ino), false, indirectBlock, m)
  else
    let (indirectBlock, m) := m.readData (Ino.blocks ino nDirect)
    ((List.range nDirect).map (Ino.blocks ino) ++
      (List.range (allBlockN - nDirect)).map fun i => (indirectBlock.word i).toNat,
      true, indirectBlock, m)

/-- `buf_out`, `size` and `a` of `read_file`; `buf_out` has the file's blocks whole, and where the
file is empty nobody has allocated it. -/
structure ReadResult where
  buf_out : Bytes
  size : ℕ
  a : Attr

def readFile (m : BlockManager) (inum : ℕ) (now : UInt32) : ReadResult × BlockManager :=
  let (ino, m) := m.readInode inum
  let ino := Ino.setAtime ino now
  let m := m.writeInode inum ino
  if Ino.size ino = 0 then (⟨[], 0, Ino.attr ino⟩, m)
  else
    let (blockids, _, _, m) := m.getBlockids ino Buffer.zero
    let (buf_out, m) := blockids.foldl
      (fun (buf_out, m) id =>
        let (b, m) := m.readData id
        (buf_out ++ b.bytes blockSize, m)) ([], m)
    (⟨buf_out, (Ino.size ino).toNat, Ino.attr ino⟩, m)

/-! ### `write_file` -/

/-- The first loop: into the blocks the file has. -/
def overwrite (c : Source) (blockIds : List ℕ) (i : ℕ) : Ptr × BlockManager → Ptr × BlockManager :=
  fun (tmp, m) =>
    let tmp := c.turn i tmp
    (tmp.next, m.writeFrom c (blockIds.getD i 0) tmp)

/-- The file has too many blocks. -/
def shrink (m : BlockManager) (ino : Buffer) (blockIds : List ℕ) (newBlockN : ℕ) : BlockManager :=
  let m := loop newBlockN blockIds.length (fun i m => m.freeBlock (blockIds.getD i 0)) m
  if nDirect < blockIds.length ∧ newBlockN ≤ nDirect then m.freeBlock (Ino.blocks ino nDirect)
  else m

/-- The second loop: into new blocks that the inode lists. -/
def growDirect (c : Source) (i : ℕ) : Ptr × Buffer × BlockManager → Ptr × Buffer × BlockManager :=
  fun (tmp, ino, m) =>
    let tmp := c.turn i tmp
    let (newBlockId, m) := m.allocBlock
    (tmp.next, Ino.setBlocks ino i newBlockId, m.writeFrom c newBlockId tmp)

/-- The third loop: into new blocks that the indirect block lists. -/
def growIndirect (c : Source) (i : ℕ) : Ptr × Buffer × BlockManager → Ptr × Buffer × BlockManager :=
  fun (tmp, indirectBlock, m) =>
    let tmp := c.turn i tmp
    let (newBlockId, m) := m.allocBlock
    (tmp.next, indirectBlock.setWord (i - nDirect) (UInt32.ofNat newBlockId),
      m.writeFrom c newBlockId tmp)

/-- The file has too few blocks. -/
def grow (m : BlockManager) (c : Source) (ino indirectBlock : Buffer) (tmp : Ptr) (blockN : ℕ)
    (needFree : Bool) : Buffer × BlockManager :=
  let (tmp, ino, m) := loop blockN (min c.newBlockN nDirect) (growDirect c) (tmp, ino, m)
  if nDirect < c.newBlockN then
    let (ino, m) :=
      if needFree then (ino, m)
      else
        let (indirectBlockId, m) := m.allocBlock
        (Ino.setBlocks ino nDirect indirectBlockId, m)
    let (_, indirectBlock, m) :=
      loop (max nDirect blockN) c.newBlockN (growIndirect c) (tmp, indirectBlock, m)
    (ino, m.writeData (Ino.blocks ino nDirect) indirectBlock)
  else (ino, m)

/-- `write_file`, and the type it reports; `none` when its `assert` fails. -/
def writeFile (m : BlockManager) (inum : ℕ) (buf : Bytes) (junk : Junk) (now : UInt32) :
    Option (UInt32 × BlockManager) :=
  let (ino, m) := m.readInode inum
  let c : Source := ⟨buf, junk, ceilDiv buf.length blockSize⟩
  if maxFile < c.newBlockN then none
  else
    let (blockIds, needFree, indirectBlock, m) := m.getBlockids ino junk.indirectBlock
    let blockN := blockIds.length
    let m := m.touch (.source c.lastOff (buf.length - c.lastOff))
    let (tmp, m) := loop 0 (min blockN c.newBlockN) (overwrite c blockIds) (.buf 0, m)
    let (ino', m) :=
      if c.newBlockN < blockN then (ino, m.shrink ino blockIds c.newBlockN)
      else if blockN < c.newBlockN then m.grow c ino indirectBlock tmp blockN needFree
      else (ino, m)
    some (Ino.type ino,
      m.writeInode inum (Ino.setTimes (Ino.setSize ino' (UInt32.ofNat buf.length)) now))

def removeFile (m : BlockManager) (inum : ℕ) : BlockManager :=
  let (ino, m) := m.readInode inum
  let (blockIds, needFree, _, m) := m.getBlockids ino Buffer.zero
  let m := blockIds.foldl freeBlock m
  let m := if needFree then m.freeBlock (Ino.blocks ino nDirect) else m
  (m.writeInode inum (Ino.setType ino 0)).freeInode inum

end BlockManager

/-! ## Runs -/

/-- The manager, and the inodes that `create_file` has handed out and `remove_file` not taken back.
-/
structure System where
  m : BlockManager
  live : Finset ℕ

/-- A call, with what the memory and the clock have for it. -/
inductive Action
  | create (type now : UInt32)
  | write (inum : ℕ) (buf : Bytes) (junk : Junk) (now : UInt32)
  | remove (inum : ℕ)
  | read (inum : ℕ) (now : UInt32)
  | getattr (inum : ℕ) (now : UInt32)

namespace System

/-- The constructor of `inode_manager`, given its block manager; it exits unless the root directory
gets inode 1. -/
def startOn (m : BlockManager) (now : UInt32) : Option System :=
  let (root, m) := m.createFile tDir now
  if root ≠ 1 then none else some ⟨m, {root}⟩

def start (now : UInt32) : Option System := startOn BlockManager.new now

/-- One call on a live inode.  A `create_file` that finds no free inode creates nothing. -/
def step (s : System) : Action → Option System
  | .create type now =>
    let (inum, m) := s.m.createFile type now
    some ⟨m, if inum = noId then s.live else insert inum s.live⟩
  | .write inum buf junk now =>
    if inum ∈ s.live then (s.m.writeFile inum buf junk now).map fun r => ⟨r.2, s.live⟩ else none
  | .remove inum =>
    if inum ∈ s.live then some ⟨s.m.removeFile inum, s.live.erase inum⟩ else none
  | .read inum now => if inum ∈ s.live then some ⟨(s.m.readFile inum now).2, s.live⟩ else none
  | .getattr inum now => if inum ∈ s.live then some ⟨(s.m.getattr inum now).2, s.live⟩ else none

end System

/-- The inode that an extent id stands for on the server. -/
def inodeOf (eid : ℕ) : ℕ := (eid &&& 0x7fffffff) % inodeNum

theorem inodeOf_of_lt {eid : ℕ} (h : eid < inodeNum) : inodeOf eid = eid := by
  rw [inodeNum_eq] at h
  have hand : eid &&& 0x7fffffff = eid % 2 ^ 31 := Nat.and_two_pow_sub_one_eq_mod eid 31
  rw [inodeOf, hand, inodeNum_eq]
  omega

end Inode
end CseLab
