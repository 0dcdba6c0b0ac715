import CseLab.Inode.Layout
import CseLab.Lab2.Bitmap

/-!
# `inode_manager` of lab 2

Files that are written in place: `write_file` is given an offset, and whether what the file has
behind the written part is to go.  It stages all the blocks from the one where the file ends, or
where the written part begins if that is earlier, up to the end of the written part.

Sizes and offsets are `int`s in the source; here they are natural numbers, and below `2 ^ 31`.  What
an uninitialised array holds, and what lies behind one that is read too far, is a parameter, and so
is the time.  `write_file` tells which ids it gave to `free_block`, and `read_file` how far it read,
for the record.
-/

set_option autoImplicit false

namespace CseLab
namespace Lab2

open Inode
open Inode.BlockManager (idAt)

namespace InodeManager

/-! ## Attributes -/

/-- `memcpy(ino, &a, sizeof(attr))`. -/
def setAttr (ino : Buffer) (a : Attr) : Buffer :=
  ((((ino.setWord 0 a.type).setWord 1 a.atime).setWord 2 a.mtime).setWord 3 a.ctime).setWord 4
    a.size

def setattr (m : BlockManager) (inum : ℕ) (a : Attr) (now : UInt32) : BlockManager :=
  let (ino, m) := m.readInode inum
  m.writeInode inum (Ino.setTimes (setAttr ino a) now)

/-- `alloc_inode`, which makes a new file. -/
def allocInode (m : BlockManager) (type now : UInt32) : Option (ℕ × BlockManager) :=
  (Lab2.allocInode m).map fun (id, m) => (id, setattr m id ⟨type, now, now, now, 0⟩ now)

/-! ## Reading -/

/-- `read_blocks`.  Of `blockL` it looks only at what it has entered. -/
def readBlocks (m : BlockManager) (ino : Buffer) (startBlock endBlock : ℕ) : Bytes × BlockManager :=
  let (indirect, m) :=
    if endBlock ≤ nDirect then (Buffer.zero, m) else m.readData (Ino.blocks ino nDirect)
  loop startBlock endBlock (fun i (result, m) =>
    let (b, m) := m.readData (idAt ino indirect i)
    (result ++ b.bytes blockSize, m)) ([], m)

/-- What `read_file` returns, and how many bytes `blocksBuf` has and up to which one was copied from
it. -/
structure ReadResult where
  ssize : ℕ
  buf_out : Bytes
  blocksBuf : ℕ
  copied : ℕ

/-- `read_file`.  Where `blocksBuf` would have a negative size there is no memory for it, and the
copy ends the program; `junk` is what lies behind it. -/
def readFile (m : BlockManager) (inum : ℕ) (size : ℤ) (offset : ℕ) (junk : ℕ → UInt8)
    (now : UInt32) : Option (ReadResult × BlockManager) :=
  let (ino, m) := m.readInode inum
  let ino := Ino.setAtime ino now
  let m := m.writeInode inum ino
  let allBlockN := ceilDiv (Ino.size ino).toNat blockSize
  let size := if size < 0 then (Ino.size ino).toNat else size.toNat
  if size = 0 then some (⟨0, [], 0, 0⟩, m)
  else
    let startBlock := offset / blockSize
    let endBlock := min (ceilDiv (offset + size) blockSize) allBlockN
    let ss :=
      if endBlock ≤ allBlockN then size else (Ino.size ino).toNat - startBlock * blockSize
    if endBlock < startBlock then none
    else
      let (blocksBuf, m) := readBlocks m ino startBlock endBlock
      let copied := offset % blockSize + ss
      some (⟨ss, (List.range ss).map fun k =>
        (blocksBuf[offset % blockSize + k]?).getD (junk (offset % blockSize + k)),
        blocksBuf.length, copied⟩, m)

/-! ## Writing -/

/-- `memcpy(b + off, src, src.size())`. -/
def memcpy (b : Buffer) (off : ℕ) (src : Bytes) : Buffer := fun k =>
  if off ≤ k ∧ k < off + src.length then src.getD (k - off) 0 else b k

/-- The loop over the blocks that are written: the file's own while it has any, and new ones after
that. -/
def storeBlock (allBlockN startBlock : ℕ) (buff : Buffer) (i : ℕ) :
    Option (Buffer × Buffer × BlockManager) → Option (Buffer × Buffer × BlockManager) :=
  fun s => s.bind fun (ino, indirect, m) =>
    let tmp : Buffer := fun k => buff ((i - startBlock) * blockSize + k)
    if i < allBlockN then some (ino, indirect, m.writeData (idAt ino indirect i) tmp)
    else
      (allocBlock m).map fun (id, m) =>
        let m := m.writeData id tmp
        if i < nDirect then (Ino.setBlocks ino i id, indirect, m)
        else (ino, indirect.setWord (i - nDirect) (UInt32.ofNat id), m)

/-- A file that comes to need an indirect block gets one. -/
def takeIndirect (m : BlockManager) (ino : Buffer) (allBlockN endBlock : ℕ) :
    Option (Buffer × BlockManager) :=
  if nDirect < endBlock ∧ allBlockN ≤ nDirect then
    (allocBlock m).map fun (id, m) => (Ino.setBlocks ino nDirect id, m)
  else some (ino, m)

/-- The loop over the blocks that are freed. -/
def freeTail (ino indirect : Buffer) (i : ℕ) : List ℕ × BlockManager → List ℕ × BlockManager :=
  fun (freed, m) =>
    let id := idAt ino indirect i
    (freed ++ [id], freeBlock m id)

/-- What it does if `free_end`: the blocks behind the end are freed, and the indirect block if it is
not needed any more. -/
def freeEnd (m : BlockManager) (ino indirect : Buffer) (allBlockN endBlock : ℕ) :
    List ℕ × BlockManager :=
  let (freed, m) := loop endBlock allBlockN (freeTail ino indirect) ([], m)
  if endBlock ≤ nDirect ∧ nDirect < allBlockN then
    (freed ++ [Ino.blocks ino nDirect], freeBlock m (Ino.blocks ino nDirect))
  else (freed, m)

/-- `write_file`; `none` when its `assert` fails or no block is free that is asked for. -/
def writeFile (m : BlockManager) (inum : ℕ) (buf : Bytes) (offset : ℕ) (free_end : Bool)
    (junk : Buffer) (now : UInt32) : Option (List ℕ × BlockManager) :=
  let (ino, m) := m.readInode inum
  let size := buf.length
  let allBlockN := ceilDiv (Ino.size ino).toNat blockSize
  let startBlock := min (offset / blockSize) ((Ino.size ino).toNat / blockSize)
  let endBlock := ceilDiv (offset + size) blockSize
  if maxFile < endBlock then none
  else
    let (old, m) :=
      if startBlock < allBlockN then readBlocks m ino startBlock (min allBlockN endBlock)
      else ([], m)
    let buff := memcpy (memcpy Buffer.zero 0 old)
      ((offset / blockSize - startBlock) * blockSize + offset % blockSize) buf
    (takeIndirect m ino allBlockN endBlock).bind fun (ino, m) =>
      let (indirect, m) :=
        if nDirect < endBlock then m.readData (Ino.blocks ino nDirect) else (junk, m)
      (loop startBlock endBlock (storeBlock allBlockN startBlock buff)
        (some (ino, indirect, m))).map fun (ino, indirect, m) =>
          let (freed, m) := if free_end then freeEnd m ino indirect allBlockN endBlock else ([], m)
          let ino :=
            if free_end ∨ (Ino.size ino).toNat < offset + size then
              Ino.setSize ino (UInt32.ofNat (offset + size))
            else ino
          let ino := Ino.setTimes ino now
          let m := m.writeInode inum ino
          (freed, if nDirect < endBlock then m.writeData (Ino.blocks ino nDirect) indirect else m)

def removeFile (m : BlockManager) (inum : ℕ) : BlockManager :=
  let (ino, m) := m.readInode inum
  let allBlockN := ceilDiv (Ino.size ino).toNat blockSize
  let m := loop 0 (min allBlockN nDirect) (fun i m => freeBlock m (Ino.blocks ino i)) m
  let m :=
    if nDirect < allBlockN then
      let (indirect, m) := m.readData (Ino.blocks ino nDirect)
      let m := loop 0 (allBlockN - nDirect) (fun i m => freeBlock m (indirect.word i).toNat) m
      freeBlock m (Ino.blocks ino nDirect)
    else m
  freeInode (m.writeInode inum (Ino.setType ino 0)) inum

end InodeManager

/-! ## Runs -/

/-- The manager, and the inodes that `alloc_inode` has handed out and `remove_file` not taken
back. -/
structure System where
  m : BlockManager
  live : Finset ℕ

/-- A call. -/
inductive Action
  | alloc (type now : UInt32)
  | write (inum : ℕ) (buf : Bytes) (offset : ℕ) (free_end : Bool) (junk : Buffer) (now : UInt32)
  | remove (inum : ℕ)

namespace System

/-- The constructor of `inode_manager`; it exits unless the root directory gets inode 1. -/
def start (now : UInt32) : Option System :=
  (InodeManager.allocInode new tDir now).bind fun (root, m) =>
    if root ≠ 1 then none else some ⟨m, {root}⟩

/-- One call on a live inode. -/
def step (s : System) : Action → Option System
  | .alloc type now =>
    (InodeManager.allocInode s.m type now).map fun (id, m) => ⟨m, insert id s.live⟩
  | .write inum buf offset free_end junk now =>
    if inum ∈ s.live then
      (InodeManager.writeFile s.m inum buf offset free_end junk now).map fun r => ⟨r.2, s.live⟩
    else none
  | .remove inum =>
    if inum ∈ s.live then some ⟨InodeManager.removeFile s.m inum, s.live.erase inum⟩ else none

end System

end Lab2
end CseLab
