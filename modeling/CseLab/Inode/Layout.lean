import CseLab.Inode.Manager
import CseLab.Lib.Partition

/-!
# What is on the disk

The blocks and the contents of every file, as its size, `blocks[]` and the indirect block determine
them, and what it means for the files of a set of inodes to be in order (`Sound`): they are no
larger than a file can be, what they own and what is free is a division of the data blocks, and
every block they own lies on the disk.

`Sound.frame` is how a call that leaves a file alone is dealt with: the file is what the blocks that
it owns and its inode say.
-/

set_option autoImplicit false

namespace CseLab
namespace Inode

/-- Byte `k` of a file lies in one of its blocks. -/
theorem div_lt_ceilDiv {k n : ℕ} (h : k < n) : k / blockSize < ceilDiv n blockSize := by
  rw [ceilDiv, if_neg (by omega)]
  exact Nat.lt_succ_of_le (Nat.div_le_div_right (by omega))

theorem ceilDiv_le_iff {n k : ℕ} : ceilDiv n blockSize ≤ k ↔ n ≤ k * blockSize := by
  simp only [ceilDiv, blockSize_eq]
  split <;> omega

theorem ceilDiv_mul (n : ℕ) : ceilDiv (n * blockSize) blockSize = n := by
  cases n with
  | zero => rfl
  | succ n =>
    rw [ceilDiv, if_neg (by simp)]
    simp only [blockSize_eq]
    omega

/-- An access is to the part of the disk it belongs to. -/
def Access.Proper : Access → Prop
  | .bitmap b => bitmapStart ≤ b ∧ b < bitmapStart + bitmapBlockNum
  | .inode b => bitmapStart + bitmapBlockNum ≤ b ∧ b < bitmapStart + bitmapBlockNum + inodeBlockNum
  | .data b => bitmapStart + bitmapBlockNum + inodeBlockNum ≤ b ∧ b < blockNum
  | .source _ _ => True

namespace Ino

theorem word_setTimes {b : Buffer} {now : UInt32} {w : ℕ} (h : w = 0 ∨ 4 ≤ w) :
    (setTimes b now).word w = b.word w := by
  rw [setTimes, Buffer.word_setWord_ne (by omega), Buffer.word_setWord_ne (by omega),
    Buffer.word_setWord_ne (by omega)]

/-- A size that a file can have fits in its word. -/
theorem toNat_ofNat_size {n : ℕ} (h : n ≤ maxFile * blockSize) : (UInt32.ofNat n).toNat = n := by
  rw [UInt32.toNat_ofNat']
  simp only [maxFile_eq, blockSize_eq] at h
  omega

end Ino

namespace BlockManager

variable {m m' : BlockManager} {i j id : ℕ}

/-! ## The view -/

/-- Inode `i`. -/
def inode (m : BlockManager) (i : ℕ) : Buffer := m.readBlock (iblock i)

/-- Data block `id`. -/
def data (m : BlockManager) (id : ℕ) : Buffer := m.readBlock (bblock id)

/-- The id of a file's block `j`, by its inode and its indirect block. -/
def idAt (ino indirectBlock : Buffer) (j : ℕ) : ℕ :=
  if j < nDirect then Ino.blocks ino j else (indirectBlock.word (j - nDirect)).toNat

/-- The data blocks of the file with this inode. -/
def idsOf (m : BlockManager) (ino : Buffer) : List ℕ :=
  (List.range (ceilDiv (Ino.size ino).toNat blockSize)).map
    (idAt ino (m.data (Ino.blocks ino nDirect)))

/-- How many bytes file `i` has. -/
def fileSize (m : BlockManager) (i : ℕ) : ℕ := (Ino.size (m.inode i)).toNat

/-- The data blocks of file `i`. -/
def fileIds (m : BlockManager) (i : ℕ) : List ℕ := m.idsOf (m.inode i)

/-- The indirect block of file `i`, if it has one. -/
def indirectId (m : BlockManager) (i : ℕ) : List ℕ :=
  if nDirect < (m.fileIds i).length then [Ino.blocks (m.inode i) nDirect] else []

/-- The blocks of file `i`. -/
def owned (m : BlockManager) (i : ℕ) : List ℕ := m.fileIds i ++ m.indirectId i

/-- The bytes of file `i`. -/
def content (m : BlockManager) (i : ℕ) : Bytes :=
  ((m.fileIds i).flatMap fun id => (m.data id).bytes blockSize).take (m.fileSize i)

@[simp] theorem length_idsOf (ino : Buffer) :
    (m.idsOf ino).length = ceilDiv (Ino.size ino).toNat blockSize := by
  simp [idsOf]

@[simp] theorem length_fileIds : (m.fileIds i).length = ceilDiv (m.fileSize i) blockSize := by
  simp [fileIds, fileSize]

theorem getElem_idsOf {ino : Buffer} (h : j < (m.idsOf ino).length) :
    (m.idsOf ino)[j] = idAt ino (m.data (Ino.blocks ino nDirect)) j := by
  simp [idsOf]

/-- Byte `k` of a file is in its block `k / BLOCK_SIZE`. -/
theorem getElem?_content {k : ℕ} (hk : k < m.fileSize i) :
    (m.content i)[k]? = some (m.data ((m.fileIds i).getD (k / blockSize) 0) (k % blockSize)) := by
  have hlt : k / blockSize < (m.fileIds i).length := by
    rw [length_fileIds]
    exact div_lt_ceilDiv hk
  rw [content, List.getElem?_take_of_lt hk, getElem?_flatMap_bytes _ _ (by simp),
    List.getElem?_eq_getElem hlt, Option.map_some, List.getD_eq_getElem?_getD,
    List.getElem?_eq_getElem hlt, Option.getD_some]

theorem length_content : (m.content i).length = m.fileSize i := by
  rw [content, List.length_take, length_flatMap_bytes, length_fileIds]
  exact Nat.min_eq_left (ceilDiv_le_iff.1 (Nat.le_refl _))

/-! ## Files in order -/

/-- How many data blocks are in use. -/
def inUse (m : BlockManager) : ℕ := dataBlockNum - m.freedData.card

/-- How many there are on the disk. -/
def diskDataNum : ℕ := blockNum - bblock 0

@[simp] theorem diskDataNum_eq : diskDataNum = 31734 := rfl

/-- The files of the inodes `files` are in order. -/
structure Sound (m : BlockManager) (files : Finset ℕ) : Prop where
  inums : ∀ i ∈ files, i < inodeNum
  small : ∀ i ∈ files, m.fileSize i ≤ maxFile * blockSize
  owns : Divided (· < dataBlockNum) (· ∈ m.freedData) (· ∈ files) m.owned
  onDisk : ∀ i ∈ files, ∀ x ∈ m.owned i, x < diskDataNum

/-! ### Frames -/

/-- A file is what its inode, but for the type and the times, and its blocks say. -/
theorem same_file (hi : ∀ w, 4 ≤ w → (m'.inode i).word w = (m.inode i).word w)
    (hx : ∀ x ∈ m.owned i, m'.data x = m.data x) :
    m'.fileSize i = m.fileSize i ∧ m'.owned i = m.owned i ∧ m'.content i = m.content i := by
  have hsize : m'.fileSize i = m.fileSize i := by
    rw [fileSize, fileSize, Ino.size, hi 4 le_rfl]
    rfl
  have hblocks : ∀ j, Ino.blocks (m'.inode i) j = Ino.blocks (m.inode i) j := fun j => by
    rw [Ino.blocks, hi _ (by omega)]
    rfl
  have hids : m'.fileIds i = m.fileIds i := by
    refine List.ext_getElem (by simp [hsize]) fun j h h' => ?_
    simp only [fileIds, getElem_idsOf, hblocks, idAt]
    split
    next => rfl
    next hj =>
      have hind : Ino.blocks (m.inode i) nDirect ∈ m.owned i := by
        rw [owned, indirectId, if_pos (by omega)]
        simp
      rw [hx _ hind]
  have howned : m'.owned i = m.owned i := by
    rw [owned, owned, indirectId, indirectId, hids, hblocks]
  have hbytes : ((m.fileIds i).flatMap fun id => (m'.data id).bytes blockSize) =
      (m.fileIds i).flatMap fun id => (m.data id).bytes blockSize :=
    List.flatMap_congr fun x hmem => by rw [hx x (List.mem_append_left _ hmem)]
  exact ⟨hsize, howned, by rw [content, content, hids, hsize, hbytes]⟩

/-- The disk blocks of the inodes and of the data are different. -/
theorem iblock_ne_bblock (hi : i < inodeNum) (hid : id < dataBlockNum) : iblock i ≠ bblock id := by
  rw [iblock_eq hi, bblock_eq hid]
  simp only [inodeNum_eq] at hi
  omega

theorem iblock_inj (hi : i < inodeNum) (hj : j < inodeNum) (h : iblock i = iblock j) : i = j := by
  rw [iblock_eq hi, iblock_eq hj] at h
  omega

theorem bblock_inj (hi : i < dataBlockNum) (hj : j < dataBlockNum) (h : bblock i = bblock j) :
    i = j := by
  rw [bblock_eq hi, bblock_eq hj] at h
  omega

theorem iblock_lt (hi : i < inodeNum) : iblock i < blockNum := by
  rw [iblock_eq hi]
  simp only [inodeNum_eq, blockNum_eq] at hi ⊢
  omega

theorem bblock_lt (hid : id < diskDataNum) : bblock id < blockNum := by
  simp only [diskDataNum_eq] at hid
  rw [bblock_eq (by simp only [dataBlockNum_eq]; omega), blockNum_eq]
  omega

theorem lt_of_onDisk (hid : id < diskDataNum) : id < dataBlockNum := by
  simp only [diskDataNum_eq, dataBlockNum_eq] at hid ⊢
  omega

theorem mem_owned_indirect (h : nDirect < (m.fileIds i).length) :
    Ino.blocks (m.inode i) nDirect ∈ m.owned i := by
  rw [owned, indirectId, if_pos h]
  exact List.mem_append_right _ (List.mem_singleton_self _)

theorem Sound.nodup_ids {files : Finset ℕ} (h : m.Sound files) (hi : i ∈ files) :
    (m.fileIds i).Nodup :=
  (h.owns.nodup i hi).sublist (List.sublist_append_left ..)

theorem Sound.ids_onDisk {files : Finset ℕ} (h : m.Sound files) (hi : i ∈ files) :
    ∀ x ∈ m.fileIds i, x < diskDataNum := fun x hx => h.onDisk i hi x (List.mem_append_left _ hx)

theorem Sound.ids_taken {files : Finset ℕ} (h : m.Sound files) (hi : i ∈ files) :
    ∀ x ∈ m.fileIds i, x ∉ m.freedData := fun x hx =>
  h.owns.owned i hi x (List.mem_append_left _ hx)

/-- The indirect block is none of the others. -/
theorem Sound.indirect_notMem {files : Finset ℕ} (h : m.Sound files) (hi : i ∈ files)
    (h100 : nDirect < (m.fileIds i).length) : Ino.blocks (m.inode i) nDirect ∉ m.fileIds i := by
  have hnodup := h.owns.nodup i hi
  rw [owned, indirectId, if_pos h100] at hnodup
  exact fun hmem => (List.nodup_append.1 hnodup).2.2 _ hmem _ (List.mem_singleton_self _) rfl

/-! ### Where it has been -/

/-- Every access since `m₀` was to the part of the disk it belongs to. -/
def OnTrack (m₀ m : BlockManager) : Prop := ∀ a ∈ m.accesses, a ∈ m₀.accesses ∨ a.Proper

theorem OnTrack.refl (m : BlockManager) : OnTrack m m := fun _ => .inl

theorem OnTrack.trans {m'' : BlockManager} (h : OnTrack m m') (h' : OnTrack m' m'') :
    OnTrack m m'' := fun a ha => (h' a ha).elim (h a) .inr

theorem OnTrack.of_eq (h : m'.accesses = m.accesses) : OnTrack m m' := fun _ ha => .inl (h ▸ ha)

theorem OnTrack.touch {a : Access} (ha : a.Proper) : OnTrack m (m.touch a) := by
  intro b hb
  rcases List.mem_append.1 hb with hb | hb
  · exact .inl hb
  · exact .inr (List.mem_singleton.1 hb ▸ ha)

@[simp] theorem writeBlock_accesses (a : ℕ) (b : Buffer) :
    (m.writeBlock a b).accesses = m.accesses := by
  rw [writeBlock]
  split <;> rfl

theorem proper_data (hid : id < diskDataNum) : (Access.data (bblock id)).Proper := by
  simp only [diskDataNum_eq] at hid
  rw [Access.Proper, bblock_eq (by simp only [dataBlockNum_eq]; omega)]
  simp only [bitmapStart_eq, bitmapBlockNum_eq, inodeBlockNum_eq, blockNum_eq]
  omega

theorem proper_inode (hi : i < inodeNum) : (Access.inode (iblock i)).Proper := by
  simp only [inodeNum_eq] at hi
  rw [Access.Proper, iblock_eq (by simpa using hi)]
  simp only [bitmapStart_eq, bitmapBlockNum_eq, inodeBlockNum_eq]
  omega

theorem OnTrack.writeData {b : Buffer} (hid : id < diskDataNum) : OnTrack m (m.writeData id b) :=
  (OnTrack.touch (proper_data hid)).trans (.of_eq (writeBlock_accesses ..))

theorem OnTrack.writeInode {b : Buffer} (hi : i < inodeNum) : OnTrack m (m.writeInode i b) :=
  (OnTrack.touch (proper_inode hi)).trans (.of_eq (writeBlock_accesses ..))

/-! ### What the block layer does -/

/-- Nothing has changed but the record of accesses. -/
structure Same (m m' : BlockManager) : Prop where
  blocks : m'.blocks = m.blocks
  freedData : m'.freedData = m.freedData
  freedInode : m'.freedInode = m.freedInode

theorem Same.refl (m : BlockManager) : Same m m := ⟨rfl, rfl, rfl⟩

theorem Same.trans {m'' : BlockManager} (h : Same m m') (h' : Same m' m'') : Same m m'' :=
  ⟨h'.1.trans h.1, h'.2.trans h.2, h'.3.trans h.3⟩

theorem Same.touch (m : BlockManager) (a : Access) : Same m (m.touch a) := ⟨rfl, rfl, rfl⟩

theorem Same.readBlock (h : Same m m') (id : ℕ) : m'.readBlock id = m.readBlock id := by
  rw [BlockManager.readBlock, BlockManager.readBlock, h.blocks]

theorem Same.data (h : Same m m') (id : ℕ) : m'.data id = m.data id := h.readBlock _

theorem Same.inode (h : Same m m') (i : ℕ) : m'.inode i = m.inode i := h.readBlock _

theorem Same.file (h : Same m m') (i : ℕ) :
    m'.fileSize i = m.fileSize i ∧ m'.owned i = m.owned i ∧ m'.content i = m.content i :=
  same_file (fun _ _ => by rw [h.inode]) fun _ _ => h.data _

theorem readBlock_writeBlock {a b : ℕ} {buf : Buffer} (h : a < blockNum) :
    (m.writeBlock a buf).readBlock b = if b = a then buf else m.readBlock b := by
  simp only [readBlock, writeBlock, h, if_true, Function.update_apply]
  by_cases hb : b = a
  · simp only [hb, if_true, h]
  · simp only [hb, if_false]

@[simp] theorem writeBlock_freedData (a : ℕ) (buf : Buffer) :
    (m.writeBlock a buf).freedData = m.freedData := by
  rw [writeBlock]
  split <;> rfl

@[simp] theorem writeBlock_freedInode (a : ℕ) (buf : Buffer) :
    (m.writeBlock a buf).freedInode = m.freedInode := by
  rw [writeBlock]
  split <;> rfl

@[simp] theorem writeData_freedData (b : Buffer) : (m.writeData id b).freedData = m.freedData :=
  writeBlock_freedData ..

@[simp] theorem writeData_freedInode (b : Buffer) :
    (m.writeData id b).freedInode = m.freedInode :=
  writeBlock_freedInode ..

@[simp] theorem writeInode_freedData (b : Buffer) : (m.writeInode i b).freedData = m.freedData :=
  writeBlock_freedData ..

@[simp] theorem writeInode_freedInode (b : Buffer) :
    (m.writeInode i b).freedInode = m.freedInode :=
  writeBlock_freedInode ..

theorem data_writeData {b : Buffer} (hid : id < diskDataNum) (hj : j < dataBlockNum) :
    (m.writeData id b).data j = if j = id then b else m.data j := by
  rw [data, writeData, readBlock_writeBlock (bblock_lt hid)]
  by_cases h : j = id
  · rw [if_pos h, if_pos (h ▸ rfl)]
  · rw [if_neg h, if_neg (mt (bblock_inj hj (lt_of_onDisk hid)) h)]
    exact (Same.touch m _).data j

theorem inode_writeData {b : Buffer} (hid : id < diskDataNum) (hi : i < inodeNum) :
    (m.writeData id b).inode i = m.inode i := by
  rw [inode, writeData, readBlock_writeBlock (bblock_lt hid),
    if_neg (iblock_ne_bblock hi (lt_of_onDisk hid))]
  exact (Same.touch m _).inode i

theorem inode_writeInode {b : Buffer} (hi : i < inodeNum) (hj : j < inodeNum) :
    (m.writeInode i b).inode j = if j = i then b else m.inode j := by
  rw [inode, writeInode, readBlock_writeBlock (iblock_lt hi)]
  by_cases h : j = i
  · rw [if_pos h, if_pos (h ▸ rfl)]
  · rw [if_neg h, if_neg (mt (iblock_inj hj hi) h)]
    exact (Same.touch m _).inode j

theorem data_writeInode {b : Buffer} (hi : i < inodeNum) (hid : id < dataBlockNum) :
    (m.writeInode i b).data id = m.data id := by
  rw [data, writeInode, readBlock_writeBlock (iblock_lt hi), if_neg (iblock_ne_bblock hi hid).symm]
  exact (Same.touch m _).data id

theorem Same.record (h : Same m m') (a : Access) : Same (m.touch a) (m'.touch a) :=
  ⟨h.1, h.2, h.3⟩

theorem Same.writeBlock (h : Same m m') (a : ℕ) (b : Buffer) :
    Same (m.writeBlock a b) (m'.writeBlock a b) := by
  refine ⟨?_, by simp [h.freedData], by simp [h.freedInode]⟩
  rw [BlockManager.writeBlock, BlockManager.writeBlock]
  split
  next => rw [h.blocks]
  next => exact h.blocks

theorem Same.writeInode (h : Same m m') (i : ℕ) (b : Buffer) :
    Same (m.writeInode i b) (m'.writeInode i b) :=
  (h.record _).writeBlock _ _

theorem Same.writeData (h : Same m m') (id : ℕ) (b : Buffer) :
    Same (m.writeData id b) (m'.writeData id b) :=
  (h.record _).writeBlock _ _

/-- The inodes and the data blocks are what they were. -/
structure Keeps (m m' : BlockManager) : Prop where
  data : ∀ x < dataBlockNum, m'.data x = m.data x
  inode : ∀ j < inodeNum, m'.inode j = m.inode j
  freedInode : m'.freedInode = m.freedInode
  track : OnTrack m m'

theorem Keeps.trans {m'' : BlockManager} (h : Keeps m m') (h' : Keeps m' m'') : Keeps m m'' :=
  ⟨fun x hx => (h'.data x hx).trans (h.data x hx), fun j hj => (h'.inode j hj).trans (h.inode j hj),
    h'.freedInode.trans h.freedInode, h.track.trans h'.track⟩

theorem Same.keeps (h : Same m m') (ht : OnTrack m m') : Keeps m m' :=
  ⟨fun x _ => h.data x, fun j _ => h.inode j, h.freedInode, ht⟩

/-- An inode is written, its size and its blocks as they were. -/
theorem Sound.stamped {files : Finset ℕ} {b : Buffer} (h : m.Sound files) (hi : i < inodeNum)
    (hb : ∀ w, 4 ≤ w → b.word w = (m.inode i).word w) {j : ℕ} (hj : j ∈ files) :
    (m.writeInode i b).fileSize j = m.fileSize j ∧ (m.writeInode i b).owned j = m.owned j ∧
      (m.writeInode i b).content j = m.content j := by
  refine same_file (fun w hw => ?_) fun x hx => data_writeInode hi
    (lt_of_onDisk (h.onDisk j hj x hx))
  rw [inode_writeInode hi (h.inums j hj)]
  split
  next hji => rw [hb w hw, hji]
  next => rfl

/-! ### `get_blockids` and `read_file` -/

theorem getBlockids_eq (m : BlockManager) (ino ind : Buffer) : m.getBlockids ino ind =
    if nDirect < (m.idsOf ino).length then
      (m.idsOf ino, true, m.data (Ino.blocks ino nDirect),
        m.touch (.data (bblock (Ino.blocks ino nDirect))))
    else (m.idsOf ino, false, ind, m) := by
  rw [getBlockids, length_idsOf]
  by_cases h : ceilDiv (Ino.size ino).toNat blockSize ≤ nDirect
  · have hids : (List.range (ceilDiv (Ino.size ino).toNat blockSize)).map (Ino.blocks ino) =
        m.idsOf ino := by
      refine List.map_congr_left fun j hj => ?_
      rw [idAt, if_pos (lt_of_lt_of_le (List.mem_range.1 hj) h)]
    simp only [h, if_true, not_lt.2 h, if_false, hids]
  · obtain ⟨n, hn⟩ := Nat.exists_eq_add_of_le (not_le.1 h).le
    have hids : (List.range nDirect).map (Ino.blocks ino) ++
        (List.range (ceilDiv (Ino.size ino).toNat blockSize - nDirect)).map
          (fun i => ((m.data (Ino.blocks ino nDirect)).word i).toNat) = m.idsOf ino := by
      rw [idsOf, hn, Nat.add_sub_cancel_left, List.range_add, List.map_append,
        List.map_map]
      refine congrArg₂ (· ++ ·) (List.map_congr_left fun j hj => ?_)
        (List.map_congr_left fun j _ => ?_)
      · rw [idAt, if_pos (List.mem_range.1 hj)]
      · simp [idAt]
    simp only [h, if_false, not_le.1 h, if_true, readData]
    rw [← hids]
    rfl

theorem getBlockids_same (m : BlockManager) (ino ind : Buffer) : ∃ ind' m',
    m.getBlockids ino ind = (m.idsOf ino, decide (nDirect < (m.idsOf ino).length), ind', m') ∧
      (nDirect < (m.idsOf ino).length → ind' = m.data (Ino.blocks ino nDirect)) ∧ Same m m' ∧
      ((nDirect < (m.idsOf ino).length → Ino.blocks ino nDirect < diskDataNum) → OnTrack m m') := by
  rw [getBlockids_eq]
  split
  next h =>
    exact ⟨_, _, by rw [decide_eq_true h], fun _ => rfl, Same.touch ..,
      fun hq => .touch (proper_data (hq h))⟩
  next h =>
    exact ⟨_, _, by rw [decide_eq_false h], fun h' => absurd h' h, Same.refl m, fun _ => .refl m⟩

/-- The loop of `read_file`. -/
theorem readLoop (ids : List ℕ) (out : Bytes) (m : BlockManager) :
    let r := ids.foldl (fun (r : Bytes × BlockManager) id =>
      (r.1 ++ (r.2.readData id).1.bytes blockSize, (r.2.readData id).2)) (out, m)
    r.1 = out ++ ids.flatMap (fun id => (m.data id).bytes blockSize) ∧ Same m r.2 ∧
      ((∀ id ∈ ids, id < diskDataNum) → OnTrack m r.2) := by
  induction ids generalizing out m with
  | nil => simp [Same.refl, OnTrack.refl]
  | cons id ids ih =>
    obtain ⟨hout, hsame, htrack⟩ := ih (out ++ (m.data id).bytes blockSize) (m.readData id).2
    refine ⟨?_, (Same.touch m _).trans hsame, fun hids =>
      (OnTrack.touch (proper_data (hids id List.mem_cons_self))).trans
        (htrack fun x hx => hids x (List.mem_cons_of_mem _ hx))⟩
    rw [List.flatMap_cons, ← List.append_assoc]
    refine hout.trans ?_
    congr 1

/-- The function, its lets taken apart. -/
theorem readFile_eq (m : BlockManager) (i : ℕ) (now : UInt32) :
    let ino := Ino.setAtime (m.inode i) now
    let m₁ := (m.touch (.inode (iblock i))).writeInode i ino
    let g := m₁.getBlockids ino Buffer.zero
    let r := g.1.foldl (fun (r : Bytes × BlockManager) id =>
      (r.1 ++ (r.2.readData id).1.bytes blockSize, (r.2.readData id).2)) ([], g.2.2.2)
    m.readFile i now =
      if Ino.size ino = 0 then (⟨[], 0, Ino.attr ino⟩, m₁)
      else (⟨r.1, (Ino.size ino).toNat, Ino.attr ino⟩, r.2) :=
  rfl

/-- What `read_file` returns is what is on the disk, if the blocks of the file are. -/
theorem readFile_of_onDisk (hlt : i < inodeNum) (hdisk : ∀ x ∈ m.owned i, x < diskDataNum)
    (now : UInt32) :
    let r := m.readFile i now
    r.1.size = m.fileSize i ∧ r.1.buf_out.take r.1.size = m.content i ∧
      r.1.a = Ino.attr (Ino.setAtime (m.inode i) now) ∧
      Same (m.writeInode i (Ino.setAtime (m.inode i) now)) r.2 ∧ OnTrack m r.2 := by
  obtain ⟨hsize, howned, hcontent⟩ :=
    @same_file m (m.writeInode i (Ino.setAtime (m.inode i) now)) i (fun w hw => by
      rw [inode_writeInode hlt hlt, if_pos rfl]
      exact Buffer.word_setWord_ne (by omega)) fun x hx =>
        data_writeInode hlt (lt_of_onDisk (hdisk x hx))
  have hino := inode_writeInode (m := m) (b := Ino.setAtime (m.inode i) now) hlt hlt
  rw [if_pos rfl] at hino
  have hm₁ := (Same.touch m (.inode (iblock i))).writeInode i (Ino.setAtime (m.inode i) now)
  have htrack₁ : OnTrack m ((m.touch (.inode (iblock i))).writeInode i
      (Ino.setAtime (m.inode i) now)) := (OnTrack.touch (proper_inode hlt)).trans (.writeInode hlt)
  generalize hino' : Ino.setAtime (m.inode i) now = ino at *
  generalize hw : m.writeInode i ino = m₀ at *
  have hread := readFile_eq m i now
  simp only [hino'] at hread
  generalize (m.touch (.inode (iblock i))).writeInode i ino = m₁ at *
  rw [hread]
  have hsize₀ : (Ino.size ino).toNat = m.fileSize i := by rw [← hsize, fileSize, hino]
  by_cases h0 : Ino.size ino = 0
  · rw [if_pos h0]
    have hzero : m.fileSize i = 0 := by rw [← hsize₀, h0]; rfl
    refine ⟨hzero.symm, ?_, rfl, hm₁, htrack₁⟩
    rw [content, hzero]
    rfl
  · have hids : m₁.idsOf ino = m₀.fileIds i := by
      rw [fileIds, hino, idsOf, idsOf, hm₁.data]
    have hfile : ∀ x ∈ m₀.fileIds i, x < diskDataNum := fun x hx =>
      hdisk x (howned ▸ List.mem_append_left _ hx)
    have hq : nDirect < (m₁.idsOf ino).length → Ino.blocks ino nDirect < diskDataNum := by
      intro h100
      rw [hids] at h100
      have hmem := mem_owned_indirect h100
      rw [hino, howned] at hmem
      exact hdisk _ hmem
    obtain ⟨ind, m₂, hget, -, hm₂, htrack₂⟩ := getBlockids_same m₁ ino Buffer.zero
    obtain ⟨hout, hm₃, htrack₃⟩ := readLoop (m₁.idsOf ino) [] m₂
    rw [if_neg h0, hget]
    refine ⟨hsize₀, ?_, rfl, (hm₁.trans hm₂).trans hm₃,
      (htrack₁.trans (htrack₂ hq)).trans (htrack₃ (hids ▸ hfile))⟩
    have hdata : m₂.data = m₀.data := funext fun id => (hm₁.trans hm₂).data id
    rw [← hcontent, content, hsize, ← hsize₀, ← hids]
    refine congrArg (List.take _) (hout.trans ?_)
    rw [List.nil_append, hdata]

/-- **What `read_file` returns is what is on the disk**, and the access time is all it changes. -/
theorem readFile_spec {files : Finset ℕ} (h : m.Sound files) (hi : i ∈ files) (now : UInt32) :
    let r := m.readFile i now
    r.1.size = m.fileSize i ∧ r.1.buf_out.take r.1.size = m.content i ∧
      r.1.a = Ino.attr (Ino.setAtime (m.inode i) now) ∧
      Same (m.writeInode i (Ino.setAtime (m.inode i) now)) r.2 ∧ OnTrack m r.2 :=
  readFile_of_onDisk (h.inums i hi) (h.onDisk i hi) now

end BlockManager

end Inode
end CseLab
