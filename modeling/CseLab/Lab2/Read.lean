import CseLab.Lab2.Manager
import Mathlib.Data.List.GetD

/-!
# What `read_file` returns

A slice of the file, if there is one of the size asked for.  `read_file` works out the length of
what it returns from the number of blocks it reads, which is clamped already, so that the other
branch of `ss` is never taken: it returns as many bytes as it was asked for, and takes those behind
the end of the file from the slack of the last block and from behind its buffer.
-/

set_option autoImplicit false

namespace CseLab
namespace Lab2

open Inode
open Inode.BlockManager (diskDataNum diskDataNum_eq idAt Same OnTrack getElem_idsOf length_fileIds
  getElem?_content length_content)

variable {m m' : BlockManager} {i j : ℕ}

/-! ## Files in their blocks -/

/-- Byte `p` of the blocks of file `i`, behind its end too. -/
def byteAt (m : BlockManager) (i p : ℕ) : UInt8 :=
  m.data ((m.fileIds i).getD (p / blockSize) 0) (p % blockSize)

/-- File `i` is there, no larger than a file can be, and its blocks are on the disk. -/
structure Stored (m : BlockManager) (i : ℕ) : Prop where
  inum : i < inodeNum
  small : m.fileSize i ≤ maxFile * blockSize
  onDisk : ∀ x ∈ m.owned i, x < diskDataNum

theorem Stored.of_sound {files : Finset ℕ} (h : m.Sound files) (hi : i ∈ files) : Stored m i :=
  ⟨h.inums i hi, h.small i hi, h.onDisk i hi⟩

theorem getElem?_content_byteAt {p : ℕ} (hp : p < m.fileSize i) :
    (m.content i)[p]? = some (byteAt m i p) := getElem?_content hp

/-- The table of ids, for a file's own blocks. -/
theorem idAt_eq (h : j < (m.fileIds i).length) :
    idAt (m.inode i) (m.data (Ino.blocks (m.inode i) nDirect)) j = (m.fileIds i).getD j 0 := by
  rw [List.getD_eq_getElem _ _ h]
  exact (getElem_idsOf h).symm

/-- Only the direct ids are in the inode. -/
theorem idAt_direct {ino ind ind' : Buffer} (h : j < nDirect) :
    idAt ino ind j = idAt ino ind' j := by
  rw [idAt, idAt, if_pos h, if_pos h]

namespace InodeManager

/-! ## `read_blocks` -/

/-- `read_blocks` reads the blocks it is told to. -/
theorem readBlocks_spec (m : BlockManager) (ino : Buffer) {S E : ℕ} (h : S ≤ E) :
    (readBlocks m ino S E).1 = (List.range' S (E - S)).flatMap (fun j =>
      (m.data (idAt ino (m.data (Ino.blocks ino nDirect)) j)).bytes blockSize) ∧
      Same m (readBlocks m ino S E).2 ∧
      ((∀ j < E, idAt ino (m.data (Ino.blocks ino nDirect)) j < diskDataNum) →
        (nDirect < E → Ino.blocks ino nDirect < diskDataNum) →
        OnTrack m (readBlocks m ino S E).2) := by
  have hloop : ∀ (ind : Buffer) (m₁ : BlockManager), Same m m₁ →
      let r := loop S E (fun i (r : Bytes × BlockManager) =>
        (r.1 ++ (r.2.readData (idAt ino ind i)).1.bytes blockSize,
          (r.2.readData (idAt ino ind i)).2)) ([], m₁)
      r.1 = (List.range' S (E - S)).flatMap (fun j => (m.data (idAt ino ind j)).bytes blockSize) ∧
        Same m r.2 ∧ ((∀ j < E, idAt ino ind j < diskDataNum) → OnTrack m₁ r.2) := by
    intro ind m₁ hsame
    refine loop_induct (P := fun k (r : Bytes × BlockManager) =>
      r.1 = (List.range' S (k - S)).flatMap (fun j => (m.data (idAt ino ind j)).bytes blockSize) ∧
        Same m r.2 ∧ ((∀ j < E, idAt ino ind j < diskDataNum) → OnTrack m₁ r.2)) h
      ⟨by simp, hsame, fun _ => .refl m₁⟩ ?_
    rintro k ⟨out, m₂⟩ hk hkE ⟨hout, hm₂, htrack⟩
    refine ⟨?_, hm₂.trans (.touch ..), fun hids =>
      (htrack hids).trans (.touch (BlockManager.proper_data (hids k hkE)))⟩
    dsimp only at hout ⊢
    rw [hout, Nat.succ_sub hk, List.range'_concat, List.flatMap_append, Nat.one_mul,
      Nat.add_sub_cancel' hk, List.flatMap_singleton]
    exact congrArg (fun b : Buffer => _ ++ b.bytes blockSize) (hm₂.data _)
  by_cases hE : E ≤ nDirect
  · simp only [readBlocks, if_pos hE]
    obtain ⟨hout, hsame, htrack⟩ := hloop Buffer.zero m (.refl m)
    refine ⟨hout.trans (List.flatMap_congr fun j hj => ?_), hsame,
      fun hids _ => htrack fun j hj => ?_⟩
    · have hjE : j < E := by
        rw [List.mem_range'_1] at hj
        omega
      rw [idAt_direct (hjE.trans_le hE)]
    · rw [idAt_direct (hj.trans_le hE)]
      exact hids j hj
  · simp only [readBlocks, if_neg hE]
    obtain ⟨hout, hsame, htrack⟩ := hloop (m.data (Ino.blocks ino nDirect)) _ (.touch ..)
    exact ⟨hout, hsame, fun hids hq =>
      (BlockManager.OnTrack.touch (BlockManager.proper_data (hq (not_le.1 hE)))).trans
        (htrack hids)⟩

/-- What `read_blocks` reads of a file, if neither the ids in its inode nor its blocks have changed
since `m`. -/
theorem readBlocks_file {m₁ : BlockManager} (ino : Buffer) {S E : ℕ} (h : S ≤ E)
    (hE : E ≤ (m.fileIds i).length) (hino : ∀ j, Ino.blocks ino j = Ino.blocks (m.inode i) j)
    (hdata : ∀ x ∈ m.owned i, m₁.data x = m.data x) :
    (readBlocks m₁ ino S E).1.length = (E - S) * blockSize ∧
      (∀ k < (E - S) * blockSize,
        (readBlocks m₁ ino S E).1[k]? = some (byteAt m i (S * blockSize + k))) ∧
      Same m₁ (readBlocks m₁ ino S E).2 ∧
      ((∀ x ∈ m.owned i, x < diskDataNum) → OnTrack m₁ (readBlocks m₁ ino S E).2) := by
  obtain ⟨hout, hsame, htrack⟩ := readBlocks_spec m₁ ino h
  have hid : ∀ j < E, idAt ino (m₁.data (Ino.blocks ino nDirect)) j = (m.fileIds i).getD j 0 := by
    intro j hj
    rw [← idAt_eq (hj.trans_le hE), idAt, idAt, hino, hino]
    by_cases hdir : j < nDirect
    · rw [if_pos hdir, if_pos hdir]
    · rw [if_neg hdir, if_neg hdir,
        hdata _ (BlockManager.mem_owned_indirect (by omega))]
  have hmem : ∀ j < E, (m.fileIds i).getD j 0 ∈ m.owned i := by
    intro j hj
    rw [List.getD_eq_getElem _ _ (hj.trans_le hE)]
    exact List.mem_append_left _ (List.getElem_mem _)
  have hlen : (List.range' S (E - S)).length = E - S := List.length_range'
  refine ⟨by rw [hout, length_flatMap_bytes, hlen], fun k hk => ?_, hsame,
    fun hdisk => htrack (fun j hj => ?_) fun h100 => ?_⟩
  · have hdiv : k / blockSize < E - S := Nat.div_lt_of_lt_mul (by rwa [Nat.mul_comm])
    have hget : (List.range' S (E - S))[k / blockSize]? = some (S + k / blockSize) := by
      rw [List.getElem?_range' hdiv, Nat.one_mul]
    have hlt : S + k / blockSize < E := by omega
    have hpdiv : (S * blockSize + k) / blockSize = S + k / blockSize := by
      rw [Nat.add_comm, Nat.add_mul_div_right _ _ (by simp), Nat.add_comm]
    have hpmod : (S * blockSize + k) % blockSize = k % blockSize := by
      rw [Nat.add_comm, Nat.add_mul_mod_self_right]
    rw [hout, getElem?_flatMap_bytes _ _ (by simp), hget, Option.map_some, hid _ hlt,
      hdata _ (hmem _ hlt), byteAt, hpdiv, hpmod]
  · rw [hid j hj]
    exact hdisk _ (hmem j hj)
  · rw [hino]
    exact hdisk _ (BlockManager.mem_owned_indirect (h100.trans_le hE))

/-! ## `read_file` -/

/-- **What `read_file` ought to do**: it returns the bytes of the file from `offset` on, `size` of
them (all, if `size` is negative) or those that there are, and copies from what it has read. -/
def ReadsSlice (m : BlockManager) (i : ℕ) (size : ℤ) (offset : ℕ) (junk : ℕ → UInt8)
    (now : UInt32) : Prop :=
  ∃ r m', readFile m i size offset junk now = some (r, m') ∧
    r.buf_out = ((m.content i).drop offset).take
      (if size < 0 then m.fileSize i else size.toNat) ∧
    r.ssize = r.buf_out.length ∧ r.copied ≤ r.blocksBuf

/-- The function, its lets taken apart. -/
theorem readFile_eq (m : BlockManager) (i : ℕ) (size : ℤ) (offset : ℕ) (junk : ℕ → UInt8)
    (now : UInt32) :
    let ino := Ino.setAtime (m.inode i) now
    let m₁ := (m.touch (.inode (iblock i))).writeInode i ino
    let n := if size < 0 then m.fileSize i else size.toNat
    let S := offset / blockSize
    let E := min (ceilDiv (offset + n) blockSize) (m.fileIds i).length
    let r := readBlocks m₁ ino S E
    readFile m i size offset junk now =
      if n = 0 then some (⟨0, [], 0, 0⟩, m₁)
      else if E < S then none
      else some (⟨n, (List.range n).map fun k =>
        (r.1[offset % blockSize + k]?).getD (junk (offset % blockSize + k)),
        r.1.length, offset % blockSize + n⟩, r.2) := by
  have hsize : (Ino.size (Ino.setAtime (m.inode i) now)).toNat = m.fileSize i := by
    rw [BlockManager.fileSize, Ino.size, Ino.setAtime, Buffer.word_setWord_ne (by decide)]
    rfl
  have hread : m.readInode i = (m.inode i, m.touch (.inode (iblock i))) := rfl
  simp only [readFile, hread, hsize, length_fileIds, Nat.min_le_right, if_true]

/-- Where the slice ends within the file. -/
theorem readsSlice_of_le {size : ℤ} {offset n : ℕ} {junk : ℕ → UInt8} {now : UInt32}
    (h : Stored m i) (hn : n = if size < 0 then m.fileSize i else size.toNat)
    (hle : n = 0 ∨ offset + n ≤ m.fileSize i) : ReadsSlice m i size offset junk now := by
  have heq := readFile_eq m i size offset junk now
  rw [ReadsSlice, ← hn]
  dsimp only at heq
  rw [← hn] at heq
  rcases Nat.eq_zero_or_pos n with rfl | hpos
  · exact ⟨_, _, heq.trans (if_pos rfl), rfl, rfl, le_rfl⟩
  have hle : offset + n ≤ m.fileSize i := hle.resolve_left hpos.ne'
  have hA : ceilDiv (offset + n) blockSize ≤ (m.fileIds i).length := by
    rw [length_fileIds, ceilDiv_le_iff]
    exact hle.trans (ceilDiv_le_iff.1 le_rfl)
  have hS : offset / blockSize ≤ ceilDiv (offset + n) blockSize :=
    (div_lt_ceilDiv (by omega)).le
  have hE : offset + n ≤ ceilDiv (offset + n) blockSize * blockSize := ceilDiv_le_iff.1 le_rfl
  rw [Nat.min_eq_left hA, if_neg hpos.ne', if_neg (not_lt.2 hS)] at heq
  obtain ⟨hlen, hget, -⟩ := readBlocks_file (Ino.setAtime (m.inode i) now) hS hA
    (fun j => congrArg UInt32.toNat (Buffer.word_setWord_ne (by omega)))
    (fun x hx => BlockManager.data_writeInode (m := m.touch (.inode (iblock i))) h.inum
      (BlockManager.lt_of_onDisk (h.onDisk x hx)))
  generalize readBlocks _ _ _ _ = r at *
  have hdm : offset / blockSize * blockSize + offset % blockSize = offset := Nat.div_add_mod' ..
  have hin : offset % blockSize + n ≤ r.1.length := by
    rw [hlen, Nat.sub_mul]
    omega
  refine ⟨_, _, heq, List.ext_getElem ?_ fun k hk hk' => ?_, by simp, hin⟩
  · rw [List.length_map, List.length_range, List.length_take, List.length_drop, length_content]
    omega
  · rw [List.length_map, List.length_range] at hk
    rw [List.getElem_map, List.getElem_range, hget _ (by omega), List.getElem_take,
      List.getElem_drop, Option.getD_some, ← Nat.add_assoc, hdm]
    exact ((List.getElem_eq_iff _).2 (getElem?_content_byteAt (by omega))).symm

/-- As many bytes come back as were asked for. -/
theorem le_of_readsSlice {size : ℤ} {offset : ℕ} {junk : ℕ → UInt8} {now : UInt32}
    (h : ReadsSlice m i size offset junk now) : size ≤ 0 ∨ offset + size ≤ m.fileSize i := by
  obtain ⟨r, m', hr, hbuf, hlen, -⟩ := h
  by_cases hsize : size ≤ 0
  · exact .inl hsize
  · have hnot : ¬ size < 0 := by omega
    have hpos : size.toNat ≠ 0 := by omega
    rw [readFile_eq, if_neg hnot, if_neg hpos] at hr
    obtain ⟨-, hr⟩ := Option.ite_none_left_eq_some.1 hr
    obtain ⟨rfl, -⟩ := Prod.mk.inj (Option.some_inj.1 hr)
    rw [if_neg hnot] at hbuf
    rw [hbuf, List.length_take, List.length_drop, length_content] at hlen
    dsimp only at hlen
    omega

/-- **`read_file` returns the slice exactly if it does not reach beyond the end of the file** (or
is empty). -/
theorem read_slice_iff {size : ℤ} {offset : ℕ} (h : Stored m i) (hneg : size < 0 → offset = 0)
    (junk : ℕ → UInt8) (now : UInt32) :
    ReadsSlice m i size offset junk now ↔ size ≤ 0 ∨ offset + size ≤ m.fileSize i := by
  refine ⟨le_of_readsSlice, fun hle => readsSlice_of_le h rfl ?_⟩
  by_cases hsize : size < 0
  · rw [if_pos hsize, hneg hsize, Nat.zero_add]
    exact .inr le_rfl
  · rw [if_neg hsize]
    omega

/-- A disk with a file of three bytes. -/
def threeBytes : BlockManager where
  blocks a :=
    if a = iblock 1 then Buffer.zero.setWord 4 3
    else if a = bblock 0 then fun k => if k < 3 then 7 else 0
    else Buffer.zero
  freedData := ∅
  freedInode := ∅
  accesses := []

theorem stored_threeBytes : Stored threeBytes 1 ∧ threeBytes.fileSize 1 = 3 := by
  have hino : threeBytes.inode 1 = Buffer.zero.setWord 4 3 := rfl
  have hsize : threeBytes.fileSize 1 = 3 := by
    rw [BlockManager.fileSize, hino, Ino.size, Buffer.word_setWord_self]
    rfl
  have hlen : (threeBytes.fileIds 1).length = 1 := by rw [length_fileIds, hsize]; rfl
  refine ⟨⟨by simp, by rw [hsize]; decide, fun x hx => ?_⟩, hsize⟩
  rw [BlockManager.owned, BlockManager.indirectId, if_neg (by rw [hlen]; decide),
    List.append_nil] at hx
  obtain ⟨j, hj, rfl⟩ := List.getElem_of_mem hx
  obtain rfl : j = 0 := by omega
  refine lt_of_eq_of_lt (@getElem_idsOf threeBytes _ (threeBytes.inode 1) _) ?_
  rw [hino, idAt, if_pos (by simp), Ino.blocks, Buffer.word_setWord_ne (by decide),
    Buffer.word_zero]
  decide

/-- The second and the third byte. -/
theorem read_slice_threeBytes : ReadsSlice threeBytes 1 2 1 (fun _ => 0) 0 :=
  (read_slice_iff stored_threeBytes.1 (by decide) (fun _ => 0) 0).2
    (.inr (by rw [stored_threeBytes.2]; decide))

/-- **Ten bytes come back of a file that has three.** -/
theorem not_reads_slice : ¬ ∀ m i size offset junk now, Stored m i → (size < 0 → offset = 0) →
    ReadsSlice m i size offset junk now := by
  intro hall
  have hle := le_of_readsSlice
    (hall threeBytes 1 10 0 (fun _ => 0) 0 stored_threeBytes.1 (by decide))
  rw [stored_threeBytes.2] at hle
  exact absurd hle (by decide)

end InodeManager

end Lab2
end CseLab
