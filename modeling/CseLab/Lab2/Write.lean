import CseLab.Inode.Space
import CseLab.Lab2.Read

/-!
# What `write_file` does

It stages blocks (`stagedAt`): the bytes of the written part, the bytes the file's blocks have where
there are any, zeros elsewhere.  The loop stores them in the file's blocks and in new ones, and what
it leaves is told with `Laid` as in the other lab, with the file as it is to be (`written`) for the
buffer.

`writeFile_spec` is about calls that have room and do not give the indirect block back; which blocks
they free comes with it.
-/

set_option autoImplicit false

namespace CseLab
namespace Lab2

open Inode
open Inode.BlockManager (diskDataNum diskDataNum_eq idAt Same Keeps OnTrack Laid Ready Written
  getElem_notMem_take roomy_iff length_fileIds lt_of_onDisk inUse)

namespace InodeManager

variable {m m' m₀ : BlockManager} {i j : ℕ} {buf : Bytes} {off : ℕ} {files : Finset ℕ}

/-! ## Where a write starts and ends -/

/-- `startBlock`. -/
def startBlock (m : BlockManager) (i off : ℕ) : ℕ :=
  min (off / blockSize) (m.fileSize i / blockSize)

/-- `endBlock`. -/
def endBlock (buf : Bytes) (off : ℕ) : ℕ := ceilDiv (off + buf.length) blockSize

/-- Byte `p` of the file, as it is staged. -/
def stagedAt (m : BlockManager) (i : ℕ) (buf : Bytes) (off p : ℕ) : UInt8 :=
  if off ≤ p ∧ p < off + buf.length then buf.getD (p - off) 0
  else if p < (m.fileIds i).length * blockSize then byteAt m i p
  else 0

/-- How long the file is afterwards. -/
def newSize (m : BlockManager) (i : ℕ) (buf : Bytes) (off : ℕ) (free_end : Bool) : ℕ :=
  if free_end then off + buf.length else max (m.fileSize i) (off + buf.length)

/-- The bytes of its blocks afterwards. -/
def written (m : BlockManager) (i : ℕ) (buf : Bytes) (off : ℕ) (free_end : Bool) : Bytes :=
  (List.range (ceilDiv (newSize m i buf off free_end) blockSize * blockSize)).map
    (stagedAt m i buf off)

/-- What is read of the file before the written part is put in. -/
def oldBlocks (m : BlockManager) (ino : Buffer) (S A E : ℕ) : Bytes × BlockManager :=
  if S < A then readBlocks m ino S (min A E) else ([], m)

/-- The function, its lets taken apart. -/
theorem writeFile_eq (m : BlockManager) (i : ℕ) (buf : Bytes) (off : ℕ) (free_end : Bool)
    (junk : Buffer) (now : UInt32) :
    let A := (m.fileIds i).length
    let S := startBlock m i off
    let E := endBlock buf off
    let o := oldBlocks (m.touch (.inode (iblock i))) (m.inode i) S A E
    let buff := memcpy (memcpy Buffer.zero 0 o.1)
      ((off / blockSize - S) * blockSize + off % blockSize) buf
    writeFile m i buf off free_end junk now =
      if maxFile < E then none
      else (takeIndirect o.2 (m.inode i) A E).bind fun r =>
        let d := if nDirect < E then r.2.readData (Ino.blocks r.1 nDirect) else (junk, r.2)
        (loop S E (storeBlock A S buff) (some (r.1, d.1, d.2))).map fun s =>
          let f := if free_end then freeEnd s.2.2 s.1 s.2.1 A E else ([], s.2.2)
          let ino := Ino.setTimes
            (if free_end ∨ (Ino.size s.1).toNat < off + buf.length then
              Ino.setSize s.1 (UInt32.ofNat (off + buf.length)) else s.1) now
          (f.1, if nDirect < E then
            (f.2.writeInode i ino).writeData (Ino.blocks ino nDirect) s.2.1
            else f.2.writeInode i ino) := by
  rw [length_fileIds]
  rfl

/-! ## What is staged -/

theorem startBlock_le (m : BlockManager) (i : ℕ) (buf : Bytes) (off : ℕ) :
    startBlock m i off * blockSize ≤ off ∧ startBlock m i off * blockSize ≤ m.fileSize i ∧
      startBlock m i off ≤ (m.fileIds i).length ∧ startBlock m i off ≤ endBlock buf off := by
  have hoff : startBlock m i off ≤ off / blockSize := Nat.min_le_left ..
  have hsize : startBlock m i off ≤ m.fileSize i / blockSize := Nat.min_le_right ..
  have hA : m.fileSize i ≤ (m.fileIds i).length * blockSize := by
    rw [length_fileIds]
    exact ceilDiv_le_iff.1 le_rfl
  have hE : off + buf.length ≤ endBlock buf off * blockSize := ceilDiv_le_iff.1 le_rfl
  simp only [blockSize_eq] at *
  omega

/-- The part of the file that is read is staged as it is. -/
theorem oldBlocks_spec {m₁ : BlockManager} (hsame : Same m m₁) {S E : ℕ} (hSE : S ≤ E) :
    (∀ k < (oldBlocks m₁ (m.inode i) S (m.fileIds i).length E).1.length,
      (oldBlocks m₁ (m.inode i) S (m.fileIds i).length E).1[k]? =
        some (byteAt m i (S * blockSize + k))) ∧
      (∀ k < (E - S) * blockSize,
        k < (oldBlocks m₁ (m.inode i) S (m.fileIds i).length E).1.length ↔
          S * blockSize + k < (m.fileIds i).length * blockSize) ∧
      Same m (oldBlocks m₁ (m.inode i) S (m.fileIds i).length E).2 ∧
      ((∀ x ∈ m.owned i, x < diskDataNum) →
        OnTrack m₁ (oldBlocks m₁ (m.inode i) S (m.fileIds i).length E).2) := by
  rw [oldBlocks]
  by_cases hSA : S < (m.fileIds i).length
  · rw [if_pos hSA]
    obtain ⟨hlen, hget, hread, htrack⟩ := @readBlocks_file m i m₁ (m.inode i) S _
      (Nat.le_min.2 ⟨hSA.le, hSE⟩) (Nat.min_le_left ..) (fun _ => rfl) (fun x _ => hsame.data x)
    refine ⟨fun k hk => hget k (hlen ▸ hk), fun k hk => ?_, hsame.trans hread, htrack⟩
    rw [hlen]
    simp only [blockSize_eq] at *
    omega
  · rw [if_neg hSA]
    refine ⟨fun k hk => absurd hk (Nat.not_lt_zero k), fun k hk => ?_, hsame, fun _ => .refl m₁⟩
    have hle := Nat.mul_le_mul_right blockSize (not_lt.1 hSA)
    simp only [List.length_nil, Nat.not_lt_zero, false_iff, not_lt]
    omega

/-- What is staged. -/
theorem staged_eq {old : Bytes} {k : ℕ}
    (hold : ∀ k < old.length, old[k]? = some (byteAt m i (startBlock m i off * blockSize + k)))
    (hlen : k < old.length ↔
      startBlock m i off * blockSize + k < (m.fileIds i).length * blockSize) :
    memcpy (memcpy Buffer.zero 0 old)
      ((off / blockSize - startBlock m i off) * blockSize + off % blockSize) buf k =
      stagedAt m i buf off (startBlock m i off * blockSize + k) := by
  have hS : startBlock m i off ≤ off / blockSize := Nat.min_le_left ..
  generalize startBlock m i off = S at *
  have hpos : S * blockSize + ((off / blockSize - S) * blockSize + off % blockSize) = off := by
    simp only [blockSize_eq] at hS ⊢
    omega
  generalize (off / blockSize - S) * blockSize + off % blockSize = pos at *
  subst hpos
  rw [stagedAt, memcpy]
  by_cases hin : pos ≤ k ∧ k < pos + buf.length
  · rw [if_pos hin, if_pos (by omega), Nat.add_sub_add_left]
  · rw [if_neg hin, if_neg (by omega), memcpy, Nat.zero_add, Nat.sub_zero]
    by_cases hk : k < old.length
    · rw [if_pos ⟨Nat.zero_le k, hk⟩, if_pos (hlen.1 hk), List.getD_eq_getElem?_getD, hold k hk,
        Option.getD_some]
    · rw [if_neg (by omega), if_neg (mt hlen.2 hk)]
      rfl

theorem length_written (free_end : Bool) : (written m i buf off free_end).length =
    ceilDiv (newSize m i buf off free_end) blockSize * blockSize := by
  rw [written, List.length_map, List.length_range]

theorem le_newSize {free_end : Bool} : off + buf.length ≤ newSize m i buf off free_end := by
  rw [newSize]
  split
  · exact le_rfl
  · exact le_max_right ..

theorem newSize_le {free_end : Bool} (hsize : m.fileSize i ≤ maxFile * blockSize)
    (hlen : off + buf.length ≤ maxFile * blockSize) :
    newSize m i buf off free_end ≤ maxFile * blockSize := by
  rw [newSize]
  split
  · exact hlen
  · exact max_le hsize hlen

theorem length_take_written (free_end : Bool) :
    ((written m i buf off free_end).take (newSize m i buf off free_end)).length =
      newSize m i buf off free_end := by
  rw [List.length_take, length_written]
  exact Nat.min_eq_left (ceilDiv_le_iff.1 le_rfl)

theorem getElem?_written {free_end : Bool} {p : ℕ} {x : UInt8}
    (h : (written m i buf off free_end)[p]? = some x) : x = stagedAt m i buf off p := by
  obtain ⟨hp, rfl⟩ := List.getElem?_eq_some_iff.1 h
  simp only [written, List.getElem_map, List.getElem_range]

/-- A block as it is staged. -/
theorem holds_staged {b : Buffer} {free_end : Bool}
    (hb : ∀ k < blockSize, b k = stagedAt m i buf off (j * blockSize + k)) :
    Holds b (written m i buf off free_end) j := by
  intro k hk x hx
  rw [Nat.mul_comm] at hx
  rw [hb k hk, getElem?_written hx]

/-- A block of the file that is not written. -/
theorem holds_old {free_end : Bool} (hj : j < (m.fileIds i).length)
    (hout : (j + 1) * blockSize ≤ off ∨ off + buf.length ≤ j * blockSize) :
    Holds (m.data ((m.fileIds i).getD j 0)) (written m i buf off free_end) j := by
  refine holds_staged fun k hk => ?_
  have hdiv : (j * blockSize + k) / blockSize = j := by
    rw [Nat.add_comm, Nat.add_mul_div_right _ _ (by simp), Nat.div_eq_of_lt hk, Nat.zero_add]
  have hmod : (j * blockSize + k) % blockSize = k := by
    rw [Nat.add_comm, Nat.add_mul_mod_self_right, Nat.mod_eq_of_lt hk]
  have hlt := Nat.mul_le_mul_right blockSize (Nat.succ_le_of_lt hj)
  rw [Nat.succ_mul] at hlt
  rw [Nat.succ_mul] at hout
  rw [stagedAt, if_neg (by omega), if_pos (by omega), byteAt, hdiv, hmod]

/-- Blocks that were there all along. -/
theorem laid_old {F : Bytes} {L taken : List ℕ} {lo hi : ℕ} (hle : lo ≤ hi) (hhi : hi ≤ L.length)
    (hnodup : L.Nodup) (hdisk : ∀ x ∈ L, x < diskDataNum)
    (hb : ∀ j, lo ≤ j → j < hi → Holds (m₀.data (L.getD j 0)) F j)
    (h : Laid m₀ F (L.take lo) taken m) : Laid m₀ F (L.take hi) taken m := by
  induction hi, hle using Nat.le_induction with
  | base => exact h
  | succ n hn ih =>
    have hlt : n < L.length := hhi
    have hget : L.getD n 0 = L[n] := List.getD_eq_getElem _ _ hlt
    rw [List.take_succ_eq_append_getElem hlt]
    refine (ih hlt.le fun j hj hjn => hb j hj (hjn.trans (Nat.lt_succ_self n))).old
      (hdisk _ (List.getElem_mem hlt)) (getElem_notMem_take hnodup hlt) ?_
    rw [List.length_take, Nat.min_eq_left hlt.le, ← hget]
    exact hb n hn (Nat.lt_succ_self n)

/-! ## The loop -/

/-- A block is allocated where there is room. -/
theorem alloc_laid {F : Bytes} {L taken : List ℕ} (h : Laid m₀ F L taken m)
    (hpool : ∀ x ∈ m₀.freedData, x < dataBlockNum)
    (hcard : taken.length + 10 < m₀.freedData.card) :
    ∃ id m', allocBlock m = some (id, m') ∧ id ∈ m₀.freedData ∧ id ∉ taken ∧ id < diskDataNum ∧
      Laid m₀ F L (taken ++ [id]) m' := by
  have hcount := h.card
  have hne : m.freedData.Nonempty := Finset.card_pos.1 (by omega)
  have hroom : m.allocBlock.2.Roomy := by
    have hleft := BlockManager.card_allocBlock m
    rw [roomy_iff]
    omega
  obtain ⟨-, hfree, hnot, hdisk, hlaid⟩ := h.alloc hpool hroom
  have heq : allocBlock m = some (m.allocBlock.1,
      saveBitmap m.allocBlock.2 false (asInt m.allocBlock.1) true) := by
    rw [allocBlock, BlockManager.allocBlock, dif_pos hne, dif_pos hne]
  refine ⟨_, _, heq, hfree, hnot, hdisk, hlaid.keeps (saveBitmap_keeps ?_ (by simp))
    (saveBitmap_freedData ..)⟩
  exact lt_of_onDisk hdisk

/-- An id goes on record where it belongs. -/
theorem idAt_put {ino ind : Buffer} {k id : ℕ} (hid : id < diskDataNum) :
    let r := if k < nDirect then (Ino.setBlocks ino k id, ind)
      else (ino, ind.setWord (k - nDirect) (UInt32.ofNat id))
    ∀ j, idAt r.1 r.2 j = if j = k then id else idAt ino ind j := by
  intro r j
  simp only [r, idAt]
  split
  next hj =>
    split
    next => exact BlockManager.blocks_setBlocks hid
    next => rw [if_neg (by omega)]
  next hj =>
    split
    next => rw [if_neg (by omega)]
    next hk =>
      by_cases hjk : j = k
      · rw [hjk, Buffer.word_setWord_self, if_pos rfl, BlockManager.toNat_ofNat_id hid]
      · rw [Buffer.word_setWord_ne (by omega), if_neg hjk]

/-- How far the loop has come: the file has the blocks `ids`, of which those before `k` are as they
should be, and `got` besides; `taken` was allocated before. -/
structure Storing (m₀ : BlockManager) (F : Bytes) (ids taken : List ℕ) (E : ℕ) (ino₁ : Buffer)
    (k : ℕ) (got : List ℕ) (ino ind : Buffer) (m : BlockManager) : Prop where
  len : got.length = k - ids.length
  laid : Laid m₀ F ((ids ++ got).take k) (taken ++ got) m
  ids : ∀ j x, (j < nDirect ∨ nDirect < E) → (ids ++ got)[j]? = some x → idAt ino ind j = x
  ino : ∀ w, w < 5 ∨ 5 + nDirect ≤ w → ino.word w = ino₁.word w

theorem Storing.step {F : Bytes} {ids taken got : List ℕ} {S E k : ℕ}
    {ino₁ ino ind buff : Buffer} (h : Storing m₀ F ids taken E ino₁ k got ino ind m)
    (hpool : ∀ x ∈ m₀.freedData, x < dataBlockNum) (hnodup : ids.Nodup)
    (hdisk : ∀ x ∈ ids, x < diskDataNum) (hfresh : ∀ x ∈ ids, x ∉ m₀.freedData)
    (hcard : taken.length + (E - ids.length) + 10 ≤ m₀.freedData.card) (hk : k < E)
    (hbuff : Holds (fun b => buff ((k - S) * blockSize + b)) F k) :
    ∃ got' ino' ind' m', storeBlock ids.length S buff k (some (ino, ind, m)) =
      some (ino', ind', m') ∧ Storing m₀ F ids taken E ino₁ (k + 1) got' ino' ind' m' := by
  obtain ⟨hlen, hlaid, hids, hino⟩ := h
  by_cases hkA : k < ids.length
  · -- one of the file's own
    obtain rfl : got = [] := List.length_eq_zero_iff.1 (by omega)
    simp only [List.append_nil] at hlaid hids
    have hid : idAt ino ind k = ids[k] :=
      hids k _ (by omega) (List.getElem?_eq_getElem hkA)
    refine ⟨[], ino, ind, _, if_pos hkA, by rw [List.length_nil]; omega, ?_, by simpa using hids,
      hino⟩
    rw [List.append_nil, List.append_nil, List.take_succ_eq_append_getElem hkA, hid]
    refine hlaid.write (hdisk _ (List.getElem_mem hkA)) (getElem_notMem_take hnodup hkA) ?_
    rwa [List.length_take, Nat.min_eq_left hkA.le]
  · -- a new one
    have htake : (ids ++ got).take k = ids ++ got :=
      List.take_of_length_le (by rw [List.length_append]; omega)
    have hlenL : (ids ++ got).length = k := by rw [List.length_append]; omega
    rw [htake] at hlaid
    obtain ⟨id, m₁, halloc, hfree, hnot, hid, hlaid₁⟩ := alloc_laid hlaid hpool (by
      rw [List.length_append]
      omega)
    have hput := @idAt_put ino ind k id hid
    have hnew : id ∉ ids ++ got := by
      rw [List.mem_append]
      rintro (hmem | hmem)
      · exact hfresh id hmem hfree
      · exact hnot (List.mem_append_right _ hmem)
    have hstore : storeBlock ids.length S buff k (some (ino, ind, m)) = some
        ((if k < nDirect then (Ino.setBlocks ino k id, ind)
          else (ino, ind.setWord (k - nDirect) (UInt32.ofNat id))).1,
        (if k < nDirect then (Ino.setBlocks ino k id, ind)
          else (ino, ind.setWord (k - nDirect) (UInt32.ofNat id))).2,
        m₁.writeData id fun b => buff ((k - S) * blockSize + b)) := by
      simp only [storeBlock, Option.bind_some, if_neg hkA, halloc, Option.map_some]
      split <;> rfl
    refine ⟨got ++ [id], _, _, _, hstore, ?_, ?_, fun j x hj hx => ?_, fun w hw => ?_⟩
    · rw [List.length_append, List.length_singleton]
      omega
    · rw [← List.append_assoc, ← List.append_assoc,
        List.take_of_length_le (by rw [List.length_append, hlenL]; simp)]
      exact hlaid₁.write hid hnew (hlenL.symm ▸ hbuff)
    · rw [hput]
      rw [← List.append_assoc] at hx
      split
      next hjk =>
        rw [hjk, ← hlenL, List.getElem?_concat_length, Option.some_inj] at hx
        exact hx
      next hjk =>
        refine hids j x hj ?_
        rwa [List.getElem?_append_left] at hx
        have hlt := (List.getElem?_eq_some_iff.1 hx).1
        rw [List.length_append, List.length_singleton] at hlt
        omega
    · rw [← hino w hw]
      split
      next => exact Buffer.word_setWord_ne (by omega)
      next => rfl

/-- The whole loop. -/
theorem storing_loop {F : Bytes} {ids taken : List ℕ} {S E : ℕ} {ino₁ ino ind buff : Buffer}
    (h : Storing m₀ F ids taken E ino₁ S [] ino ind m)
    (hpool : ∀ x ∈ m₀.freedData, x < dataBlockNum) (hnodup : ids.Nodup)
    (hdisk : ∀ x ∈ ids, x < diskDataNum) (hfresh : ∀ x ∈ ids, x ∉ m₀.freedData)
    (hcard : taken.length + (E - ids.length) + 10 ≤ m₀.freedData.card) (hSE : S ≤ E)
    (hbuff : ∀ k, S ≤ k → k < E → Holds (fun b => buff ((k - S) * blockSize + b)) F k) :
    ∃ got ino' ind' m', loop S E (storeBlock ids.length S buff) (some (ino, ind, m)) =
      some (ino', ind', m') ∧ Storing m₀ F ids taken E ino₁ E got ino' ind' m' := by
  refine loop_induct (P := fun k o => ∃ got ino' ind' m', o = some (ino', ind', m') ∧
    Storing m₀ F ids taken E ino₁ k got ino' ind' m') hSE ⟨[], ino, ind, m, rfl, h⟩ ?_
  rintro k _ hSk hk ⟨got, ino', ind', m', rfl, hk'⟩
  exact hk'.step hpool hnodup hdisk hfresh hcard hk (hbuff k hSk hk)

/-- A loop over the file's own blocks. -/
theorem loop_old (ino ind buff : Buffer) (m : BlockManager) {S E A : ℕ} (h : E ≤ A) :
    ∃ m', loop S E (storeBlock A S buff) (some (ino, ind, m)) = some (ino, ind, m') := by
  refine loop_keeps (P := fun o => ∃ m', o = some (ino, ind, m')) ⟨m, rfl⟩ ?_
  rintro k _ - hk ⟨m', rfl⟩
  exact ⟨_, if_pos (hk.trans_le h)⟩

/-- The block for the ids that the inode has no room for. -/
theorem takeIndirect_spec {F : Bytes} {L : List ℕ} {A E : ℕ} (ino : Buffer)
    (h : Laid m₀ F L [] m) (hpool : ∀ x ∈ m₀.freedData, x < dataBlockNum)
    (hcard : nDirect < E → A ≤ nDirect → 10 < m₀.freedData.card) :
    ∃ ino₁ taken m₁, takeIndirect m ino A E = some (ino₁, m₁) ∧ Laid m₀ F L taken m₁ ∧
      (∀ w ≠ 5 + nDirect, ino₁.word w = ino.word w) ∧
      (nDirect < E ∧ A ≤ nDirect ∧ taken = [Ino.blocks ino₁ nDirect] ∨
        ¬ (nDirect < E ∧ A ≤ nDirect) ∧ taken = [] ∧ ino₁ = ino) := by
  rw [takeIndirect]
  split
  next hcross =>
    obtain ⟨id, m₁, halloc, -, -, hid, hlaid⟩ := alloc_laid h hpool
      (by simpa using hcard hcross.1 hcross.2)
    rw [halloc]
    refine ⟨_, _, _, rfl, hlaid, fun w hw => Buffer.word_setWord_ne hw,
      .inl ⟨hcross.1, hcross.2, ?_⟩⟩
    rw [BlockManager.blocks_setBlocks hid, if_pos rfl]
    rfl
  next hcross => exact ⟨ino, [], m, rfl, h, fun _ _ => rfl, .inr ⟨hcross, rfl, rfl⟩⟩

/-! ## What is freed -/

theorem keeps_freeBlock {id : ℕ} (hid : id < dataBlockNum) : Keeps m (freeBlock m id) :=
  have hset : Keeps m { m with freedData := insert id m.freedData } :=
    ⟨fun _ _ => rfl, fun _ _ => rfl, rfl, .refl m⟩
  hset.trans (saveBitmap_keeps hid (by simp))

/-- A loop that frees blocks. -/
theorem freeLoop_spec (m : BlockManager) (f : ℕ → ℕ) {lo hi : ℕ} (h : lo ≤ hi)
    (hf : ∀ j, lo ≤ j → j < hi → f j < dataBlockNum) :
    let r := loop lo hi (fun j m => freeBlock m (f j)) m
    Keeps m r ∧ ∀ x, x ∈ r.freedData ↔
      x ∈ m.freedData ∨ x ∈ (List.range' lo (hi - lo)).map f := by
  refine loop_induct (P := fun k r => Keeps m r ∧ ∀ x, x ∈ r.freedData ↔
    x ∈ m.freedData ∨ x ∈ (List.range' lo (k - lo)).map f) h
    ⟨(Same.refl m).keeps (.refl m), fun x => by simp⟩ ?_
  rintro k r hlo hhi ⟨hk, hfree⟩
  refine ⟨hk.trans (keeps_freeBlock (hf k hlo hhi)), fun x => ?_⟩
  rw [freeBlock, saveBitmap_freedData, Finset.mem_insert, hfree, Nat.succ_sub hlo,
    List.range'_concat, List.map_append, List.mem_append, Nat.one_mul, Nat.add_sub_cancel' hlo,
    List.map_singleton, List.mem_singleton, or_comm, or_assoc]

/-- The ids that are given to `free_block`, whatever they are. -/
theorem freeTail_eq (m : BlockManager) (ino ind : Buffer) {lo hi : ℕ} (h : lo ≤ hi) :
    loop lo hi (freeTail ino ind) ([], m) = ((List.range' lo (hi - lo)).map (idAt ino ind),
      loop lo hi (fun j m => freeBlock m (idAt ino ind j)) m) := by
  refine loop_induct (P := fun k r => r = ((List.range' lo (k - lo)).map (idAt ino ind),
    loop lo k (fun j m => freeBlock m (idAt ino ind j)) m)) h ?_ ?_
  · rw [Nat.sub_self, loop_of_le le_rfl]
    rfl
  · rintro k r hk - rfl
    rw [loop_succ hk, Nat.succ_sub hk, List.range'_concat, List.map_append, Nat.one_mul,
      Nat.add_sub_cancel' hk]
    rfl

/-- The ids of the file's blocks from `E` on. -/
theorem drop_eq_map {ids : List ℕ} {E : ℕ} {f : ℕ → ℕ}
    (h : ∀ j, E ≤ j → j < ids.length → f j = ids.getD j 0) :
    (List.range' E (ids.length - E)).map f = ids.drop E := by
  refine List.ext_getElem (by simp) fun k hk hk' => ?_
  rw [List.length_drop] at hk'
  rw [List.getElem_map, List.getElem_range', Nat.one_mul, List.getElem_drop,
    h _ (Nat.le_add_right ..) (by omega), List.getD_eq_getElem]

theorem freeEnd_eq {ino ind : Buffer} {A E : ℕ} (h : ¬ (E ≤ nDirect ∧ nDirect < A)) :
    freeEnd m ino ind A E = loop E A (freeTail ino ind) ([], m) := by
  rw [freeEnd]
  exact if_neg h

/-- The table of ids that the loop goes by is the file's where it is looked at. -/
theorem idAt_of_loaded {ind : Buffer} {E : ℕ}
    (hind : nDirect < E → ind = m.data (Ino.blocks (m.inode i) nDirect))
    (hj : j < (m.fileIds i).length) (hE : j < nDirect ∨ nDirect < E) :
    idAt (m.inode i) ind j = (m.fileIds i).getD j 0 := by
  rw [← idAt_eq hj]
  rcases hE with hdir | h100
  · exact idAt_direct hdir
  · rw [hind h100]

/-! ## Before the inode is written -/

theorem keeps_writeData {q : ℕ} {b : Buffer} (hq : q < diskDataNum) (h : m.data q = b) :
    Keeps m (m.writeData q b) := by
  refine ⟨fun x hx => ?_, fun j hj => BlockManager.inode_writeData hq hj,
    BlockManager.writeData_freedInode b, .writeData hq⟩
  rw [BlockManager.data_writeData hq hx]
  split
  next hxq => rw [hxq, h]
  next => rfl

/-- The end of the file is cut off, and its indirect block stays if there is one. -/
theorem ready_cut {F : Bytes} {ind : Buffer} {E : ℕ} (h : m₀.Sound files) (hi : i ∈ files)
    (hE : E = ceilDiv F.length blockSize) (hle : E ≤ (m₀.fileIds i).length)
    (hcross : ¬ (E ≤ nDirect ∧ nDirect < (m₀.fileIds i).length))
    (hind : nDirect < E → ind = m₀.data (Ino.blocks (m₀.inode i) nDirect))
    (hlaid : Laid m₀ F ((m₀.fileIds i).take E) [] m) :
    let f := freeEnd m (m₀.inode i) ind (m₀.fileIds i).length E
    f.1 = (m₀.fileIds i).drop E ∧ ∃ L Q, Ready m₀ i F L Q (m₀.inode i)
      (if nDirect < E then f.2.writeData (Ino.blocks (m₀.inode i) nDirect) ind else f.2) := by
  have hids : ∀ j, E ≤ j → j < (m₀.fileIds i).length →
      idAt (m₀.inode i) ind j = (m₀.fileIds i).getD j 0 := fun j hEj hj =>
    idAt_of_loaded hind hj (by omega)
  obtain ⟨hkeeps, hfree⟩ := freeLoop_spec m (idAt (m₀.inode i) ind) hle fun j hEj hj => by
    rw [hids j hEj hj, List.getD_eq_getElem _ _ hj]
    exact lt_of_onDisk (h.ids_onDisk hi _ (List.getElem_mem hj))
  rw [freeEnd_eq hcross, freeTail_eq m _ _ hle, drop_eq_map hids]
  rw [drop_eq_map hids] at hfree
  generalize loop E (m₀.fileIds i).length (fun j m => freeBlock m (idAt (m₀.inode i) ind j)) m = f
    at *
  have hfree' : ∀ x, x ∈ f.freedData ↔ x ∈ m.freedData ∨ x ∈ (m₀.fileIds i).drop E ∨
      nDirect < (m₀.fileIds i).length ∧ E ≤ nDirect ∧ x = Ino.blocks (m₀.inode i) nDirect := by
    intro x
    rw [hfree x]
    refine or_congr_right (or_iff_left ?_).symm
    rintro ⟨h100, hE100, -⟩
    exact hcross ⟨hE100, h100⟩
  refine ⟨rfl, ?_⟩
  split
  next h100 =>
    -- the indirect block is written back as it was
    have hqmem := BlockManager.mem_owned_indirect (h100.trans_le hle)
    have hq := h.onDisk i hi _ hqmem
    have hnot : Ino.blocks (m₀.inode i) nDirect ∉ (m₀.fileIds i).take E := fun hmem =>
      h.indirect_notMem hi (h100.trans_le hle) (List.mem_of_mem_take hmem)
    have hlt := lt_of_onDisk hq
    have hdata : f.data (Ino.blocks (m₀.inode i) nDirect) = ind :=
      (hkeeps.data _ hlt).trans ((hlaid.rest _ hlt hnot).trans (hind h100).symm)
    exact BlockManager.ready_of_freed h hi hE hle hlaid (hkeeps.trans (keeps_writeData hq hdata))
      fun x => by rw [BlockManager.writeData_freedData, hfree' x]
  next => exact BlockManager.ready_of_freed h hi hE hle hlaid hkeeps hfree'

/-- The file's indirect block before the loop: a new one that has been taken, or the old one, which
has been read if it is needed. -/
def Indirect (m : BlockManager) (i E : ℕ) (taken : List ℕ) (ino ind : Buffer) : Prop :=
  nDirect < E ∧ (m.fileIds i).length ≤ nDirect ∧ taken = [Ino.blocks ino nDirect] ∨
    ¬ (nDirect < E ∧ (m.fileIds i).length ≤ nDirect) ∧ taken = [] ∧ ino = m.inode i ∧
      (nDirect < E → ind = m.data (Ino.blocks (m.inode i) nDirect))

theorem Indirect.length_taken {E : ℕ} {taken : List ℕ} {ino ind : Buffer}
    (h : Indirect m i E taken ino ind) :
    taken.length = if nDirect < E ∧ (m.fileIds i).length ≤ nDirect then 1 else 0 := by
  rcases h with ⟨h100, hA, rfl⟩ | ⟨hcross, rfl, -⟩
  · exact (if_pos ⟨h100, hA⟩).symm
  · exact (if_neg hcross).symm

/-- What has been done before the loop. -/
theorem prepare_spec {F : Bytes} {S E : ℕ} (h : m.Sound files) (hi : i ∈ files) (junk : Buffer)
    (hSA : S ≤ (m.fileIds i).length) (hlaid : Laid m F ((m.fileIds i).take S) [] m₀)
    (hcard : nDirect < E → (m.fileIds i).length ≤ nDirect → 10 < m.freedData.card) :
    ∃ ino taken m₁, takeIndirect m₀ (m.inode i) (m.fileIds i).length E = some (ino, m₁) ∧
      let d := if nDirect < E then m₁.readData (Ino.blocks ino nDirect) else (junk, m₁)
      Storing m F (m.fileIds i) taken E ino S [] ino d.1 d.2 ∧
        (∀ w ≠ 5 + nDirect, ino.word w = (m.inode i).word w) ∧
        Indirect m i E taken ino d.1 := by
  obtain ⟨ino, taken, m₁, heq, hlaid₁, hwords, hwhich⟩ :=
    takeIndirect_spec (m.inode i) hlaid h.pool hcard
  refine ⟨ino, taken, m₁, heq, ?_⟩
  have hindirect : Indirect m i E taken ino
      (if nDirect < E then m₁.readData (Ino.blocks ino nDirect) else (junk, m₁)).1 := by
    refine hwhich.imp_right ?_
    rintro ⟨hcross, htaken, rfl⟩
    refine ⟨hcross, htaken, rfl, fun h100 => ?_⟩
    have hqA : nDirect < (m.fileIds i).length := not_le.1 fun hle => hcross ⟨h100, hle⟩
    rw [if_pos h100]
    exact hlaid₁.rest _ (lt_of_onDisk (h.onDisk i hi _ (BlockManager.mem_owned_indirect hqA)))
      fun hmem => h.indirect_notMem hi hqA (List.mem_of_mem_take hmem)
  have hq : nDirect < E → Ino.blocks ino nDirect < diskDataNum := by
    intro h100
    rcases hwhich with ⟨-, -, htaken⟩ | ⟨hcross, -, rfl⟩
    · exact hlaid₁.taken_onDisk _ (htaken ▸ List.mem_singleton_self _)
    · exact h.onDisk i hi _ (BlockManager.mem_owned_indirect (not_le.1 fun hle =>
        hcross ⟨h100, hle⟩))
  have hd : Laid m F ((m.fileIds i).take S) taken
      (if nDirect < E then m₁.readData (Ino.blocks ino nDirect) else (junk, m₁)).2 := by
    split
    next h100 => exact hlaid₁.same (.touch ..) (.touch (BlockManager.proper_data (hq h100)))
    next => exact hlaid₁
  generalize (if nDirect < E then m₁.readData (Ino.blocks ino nDirect) else (junk, m₁)) = d at *
  refine ⟨⟨(Nat.sub_eq_zero_of_le hSA).symm, ?_, fun j x hj hx => ?_, fun _ _ => rfl⟩, hwords,
    hindirect⟩
  · rwa [List.append_nil, List.append_nil]
  · rw [List.append_nil] at hx
    obtain ⟨hlt, rfl⟩ := List.getElem?_eq_some_iff.1 hx
    rw [← List.getD_eq_getElem _ 0]
    by_cases hdir : j < nDirect
    · rw [← idAt_eq hlt, idAt, idAt, if_pos hdir, if_pos hdir, Ino.blocks, hwords _ (by omega)]
      rfl
    · rcases hindirect with ⟨-, hle, -⟩ | ⟨-, -, rfl, hind⟩
      · omega
      · exact idAt_of_loaded hind hlt hj

/-- The indirect block afterwards, if nothing is given back. -/
theorem indirect_kept {F : Bytes} {taken got : List ℕ} {E : ℕ} {ino₁ ind₁ : Buffer}
    (h : m₀.Sound files) (hi : i ∈ files) (hgot : got.length = E - (m₀.fileIds i).length)
    (hlaid : Laid m₀ F (m₀.fileIds i ++ got) (taken ++ got) m)
    (hind : Indirect m₀ i E taken ino₁ ind₁) :
    let Q := if nDirect < (m₀.fileIds i ++ got).length then [Ino.blocks ino₁ nDirect] else []
    (∀ x, x ∈ (m₀.fileIds i ++ got) ++ Q ↔ x ∈ m₀.owned i ∨ x ∈ taken ++ got) ∧
      ∀ x ∈ Q, x ∉ m₀.fileIds i ++ got := by
  have hfree : ∀ x ∈ m₀.owned i, x ∉ m₀.freedData := h.owns.owned i hi
  have hnodup := h.owns.nodup i hi
  have hlen : (m₀.fileIds i ++ got).length = max (m₀.fileIds i).length E := by
    rw [List.length_append, hgot]
    omega
  rw [hlen]
  rcases hind with ⟨h100, hA, rfl⟩ | ⟨hcross, rfl, rfl, -⟩
  · -- a new one
    rw [if_pos (lt_max_of_lt_right h100), BlockManager.owned, BlockManager.indirectId,
      if_neg (not_lt.2 hA), List.append_nil]
    refine ⟨fun x => ?_, fun x hx hmem => ?_⟩
    · simp only [List.mem_append]
      exact or_right_comm.trans or_assoc
    · obtain rfl := List.mem_singleton.1 hx
      rcases List.mem_append.1 hmem with hmem | hmem
      · exact hfree _ (List.mem_append_left _ hmem)
          (hlaid.taken_free _ (List.mem_append_left _ hx))
      · exact (List.nodup_append.1 hlaid.taken_nodup).2.2 _ hx _ hmem rfl
  · -- the one that the file had, if any
    have hiff : nDirect < max (m₀.fileIds i).length E ↔ nDirect < (m₀.fileIds i).length := by
      rw [lt_max_iff]
      omega
    rw [BlockManager.owned, BlockManager.indirectId] at hnodup
    rw [List.nil_append, BlockManager.owned, BlockManager.indirectId]
    simp only [hiff]
    refine ⟨fun x => ?_, fun x hx hmem => ?_⟩
    · simp only [List.mem_append]
      exact or_right_comm
    · rcases List.mem_append.1 hmem with hmem | hmem
      · exact (List.nodup_append.1 hnodup).2.2 _ hmem _ hx rfl
      · exact hfree x (List.mem_append_right _ hx) (hlaid.taken_free _ hmem)

/-- Nothing is given back. -/
theorem ready_kept {F : Bytes} {taken got : List ℕ} {E : ℕ} {ino₁ ind₁ ino ind : Buffer}
    (h : m₀.Sound files) (hi : i ∈ files)
    (hs : Storing m₀ F (m₀.fileIds i) taken E ino₁ E got ino ind m)
    (hlaid : Laid m₀ F (m₀.fileIds i ++ got) (taken ++ got) m)
    (hlen : (m₀.fileIds i ++ got).length = ceilDiv F.length blockSize)
    (hwords : ∀ w ≠ 5 + nDirect, ino₁.word w = (m₀.inode i).word w)
    (hind : Indirect m₀ i E taken ino₁ ind₁) :
    ∃ L Q, Ready m₀ i F L Q ino
      (if nDirect < E then m.writeData (Ino.blocks ino nDirect) ind else m) := by
  have hE : E ≤ (m₀.fileIds i ++ got).length := by
    rw [List.length_append, hs.len]
    omega
  have hq : Ino.blocks ino nDirect = Ino.blocks ino₁ nDirect :=
    congrArg UInt32.toNat (hs.ino _ (.inr le_rfl))
  have htype : Ino.type ino = Ino.type (m₀.inode i) :=
    (hs.ino 0 (.inl (by decide))).trans (hwords 0 (by decide))
  have hdirect : ∀ j x, j < nDirect → (m₀.fileIds i ++ got)[j]? = some x →
      Ino.blocks ino j = x := fun j x hj hx => by
    rw [← hs.ids j x (.inl hj) hx, idAt, if_pos hj]
  obtain ⟨hmem, hapart⟩ := indirect_kept h hi hs.len hlaid hind
  rw [← hq] at hmem hapart
  by_cases h100 : nDirect < E
  · rw [if_pos (h100.trans_le hE)] at hmem hapart
    rw [if_pos h100]
    refine ⟨_, _, BlockManager.ready_indirect h hi hlaid hlen (h100.trans_le hE) hmem
      (hapart _ (List.mem_singleton_self _)) rfl htype hdirect fun j x hx => ?_⟩
    rw [← hs.ids _ x (.inr h100) hx, idAt, if_neg (by omega), Nat.add_sub_cancel_left]
  · rw [if_neg h100]
    refine ⟨_, _, BlockManager.ready_of_laid h hi hlaid hlen hmem
      (List.nodup_append.2 ⟨hlaid.nodup, ?_, ?_⟩) rfl rfl (fun _ _ _ => rfl) (fun _ _ => rfl)
      (.refl m) htype rfl hdirect fun j x hx => ?_⟩
    · split
      · exact List.nodup_singleton _
      · exact List.nodup_nil
    · rintro x hx y hy rfl
      exact hapart x hy hx
    · -- all the ids in it were there before
      have hlt := (List.getElem?_eq_some_iff.1 hx).1
      obtain rfl : got = [] := by
        refine List.length_eq_zero_iff.1 ?_
        rw [List.length_append, hs.len] at hlt
        rw [hs.len]
        omega
      obtain ⟨-, -, rfl, -⟩ := hind.resolve_left fun hc => h100 hc.1
      rw [List.append_nil] at hx hlt hlaid hapart
      have hA : nDirect < (m₀.fileIds i).length := by omega
      have hdisk := lt_of_onDisk (h.onDisk i hi _ (BlockManager.mem_owned_indirect hA))
      rw [if_pos hA] at hapart
      rw [hq] at hapart ⊢
      rw [hlaid.rest _ hdisk (hapart _ (List.mem_singleton_self _)),
        BlockManager.getElem?_fileIds hx, idAt, if_neg (by omega), Nat.add_sub_cancel_left]

/-! ## The inode and the indirect block -/

/-- It makes no difference which is written first. -/
theorem writeData_writeInode {q : ℕ} (b ind : Buffer) (hi : i < inodeNum) (hq : q < diskDataNum) :
    Same ((m.writeData q ind).writeInode i b) ((m.writeInode i b).writeData q ind) ∧
      OnTrack ((m.writeData q ind).writeInode i b) ((m.writeInode i b).writeData q ind) := by
  have hne := BlockManager.iblock_ne_bblock hi (lt_of_onDisk hq)
  have hib := BlockManager.iblock_lt hi
  have hqb := BlockManager.bblock_lt hq
  refine ⟨⟨?_, by simp, by simp⟩, fun a ha => ?_⟩
  · simp only [BlockManager.writeInode, BlockManager.writeData, BlockManager.writeBlock,
      BlockManager.touch, if_pos hib, if_pos hqb]
    exact Function.update_comm hne ..
  · simp only [BlockManager.writeInode, BlockManager.writeData, BlockManager.writeBlock_accesses,
      BlockManager.touch, List.mem_append, List.mem_singleton] at ha ⊢
    exact .inl (or_right_comm.1 ha)

/-- The end of the function: `n` is the size that the inode has then. -/
theorem written_end {F : Bytes} {L Q : List ℕ} {E n : ℕ} {ino b ind : Buffer} (hi : i < inodeNum)
    (hready : Ready m₀ i F L Q ino
      (if nDirect < E then m.writeData (Ino.blocks ino nDirect) ind else m))
    (hE : E ≤ L.length) (hword : ∀ w, w = 0 ∨ 5 ≤ w → b.word w = ino.word w)
    (hsize : (Ino.size b).toNat = n) (hn : n ≤ F.length) (hL : L.length = ceilDiv n blockSize) :
    let m' := if nDirect < E then (m.writeInode i b).writeData (Ino.blocks b nDirect) ind
      else m.writeInode i b
    Written m₀ i (F.take n) m' ∧ ∀ p < F.length, byteAt m' i p = F.getD p 0 := by
  have hq : Ino.blocks b nDirect = Ino.blocks ino nDirect :=
    congrArg UInt32.toNat (hword _ (.inr (by omega)))
  have hlen : (F.take n).length = n := List.length_take_of_le hn
  rw [hq]
  obtain ⟨m₂, hm₂, hsame, htrack⟩ : ∃ m₂, m₂ =
      (if nDirect < E then m.writeData (Ino.blocks ino nDirect) ind else m).writeInode i b ∧
      Same m₂ (if nDirect < E then (m.writeInode i b).writeData (Ino.blocks ino nDirect) ind
        else m.writeInode i b) ∧
      OnTrack m₂ (if nDirect < E then (m.writeInode i b).writeData (Ino.blocks ino nDirect) ind
        else m.writeInode i b) := by
    refine ⟨_, rfl, ?_⟩
    split
    next h100 =>
      refine writeData_writeInode b ind hi (hready.onDisk _ (List.mem_append_right _ ?_))
      rw [hready.indirectId, if_pos (h100.trans_le hE)]
      exact List.mem_singleton_self _
    next => exact ⟨.refl _, .refl _⟩
  generalize (if nDirect < E then (m.writeInode i b).writeData (Ino.blocks ino nDirect) ind
    else m.writeInode i b) = m' at *
  generalize (if nDirect < E then m.writeData (Ino.blocks ino nDirect) ind else m) = m₁ at *
  have hids := hready.fileIds_writeInode hi hword (by rw [hsize, hL])
  rw [← hm₂] at hids
  refine ⟨Written.same (hm₂ ▸ (hready.take (hlen.symm ▸ hL)).done hi hword (hsize.trans hlen.symm))
    hsame htrack, fun p hp => ?_⟩
  have hids' : m'.fileIds i = L := by
    rw [← hids, BlockManager.fileIds, BlockManager.fileIds, hsame.inode, BlockManager.idsOf,
      hsame.data]
    rfl
  have hlt : p / blockSize < L.length := hready.len ▸ div_lt_ceilDiv hp
  have hget : L[p / blockSize]? = some L[p / blockSize] := List.getElem?_eq_getElem hlt
  have hdisk := lt_of_onDisk (hready.onDisk _ (List.mem_append_left Q (List.getElem_mem hlt)))
  rw [byteAt, hids', List.getD_eq_getElem _ _ hlt, hsame.data, hm₂,
    BlockManager.data_writeInode hi hdisk]
  refine hready.stores _ _ hget _ (Nat.mod_lt _ (by simp)) _ ?_
  rw [Nat.div_add_mod, List.getD_eq_getElem _ _ hp]
  exact List.getElem?_eq_getElem hp

/-- The inode as it is written. -/
def endInode (ino : Buffer) (n : ℕ) (free_end : Bool) (now : UInt32) : Buffer :=
  Ino.setTimes (if free_end ∨ (Ino.size ino).toNat < n then Ino.setSize ino (UInt32.ofNat n)
    else ino) now

theorem endInode_spec {ino : Buffer} {n : ℕ} (free_end : Bool) (now : UInt32)
    (hn : n ≤ maxFile * blockSize) :
    (∀ w, w = 0 ∨ 5 ≤ w → (endInode ino n free_end now).word w = ino.word w) ∧
      (Ino.size (endInode ino n free_end now)).toNat =
        if free_end then n else max (Ino.size ino).toNat n := by
  refine ⟨fun w hw => ?_, ?_⟩
  · rw [endInode, Ino.word_setTimes (by omega)]
    split
    · exact Buffer.word_setWord_ne (by omega)
    · rfl
  · rw [endInode, Ino.size, Ino.word_setTimes (by decide)]
    split
    next h =>
      rw [Ino.setSize, Buffer.word_setWord_self, Ino.toNat_ofNat_size hn]
      split
      next => rfl
      next hfree => exact (max_eq_right (h.resolve_left hfree).le).symm
    next h =>
      rw [not_or, not_lt] at h
      rw [if_neg h.1]
      exact (max_eq_left h.2).symm

/-! ## The function -/

/-- How many blocks a write takes. -/
def needs (m : BlockManager) (i : ℕ) (buf : Bytes) (off : ℕ) : ℕ :=
  blocksFor (max (m.fileIds i).length (endBlock buf off)) - blocksFor (m.fileIds i).length

/-- There is room for a write. -/
def Fits (m : BlockManager) (i : ℕ) (buf : Bytes) (off : ℕ) : Prop :=
  m.inUse + needs m i buf off ≤ diskDataNum

/-- A write gives the indirect block back. -/
def DropsIndirect (m : BlockManager) (i : ℕ) (buf : Bytes) (off : ℕ) (free_end : Bool) : Prop :=
  free_end = true ∧ endBlock buf off ≤ nDirect ∧ nDirect < (m.fileIds i).length

theorem not_dropsIndirect_false : ¬ DropsIndirect m i buf off false :=
  fun h => Bool.false_ne_true h.1

theorem Fits.card (h : Fits m i buf off) : (endBlock buf off - (m.fileIds i).length) +
    (if nDirect < endBlock buf off ∧ (m.fileIds i).length ≤ nDirect then 1 else 0) + 10 ≤
      m.freedData.card := by
  simp only [Fits, needs, blocksFor, inUse, dataBlockNum_eq, diskDataNum_eq, lt_max_iff] at h
  split at h <;> split at h <;> split <;> omega

/-- The bytes that the loop stores are those that the file is to have. -/
theorem buff_holds {free_end : Bool} {old : Bytes} {k : ℕ}
    (hold : ∀ k < old.length, old[k]? = some (byteAt m i (startBlock m i off * blockSize + k)))
    (hlen : ∀ k < (endBlock buf off - startBlock m i off) * blockSize, k < old.length ↔
      startBlock m i off * blockSize + k < (m.fileIds i).length * blockSize)
    (hk : startBlock m i off ≤ k) (hkE : k < endBlock buf off) :
    Holds (fun b => memcpy (memcpy Buffer.zero 0 old)
      ((off / blockSize - startBlock m i off) * blockSize + off % blockSize) buf
      ((k - startBlock m i off) * blockSize + b)) (written m i buf off free_end) k := by
  refine holds_staged fun b hb => ?_
  have hlt : (k - startBlock m i off) * blockSize + b <
      (endBlock buf off - startBlock m i off) * blockSize := by
    have hle := Nat.mul_le_mul_right blockSize (Nat.sub_lt_sub_right hk hkE)
    rw [Nat.succ_mul] at hle
    omega
  have hpos : startBlock m i off * blockSize + ((k - startBlock m i off) * blockSize + b) =
      k * blockSize + b := by
    rw [← Nat.add_assoc, ← Nat.add_mul, Nat.add_sub_cancel' hk]
  rw [staged_eq hold (hlen _ hlt), hpos]

theorem ceilDiv_max (a b : ℕ) :
    ceilDiv (max a b) blockSize = max (ceilDiv a blockSize) (ceilDiv b blockSize) :=
  eq_of_forall_ge_iff fun k => by
    rw [ceilDiv_le_iff, max_le_iff, max_le_iff, ceilDiv_le_iff, ceilDiv_le_iff]

/-- The blocks behind the written part are as they should be too. -/
theorem Storing.laid_all {F : Bytes} {ids taken got : List ℕ} {E : ℕ} {ino₁ ino ind : Buffer}
    (h : Storing m₀ F ids taken E ino₁ E got ino ind m) (hnodup : ids.Nodup)
    (hdisk : ∀ x ∈ ids, x < diskDataNum)
    (hold : ∀ j, E ≤ j → j < ids.length → Holds (m₀.data (ids.getD j 0)) F j) :
    Laid m₀ F (ids ++ got) (taken ++ got) m := by
  obtain ⟨hlen, hlaid, -, -⟩ := h
  rcases Nat.le_total ids.length E with hle | hle
  · rwa [List.take_of_length_le (by rw [List.length_append]; omega)] at hlaid
  · obtain rfl : got = [] := List.length_eq_zero_iff.1 (by omega)
    rw [List.append_nil] at hlaid ⊢
    have hall := laid_old hle le_rfl hnodup hdisk hold hlaid
    rwa [List.take_length] at hall

/-- The end of the file is freed if it is to be, and the inode can be written. -/
theorem ready_end {free_end : Bool} {taken got : List ℕ} {S : ℕ} {ino₁ ind₁ ino ind buff : Buffer}
    {m₂ : BlockManager} (h : m₀.Sound files) (hi : i ∈ files)
    (hkeep : ¬ DropsIndirect m₀ i buf off free_end)
    (hwords : ∀ w ≠ 5 + nDirect, ino₁.word w = (m₀.inode i).word w)
    (hind : Indirect m₀ i (endBlock buf off) taken ino₁ ind₁)
    (hloop : loop S (endBlock buf off) (storeBlock (m₀.fileIds i).length S buff)
      (some (ino₁, ind₁, m₂)) = some (ino, ind, m))
    (hs : Storing m₀ (written m₀ i buf off free_end) (m₀.fileIds i) taken (endBlock buf off) ino₁
      (endBlock buf off) got ino ind m) :
    let f := if free_end then freeEnd m ino ind (m₀.fileIds i).length (endBlock buf off)
      else ([], m)
    f.1 = (if free_end then (m₀.fileIds i).drop (endBlock buf off) else []) ∧
      ∃ L Q, Ready m₀ i (written m₀ i buf off free_end) L Q ino
        (if nDirect < endBlock buf off then f.2.writeData (Ino.blocks ino nDirect) ind
          else f.2) := by
  have hids := h.nodup_ids hi
  have hdisk := h.ids_onDisk hi
  have hEoff : off + buf.length ≤ endBlock buf off * blockSize := ceilDiv_le_iff.1 le_rfl
  by_cases hcut : free_end = true ∧ endBlock buf off < (m₀.fileIds i).length
  · obtain ⟨rfl, hlt⟩ := hcut
    obtain ⟨m₃, hloop'⟩ := loop_old (S := S) ino₁ ind₁ buff m₂ hlt.le
    obtain ⟨rfl, rfl, rfl⟩ : ino₁ = ino ∧ ind₁ = ind ∧ m₃ = m := by
      simpa using hloop'.symm.trans hloop
    obtain ⟨-, rfl, rfl, hind'⟩ := hind.resolve_left fun hc => by omega
    obtain rfl : got = [] := List.length_eq_zero_iff.1 (by rw [hs.len]; omega)
    have hlaid := hs.laid
    rw [List.append_nil, List.append_nil] at hlaid
    have hE : endBlock buf off = ceilDiv (written m₀ i buf off true).length blockSize := by
      rw [length_written, ceilDiv_mul]
      rfl
    exact ready_cut h hi hE hlt.le (fun hc => hkeep ⟨rfl, hc⟩) hind' hlaid
  · have hA : free_end = true → (m₀.fileIds i).length ≤ endBlock buf off := fun hfree =>
      not_lt.1 fun hlt => hcut ⟨hfree, hlt⟩
    have hf : (if free_end then freeEnd m ino ind (m₀.fileIds i).length (endBlock buf off)
        else ([], m)) = ([], m) := by
      split
      next hfree => rw [freeEnd_eq fun hc => hkeep ⟨hfree, hc⟩, loop_of_le (hA hfree)]
      next => rfl
    have hlaid := hs.laid_all hids hdisk fun j hj hjA =>
      holds_old hjA (.inr (hEoff.trans (Nat.mul_le_mul_right blockSize hj)))
    have hlen : (m₀.fileIds i ++ got).length =
        ceilDiv (written m₀ i buf off free_end).length blockSize := by
      rw [List.length_append, hs.len, length_written, ceilDiv_mul, newSize]
      split
      next hfree =>
        rw [Nat.add_sub_cancel' (hA hfree)]
        rfl
      next =>
        rw [ceilDiv_max, ← length_fileIds, Nat.add_comm, Nat.sub_add_eq_max]
        exact Nat.max_comm ..
    rw [hf]
    refine ⟨?_, ready_kept h hi hs hlaid hlen hwords hind⟩
    split
    next hfree => exact (List.drop_eq_nil_of_le (hA hfree)).symm
    next => rfl

/-- **What `write_file` does** where there is room and the indirect block is not given back: the
file's blocks are as staged, and what is freed is its end. -/
theorem writeFile_spec {free_end : Bool} (h : m.Sound files) (hi : i ∈ files)
    (hlen : off + buf.length ≤ maxFile * blockSize) (hfits : Fits m i buf off)
    (hkeep : ¬ DropsIndirect m i buf off free_end) (junk : Buffer) (now : UInt32) :
    ∃ m', writeFile m i buf off free_end junk now =
      some (if free_end then (m.fileIds i).drop (endBlock buf off) else [], m') ∧
        Written m i ((written m i buf off free_end).take (newSize m i buf off free_end)) m' ∧
        ∀ p < (written m i buf off free_end).length,
          byteAt m' i p = stagedAt m i buf off p := by
  obtain ⟨hSoff, hSsize, hSA, hSE⟩ := startBlock_le m i buf off
  have hcard := hfits.card
  have hinum := h.inums i hi
  have hids := h.nodup_ids hi
  have hdisk := h.ids_onDisk hi
  have hfresh := h.ids_taken hi
  have hE : ¬ maxFile < endBlock buf off := not_lt.2 (ceilDiv_le_iff.2 hlen)
  have hEoff : off + buf.length ≤ endBlock buf off * blockSize := ceilDiv_le_iff.1 le_rfl
  -- before the loop
  obtain ⟨hold, holdlen, hsame, htrack⟩ :=
    oldBlocks_spec (i := i) (Same.touch m (.inode (iblock i))) hSE
  have hlaid : Laid m (written m i buf off free_end) ((m.fileIds i).take (startBlock m i off)) []
      (oldBlocks (m.touch (.inode (iblock i))) (m.inode i) (startBlock m i off)
        (m.fileIds i).length (endBlock buf off)).2 := by
    refine (laid_old (Nat.zero_le _) hSA hids hdisk (fun j _ hj => holds_old (hj.trans_le hSA)
      (.inl ?_)) (.refl m _)).same hsame
      ((BlockManager.OnTrack.touch (BlockManager.proper_inode hinum)).trans
        (htrack (h.onDisk i hi)))
    exact (Nat.mul_le_mul_right blockSize hj).trans hSoff
  have heq := writeFile_eq m i buf off free_end junk now
  dsimp only at heq
  rw [heq, if_neg hE]
  generalize oldBlocks (m.touch (.inode (iblock i))) (m.inode i) (startBlock m i off)
    (m.fileIds i).length (endBlock buf off) = old at *
  obtain ⟨ino₁, taken, m₁, htake, hstart, hwords, hind⟩ :=
    prepare_spec h hi junk hSA hlaid fun h100 hA => by
      rw [if_pos ⟨h100, hA⟩] at hcard
      omega
  rw [htake, Option.bind_some]
  dsimp only
  generalize (if nDirect < endBlock buf off then m₁.readData (Ino.blocks ino₁ nDirect)
    else (junk, m₁)) = d at *
  obtain ⟨ind₁, m₂⟩ := d
  dsimp only at hstart hind ⊢
  -- the loop
  rw [← hind.length_taken, Nat.add_comm] at hcard
  obtain ⟨got, ino, ind, m₃, hloop, hstored⟩ := storing_loop hstart h.pool hids hdisk hfresh
    (by omega) hSE fun k hk hkE => buff_holds hold holdlen hk hkE
  rw [hloop, Option.map_some]
  dsimp only
  -- after the loop
  obtain ⟨hword, hsize⟩ := @endInode_spec ino _ free_end now hlen
  have hold₄ : (Ino.size ino).toNat = m.fileSize i := by
    rw [Ino.size, hstored.ino 4 (.inl (by decide)), hwords 4 (by decide)]
    rfl
  rw [hold₄] at hsize
  obtain ⟨hfreed, L, Q, hready⟩ := ready_end h hi hkeep hwords hind hloop hstored
  have hL : L.length = ceilDiv (newSize m i buf off free_end) blockSize := by
    rw [hready.len, length_written, ceilDiv_mul]
  have hEL : endBlock buf off ≤ L.length := by
    rw [hL]
    exact ceilDiv_le_iff.2 (le_newSize.trans (ceilDiv_le_iff.1 le_rfl))
  have hn : newSize m i buf off free_end ≤ (written m i buf off free_end).length := by
    rw [length_written]
    exact ceilDiv_le_iff.1 le_rfl
  obtain ⟨hwritten, hbytes⟩ := written_end hinum hready hEL hword hsize hn hL
  refine ⟨_, ?_, hwritten, fun p hp => ?_⟩
  · rw [← hfreed]
    rfl
  · rw [hbytes p hp, List.getD_eq_getElem _ _ hp]
    exact getElem?_written (List.getElem?_eq_getElem hp)

end InodeManager

end Lab2
end CseLab
