import CseLab.Inode.Write

/-!
# Files kept

Every operation keeps the files in order and the inodes accounted for (`Inodes`), as long as the
blocks in use fit on the disk, and `write_file` and `read_file` are what their names say.
-/

set_option autoImplicit false

namespace CseLab
namespace Inode

namespace BlockManager

variable {m m' : BlockManager} {files : Finset ℕ} {i j : ℕ} {buf : Bytes}

/-! ## `write_file` -/

namespace Written

/-- The blocks of another file are not among those of the one written. -/
theorem apart (h : Written m i buf m') (hs : m.Sound files) (hi : i ∈ files) (hj : j ∈ files)
    (hji : j ≠ i) : ∀ x ∈ m.owned j, x ∉ m'.owned i := by
  intro x hx hx'
  rcases h.taken x hx' with hfree | hown
  · exact hs.owns.owned j hj x hx hfree
  · exact hs.owns.apart j i hj hi hji x hx hown

/-- Another file is as it was. -/
theorem other (h : Written m i buf m') (hs : m.Sound files) (hi : i ∈ files) (hj : j ∈ files)
    (hji : j ≠ i) :
    m'.fileSize j = m.fileSize j ∧ m'.owned j = m.owned j ∧ m'.content j = m.content j :=
  same_file (fun _ _ => by rw [h.inode j (hs.inums j hj) hji]) fun x hx =>
    h.rest x (lt_of_onDisk (hs.onDisk j hj x hx)) (h.apart hs hi hj hji x hx)

theorem sound (h : Written m i buf m') (hs : m.Sound files) (hi : i ∈ files)
    (hlen : buf.length ≤ maxFile * blockSize) : m'.Sound files where
  inums := hs.inums
  small j hj := by
    by_cases hji : j = i
    · rw [hji, h.size]
      exact hlen
    · rw [(h.other hs hi hj hji).1]
      exact hs.small j hj
  owns := hs.owns.exchange hi (fun j hj hji => (h.other hs hi hj hji).2.1) h.nodup h.taken h.free
  onDisk j hj := by
    by_cases hji : j = i
    · rw [hji]
      exact h.onDisk
    · rw [(h.other hs hi hj hji).2.1]
      exact hs.onDisk j hj

end Written

/-! ## `remove_file` -/

/-- What `remove_file` comes to. -/
structure Removed (m : BlockManager) (i : ℕ) (m' : BlockManager) : Prop where
  free : ∀ x, x ∈ m'.freedData ↔ x ∈ m.freedData ∨ x ∈ m.owned i
  freedInode : m'.freedInode = insert i m.freedInode
  data : ∀ x < dataBlockNum, m'.data x = m.data x
  inode : ∀ j < inodeNum, m'.inode j = if j = i then Ino.setType (m.inode i) 0 else m.inode j
  track : (∀ x ∈ m.owned i, x < diskDataNum) → OnTrack m m'

theorem foldl_freeBlock (ids : List ℕ) (m : BlockManager) :
    (ids.foldl freeBlock m).blocks = m.blocks ∧ (ids.foldl freeBlock m).freedInode = m.freedInode ∧
      (ids.foldl freeBlock m).accesses = m.accesses ∧
      ∀ x, x ∈ (ids.foldl freeBlock m).freedData ↔ x ∈ m.freedData ∨ x ∈ ids := by
  induction ids generalizing m with
  | nil => simp
  | cons id ids ih =>
    obtain ⟨hblocks, hinode, hacc, hfree⟩ := ih (m.freeBlock id)
    refine ⟨hblocks, hinode, hacc, fun x => ?_⟩
    rw [List.foldl_cons, hfree x, freeBlock, Finset.mem_insert, List.mem_cons, or_comm (a := x = id),
      or_assoc]

/-- The function, its lets taken apart. -/
theorem removeFile_eq (m : BlockManager) (i : ℕ) :
    let g := (m.touch (.inode (iblock i))).getBlockids (m.inode i) Buffer.zero
    let m₁ := g.1.foldl freeBlock g.2.2.2
    let m₂ := if g.2.1 then m₁.freeBlock (Ino.blocks (m.inode i) nDirect) else m₁
    m.removeFile i = (m₂.writeInode i (Ino.setType (m.inode i) 0)).freeInode i :=
  rfl

theorem removeFile_spec (hi : i < inodeNum) : Removed m i (m.removeFile i) := by
  obtain ⟨ind, m₂, hget, -, hm₂, htrack⟩ := getBlockids_same (m.touch (.inode (iblock i)))
    (m.inode i) Buffer.zero
  have hids : (m.touch (.inode (iblock i))).idsOf (m.inode i) = m.fileIds i := rfl
  have hsame : Same m m₂ := (Same.touch m _).trans hm₂
  obtain ⟨hblocks, hinode, hacc, hfree⟩ := foldl_freeBlock (m.fileIds i) m₂
  have heq := removeFile_eq m i
  rw [hids] at htrack
  rw [hget, hids] at heq
  dsimp only at heq
  generalize hm₃ : (if decide (nDirect < (m.fileIds i).length) then
    ((m.fileIds i).foldl freeBlock m₂).freeBlock (Ino.blocks (m.inode i) nDirect)
    else (m.fileIds i).foldl freeBlock m₂) = m₃ at heq
  have hfacts : m₃.blocks = m.blocks ∧ m₃.freedInode = m.freedInode ∧
      m₃.accesses = m₂.accesses ∧ ∀ x, x ∈ m₃.freedData ↔ x ∈ m.freedData ∨ x ∈ m.owned i := by
    simp only [owned, BlockManager.indirectId, List.mem_append]
    rw [← hm₃]
    by_cases h100 : nDirect < (m.fileIds i).length
    · simp only [h100, decide_true, if_true, freeBlock, Finset.mem_insert, hfree,
        List.mem_singleton]
      exact ⟨hblocks.trans hsame.blocks, hinode.trans hsame.freedInode, hacc, fun x => by
        rw [hsame.freedData, or_comm, or_assoc]⟩
    · simp only [h100, decide_false, Bool.false_eq_true, if_false, hfree, List.not_mem_nil,
        or_false]
      exact ⟨hblocks.trans hsame.blocks, hinode.trans hsame.freedInode, hacc, fun x => by
        rw [hsame.freedData]⟩
  obtain ⟨hblocks₃, hinode₃, hacc₃, hfree₃⟩ := hfacts
  rw [heq]
  refine ⟨fun x => ?_, ?_, fun x hx => ?_, fun j hj => ?_, fun hdisk => ?_⟩
  · rw [freeInode, writeInode_freedData]
    exact hfree₃ x
  · rw [freeInode, writeInode_freedInode, hinode₃]
  · exact (data_writeInode hi hx).trans (data_congr hblocks₃ x)
  · refine (inode_writeInode hi hj).trans ?_
    rw [inode_congr hblocks₃]
  · refine (OnTrack.touch (proper_inode hi)).trans ((htrack fun h100 => ?_).trans
      ((OnTrack.of_eq hacc₃).trans ((OnTrack.writeInode hi).trans (.of_eq rfl))))
    exact hdisk _ (mem_owned_indirect h100)

namespace Removed

/-- The inode keeps its size and its blocks. -/
theorem left (h : Removed m i m') (hi : i < inodeNum) (hdisk : ∀ x ∈ m.owned i, x < diskDataNum) :
    m'.fileSize i = m.fileSize i ∧ m'.owned i = m.owned i ∧ m'.content i = m.content i :=
  same_file (fun w hw => by
    rw [h.inode i hi, if_pos rfl, Ino.setType, Buffer.word_setWord_ne (by omega)])
    fun x hx => h.data x (lt_of_onDisk (hdisk x hx))

theorem other (h : Removed m i m') (hs : m.Sound files) (hj : j ∈ files) (hji : j ≠ i) :
    m'.fileSize j = m.fileSize j ∧ m'.owned j = m.owned j ∧ m'.content j = m.content j :=
  same_file (fun _ _ => by rw [h.inode j (hs.inums j hj), if_neg hji]) fun x hx =>
    h.data x (lt_of_onDisk (hs.onDisk j hj x hx))

theorem sound (h : Removed m i m') (hs : m.Sound files) (hi : i ∈ files) :
    m'.Sound (files.erase i) where
  inums j hj := hs.inums j (Finset.mem_of_mem_erase hj)
  small j hj := by
    obtain ⟨hji, hj⟩ := Finset.mem_erase.1 hj
    rw [(h.other hs hj hji).1]
    exact hs.small j hj
  owns := by
    have hgone : Divided (· < dataBlockNum) (· ∈ m'.freedData) (· ∈ files)
        (Function.update m.owned i []) :=
      hs.owns.exchange hi (fun j _ hji => Function.update_of_ne hji ..) (by simp) (by simp)
        (fun x => by simp [h.free x])
    have hleft : Divided (· < dataBlockNum) (· ∈ m'.freedData) (· ∈ files.erase i)
        (Function.update m.owned i []) := hgone.owners_iff fun j hj => by
      have hji : j ≠ i := by
        rintro rfl
        exact hj (Function.update_self ..)
      rw [Finset.mem_erase]
      exact and_iff_right hji
    refine hleft.congr fun j hj => ?_
    obtain ⟨hji, hj⟩ := Finset.mem_erase.1 hj
    rw [Function.update_of_ne hji]
    exact (h.other hs hj hji).2.1
  onDisk j hj := by
    obtain ⟨hji, hj⟩ := Finset.mem_erase.1 hj
    rw [(h.other hs hj hji).2.1]
    exact hs.onDisk j hj

end Removed

/-! ## `create_file` -/

/-- What `create_file` comes to when it finds a free inode. -/
structure Created (m : BlockManager) (type : UInt32) (i : ℕ) (m' : BlockManager) : Prop where
  least : i ∈ m.freedInode ∧ ∀ j ∈ m.freedInode, i ≤ j
  freedInode : m'.freedInode = m.freedInode.erase i
  freedData : m'.freedData = m.freedData
  data : ∀ x < dataBlockNum, m'.data x = m.data x
  inode : ∀ j < inodeNum, j ≠ i → m'.inode j = m.inode j
  type : Ino.type (m'.inode i) = type
  size : m'.fileSize i = 0
  track : OnTrack m m'

theorem createFile_spec (type now : UInt32) (hne : m.freedInode.Nonempty)
    (hnum : ∀ j ∈ m.freedInode, j < inodeNum) :
    Created m type (m.createFile type now).1 (m.createFile type now).2 := by
  have heq : m.createFile type now = (m.freedInode.min' hne,
      (({ m with freedInode := m.freedInode.erase (m.freedInode.min' hne) } : BlockManager).touch
        (.inode (iblock (m.freedInode.min' hne)))).writeInode (m.freedInode.min' hne)
        (Ino.setTimes (Ino.setSize (Ino.setType (m.inode (m.freedInode.min' hne)) type) 0) now)) := by
    simp only [createFile, allocInode, dif_pos hne]
    rfl
  have hmem := m.freedInode.min'_mem hne
  have hlt := hnum _ hmem
  have hleast : ∀ j ∈ m.freedInode, m.freedInode.min' hne ≤ j := m.freedInode.min'_le
  rw [heq]
  generalize m.freedInode.min' hne = i at *
  have hw : ∀ {b : Buffer} {j : ℕ}, j < inodeNum →
      ((({ m with freedInode := m.freedInode.erase i } : BlockManager).touch
        (.inode (iblock i))).writeInode i b).inode j = if j = i then b else m.inode j := fun hj =>
    inode_writeInode hlt hj
  refine ⟨⟨hmem, hleast⟩, writeInode_freedInode _, writeInode_freedData _,
    fun x hx => data_writeInode hlt hx, fun j hj hji => by rw [hw hj, if_neg hji], ?_, ?_, ?_⟩
  · rw [hw hlt, if_pos rfl, Ino.type, Ino.word_setTimes (by decide), Ino.setSize,
      Buffer.word_setWord_ne (by decide), Ino.setType, Buffer.word_setWord_self]
  · rw [fileSize, hw hlt, if_pos rfl, Ino.size, Ino.word_setTimes (by decide), Ino.setSize,
      Buffer.word_setWord_self]
    rfl
  · exact (OnTrack.of_eq rfl).trans ((OnTrack.touch (proper_inode hlt)).trans (.writeInode hlt))

/-- An empty file has no blocks. -/
theorem owned_of_empty (h : m.fileSize i = 0) : m.owned i = [] := by
  have hids : (m.fileIds i).length = 0 := by
    rw [length_fileIds, h]
    rfl
  rw [owned, BlockManager.indirectId, hids, if_neg (by omega), List.append_nil]
  exact List.length_eq_zero_iff.1 hids

namespace Created

variable {type : UInt32}

theorem other (h : Created m type i m') (hs : m.Sound files) (hj : j ∈ files) (hji : j ≠ i) :
    m'.fileSize j = m.fileSize j ∧ m'.owned j = m.owned j ∧ m'.content j = m.content j :=
  same_file (fun _ _ => by rw [h.inode j (hs.inums j hj) hji]) fun x hx =>
    h.data x (lt_of_onDisk (hs.onDisk j hj x hx))

theorem sound (h : Created m type i m') (hs : m.Sound files) (hi : i < inodeNum)
    (hnew : i ∉ files) : m'.Sound (insert i files) where
  inums j hj := by
    rcases Finset.mem_insert.1 hj with rfl | hj'
    · exact hi
    · exact hs.inums j hj'
  small j hj := by
    rcases Finset.mem_insert.1 hj with rfl | hj'
    · rw [h.size]
      exact Nat.zero_le _
    · rw [(h.other hs hj' (by rintro rfl; exact hnew hj')).1]
      exact hs.small j hj'
  owns := by
    have hold : Divided (· < dataBlockNum) (· ∈ m'.freedData) (· ∈ files) m'.owned :=
      (h.freedData ▸ hs.owns).congr fun j hj =>
        (h.other hs hj (by rintro rfl; exact hnew hj)).2.1
    refine hold.owners_iff fun j hj => ?_
    have hji : j ≠ i := by
      rintro rfl
      exact hj (owned_of_empty h.size)
    rw [Finset.mem_insert]
    exact or_iff_right hji
  onDisk j hj := by
    rcases Finset.mem_insert.1 hj with rfl | hj'
    · rw [owned_of_empty h.size]
      nofun
    · rw [(h.other hs hj' (by rintro rfl; exact hnew hj')).2.1]
      exact hs.onDisk j hj'

end Created

/-- What `create_file` comes to when there is no free inode: a block of the bitmap is written. -/
structure Refused (m m' : BlockManager) : Prop where
  freedInode : m'.freedInode = m.freedInode
  freedData : m'.freedData = m.freedData
  data : ∀ x < dataBlockNum, m'.data x = m.data x
  inode : ∀ j < inodeNum, m'.inode j = m.inode j

theorem createFile_refused (type now : UInt32) (hnone : ¬ m.freedInode.Nonempty) :
    (m.createFile type now).1 = noId ∧ Refused m (m.createFile type now).2 := by
  have hblock : ∀ (b : Buffer) (a : ℕ), a ≠ 9 →
      ((m.touch (.inode (iblock noId))).writeInode noId b).readBlock a = m.readBlock a := by
    intro b a ha
    rw [writeInode, show iblock noId = 9 from rfl, readBlock_writeBlock (by decide), if_neg ha]
    rfl
  simp only [createFile, allocInode, dif_neg hnone, readInode]
  refine ⟨trivial, ⟨writeInode_freedInode _, writeInode_freedData _, fun x hx => ?_,
    fun j hj => ?_⟩⟩
  · exact hblock _ _ (by rw [bblock_eq hx]; omega)
  · exact hblock _ _ (by rw [iblock_eq hj]; omega)

end BlockManager

end Inode
end CseLab
