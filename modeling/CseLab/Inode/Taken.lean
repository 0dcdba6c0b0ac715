import CseLab.Inode.Runs

/-!
# The inodes that are taken

No call of `inode_manager` looks whether its inode is free.  `remove_file` leaves the inode its size
and its blocks, which belong to others soon after; so a file may be read that is not there any more,
as far as its blocks are on the disk, but to write it or to remove it once more does harm.

`System` keeps to inodes that `create_file` has handed out.  Here any inode that is not free will
do, and number 0 is one; what a call does is told of its inode and of the others (`Elsewhere`).
-/

set_option autoImplicit false

namespace CseLab
namespace Inode

/-! ## Attributes -/

namespace Ino

theorem attr_setAtime (b : Buffer) (now : UInt32) :
    attr (setAtime b now) = { attr b with atime := now } := by
  simp only [attr, setAtime, Buffer.word_setWord_self]
  rw [Buffer.word_setWord_ne (by decide), Buffer.word_setWord_ne (by decide),
    Buffer.word_setWord_ne (by decide), Buffer.word_setWord_ne (by decide)]

theorem attr_setTimes (b : Buffer) (size now : UInt32) :
    attr (setTimes (setSize b size) now) = ⟨type b, now, now, now, size⟩ := by
  simp only [attr, setTimes, Buffer.word_setWord_self]
  rw [Buffer.word_setWord_ne (j := 0) (by decide), Buffer.word_setWord_ne (j := 0) (by decide),
    Buffer.word_setWord_ne (j := 0) (by decide), Buffer.word_setWord_ne (j := 2) (by decide),
    Buffer.word_setWord_ne (j := 2) (by decide), Buffer.word_setWord_self,
    Buffer.word_setWord_ne (j := 3) (by decide), Buffer.word_setWord_self,
    Buffer.word_setWord_ne (j := 4) (by decide), Buffer.word_setWord_ne (j := 4) (by decide),
    Buffer.word_setWord_ne (j := 4) (by decide), setSize, Buffer.word_setWord_self,
    Buffer.word_setWord_ne (by decide), type]

end Ino

namespace BlockManager

variable {m m' : BlockManager} {i j : ℕ} {buf : Bytes} {type now : UInt32}

/-- The attributes that `write_file` leaves. -/
theorem attr_writeFile {junk : Junk} {t : UInt32} (hi : i < inodeNum)
    (hw : m.writeFile i buf junk now = some (t, m')) : Ino.attr (m'.inode i) =
      ⟨Ino.type (m'.inode i), now, now, now, UInt32.ofNat buf.length⟩ := by
  rw [writeFile_eq] at hw
  obtain ⟨-, hw⟩ := Option.ite_none_left_eq_some.1 hw
  obtain ⟨-, hw⟩ := Prod.mk.inj (Option.some_inj.1 hw)
  rw [← hw, inode_writeInode hi hi, if_pos rfl, Ino.attr_setTimes, Ino.type, Ino.type,
    Ino.word_setTimes (.inl rfl), Ino.setSize, Buffer.word_setWord_ne (by decide)]

/-- The attributes that `create_file` leaves. -/
theorem attr_createFile (m : BlockManager) (type now : UInt32)
    (hi : (m.createFile type now).1 < inodeNum) :
    Ino.attr ((m.createFile type now).2.inode (m.createFile type now).1) =
      ⟨type, now, now, now, 0⟩ := by
  refine Eq.trans (congrArg Ino.attr ((inode_writeInode hi hi).trans (if_pos rfl))) ?_
  rw [Ino.attr_setTimes, Ino.type, Ino.setType, Buffer.word_setWord_self]

/-! ## Calls on them -/

/-- The inodes that are not free. -/
def taken (m : BlockManager) : Finset ℕ := Finset.range inodeNum \ m.freedInode

theorem mem_taken : i ∈ m.taken ↔ i < inodeNum ∧ i ∉ m.freedInode := by
  rw [taken, Finset.mem_sdiff, Finset.mem_range]

/-- The files of these inodes are in order. -/
structure Orderly (m : BlockManager) : Prop where
  free_lt : ∀ i ∈ m.freedInode, i < inodeNum
  sound : m.Sound m.taken

/-- Nothing has happened to other inodes than `i`, nor to their files. -/
structure Elsewhere (m m' : BlockManager) (i : ℕ) : Prop where
  free : ∀ j, j ≠ i → (j ∈ m'.freedInode ↔ j ∈ m.freedInode)
  inode : ∀ j < inodeNum, j ≠ i → m'.inode j = m.inode j
  content : ∀ j ∈ m.taken, j ≠ i → m'.content j = m.content j

theorem Elsewhere.refl (m : BlockManager) (i : ℕ) : m.Elsewhere m i :=
  ⟨fun _ _ => Iff.rfl, fun _ _ _ => rfl, fun _ _ _ => rfl⟩

theorem Elsewhere.trans {m'' : BlockManager} (h : m.Elsewhere m' i) (h' : m'.Elsewhere m'' i) :
    m.Elsewhere m'' i where
  free j hji := (h'.free j hji).trans (h.free j hji)
  inode j hj hji := (h'.inode j hj hji).trans (h.inode j hj hji)
  content j hj hji := by
    obtain ⟨hlt, hfree⟩ := mem_taken.1 hj
    exact (h'.content j (mem_taken.2 ⟨hlt, mt (h.free j hji).1 hfree⟩) hji).trans
      (h.content j hj hji)

theorem taken_of_eq (h : m'.freedInode = m.freedInode) : m'.taken = m.taken := by
  rw [taken, h, taken]

/-- Where all files are empty they are in order. -/
theorem Empty.orderly (h : m.Empty) : m.Orderly where
  free_lt := h.freedInode
  sound := h.sound fun _ hi => (mem_taken.1 hi).1

namespace Orderly

variable (h : m.Orderly)
include h

theorem onDisk (hi : i ∈ m.taken) : ∀ x ∈ m.owned i, x < diskDataNum := h.sound.onDisk i hi

/-- `read_file`, of an inode whose blocks are on the disk. -/
theorem readFile (hi : i < inodeNum) (hdisk : ∀ x ∈ m.owned i, x < diskDataNum) (now : UInt32) :
    (m.readFile i now).1.size = m.fileSize i ∧
      (m.readFile i now).1.buf_out.take (m.readFile i now).1.size = m.content i ∧
      (m.readFile i now).1.a = { Ino.attr (m.inode i) with atime := now } ∧
      (m.readFile i now).2.freedInode = m.freedInode ∧
      Ino.attr ((m.readFile i now).2.inode i) = { Ino.attr (m.inode i) with atime := now } ∧
      (i ∈ m.taken → (m.readFile i now).2.content i = m.content i) ∧
      m.Elsewhere (m.readFile i now).2 i ∧ (m.readFile i now).2.Orderly := by
  obtain ⟨hsize, hdata, hattr, hsame, -⟩ := readFile_of_onDisk hi hdisk now
  generalize m.readFile i now = r at *
  have hfree : r.2.freedInode = m.freedInode := hsame.freedInode.trans (writeInode_freedInode _)
  have hstamp := fun j => h.sound.stamp hi hsame (j := j)
  have hinode : ∀ j < inodeNum, r.2.inode j =
      if j = i then Ino.setAtime (m.inode i) now else m.inode j := fun j hj =>
    (hsame.inode j).trans (inode_writeInode hi hj)
  refine ⟨hsize, hdata, hattr.trans (Ino.attr_setAtime ..), hfree, ?_, fun hmem =>
    (hstamp i hmem).2.2, ⟨fun j _ => hfree ▸ Iff.rfl, fun j hj hji => ?_, fun j hj _ =>
    (hstamp j hj).2.2⟩, hfree ▸ h.free_lt, ?_⟩
  · rw [hinode i hi, if_pos rfl, Ino.attr_setAtime]
  · rw [hinode j hj, if_neg hji]
  · rw [taken_of_eq hfree]
    exact h.sound.of_same (hsame.freedData.trans (writeInode_freedData _)) fun j hj =>
      ⟨(hstamp j hj).1, (hstamp j hj).2.1⟩

/-- `write_file`, of an inode that is taken and with room on the disk. -/
theorem writeFile {junk : Junk} {t : UInt32} (hi : i ∈ m.taken) (hfits : m.Fits i buf)
    (hw : m.writeFile i buf junk now = some (t, m')) :
    t = Ino.type (m.inode i) ∧ m'.freedInode = m.freedInode ∧ m'.content i = buf ∧
      Ino.attr (m'.inode i) =
        ⟨Ino.type (m.inode i), now, now, now, UInt32.ofNat buf.length⟩ ∧
      m.Elsewhere m' i ∧ m'.Orderly := by
  obtain ⟨ht, hwritten⟩ := writeFile_spec h.sound hi hw (roomy_of_fits hfits hw)
  have hfree := hwritten.freedInode
  have hlen := writeFile_isSome.1 (Option.isSome_iff_exists.2 ⟨_, hw⟩)
  refine ⟨ht, hfree, hwritten.content, ?_, ⟨fun j _ => hfree ▸ Iff.rfl, hwritten.inode,
    fun j hj hji => (hwritten.other h.sound hi hj hji).2.2⟩, hfree ▸ h.free_lt, ?_⟩
  · rw [attr_writeFile (mem_taken.1 hi).1 hw, hwritten.type]
  · rw [taken_of_eq hfree]
    exact hwritten.sound h.sound hi hlen

/-- `remove_file`, of an inode that is taken. -/
theorem removeFile (hi : i ∈ m.taken) : (m.removeFile i).freedInode = insert i m.freedInode ∧
    m.Elsewhere (m.removeFile i) i ∧ (m.removeFile i).Orderly := by
  have hlt := (mem_taken.1 hi).1
  have hremoved := removeFile_spec (m := m) hlt
  have htaken : (m.removeFile i).taken = m.taken.erase i := by
    rw [taken, hremoved.freedInode, taken, Finset.sdiff_insert]
  refine ⟨hremoved.freedInode, ⟨fun j hji => ?_, fun j hj hji => ?_, fun j hj hji =>
    (hremoved.other h.sound hj hji).2.2⟩, fun j hj => ?_, ?_⟩
  · rw [hremoved.freedInode, Finset.mem_insert, or_iff_right hji]
  · rw [hremoved.inode j hj, if_neg hji]
  · rw [hremoved.freedInode, Finset.mem_insert] at hj
    rcases hj with rfl | hj
    · exact hlt
    · exact h.free_lt j hj
  · rw [htaken]
    exact hremoved.sound h.sound hi

/-- `create_file`, with an inode to be had. -/
theorem createFile (hne : m.freedInode.Nonempty) (type now : UInt32) :
    ∃ i m', m.createFile type now = (i, m') ∧ i < inodeNum ∧ i ∈ m.freedInode ∧
      (∀ j ∈ m.freedInode, i ≤ j) ∧ m'.freedInode = m.freedInode.erase i ∧ m'.content i = [] ∧
      Ino.attr (m'.inode i) = ⟨type, now, now, now, 0⟩ ∧ m.Elsewhere m' i ∧ m'.Orderly := by
  have hcreated := createFile_spec type now hne h.free_lt
  have hattr := attr_createFile m type now (h.free_lt _ hcreated.least.1)
  generalize m.createFile type now = r at *
  obtain ⟨i, m'⟩ := r
  obtain ⟨hmem, hleast⟩ := hcreated.least
  have hlt := h.free_lt _ hmem
  have hnew : i ∉ m.taken := fun hi => (mem_taken.1 hi).2 hmem
  have htaken : m'.taken = insert i m.taken := by
    rw [taken, hcreated.freedInode, Finset.sdiff_erase (Finset.mem_range.2 hlt), taken]
  refine ⟨i, m', rfl, hlt, hmem, hleast, hcreated.freedInode, ?_, hattr,
    ⟨fun j hji => ?_, hcreated.inode, fun j hj hji => (hcreated.other h.sound hj hji).2.2⟩,
    fun j hj => ?_, ?_⟩
  · exact List.length_eq_zero_iff.1 (length_content.trans hcreated.size)
  · rw [hcreated.freedInode, Finset.mem_erase, and_iff_right hji]
  · rw [hcreated.freedInode] at hj
    exact h.free_lt j (Finset.mem_of_mem_erase hj)
  · rw [htaken]
    exact hcreated.sound h.sound hlt hnew

end Orderly

end BlockManager

namespace System

/-- The attributes that the constructor leaves. -/
theorem attr_startOn {m : BlockManager} {s : System} {now : UInt32}
    (hinode : m.freedInode = (Finset.range inodeNum).erase 0)
    (hblocks : m.blocks = BlockManager.emptyDisk) (hs : startOn m now = some s) {i : ℕ}
    (hi : i < inodeNum) : Ino.attr (s.m.inode i) =
      if i = 1 then ⟨tDir, now, now, now, 0⟩ else ⟨0, 0, 0, 0, 0⟩ := by
  have hlt : ∀ j ∈ m.freedInode, j < inodeNum := fun j hj => by
    rw [hinode] at hj
    exact Finset.mem_range.1 (Finset.mem_of_mem_erase hj)
  have hmem : 1 ∈ m.freedInode := by
    rw [hinode, Finset.mem_erase, Finset.mem_range]
    decide
  have hcreated := BlockManager.createFile_spec tDir now ⟨1, hmem⟩ hlt
  have hattr := BlockManager.attr_createFile m tDir now (hlt _ hcreated.least.1)
  obtain ⟨hroot, hs⟩ := Option.ite_none_left_eq_some.1 hs
  obtain rfl := Option.some_inj.1 hs
  have hone : (m.createFile tDir now).1 = 1 := not_not.1 hroot
  rw [hone] at hcreated hattr
  split
  next h =>
    rw [h]
    exact hattr
  next h =>
    have hne : 10 + i ≠ bitmapStart := by
      rw [bitmapStart_eq]
      omega
    refine (congrArg Ino.attr (hcreated.inode i hi h)).trans ?_
    rw [BlockManager.inode, BlockManager.readBlock, if_pos (BlockManager.iblock_lt hi), hblocks,
      BlockManager.emptyDisk, iblock_eq hi, Function.update_of_ne hne]
    simp only [Ino.attr, Buffer.word_zero]

theorem attr_start {s : System} {now : UInt32} (hs : start now = some s) {i : ℕ}
    (hi : i < inodeNum) : Ino.attr (s.m.inode i) =
      if i = 1 then ⟨tDir, now, now, now, 0⟩ else ⟨0, 0, 0, 0, 0⟩ :=
  attr_startOn BlockManager.new_spec.1 BlockManager.new_spec.2.2 hs hi

end System

end Inode
end CseLab
