import CseLab.Inode.Runs
import CseLab.Lab2.Write

/-!
# Runs of lab 2's `inode_manager`

The invariant is that of the other lab, and so is what the calls come to (`Created`, `Written`,
`Removed`); here the bitmap is written besides.  A write keeps it if it is careful: there is room on
the disk, and it does not give an indirect block back.
-/

set_option autoImplicit false

namespace CseLab
namespace Lab2

open Inode
open Inode.BlockManager (diskDataNum idAt Same Keeps OnTrack Created Removed Written lt_of_onDisk)

namespace InodeManager

variable {m m' : BlockManager} {i : ℕ} {buf : Bytes} {off : ℕ} {files : Finset ℕ}

/-! ## `alloc_inode` -/

/-- A set of free inodes and a bitmap to go with it. -/
theorem keeps_saveInode {ids : Finset ℕ} {id : ℕ} {status : Bool} (hid : id < inodeNum)
    (h0 : id ≠ 0) : Keeps { m with freedInode := ids }
      (saveBitmap { m with freedInode := ids } true (asInt id) status) :=
  saveBitmap_keeps hid fun h => h0 h.1

theorem allocInode_spec (type now : UInt32) (hne : m.freedInode.Nonempty)
    (hlt : ∀ j ∈ m.freedInode, j < inodeNum) (h0 : 0 ∉ m.freedInode) :
    ∃ id m', allocInode m type now = some (id, m') ∧ Created m type id m' := by
  have hmem := m.freedInode.min'_mem hne
  have hleast : ∀ j ∈ m.freedInode, m.freedInode.min' hne ≤ j := m.freedInode.min'_le
  refine ⟨m.freedInode.min' hne, _, by rw [allocInode, Lab2.allocInode, dif_pos hne]; rfl, ?_⟩
  generalize m.freedInode.min' hne = id at *
  have hid := hlt id hmem
  have hkeeps := @keeps_saveInode m (m.freedInode.erase id) id true hid
    (by rintro rfl; exact h0 hmem)
  have hfree := saveBitmap_freedData { m with freedInode := m.freedInode.erase id } true (asInt id)
    true
  generalize saveBitmap { m with freedInode := m.freedInode.erase id } true (asInt id) true = m₁
    at *
  rw [setattr, BlockManager.readInode]
  dsimp only
  have hinode : ∀ {b : Buffer} {j : ℕ}, j < inodeNum →
      ((m₁.touch (.inode (iblock id))).writeInode id b).inode j =
        if j = id then b else m₁.inode j :=
    fun hj => BlockManager.inode_writeInode hid hj
  refine ⟨⟨hmem, hleast⟩, ?_, ?_, fun x hx => ?_, fun j hj hji => ?_, ?_, ?_, ?_⟩
  · rw [BlockManager.writeInode_freedInode]
    exact hkeeps.freedInode
  · rw [BlockManager.writeInode_freedData]
    exact hfree
  · exact (BlockManager.data_writeInode hid hx).trans (hkeeps.data x hx)
  · rw [hinode hj, if_neg hji]
    exact hkeeps.inode j hj
  · rw [hinode hid, if_pos rfl, Ino.type, Ino.word_setTimes (by decide), setAttr,
      Buffer.word_setWord_ne (by decide), Buffer.word_setWord_ne (by decide),
      Buffer.word_setWord_ne (by decide), Buffer.word_setWord_ne (by decide),
      Buffer.word_setWord_self]
  · rw [BlockManager.fileSize, hinode hid, if_pos rfl, Ino.size, Ino.word_setTimes (by decide),
      setAttr, Buffer.word_setWord_self]
    rfl
  · exact (OnTrack.of_eq rfl).trans (hkeeps.track.trans
      ((OnTrack.touch (BlockManager.proper_inode hid)).trans (.writeInode hid)))

/-! ## `remove_file` -/

/-- The function, its lets taken apart. -/
theorem removeFile_eq (m : BlockManager) (i : ℕ) :
    let ino := m.inode i
    let A := (m.fileIds i).length
    let m₁ := loop 0 (min A nDirect) (fun j m => freeBlock m (Ino.blocks ino j))
      (m.touch (.inode (iblock i)))
    let q := Ino.blocks ino nDirect
    let m₂ := if nDirect < A then
        freeBlock (loop 0 (A - nDirect) (fun j m => freeBlock m ((m₁.data q).word j).toNat)
          (m₁.touch (.data (bblock q)))) q
      else m₁
    removeFile m i = freeInode (m₂.writeInode i (Ino.setType ino 0)) i := by
  rw [BlockManager.length_fileIds]
  rfl

/-- The ids that it frees are the file's. -/
theorem mem_fileIds_iff {x : ℕ} : x ∈ m.fileIds i ↔
    x ∈ (List.range' 0 (min (m.fileIds i).length nDirect - 0)).map (Ino.blocks (m.inode i)) ∨
      x ∈ (List.range' 0 ((m.fileIds i).length - nDirect - 0)).map
        fun j => ((m.data (Ino.blocks (m.inode i) nDirect)).word j).toNat := by
  have hids : m.fileIds i = (List.range (m.fileIds i).length).map
      (idAt (m.inode i) (m.data (Ino.blocks (m.inode i) nDirect))) := by
    rw [BlockManager.length_fileIds]
    rfl
  conv_lhs => rw [hids]
  simp only [List.mem_map, List.mem_range, List.mem_range'_1, Nat.sub_zero, Nat.zero_le, true_and,
    Nat.zero_add]
  constructor
  · rintro ⟨j, hj, rfl⟩
    rw [idAt]
    split
    next hdir => exact .inl ⟨j, by omega, rfl⟩
    next hdir => exact .inr ⟨j - nDirect, by omega, rfl⟩
  · rintro (⟨j, hj, rfl⟩ | ⟨j, hj, rfl⟩)
    · exact ⟨j, by omega, if_pos (by omega)⟩
    · refine ⟨nDirect + j, by omega, ?_⟩
      rw [idAt, if_neg (by omega), Nat.add_sub_cancel_left]

/-- The blocks that it frees. -/
theorem freeOwned_spec (h : m.Sound files) (hi : i ∈ files) :
    let ino := m.inode i
    let A := (m.fileIds i).length
    let m₁ := loop 0 (min A nDirect) (fun j m => freeBlock m (Ino.blocks ino j))
      (m.touch (.inode (iblock i)))
    let q := Ino.blocks ino nDirect
    let m₂ := if nDirect < A then
        freeBlock (loop 0 (A - nDirect) (fun j m => freeBlock m ((m₁.data q).word j).toNat)
          (m₁.touch (.data (bblock q)))) q
      else m₁
    Keeps m m₂ ∧ ∀ x, x ∈ m₂.freedData ↔ x ∈ m.freedData ∨ x ∈ m.owned i := by
  intro ino A m₁ q m₂
  have hlt : ∀ x ∈ m.owned i, x < dataBlockNum := fun x hx => lt_of_onDisk (h.onDisk i hi x hx)
  have hids := fun x => @mem_fileIds_iff m i x
  have hstart : Keeps m (m.touch (.inode (iblock i))) :=
    (Same.touch ..).keeps (.touch (BlockManager.proper_inode (h.inums i hi)))
  obtain ⟨hk₁, hfree₁⟩ : Keeps _ m₁ ∧ ∀ x, x ∈ m₁.freedData ↔ _ :=
    freeLoop_spec (m.touch (.inode (iblock i))) (Ino.blocks ino) (Nat.zero_le (min A nDirect))
      fun j _ hj => hlt _ (List.mem_append_left _ ((hids _).2 (.inl
        (List.mem_map_of_mem (List.mem_range'_1.2 (by omega))))))
  by_cases h100 : nDirect < A
  · have hq : q ∈ m.owned i := BlockManager.mem_owned_indirect h100
    have hind : m₁.data q = m.data q := (hstart.trans hk₁).data q (hlt q hq)
    have hread : Keeps m₁ (m₁.touch (.data (bblock q))) :=
      (Same.touch ..).keeps (.touch (BlockManager.proper_data (h.onDisk i hi q hq)))
    have hm₂ : m₂ = freeBlock (loop 0 (A - nDirect)
        (fun j m' => freeBlock m' ((m.data q).word j).toNat) (m₁.touch (.data (bblock q)))) q :=
      hind ▸ if_pos h100
    obtain ⟨hk₂, hfree₂⟩ := freeLoop_spec (m₁.touch (.data (bblock q)))
      (fun j => ((m.data q).word j).toNat) (Nat.zero_le (A - nDirect)) fun j _ hj =>
        hlt _ (List.mem_append_left _ ((hids _).2 (.inr
          (List.mem_map.2 ⟨j, List.mem_range'_1.2 (by omega), rfl⟩))))
    rw [hm₂]
    refine ⟨((hstart.trans hk₁).trans (hread.trans hk₂)).trans (keeps_freeBlock (hlt q hq)),
      fun x => ?_⟩
    have hfree₁' : x ∈ (m₁.touch (.data (bblock q))).freedData ↔ _ := hfree₁ x
    rw [freeBlock, saveBitmap_freedData, Finset.mem_insert, hfree₂, hfree₁', BlockManager.owned,
      List.mem_append, hids, BlockManager.indirectId, if_pos h100, List.mem_singleton, or_comm,
      or_assoc, or_assoc, or_assoc]
    rfl
  · have hm₂ : m₂ = m₁ := if_neg h100
    rw [hm₂]
    refine ⟨hstart.trans hk₁, fun x => ?_⟩
    have hnone : (m.fileIds i).length - nDirect = 0 := Nat.sub_eq_zero_of_le (not_lt.1 h100)
    rw [hfree₁, BlockManager.owned, List.mem_append, hids, BlockManager.indirectId, if_neg h100,
      hnone]
    simp [ino, A, BlockManager.touch]

theorem removeFile_spec (h : m.Sound files) (hi : i ∈ files) (h0 : i ≠ 0) :
    Removed m i (removeFile m i) := by
  have hinum := h.inums i hi
  obtain ⟨hk, hfree⟩ := freeOwned_spec h hi
  rw [removeFile_eq]
  generalize (if nDirect < (m.fileIds i).length then _ else _ : BlockManager) = m₂ at *
  have hsave := @keeps_saveInode (m₂.writeInode i (Ino.setType (m.inode i) 0))
    (insert i (m₂.writeInode i (Ino.setType (m.inode i) 0)).freedInode) i false hinum h0
  refine ⟨fun x => ?_, ?_, fun x hx => ?_, fun j hj => ?_, fun _ => ?_⟩
  · rw [freeInode, saveBitmap_freedData]
    exact (iff_of_eq (congrArg (x ∈ ·) (BlockManager.writeInode_freedData _))).trans (hfree x)
  · refine hsave.freedInode.trans ?_
    rw [BlockManager.writeInode_freedInode, hk.freedInode]
  · exact (hsave.data x hx).trans ((BlockManager.data_writeInode hinum hx).trans (hk.data x hx))
  · refine (hsave.inode j hj).trans ((BlockManager.inode_writeInode hinum hj).trans ?_)
    rw [hk.inode j hj]
  · exact hk.track.trans ((OnTrack.writeInode hinum).trans ((OnTrack.of_eq rfl).trans hsave.track))

/-- It does nothing where its `assert` fails. -/
theorem writeFile_length {free_end : Bool} {junk : Buffer} {now : UInt32}
    {r : List ℕ × BlockManager} (hw : writeFile m i buf off free_end junk now = some r) :
    off + buf.length ≤ maxFile * blockSize := by
  rw [writeFile_eq] at hw
  obtain ⟨hlen, -⟩ := Option.ite_none_left_eq_some.1 hw
  exact ceilDiv_le_iff.1 (not_lt.1 hlen)

end InodeManager

namespace System

open InodeManager

variable {s s' s₀ : System} {as : List Action} {a : Action} {now : UInt32}

/-- What holds between two calls. -/
structure Inv (s : System) : Prop where
  sound : s.m.Sound s.live
  inodes : s.m.Inodes s.live

theorem Inv.ne_zero {i : ℕ} (h : s.Inv) (hi : i ∈ s.live) : i ≠ 0 := by
  rintro rfl
  exact h.inodes.zero.1 hi

/-- A write is careful if there is room for it and it does not give an indirect block back. -/
def Careful (s : System) : Action → Prop
  | .write i buf off free_end _ _ => Fits s.m i buf off ∧ ¬ DropsIndirect s.m i buf off free_end
  | _ => True

/-- `alloc_inode` hands out a free inode, if there is one. -/
theorem alloc_step {type : UInt32} (h : s.Inv) (hs : s.step (.alloc type now) = some s') :
    ∃ i, Created s.m type i s'.m ∧ i < inodeNum ∧ i ∉ s.live ∧ s'.live = insert i s.live := by
  obtain ⟨⟨i, m'⟩, halloc, rfl⟩ := Option.map_eq_some_iff.1 hs
  have hne : s.m.freedInode.Nonempty := by
    by_contra hnone
    rw [InodeManager.allocInode, Lab2.allocInode, dif_neg hnone] at halloc
    cases halloc
  obtain ⟨i', m'', halloc', hcreated⟩ :=
    allocInode_spec type now hne h.inodes.lt_of_free h.inodes.zero.2
  obtain ⟨rfl, rfl⟩ := Prod.mk.inj (Option.some_inj.1 (halloc'.symm.trans halloc))
  exact ⟨_, hcreated, h.inodes.lt_of_free _ hcreated.least.1,
    Finset.disjoint_right.1 h.inodes.apart hcreated.least.1, rfl⟩

/-- Every careful call keeps the invariant. -/
theorem Inv.step (h : s.Inv) (hok : s.Careful a) (hs : s.step a = some s') : s'.Inv := by
  cases a with
  | alloc type now =>
    obtain ⟨i, hcreated, hlt, hnew, hlive⟩ := alloc_step h hs
    exact ⟨hlive ▸ hcreated.sound h.sound hlt hnew,
      hlive ▸ h.inodes.create hcreated.least.1 hcreated.freedInode⟩
  | write i buf off free_end junk now =>
    obtain ⟨hi, hs⟩ := Option.ite_none_right_eq_some.1 hs
    obtain ⟨r, hw, rfl⟩ := Option.map_eq_some_iff.1 hs
    obtain ⟨m', hw', hwritten, -⟩ :=
      writeFile_spec h.sound hi (writeFile_length hw) hok.1 hok.2 junk now
    obtain rfl := Option.some_inj.1 (hw'.symm.trans hw)
    refine ⟨hwritten.sound h.sound hi ?_, h.inodes.same hwritten.freedInode⟩
    rw [length_take_written]
    exact newSize_le (h.sound.small i hi) (writeFile_length hw)
  | remove i =>
    obtain ⟨hi, hs⟩ := Option.ite_none_right_eq_some.1 hs
    obtain rfl := Option.some_inj.1 hs
    have hremoved := removeFile_spec h.sound hi (h.ne_zero hi)
    exact ⟨hremoved.sound h.sound hi, h.inodes.remove hi hremoved.freedInode⟩

/-- What the constructor leaves. -/
structure Started (s : System) : Prop where
  inv : s.Inv
  live : s.live = {1}
  free : s.m.freedData = Finset.range dataBlockNum
  empty : s.m.fileSize 1 = 0

/-- **The constructor makes a root directory of inode 1.** -/
theorem start_spec (now : UInt32) : ∃ s, start now = some s ∧ s.Started := by
  obtain ⟨hinode, hdata, -⟩ := new_spec
  have hempty : new.Sound ∅ := by
    refine ⟨by simp, by simp, ⟨by simp, by simp, by simp, fun x => ?_⟩, by simp⟩
    rw [hdata, Finset.mem_range]
    simp
  have hinodes : new.Inodes ∅ := by
    refine ⟨by simp [hinode], by simp, fun x => ?_⟩
    rw [hinode, Finset.mem_erase, Finset.mem_range]
    simp only [inodeNum_eq, Finset.notMem_empty, false_or]
    omega
  have hone : 1 ∈ new.freedInode := by simp [hinode]
  obtain ⟨root, m, halloc, hcreated⟩ :=
    allocInode_spec tDir now ⟨1, hone⟩ hinodes.lt_of_free hinodes.zero.2
  obtain ⟨hmem, hleast⟩ := hcreated.least
  obtain rfl : root = 1 := by
    have hle := hleast 1 hone
    have hne : root ≠ 0 := fun h0 => hinodes.zero.2 (h0 ▸ hmem)
    omega
  refine ⟨⟨m, {1}⟩, ?_, ⟨⟨?_, ?_⟩, rfl, hcreated.freedData.trans hdata, hcreated.size⟩⟩
  · rw [start, halloc]
    rfl
  · exact hcreated.sound hempty (hinodes.lt_of_free _ hmem) (by simp)
  · exact hinodes.create hmem hcreated.freedInode

theorem Started.of_start (h : start now = some s) : s.Started := by
  obtain ⟨s', h', hs'⟩ := start_spec now
  exact Option.some_inj.1 (h'.symm.trans h) ▸ hs'

theorem Inv.of_run (h0 : start now = some s₀) (h : Run System.step Careful s₀ as s) : s.Inv :=
  h.invariant (P := Inv) (Started.of_start h0).inv fun _ _ _ hinv hok hs => hinv.step hok hs

/-! ## One file -/

/-- The root directory is the only file, and has `n` bytes. -/
structure Alone (s : System) (n : ℕ) : Prop where
  inv : s.Inv
  live : s.live = {1}
  size : s.m.fileSize 1 = n
  used : s.m.freedData.card + (s.m.owned 1).length = dataBlockNum

theorem Started.alone (h : s.Started) : s.Alone 0 := by
  refine ⟨h.inv, h.live, h.empty, ?_⟩
  rw [h.free, BlockManager.owned_of_empty h.empty, Finset.card_range, List.length_nil, Nat.add_zero]

namespace Alone

variable {n off : ℕ} {buf : Bytes}

theorem mem_live (h : s.Alone n) : 1 ∈ s.live := by simp [h.live]

/-- There is room for one file. -/
theorem careful (h : s.Alone n) (free_end : Bool)
    (hlen : off + buf.length ≤ maxFile * blockSize)
    (hkeep : ¬ DropsIndirect s.m 1 buf off free_end) (junk : Buffer) (now : UInt32) :
    s.Careful (.write 1 buf off free_end junk now) := by
  refine ⟨?_, hkeep⟩
  have hused := h.used
  have hA : (s.m.fileIds 1).length ≤ maxFile := by
    rw [BlockManager.length_fileIds]
    exact ceilDiv_le_iff.2 (h.inv.sound.small 1 h.mem_live)
  have hE : endBlock buf off ≤ maxFile := ceilDiv_le_iff.2 hlen
  have hmax := blocksFor_mono (max_le hA hE)
  have hmono := blocksFor_mono (Nat.le_max_left (s.m.fileIds 1).length (endBlock buf off))
  have hall : blocksFor maxFile ≤ diskDataNum := by decide
  rw [BlockManager.length_owned] at hused
  rw [Fits, BlockManager.inUse, needs]
  omega

theorem write (h : s.Alone n) (free_end : Bool) (hlen : off + buf.length ≤ maxFile * blockSize)
    (hkeep : ¬ DropsIndirect s.m 1 buf off free_end) (junk : Buffer) (now : UInt32) :
    ∃ s', s.step (.write 1 buf off free_end junk now) = some s' ∧
      s'.Alone (newSize s.m 1 buf off free_end) ∧
      ∀ p < (written s.m 1 buf off free_end).length,
        byteAt s'.m 1 p = stagedAt s.m 1 buf off p := by
  have hok := h.careful free_end hlen hkeep junk now
  obtain ⟨m', hw, hwritten, hbytes⟩ :=
    writeFile_spec h.inv.sound h.mem_live hlen hok.1 hkeep junk now
  have hs : s.step (.write 1 buf off free_end junk now) = some ⟨m', s.live⟩ := by
    rw [System.step, if_pos h.mem_live, hw]
    rfl
  refine ⟨_, hs, ⟨h.inv.step hok hs, h.live, ?_, ?_⟩, hbytes⟩
  · rw [hwritten.size, length_take_written]
  · rw [hwritten.card h.inv.sound h.mem_live]
    exact h.used

end Alone

/-! ## Two files -/

/-- Something is written into an empty file. -/
theorem write_empty {i : ℕ} {buf : Bytes} (h : s.Inv) (hi : i ∈ s.live)
    (hempty : s.m.fileSize i = 0) (hlen : buf.length ≤ maxFile * blockSize)
    (hcard : 10 + blocksFor (ceilDiv buf.length blockSize) ≤ s.m.freedData.card)
    (junk : Buffer) (now : UInt32) :
    s.Careful (.write i buf 0 false junk now) ∧
      ∃ m', s.step (.write i buf 0 false junk now) = some ⟨m', s.live⟩ ∧
        m'.fileSize i = buf.length ∧
        (∀ j < inodeNum, j ≠ i → m'.fileSize j = s.m.fileSize j) ∧
        m'.freedData.card + blocksFor (ceilDiv buf.length blockSize) = s.m.freedData.card := by
  have hids : (s.m.fileIds i).length = 0 := by
    rw [BlockManager.length_fileIds, hempty]
    rfl
  have hzero : blocksFor 0 = 0 := rfl
  have hlen' : 0 + buf.length ≤ maxFile * blockSize := (Nat.zero_add _).symm ▸ hlen
  have hfits : Fits s.m i buf 0 := by
    have hmax : blocksFor (ceilDiv buf.length blockSize) ≤ blocksFor maxFile :=
      blocksFor_mono (ceilDiv_le_iff.2 hlen)
    have hall : blocksFor maxFile ≤ diskDataNum := by decide
    rw [BlockManager.diskDataNum_eq] at hall
    rw [Fits, needs, hids, endBlock, Nat.zero_add, Nat.zero_max, hzero, BlockManager.inUse,
      dataBlockNum_eq, BlockManager.diskDataNum_eq]
    omega
  obtain ⟨m', hw, hwritten, -⟩ :=
    writeFile_spec h.sound hi hlen' hfits not_dropsIndirect_false junk now
  have hsize : m'.fileSize i = buf.length := by
    rw [hwritten.size, length_take_written, newSize, hempty, Nat.zero_add]
    exact Nat.max_eq_right (Nat.zero_le _)
  refine ⟨⟨hfits, not_dropsIndirect_false⟩, m', ?_, hsize, fun j hj hji => ?_, ?_⟩
  · rw [step, if_pos hi, hw]
    rfl
  · exact congrArg (fun b => (Ino.size b).toNat) (hwritten.inode j hj hji)
  · have hcard := hwritten.card h.sound hi
    rwa [BlockManager.length_owned, BlockManager.length_owned, BlockManager.length_fileIds, hsize,
      hids, hzero] at hcard

/-- A second file is made, and something is written into both. -/
def twoFiles (buf₁ buf₂ : Bytes) : List Action :=
  [.alloc 2 0, .write 1 buf₁ 0 false Buffer.zero 0, .write 2 buf₂ 0 false Buffer.zero 0]

/-- The root directory and a second file, of so many bytes. -/
structure TwoFiles (s : System) (n₁ n₂ : ℕ) : Prop where
  live : s.live = {1, 2}
  one : s.m.fileSize 1 = n₁
  two : s.m.fileSize 2 = n₂
  card : s.m.freedData.card + blocksFor (ceilDiv n₁ blockSize) + blocksFor (ceilDiv n₂ blockSize) =
    dataBlockNum

/-- The next inode, where those up to `i` are live. -/
theorem alloc_next {i : ℕ} (h : s.Inv) (hpos : 1 ≤ i) (hi : i < inodeNum)
    (hlive : ∀ j, j ∈ s.live ↔ 1 ≤ j ∧ j < i) (type now : UInt32) :
    ∃ m', Created s.m type i m' ∧ s.step (.alloc type now) = some ⟨m', insert i s.live⟩ := by
  have hzero := h.inodes.zero.2
  have hfree : i ∈ s.m.freedInode := by
    rcases (h.inodes.all i).1 hi with rfl | hmem | hmem
    · exact absurd hpos (by decide)
    · exact absurd ((hlive i).1 hmem).2 (Nat.lt_irrefl i)
    · exact hmem
  obtain ⟨id, m', halloc, hm⟩ := allocInode_spec type now ⟨i, hfree⟩ h.inodes.lt_of_free hzero
  obtain rfl : id = i := by
    rcases (hm.least.2 i hfree).lt_or_eq with hlt | heq
    · have hid : id ≠ 0 := fun h0 => hzero (h0 ▸ hm.least.1)
      exact absurd hm.least.1
        (Finset.disjoint_left.1 h.inodes.apart ((hlive id).2 ⟨Nat.pos_of_ne_zero hid, hlt⟩))
    · exact heq
  refine ⟨m', hm, ?_⟩
  rw [step, halloc]
  rfl

theorem exists_twoFiles {buf₁ buf₂ : Bytes} (h₁ : buf₁.length ≤ maxFile * blockSize)
    (h₂ : buf₂.length ≤ maxFile * blockSize) : ∃ s₀ s, start 0 = some s₀ ∧
      Run step Careful s₀ (twoFiles buf₁ buf₂) s ∧ s.TwoFiles buf₁.length buf₂.length := by
  obtain ⟨s₀, h0, hs₀⟩ := start_spec 0
  obtain ⟨m₁, hm₁, hstep₁⟩ := alloc_next hs₀.inv (i := 2) (by decide) (by decide)
    (fun j => by rw [hs₀.live, Finset.mem_singleton]; omega) 2 0
  have hinv₁ := hs₀.inv.step (a := .alloc 2 0) trivial hstep₁
  have hcard₁ : m₁.freedData.card = dataBlockNum := by
    rw [hm₁.freedData, hs₀.free, Finset.card_range]
  have hone : m₁.fileSize 1 = 0 :=
    (congrArg (fun b => (Ino.size b).toNat) (hm₁.inode 1 (by decide) (by decide))).trans hs₀.empty
  have hlive : insert 2 s₀.live = {1, 2} := by
    rw [hs₀.live]
    decide
  have hall : blocksFor maxFile = maxFile + 1 := rfl
  rw [maxFile_eq] at hall
  have hmax₁ := blocksFor_mono (ceilDiv_le_iff.2 h₁)
  have hmax₂ := blocksFor_mono (ceilDiv_le_iff.2 h₂)
  rw [maxFile_eq, hall] at hmax₁ hmax₂
  rw [dataBlockNum_eq] at hcard₁
  obtain ⟨hok₂, m₂, hstep₂, hone₂, hother₂, hcard₂⟩ := write_empty hinv₁ (i := 1)
    (by simp [hlive]) hone h₁ (by dsimp only; omega) Buffer.zero 0
  have hinv₂ := hinv₁.step hok₂ hstep₂
  dsimp only at hcard₂ hother₂
  have htwo : m₂.fileSize 2 = 0 := (hother₂ 2 (by decide) (by decide)).trans hm₁.size
  obtain ⟨hok₃, m₃, hstep₃, htwo₃, hother₃, hcard₃⟩ := write_empty hinv₂ (i := 2)
    (by simp) htwo h₂ (by dsimp only; omega) Buffer.zero 0
  dsimp only at hcard₃ hother₃
  refine ⟨s₀, _, h0, ((Run.nil.snoc trivial hstep₁).snoc hok₂ hstep₂).snoc hok₃ hstep₃, hlive, ?_,
    htwo₃, ?_⟩
  · exact (hother₃ 1 (by decide) (by decide)).trans hone₂
  · rw [dataBlockNum_eq]
    dsimp only
    omega

end System

end Lab2
end CseLab
