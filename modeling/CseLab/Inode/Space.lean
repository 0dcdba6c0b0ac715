import CseLab.Inode.Files

/-!
# How much a write takes

`write_file` asks for as many blocks as its file has too few, and for no more.  So whether the
blocks in use will fit on the disk afterwards can be told before the call (`Fits`), from how many
are in use and from the old and the new size of the file.

Which blocks are taken does not come into it, and the bound holds of any disk whatever
(`card_writeFile`).  How many are free afterwards, to the block, is told of files in order
(`Written.card`).
-/

set_option autoImplicit false

namespace CseLab
namespace Inode

/-- How many blocks a file of `n` data blocks has. -/
def blocksFor (n : ℕ) : ℕ := n + if nDirect < n then 1 else 0

theorem blocksFor_mono {a b : ℕ} (h : a ≤ b) : blocksFor a ≤ blocksFor b := by
  simp only [blocksFor]
  split <;> split <;> omega

namespace BlockManager

variable {m m' : BlockManager} {files : Finset ℕ} {i j : ℕ} {buf : Bytes}

theorem length_owned : (m.owned i).length = blocksFor (m.fileIds i).length := by
  rw [owned, List.length_append, blocksFor, BlockManager.indirectId]
  split <;> rfl

/-! ## The bound -/

theorem card_allocBlock (m : BlockManager) :
    m.freedData.card ≤ m.allocBlock.2.freedData.card + 1 := by
  rw [allocBlock]
  split
  next hne => exact (Finset.card_erase_add_one (m.freedData.min'_mem hne)).ge
  next => exact Nat.le_succ _

theorem card_writeFrom (c : Source) (id : ℕ) (tmp : Ptr) :
    (m.writeFrom c id tmp).freedData.card = m.freedData.card := by
  rw [(Same.writeFrom m c id tmp).freedData, writeData_freedData]

theorem card_growWith {lo hi : ℕ} (m : BlockManager) (c : Source) (put : Buffer → ℕ → ℕ → Buffer)
    (tmp : Ptr) (b : Buffer) (h : lo ≤ hi) : m.freedData.card ≤
      (loop lo hi (growWith c put) (tmp, b, m)).2.2.freedData.card + (hi - lo) := by
  refine loop_induct (P := fun i (r : Ptr × Buffer × BlockManager) =>
    m.freedData.card ≤ r.2.2.freedData.card + (i - lo)) h (Nat.le_add_right ..) ?_
  rintro i ⟨tmp, b, r⟩ hlo - hr
  have halloc := card_allocBlock r
  dsimp only [growWith] at hr ⊢
  rw [card_writeFrom]
  omega

theorem card_growDirect {lo hi : ℕ} (m : BlockManager) (c : Source) (tmp : Ptr) (ino : Buffer)
    (h : lo ≤ hi) : m.freedData.card ≤
      (loop lo hi (growDirect c) (tmp, ino, m)).2.2.freedData.card + (hi - lo) :=
  card_growWith m c Ino.setBlocks tmp ino h

theorem card_growIndirect {lo hi : ℕ} (m : BlockManager) (c : Source) (tmp : Ptr) (ind : Buffer)
    (h : lo ≤ hi) : m.freedData.card ≤
      (loop lo hi (growIndirect c) (tmp, ind, m)).2.2.freedData.card + (hi - lo) :=
  card_growWith m c (fun b i id => b.setWord (i - nDirect) (UInt32.ofNat id)) tmp ind h

theorem card_grow {c : Source} {ino ind : Buffer} {tmp : Ptr} {blockN : ℕ}
    (hlt : blockN < c.newBlockN) : m.freedData.card ≤
      (m.grow c ino ind tmp blockN (decide (nDirect < blockN))).2.freedData.card +
        (blocksFor c.newBlockN - blocksFor blockN) := by
  rcases Nat.lt_or_ge nDirect c.newBlockN with hN | hN
  · rcases Nat.lt_or_ge nDirect blockN with h100 | h100
    · rw [decide_eq_true h100, grow_indirect h100 hlt]
      have hloop := card_growIndirect m c tmp ind hlt.le
      simp only [blocksFor, if_pos hN, if_pos h100, writeData_freedData]
      omega
    · rw [decide_eq_false (not_lt.2 h100), grow_cross h100 hN]
      have hloop := card_growDirect m c tmp ino h100
      generalize loop blockN nDirect (growDirect c) (tmp, ino, m) = r at *
      have halloc := card_allocBlock r.2.2
      have hloop' := card_growIndirect r.2.2.allocBlock.2 c r.1 ind hN.le
      simp only [blocksFor, if_pos hN, if_neg (not_lt.2 h100), writeData_freedData]
      omega
  · rw [grow_direct hN]
    have hloop := card_growDirect m c tmp ino hlt.le
    simp only [blocksFor, if_neg (not_lt.2 hN), if_neg (show ¬ nDirect < blockN by omega)]
    omega

theorem card_shrink {ino : Buffer} {ids : List ℕ} {N : ℕ} (h : N ≤ ids.length) :
    m.freedData.card ≤ (m.shrink ino ids N).freedData.card :=
  Finset.card_le_card fun x hx => ((shrink_spec m ino h).2.2.2 x).2 (.inl hx)

theorem freedData_overwrite (m : BlockManager) (c : Source) (ids : List ℕ) (hi : ℕ) (tmp : Ptr) :
    (loop 0 hi (overwrite c ids) (tmp, m)).2.freedData = m.freedData :=
  loop_keeps (P := fun r : Ptr × BlockManager => r.2.freedData = m.freedData) rfl
    fun i r _ _ hr => by
      dsimp only [overwrite]
      rw [(Same.writeFrom ..).freedData, writeData_freedData, hr]

/-- How many blocks a write would take. -/
def needs (m : BlockManager) (i : ℕ) (buf : Bytes) : ℕ :=
  blocksFor (ceilDiv buf.length blockSize) - blocksFor (ceilDiv (m.fileSize i) blockSize)

/-- **A write takes no more blocks than its file has too few.** -/
theorem card_writeFile {junk : Junk} {now t : UInt32}
    (hw : m.writeFile i buf junk now = some (t, m')) :
    m.freedData.card ≤ m'.freedData.card + m.needs i buf := by
  obtain ⟨ind, m₂, hget, -, hm₂, -⟩ := getBlockids_same (m.touch (.inode (iblock i))) (m.inode i)
    junk.indirectBlock
  have hids : (m.touch (.inode (iblock i))).idsOf (m.inode i) = m.fileIds i := rfl
  rw [hids] at hget
  rw [writeFile_eq, hget] at hw
  generalize hc : (⟨buf, junk, ceilDiv buf.length blockSize⟩ : Source) = c at hw
  have hN : c.newBlockN = ceilDiv buf.length blockSize := by rw [← hc]
  rw [needs, ← length_fileIds, ← hN]
  obtain ⟨-, hw⟩ := Option.ite_none_left_eq_some.1 hw
  obtain ⟨-, hw⟩ := Prod.mk.inj (Option.some_inj.1 hw)
  rw [← hw, writeInode_freedData]
  dsimp only
  have hfreed : (loop 0 (min (m.fileIds i).length c.newBlockN) (overwrite c (m.fileIds i))
      (.buf 0, m₂.touch (.source c.lastOff (buf.length - c.lastOff)))).2.freedData =
      m.freedData := (freedData_overwrite ..).trans hm₂.freedData
  generalize loop 0 _ (overwrite _ _) _ = r at hfreed ⊢
  rw [← hfreed]
  rcases Nat.lt_trichotomy (m.fileIds i).length c.newBlockN with h | h | h
  · rw [if_neg h.not_gt, if_pos h]
    exact card_grow h
  · rw [if_neg h.not_gt, if_neg h.not_lt]
    exact Nat.le_add_right ..
  · rw [if_pos h]
    exact (card_shrink h.le).trans (Nat.le_add_right ..)

/-- There is room for a write. -/
def Fits (m : BlockManager) (i : ℕ) (buf : Bytes) : Prop := m.inUse + m.needs i buf ≤ diskDataNum

theorem roomy_of_fits {junk : Junk} {now t : UInt32} (h : m.Fits i buf)
    (hw : m.writeFile i buf junk now = some (t, m')) : m'.Roomy := by
  have hcard := card_writeFile hw
  rw [roomy_iff]
  simp only [Fits, inUse, dataBlockNum_eq, diskDataNum_eq] at h
  omega

/-- What is free after a write, to the block. -/
theorem Written.card (h : Written m i buf m') (hs : m.Sound files) (hi : i ∈ files) :
    m'.freedData.card + (m'.owned i).length = m.freedData.card + (m.owned i).length := by
  have hunion : m'.freedData ∪ (m'.owned i).toFinset = m.freedData ∪ (m.owned i).toFinset := by
    ext x
    rw [Finset.mem_union, Finset.mem_union, List.mem_toFinset, List.mem_toFinset, h.free x]
    constructor
    · rintro (⟨hx, -⟩ | hx)
      · exact hx
      · exact h.taken x hx
    · intro hx
      by_cases hx' : x ∈ m'.owned i
      · exact .inr hx'
      · exact .inl ⟨hx, hx'⟩
  have hnew : Disjoint m'.freedData (m'.owned i).toFinset :=
    Finset.disjoint_left.2 fun x hx hx' => ((h.free x).1 hx).2 (List.mem_toFinset.1 hx')
  have hold : Disjoint m.freedData (m.owned i).toFinset :=
    Finset.disjoint_left.2 fun x hx hx' => hs.owns.owned i hi x (List.mem_toFinset.1 hx') hx
  rw [← List.toFinset_card_of_nodup h.nodup, ← List.toFinset_card_of_nodup (hs.owns.nodup i hi),
    ← Finset.card_union_of_disjoint hnew, ← Finset.card_union_of_disjoint hold, hunion]

end BlockManager

end Inode
end CseLab
