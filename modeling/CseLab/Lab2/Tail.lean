import CseLab.Lab2.Runs

/-!
# What a truncation frees

With `free_end` the blocks behind the new end are freed.  Their ids come from the inode or from the
table of the indirect block, which is read only if the new end needs it; where the file is cut back
to blocks that the inode lists, the others' ids are read from an array that nobody has filled.

* `frees_tail_iff` — a truncation frees the file's tail exactly if it does not do that.
-/

set_option autoImplicit false

namespace CseLab
namespace Lab2

open Inode
open Inode.BlockManager (diskDataNum diskDataNum_eq idAt)

namespace InodeManager

variable {m m' : BlockManager} {i : ℕ} {buf : Bytes} {off : ℕ} {files : Finset ℕ}

/-- What a truncation is to free: the blocks behind the new end, and the indirect block if the file
has one and needs none any more. -/
def tail (m : BlockManager) (i : ℕ) (buf : Bytes) (off : ℕ) : List ℕ :=
  (m.fileIds i).drop (endBlock buf off) ++
    if endBlock buf off ≤ nDirect ∧ nDirect < (m.fileIds i).length then
      [Ino.blocks (m.inode i) nDirect] else []

/-- **What a truncation ought to do**, whatever the uninitialised array holds: it frees the tail of
the file, each block once, and then every block is free or has one owner. -/
def FreesTail (m : BlockManager) (files : Finset ℕ) (i : ℕ) (buf : Bytes) (off : ℕ) : Prop :=
  ∀ junk now, ∃ freed m', writeFile m i buf off true junk now = some (freed, m') ∧
    freed.Perm (tail m i buf off) ∧
    Divided (· < dataBlockNum) (· ∈ m'.freedData) (· ∈ files) m'.owned

/-- Where the indirect block is given back, the ids come from the uninitialised array. -/
theorem writeFile_drops (h : DropsIndirect m i buf off true) (junk : Buffer) (now : UInt32) :
    ∃ m', writeFile m i buf off true junk now =
      some ((List.range' (endBlock buf off) ((m.fileIds i).length - endBlock buf off)).map
        (idAt (m.inode i) junk) ++ [Ino.blocks (m.inode i) nDirect], m') := by
  obtain ⟨-, hE, hA⟩ := h
  have hEA : endBlock buf off ≤ (m.fileIds i).length := hE.trans hA.le
  have hmax : ¬ maxFile < endBlock buf off := by
    simp only [maxFile_eq, nDirect_eq] at hE ⊢
    omega
  have heq := writeFile_eq m i buf off true junk now
  dsimp only at heq
  rw [if_neg hmax, takeIndirect, if_neg fun hc => absurd hc.1 (not_lt.2 hE), Option.bind_some,
    if_neg (not_lt.2 hE)] at heq
  dsimp only at heq
  obtain ⟨m', hloop⟩ := loop_old (S := startBlock m i off) (m.inode i) junk
    (memcpy (memcpy Buffer.zero 0 (oldBlocks (m.touch (.inode (iblock i))) (m.inode i)
      (startBlock m i off) (m.fileIds i).length (endBlock buf off)).1)
      ((off / blockSize - startBlock m i off) * blockSize + off % blockSize) buf)
    (oldBlocks (m.touch (.inode (iblock i))) (m.inode i) (startBlock m i off)
      (m.fileIds i).length (endBlock buf off)).2 hEA
  rw [hloop, Option.map_some, if_pos rfl, freeEnd, freeTail_eq m' _ _ hEA] at heq
  dsimp only at heq
  rw [if_pos ⟨hE, hA⟩] at heq
  exact ⟨_, heq⟩

/-- No truncation that gives the indirect block back does what it ought to. -/
theorem not_freesTail (h : m.Sound files) (hi : i ∈ files)
    (hdrop : DropsIndirect m i buf off true) : ¬ FreesTail m files i buf off := by
  intro hall
  -- an array that has ids of no block
  have hword : Buffer.word (fun _ => 255) 0 = 0xffffffff := by decide
  obtain ⟨freed, m', hw, hperm, -⟩ := hall (fun _ => 255) 0
  obtain ⟨m'', hw'⟩ := writeFile_drops hdrop (fun _ => 255) 0
  obtain ⟨rfl, -⟩ := Prod.mk.inj (Option.some_inj.1 (hw.symm.trans hw'))
  obtain ⟨-, hE, hA⟩ := hdrop
  have hmem : (0xffffffff : ℕ) ∈ tail m i buf off := by
    refine hperm.mem_iff.1 (List.mem_append_left _ (List.mem_map.2 ⟨nDirect,
      List.mem_range'_1.2 (by omega), ?_⟩))
    rw [idAt, if_neg (by omega), Nat.sub_self, hword]
    rfl
  have hown : (0xffffffff : ℕ) ∈ m.owned i := by
    rw [tail, if_pos ⟨hE, hA⟩] at hmem
    rcases List.mem_append.1 hmem with hmem | hmem
    · exact List.mem_append_left _ (List.mem_of_mem_drop hmem)
    · rw [List.mem_singleton.1 hmem]
      exact BlockManager.mem_owned_indirect hA
  exact absurd (h.onDisk i hi _ hown) (by simp)

/-- Where there is room, a truncation frees the tail of the file exactly if it does not give the
indirect block back. -/
theorem freesTail_iff (h : m.Sound files) (hi : i ∈ files)
    (hlen : off + buf.length ≤ maxFile * blockSize) (hfits : Fits m i buf off) :
    FreesTail m files i buf off ↔ ¬ DropsIndirect m i buf off true := by
  refine ⟨fun hall hdrop => not_freesTail h hi hdrop hall, fun hkeep junk now => ?_⟩
  obtain ⟨m', hw, hwritten, -⟩ := writeFile_spec h hi hlen hfits hkeep junk now
  have hsound := hwritten.sound h hi (by
    rw [length_take_written]
    exact newSize_le (h.small i hi) hlen)
  have htail : tail m i buf off = (m.fileIds i).drop (endBlock buf off) := by
    rw [tail, if_neg fun hc => hkeep ⟨rfl, hc⟩, List.append_nil]
  exact ⟨_, m', hw, by rw [if_pos rfl, htail], hsound.owns⟩

end InodeManager

namespace System

open InodeManager

variable {s s₀ : System} {as : List Action} {now : UInt32} {i : ℕ}

/-- **A truncation frees the file's tail exactly if the file has no indirect block or needs it
still**, after any careful calls. -/
theorem frees_tail_iff (h0 : start now = some s₀) (h : Run step Careful s₀ as s) (hi : i ∈ s.live)
    {buf : Bytes} {off : ℕ} (hlen : off + buf.length ≤ maxFile * blockSize)
    (hfits : Fits s.m i buf off) : FreesTail s.m s.live i buf off ↔
      ¬ (endBlock buf off ≤ nDirect ∧ nDirect < (s.m.fileIds i).length) := by
  rw [freesTail_iff (Inv.of_run h0 h).sound hi hlen hfits, DropsIndirect]
  simp only [true_and]

/-- A file of three blocks, beside the root directory, is cut back to a byte. -/
theorem frees_tail_files : ∃ s₀ s, start 0 = some s₀ ∧ Run step Careful s₀
    (twoFiles (List.replicate 600 1) (List.replicate 1200 2)) s ∧ s.live = {1, 2} ∧
      (tail s.m 2 [7] 0).length = 2 ∧ FreesTail s.m s.live 2 [7] 0 := by
  have hsmall : ∀ {n : ℕ} {b : UInt8}, n ≤ 1200 →
      (List.replicate n b).length ≤ maxFile * blockSize := fun hn => by
    rw [List.length_replicate]
    exact hn.trans (by decide)
  obtain ⟨s₀, s, h0, h, hfiles⟩ :=
    exists_twoFiles (hsmall (n := 600) (b := 1) (by decide)) (hsmall (n := 1200) (b := 2) le_rfl)
  have hids : (s.m.fileIds 2).length = 3 := by
    rw [BlockManager.length_fileIds, hfiles.two, List.length_replicate]
    rfl
  have hend : endBlock [7] 0 = 1 := rfl
  have hcard := hfiles.card
  have hlen : 0 + ([7] : Bytes).length ≤ maxFile * blockSize := by decide
  have hfits : Fits s.m 2 [7] 0 := by
    have h₁ : blocksFor (ceilDiv 600 blockSize) = 2 := rfl
    have h₂ : blocksFor (ceilDiv 1200 blockSize) = 3 := rfl
    rw [List.length_replicate, List.length_replicate, h₁, h₂, dataBlockNum_eq] at hcard
    rw [Fits, needs, hids, hend, Nat.max_eq_left (by decide), Nat.sub_self, BlockManager.inUse,
      dataBlockNum_eq, BlockManager.diskDataNum_eq]
    omega
  refine ⟨s₀, s, h0, h, hfiles.live, ?_,
    (frees_tail_iff h0 h (by simp [hfiles.live]) hlen hfits).2 ?_⟩
  · rw [tail, hids, hend, if_neg (by decide), List.append_nil, List.length_drop, hids]
  · rw [hids, hend]
    decide

/-- **A file of 101 blocks, emptied, does not give its last block back.** -/
theorem not_frees_tail : ¬ ∀ now s₀ as s, start now = some s₀ → Run step anyStep s₀ as s →
    ∀ i buf off, i ∈ s.live → off + buf.length ≤ maxFile * blockSize →
      FreesTail s.m s.live i buf off := by
  intro hall
  obtain ⟨s₀, h0, hs₀⟩ := start_spec 0
  have hlen : 101 * blockSize + ([] : Bytes).length ≤ maxFile * blockSize := by decide
  obtain ⟨s, hstep, hs, -⟩ := hs₀.alone.write false hlen not_dropsIndirect_false Buffer.zero 0
  have hsize : newSize s₀.m 1 [] (101 * blockSize) false = 101 * blockSize := by
    rw [newSize, hs₀.empty]
    rfl
  have hA : (s.m.fileIds 1).length = 101 := by
    rw [BlockManager.length_fileIds, hs.size, hsize, ceilDiv_mul]
  refine not_freesTail hs.inv.sound hs.mem_live ⟨rfl, ?_, ?_⟩
    (hall 0 s₀ _ s h0 (.snoc .nil trivial hstep) 1 [] 0 hs.mem_live (by decide))
  · decide
  · rw [hA]
    decide

end System

end Lab2
end CseLab
