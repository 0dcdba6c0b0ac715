import CseLab.Lab2.Runs
import CseLab.Lib.Posix

/-!
# What a write ought to come to

`law` is what POSIX has of a write, with the file cut off behind it if `free_end`.  `write_file`
keeps it up to the gap between the old end of the file and the place that is written, which shows
what the file's last block has there: the bytes that were cut off before, if the file was cut off
within a block.

* `write_law_iff` — a write is lawful exactly if those bytes are zero.
* `tidy_law` — they are as long as no file is cut off within a block.
* `read_written` — what is written is read back in any case.
-/

set_option autoImplicit false

namespace CseLab
namespace Lab2

open Inode

namespace InodeManager

variable {m m' : BlockManager} {i : ℕ} {buf : Bytes} {off : ℕ} {files : Finset ℕ}
  {free_end : Bool}

/-- The file `c` with `d` written at `off`, and cut off there if `free_end`. -/
def law (c d : Bytes) (off : ℕ) (free_end : Bool) : Bytes :=
  if free_end then Posix.truncate (Posix.write c d off) (off + d.length) else Posix.write c d off

/-- **What `write_file` ought to do.** -/
def WritesLaw (m : BlockManager) (i : ℕ) (buf : Bytes) (off : ℕ) (free_end : Bool) (junk : Buffer)
    (now : UInt32) : Prop :=
  ∃ freed m', writeFile m i buf off free_end junk now = some (freed, m') ∧
    m'.content i = law (m.content i) buf off free_end

/-- The gap between the end of the file and `off` is zero, as far as the file's blocks go. -/
def GapClear (m : BlockManager) (i off : ℕ) : Prop :=
  ∀ p, m.fileSize i ≤ p → p < min off ((m.fileIds i).length * blockSize) → byteAt m i p = 0

theorem getD_content (p : ℕ) :
    (m.content i).getD p 0 = if p < m.fileSize i then byteAt m i p else 0 := by
  rw [List.getD_eq_getElem?_getD]
  split
  next hp => rw [getElem?_content_byteAt hp, Option.getD_some]
  next hp =>
    rw [List.getElem?_eq_none (by rw [BlockManager.length_content]; omega)]
    rfl

theorem length_law (c d : Bytes) (off : ℕ) (free_end : Bool) : (law c d off free_end).length =
    if free_end then off + d.length else max c.length (off + d.length) := by
  rw [law]
  split
  · exact Posix.length_truncate ..
  · exact Posix.length_write ..

theorem getD_law (c d : Bytes) (off : ℕ) (free_end : Bool) (p : ℕ) :
    (law c d off free_end).getD p 0 =
      if off ≤ p ∧ p < off + d.length then d.getD (p - off) 0
      else if free_end ∧ off + d.length ≤ p then 0 else c.getD p 0 := by
  rw [law]
  split
  next hfree =>
    rw [Posix.getD_truncate, Posix.getD_write]
    by_cases hp : p < off + d.length
    · rw [if_pos hp, if_neg (show ¬ (free_end = true ∧ off + d.length ≤ p) by omega)]
    · rw [if_neg hp, if_neg (by omega), if_pos ⟨hfree, by omega⟩]
  next hfree =>
    rw [Posix.getD_write, if_neg (show ¬ (free_end = true ∧ off + d.length ≤ p) by tauto)]

theorem getD_take_written (p : ℕ) :
    ((written m i buf off free_end).take (newSize m i buf off free_end)).getD p 0 =
      if p < newSize m i buf off free_end then stagedAt m i buf off p else 0 := by
  have hlen := @length_take_written m i buf off free_end
  split
  next hp =>
    rw [List.getD_eq_getElem _ _ (by rw [hlen]; exact hp), List.getElem_take]
    exact getElem?_written (List.getElem?_eq_getElem _)
  next hp => exact List.getD_eq_default _ _ (by rw [hlen]; omega)

/-- The file as staged is the file as it ought to be exactly if the gap is clear. -/
theorem written_eq_law_iff :
    (written m i buf off free_end).take (newSize m i buf off free_end) =
      law (m.content i) buf off free_end ↔ GapClear m i off := by
  have hA : m.fileSize i ≤ (m.fileIds i).length * blockSize := by
    rw [BlockManager.length_fileIds]
    exact ceilDiv_le_iff.1 le_rfl
  have hoff : off + buf.length ≤ newSize m i buf off free_end := le_newSize
  constructor
  · intro heq p hsize hp
    rw [lt_min_iff] at hp
    have hget := congrArg (List.getD · p 0) heq
    rw [getD_take_written, getD_law, getD_content, if_pos (by omega), if_neg (by omega),
      if_neg (by omega), if_neg (by omega), stagedAt, if_neg (by omega), if_pos hp.2] at hget
    exact hget
  · intro hgap
    refine Posix.ext_getD ?_ fun p => ?_
    · rw [length_take_written, length_law, BlockManager.length_content]
      rfl
    · rw [getD_take_written, getD_law, getD_content, stagedAt]
      by_cases hin : off ≤ p ∧ p < off + buf.length
      · rw [if_pos hin, if_pos hin, if_pos (by omega)]
      · rw [if_neg hin, if_neg hin]
        by_cases hsize : p < m.fileSize i
        · rw [if_pos hsize, if_pos (hsize.trans_le hA)]
          by_cases hcut : free_end = true ∧ off + buf.length ≤ p
          · rw [if_pos hcut, newSize, if_pos hcut.1, if_neg (by omega)]
          · rw [if_neg hcut, if_pos]
            rw [newSize]
            split
            next hfree => exact not_le.1 fun hle => hcut ⟨hfree, hle⟩
            next => exact lt_max_of_lt_left hsize
        · rw [if_neg hsize, ite_self]
          split
          next hp =>
            split
            next hpA =>
              refine hgap p (not_lt.1 hsize) (lt_min_iff.2 ⟨?_, hpA⟩)
              rw [newSize] at hp
              split at hp <;> omega
            next => rfl
          next => rfl

/-- Where there is room, a write that keeps the indirect block is as it ought to be exactly if the
gap is clear. -/
theorem writesLaw_iff {junk : Buffer} {now : UInt32} (h : m.Sound files) (hi : i ∈ files)
    (hlen : off + buf.length ≤ maxFile * blockSize) (hfits : Fits m i buf off)
    (hkeep : ¬ DropsIndirect m i buf off free_end) :
    WritesLaw m i buf off free_end junk now ↔ GapClear m i off := by
  obtain ⟨m', hw, hwritten, -⟩ := writeFile_spec h hi hlen hfits hkeep junk now
  rw [← @written_eq_law_iff m i buf off free_end, ← hwritten.content]
  constructor
  · rintro ⟨freed, m'', hw', hlaw⟩
    obtain ⟨-, rfl⟩ := Prod.mk.inj (Option.some_inj.1 (hw.symm.trans hw'))
    exact hlaw
  · exact fun hlaw => ⟨_, _, hw, hlaw⟩

/-- The written part is where it was put. -/
theorem drop_take_written : (((written m i buf off free_end).take
    (newSize m i buf off free_end)).drop off).take buf.length = buf := by
  have hle : off + buf.length ≤ newSize m i buf off free_end := le_newSize
  refine Posix.ext_getD ?_ fun k => ?_
  · rw [List.length_take, List.length_drop, length_take_written]
    omega
  · rw [Posix.getD_take, Posix.getD_drop, getD_take_written]
    split
    next hk => rw [if_pos (by omega), stagedAt, if_pos (by omega), Nat.add_sub_cancel_left]
    next hk => exact (List.getD_eq_default _ _ (not_lt.1 hk)).symm

/-! ## Nothing left behind -/

/-- Behind the end of every file its last block is zero. -/
def Clean (m : BlockManager) (files : Finset ℕ) : Prop :=
  ∀ i ∈ files, ∀ p, m.fileSize i ≤ p → p < (m.fileIds i).length * blockSize → byteAt m i p = 0

theorem Clean.gapClear (h : Clean m files) (hi : i ∈ files) (off : ℕ) : GapClear m i off :=
  fun p hsize hp => h i hi p hsize (lt_min_iff.1 hp).2

/-- The file is cut off within a block. -/
def CutsWithin (m : BlockManager) (i : ℕ) (buf : Bytes) (off : ℕ) (free_end : Bool) : Prop :=
  free_end = true ∧ off + buf.length < m.fileSize i ∧ ¬ blockSize ∣ off + buf.length

/-- The bytes of a file's blocks are what its inode and its blocks say. -/
theorem byteAt_congr (hi : ∀ w, 4 ≤ w → (m'.inode i).word w = (m.inode i).word w)
    (hx : ∀ x ∈ m.owned i, m'.data x = m.data x) {p : ℕ}
    (hp : p < (m.fileIds i).length * blockSize) : byteAt m' i p = byteAt m i p := by
  obtain ⟨hsize, howned, -⟩ := BlockManager.same_file hi hx
  have hids : m'.fileIds i = m.fileIds i := by
    have htake := congrArg (List.take (m.fileIds i).length) howned
    rwa [BlockManager.owned, BlockManager.owned, List.take_left' rfl,
      List.take_left' (by rw [BlockManager.length_fileIds, BlockManager.length_fileIds, hsize])]
      at htake
  have hlt : p / blockSize < (m.fileIds i).length :=
    Nat.div_lt_of_lt_mul (by rwa [Nat.mul_comm])
  rw [byteAt, hids, List.getD_eq_getElem _ _ hlt,
    hx _ (List.mem_append_left _ (List.getElem_mem hlt)), byteAt, List.getD_eq_getElem _ _ hlt]

/-- Files whose inodes and blocks are what they were are as clean as they were. -/
theorem Clean.of_same {files' : Finset ℕ} (h : Clean m files) (hsub : files' ⊆ files)
    (hi : ∀ j ∈ files', ∀ w, 4 ≤ w → (m'.inode j).word w = (m.inode j).word w)
    (hx : ∀ j ∈ files', ∀ x ∈ m.owned j, m'.data x = m.data x) : Clean m' files' := by
  intro j hj p hsize hp
  obtain ⟨hsame, -⟩ := BlockManager.same_file (hi j hj) (hx j hj)
  rw [BlockManager.length_fileIds, hsame, ← BlockManager.length_fileIds] at hp
  rw [byteAt_congr (hi j hj) (hx j hj) hp]
  exact h j (hsub hj) p (hsame ▸ hsize) hp

/-- A write that cuts nothing off within a block leaves nothing behind. -/
theorem stagedAt_clean (h : Clean m files) (hi : i ∈ files)
    (hcut : ¬ CutsWithin m i buf off free_end) {p : ℕ}
    (hsize : newSize m i buf off free_end ≤ p)
    (hp : p < ceilDiv (newSize m i buf off free_end) blockSize * blockSize) :
    stagedAt m i buf off p = 0 := by
  have hend : off + buf.length ≤ newSize m i buf off free_end := le_newSize
  rw [stagedAt, if_neg (by omega)]
  split
  next hpA =>
    refine h i hi p ?_ hpA
    rw [newSize] at hsize hp
    split at hsize
    next hfree =>
      rw [if_pos hfree] at hp
      by_contra hlt
      refine hcut ⟨hfree, by omega, fun hdvd => ?_⟩
      obtain ⟨k, hk⟩ := hdvd
      rw [Nat.mul_comm] at hk
      rw [hk, ceilDiv_mul] at hp
      omega
    next => exact (le_max_left _ _).trans hsize
  next => rfl

end InodeManager

namespace System

open InodeManager

variable {s s' s₀ : System} {as : List Action} {a : Action} {now : UInt32} {i : ℕ}

/-- **A write is as it ought to be exactly if the gap before it is clear**, after any careful calls.
-/
theorem write_law_iff (h0 : start now = some s₀) (h : Run step Careful s₀ as s) (hi : i ∈ s.live)
    {buf : Bytes} {off : ℕ} {free_end : Bool} {junk : Buffer} {t : UInt32}
    (hlen : off + buf.length ≤ maxFile * blockSize)
    (hok : s.Careful (.write i buf off free_end junk t)) :
    WritesLaw s.m i buf off free_end junk t ↔ GapClear s.m i off :=
  writesLaw_iff (Inv.of_run h0 h).sound hi hlen hok.1 hok.2

/-- A call is tidy if it is careful and cuts no file off within a block. -/
def Tidy (s : System) (a : Action) : Prop :=
  s.Careful a ∧ match a with
    | .write i buf off free_end _ _ => ¬ CutsWithin s.m i buf off free_end
    | _ => True

theorem clean_step (hinv : s.Inv) (h : Clean s.m s.live) (hok : s.Tidy a)
    (hs : s.step a = some s') : Clean s'.m s'.live := by
  cases a with
  | alloc type now =>
    obtain ⟨i, hcreated, hlt, hnew, hlive⟩ := alloc_step hinv hs
    have hother : Clean s'.m s.live := h.of_same subset_rfl
      (fun j hj w _ => by
        rw [hcreated.inode j (hinv.sound.inums j hj) (ne_of_mem_of_not_mem hj hnew)])
      fun j hj x hx => hcreated.data x (BlockManager.lt_of_onDisk (hinv.sound.onDisk j hj x hx))
    rw [hlive]
    intro j hj p hsize hp
    rcases Finset.mem_insert.1 hj with rfl | hj
    · rw [BlockManager.length_fileIds, hcreated.size] at hp
      exact absurd hp (by simp [ceilDiv])
    · exact hother j hj p hsize hp
  | write i buf off free_end junk now =>
    obtain ⟨hi, hs⟩ := Option.ite_none_right_eq_some.1 hs
    obtain ⟨r, hw, rfl⟩ := Option.map_eq_some_iff.1 hs
    obtain ⟨m', hw', hwritten, hbytes⟩ :=
      writeFile_spec hinv.sound hi (writeFile_length hw) hok.1.1 hok.1.2 junk now
    obtain rfl := Option.some_inj.1 (hw'.symm.trans hw)
    have hother : Clean m' (s.live.erase i) := h.of_same (Finset.erase_subset _ _)
      (fun j hj w _ => by
        obtain ⟨hji, hj⟩ := Finset.mem_erase.1 hj
        rw [hwritten.inode j (hinv.sound.inums j hj) hji])
      fun j hj x hx => by
        obtain ⟨hji, hj⟩ := Finset.mem_erase.1 hj
        exact hwritten.rest x (BlockManager.lt_of_onDisk (hinv.sound.onDisk j hj x hx))
          (hwritten.apart hinv.sound hi hj hji x hx)
    intro j hj p hsize hp
    by_cases hji : j = i
    · subst hji
      dsimp only at hsize hp ⊢
      rw [BlockManager.length_fileIds, hwritten.size, length_take_written] at hp
      rw [hwritten.size, length_take_written] at hsize
      rw [hbytes p (by rwa [length_written])]
      exact stagedAt_clean h hi hok.2 hsize hp
    · exact hother j (Finset.mem_erase.2 ⟨hji, hj⟩) p hsize hp
  | remove i =>
    obtain ⟨hi, hs⟩ := Option.ite_none_right_eq_some.1 hs
    obtain rfl := Option.some_inj.1 hs
    have hremoved := removeFile_spec hinv.sound hi (hinv.ne_zero hi)
    refine h.of_same (Finset.erase_subset _ _) (fun j hj w _ => ?_) fun j hj x hx => ?_
    · obtain ⟨hji, hj⟩ := Finset.mem_erase.1 hj
      rw [hremoved.inode j (hinv.sound.inums j hj), if_neg hji]
    · exact hremoved.data x (BlockManager.lt_of_onDisk
        (hinv.sound.onDisk j (Finset.mem_of_mem_erase hj) x hx))

/-- **As long as no file is cut off within a block every write is as it ought to be.** -/
theorem tidy_law (h0 : start now = some s₀) (h : Run step Tidy s₀ as s) (hi : i ∈ s.live)
    {buf : Bytes} {off : ℕ} {free_end : Bool} {junk : Buffer} {t : UInt32}
    (hlen : off + buf.length ≤ maxFile * blockSize)
    (hok : s.Careful (.write i buf off free_end junk t)) :
    WritesLaw s.m i buf off free_end junk t := by
  have hs₀ := Started.of_start h0
  have hstart : Clean s₀.m s₀.live := by
    intro i hi p _ hp
    rw [hs₀.live, Finset.mem_singleton] at hi
    rw [hi, BlockManager.length_fileIds, hs₀.empty] at hp
    exact absurd hp (by simp [ceilDiv])
  have hboth : s.Inv ∧ Clean s.m s.live := by
    refine Run.invariant (P := fun s : System => s.Inv ∧ Clean s.m s.live) h ⟨hs₀.inv, hstart⟩ ?_
    rintro s a s' ⟨hinv, hclean⟩ hok hstep
    exact ⟨hinv.step hok.1 hstep, clean_step hinv hclean hok hstep⟩
  obtain ⟨hinv, hclean⟩ := hboth
  exact (writesLaw_iff hinv.sound hi hlen hok.1 hok.2).2 (hclean.gapClear hi off)

/-- **What is written is read back**, gap or no gap. -/
theorem read_written (h0 : start now = some s₀) (h : Run step Careful s₀ as s) (hi : i ∈ s.live)
    {buf : Bytes} {off : ℕ} {free_end : Bool} {junk : Buffer} {t : UInt32}
    (hlen : off + buf.length ≤ maxFile * blockSize)
    (hok : s.Careful (.write i buf off free_end junk t)) :
    ∃ freed m', writeFile s.m i buf off free_end junk t = some (freed, m') ∧
      ∀ (behind : ℕ → UInt8) (t' : UInt32), ∃ r m'',
        readFile m' i buf.length off behind t' = some (r, m'') ∧ r.buf_out = buf := by
  have hsound := (Inv.of_run h0 h).sound
  obtain ⟨m', hw, hwritten, -⟩ := writeFile_spec hsound hi hlen hok.1 hok.2 junk t
  refine ⟨_, m', hw, fun behind t' => ?_⟩
  have hsmall : newSize s.m i buf off free_end ≤ maxFile * blockSize :=
    newSize_le (hsound.small i hi) hlen
  have hstored := Stored.of_sound (hwritten.sound hsound hi (by rwa [length_take_written])) hi
  obtain ⟨r, m'', hr, hbuf, -⟩ : ReadsSlice m' i buf.length off behind t' := by
    refine readsSlice_of_le hstored rfl (.inr ?_)
    rw [hwritten.size, length_take_written]
    exact le_newSize
  refine ⟨r, m'', hr, hbuf.trans ?_⟩
  rw [hwritten.content, if_neg (not_lt.2 (Int.natCast_nonneg _)), Int.toNat_natCast]
  exact drop_take_written

/-- A byte far behind the start of the new root directory: the gap is zero-filled. -/
theorem write_law_root : ∃ s, start 0 = some s ∧
    WritesLaw s.m 1 [7] 600 false Buffer.zero 0 := by
  obtain ⟨s, h0, hs⟩ := start_spec 0
  have hlen : 600 + ([7] : Bytes).length ≤ maxFile * blockSize := by decide
  have hok := hs.alone.careful false hlen not_dropsIndirect_false Buffer.zero 0
  refine ⟨s, h0, (write_law_iff h0 .nil hs.alone.mem_live hlen hok).2 fun p _ hp => ?_⟩
  rw [BlockManager.length_fileIds, hs.empty] at hp
  exact absurd hp (by simp [ceilDiv])

/-- **What was cut off comes back**: a block of sevens, cut off after 100 bytes and written at 200.
-/
theorem not_write_law : ¬ ∀ now s₀ as s, start now = some s₀ → Run step anyStep s₀ as s →
    ∀ i buf off free_end junk t, i ∈ s.live → off + buf.length ≤ maxFile * blockSize →
      WritesLaw s.m i buf off free_end junk t := by
  intro hall
  obtain ⟨s₀, h0, hs₀⟩ := start_spec 0
  -- a block of sevens
  have hlen₁ : 0 + (List.replicate blockSize (7 : UInt8)).length ≤ maxFile * blockSize := by
    rw [List.length_replicate]
    decide
  obtain ⟨s₁, hstep₁, hs₁, hbytes₁⟩ :=
    hs₀.alone.write false hlen₁ not_dropsIndirect_false Buffer.zero 0
  have hsize₁ : newSize s₀.m 1 (List.replicate blockSize 7) 0 false = blockSize := by
    rw [newSize, hs₀.empty, List.length_replicate]
    rfl
  have hseven : byteAt s₁.m 1 150 = 7 := by
    refine (hbytes₁ 150 ?_).trans ?_
    · rw [length_written, hsize₁]
      decide
    · rw [stagedAt, if_pos ⟨Nat.zero_le _, by rw [List.length_replicate]; decide⟩]
      exact List.getD_replicate 7 (by decide)
  -- cut off
  have hA₁ : (s₁.m.fileIds 1).length = 1 := by
    rw [BlockManager.length_fileIds, hs₁.size, hsize₁]
    rfl
  have hlen₂ : 100 + ([] : Bytes).length ≤ maxFile * blockSize := by decide
  have hkeep₂ : ¬ DropsIndirect s₁.m 1 [] 100 true := fun h => by
    rw [DropsIndirect, hA₁] at h
    exact absurd h.2.2 (by decide)
  obtain ⟨s₂, hstep₂, hs₂, hbytes₂⟩ := hs₁.write true hlen₂ hkeep₂ Buffer.zero 0
  have hsize₂ : newSize s₁.m 1 [] 100 true = 100 := rfl
  have hseven₂ : byteAt s₂.m 1 150 = 7 := by
    refine (hbytes₂ 150 ?_).trans ?_
    · rw [length_written, hsize₂]
      decide
    · rw [stagedAt, if_neg (by decide), hA₁, if_pos (by decide), hseven]
  -- and written behind that
  have hlen₃ : 200 + ([7] : Bytes).length ≤ maxFile * blockSize := by decide
  have hok := hs₂.careful false hlen₃ not_dropsIndirect_false Buffer.zero 0
  have hlaw := hall 0 s₀ _ s₂ h0 (.snoc (.snoc .nil trivial hstep₁) trivial hstep₂) 1 [7] 200 false
    Buffer.zero 0 hs₂.mem_live hlen₃
  have hgap := (writesLaw_iff hs₂.inv.sound hs₂.mem_live hlen₃ hok.1 hok.2).1 hlaw 150
  rw [BlockManager.length_fileIds, hs₂.size, hsize₂, hseven₂] at hgap
  exact absurd (hgap (by decide) (by decide)) (by decide)

end System

end Lab2
end CseLab
