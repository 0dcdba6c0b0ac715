import CseLab.Inode.Write

/-!
# What `write_file` reads of the caller's buffer

`Copies` says of all the copies from the caller's buffer since some state that they are of some
kind; it composes, and each part of `write_file` is told by it.  No state of the inode, of the disk
or of the sets of free blocks makes a difference.

* `copies_within_iff` — the copies stay within the buffer if there is anything in it.  Of an empty
  one `write_file` copies the block in front.
-/

set_option autoImplicit false

namespace CseLab
namespace Inode
namespace BlockManager

variable {m m' m'' : BlockManager} {P : ℤ → ℤ → Prop} {c : Source} {i j id : ℕ} {tmp : Ptr}
  {buf : Bytes}

/-- All that has been copied from a caller's buffer since `m` is at an offset and of a length that
have `P`. -/
def Copies (P : ℤ → ℤ → Prop) (m m' : BlockManager) : Prop :=
  ∃ new, m'.accesses = m.accesses ++ new ∧ ∀ off len, .source off len ∈ new → P off len

namespace Copies

theorem of_eq (h : m'.accesses = m.accesses) : Copies P m m' :=
  ⟨[], by rw [h, List.append_nil], fun _ _ hmem => absurd hmem List.not_mem_nil⟩

theorem refl (m : BlockManager) : Copies P m m := of_eq rfl

theorem trans (h : Copies P m m') (h' : Copies P m' m'') : Copies P m m'' := by
  obtain ⟨new, hnew, hP⟩ := h
  obtain ⟨new', hnew', hP'⟩ := h'
  refine ⟨new ++ new', by rw [hnew', hnew, List.append_assoc], fun off len hmem => ?_⟩
  rcases List.mem_append.1 hmem with hmem | hmem
  · exact hP off len hmem
  · exact hP' off len hmem

theorem touch {a : Access} (ha : ∀ off len, a = .source off len → P off len) :
    Copies P m (m.touch a) :=
  ⟨[a], rfl, fun off len hmem => ha off len (List.mem_singleton.1 hmem).symm⟩

theorem writeData {b : Buffer} : Copies P m (m.writeData id b) :=
  (touch (a := .data (bblock id)) nofun).trans (of_eq (writeBlock_accesses ..))

theorem writeInode {b : Buffer} : Copies P m (m.writeInode i b) :=
  (touch (a := .inode (iblock i)) nofun).trans (of_eq (writeBlock_accesses ..))

theorem getBlockids (m : BlockManager) (ino ind : Buffer) :
    Copies P m (m.getBlockids ino ind).2.2.2 := by
  rw [getBlockids_eq]
  split
  · exact touch nofun
  · exact refl m

theorem allocBlock (m : BlockManager) : Copies P m m.allocBlock.2 := by
  rw [BlockManager.allocBlock]
  split
  · exact of_eq rfl
  · exact refl m

theorem shrink (m : BlockManager) (ino : Buffer) (ids : List ℕ) (N : ℕ) :
    Copies P m (m.shrink ino ids N) := by
  have hloop : Copies P m (loop N ids.length (fun i m => m.freeBlock (ids.getD i 0)) m) :=
    loop_keeps (P := Copies P m) (refl m) fun _ _ _ _ h => h.trans (of_eq rfl)
  rw [BlockManager.shrink]
  split
  · exact hloop.trans (of_eq rfl)
  · exact hloop

/-! ### The copies of `write_file` -/

/-- A block that is due is in the buffer if it is not the last. -/
theorem writeTurn (hblock : ∀ j, j + 1 < c.newBlockN → P (blockSize * j : ℕ) blockSize)
    (hptr : PtrAt c j tmp) (hj : j < c.newBlockN) :
    Copies P m (m.writeFrom c id (c.turn j tmp)) := by
  rw [hptr hj, Source.turn]
  split
  · exact writeData
  next hlast =>
    refine (touch ?_).trans writeData
    rintro off len heq
    obtain ⟨rfl, rfl⟩ := Access.source.inj heq
    exact hblock j (by omega)

theorem overwrite (hblock : ∀ j, j + 1 < c.newBlockN → P (blockSize * j : ℕ) blockSize)
    (m : BlockManager) (ids : List ℕ) {hi : ℕ} (hN : hi ≤ c.newBlockN) :
    let r := loop 0 hi (BlockManager.overwrite c ids) (.buf 0, m)
    PtrAt c hi r.1 ∧ Copies P m r.2 :=
  loop_induct (P := fun i (r : Ptr × BlockManager) => PtrAt c i r.1 ∧ Copies P m r.2)
    (Nat.zero_le hi) ⟨fun _ => rfl, refl m⟩ fun _ _ _ hi h =>
      ⟨(h.1.next (hi.trans_le hN)).1, h.2.trans (writeTurn hblock h.1 (hi.trans_le hN))⟩

/-- The loops that take new blocks. -/
theorem growWith (hblock : ∀ j, j + 1 < c.newBlockN → P (blockSize * j : ℕ) blockSize)
    (m : BlockManager) (put : Buffer → ℕ → ℕ → Buffer) (b : Buffer) {lo hi : ℕ} (hle : lo ≤ hi)
    (hN : hi ≤ c.newBlockN) (hptr : PtrAt c lo tmp) :
    let r := loop lo hi (BlockManager.growWith c put) (tmp, b, m)
    PtrAt c hi r.1 ∧ Copies P m r.2.2 :=
  loop_induct (P := fun i (r : Ptr × Buffer × BlockManager) => PtrAt c i r.1 ∧ Copies P m r.2.2)
    hle ⟨hptr, refl m⟩ fun _ _ _ hi h =>
      ⟨(h.1.next (hi.trans_le hN)).1,
        (h.2.trans (allocBlock _)).trans (writeTurn hblock h.1 (hi.trans_le hN))⟩

/-- The first of the two goes as far as the inode's own blocks do, or does not turn at all. -/
theorem growDirect (hblock : ∀ j, j + 1 < c.newBlockN → P (blockSize * j : ℕ) blockSize)
    (m : BlockManager) (ino : Buffer) {blockN : ℕ} (hlt : blockN < c.newBlockN)
    (hptr : PtrAt c blockN tmp) :
    let r := loop blockN (min c.newBlockN nDirect) (BlockManager.growDirect c) (tmp, ino, m)
    (nDirect < c.newBlockN → PtrAt c (max nDirect blockN) r.1) ∧ Copies P m r.2.2 := by
  rcases Nat.le_total blockN nDirect with hle | hle
  · have hle' : blockN ≤ min c.newBlockN nDirect := le_min hlt.le hle
    obtain ⟨hptr', hcopies⟩ := growWith hblock m Ino.setBlocks ino hle' (min_le_left ..) hptr
    refine ⟨fun h => ?_, hcopies⟩
    rw [min_eq_right h.le] at hptr' ⊢
    rw [max_eq_left hle]
    exact hptr'
  · rw [min_eq_right (hle.trans hlt.le), loop_of_le hle, max_eq_right hle]
    exact ⟨fun _ => hptr, refl m⟩

theorem grow (hblock : ∀ j, j + 1 < c.newBlockN → P (blockSize * j : ℕ) blockSize)
    (m : BlockManager) (ino ind : Buffer) {blockN : ℕ} (needFree : Bool)
    (hlt : blockN < c.newBlockN) (hptr : PtrAt c blockN tmp) :
    Copies P m (m.grow c ino ind tmp blockN needFree).2 := by
  obtain ⟨hptr', hcopies⟩ := growDirect hblock m ino hlt hptr
  rw [BlockManager.grow]
  generalize loop blockN (min c.newBlockN nDirect) (BlockManager.growDirect c) (tmp, ino, m) = r at *
  obtain ⟨tmp', ino', m₁⟩ := r
  dsimp only at hptr' hcopies ⊢
  split
  next h =>
    have hloop : ∀ m₂, Copies P m₂ (loop (max nDirect blockN) c.newBlockN
        (BlockManager.growIndirect c) (tmp', ind, m₂)).2.2 := by
      intro m₂
      rw [growIndirect_eq]
      exact (growWith hblock m₂ _ ind (max_le h.le hlt.le) le_rfl (hptr' h)).2
    cases needFree with
    | true => exact (hcopies.trans (hloop m₁)).trans writeData
    | false => exact ((hcopies.trans (allocBlock m₁)).trans (hloop _)).trans writeData
  next => exact hcopies

end Copies

/-- Within a buffer of `size` bytes, and no more than a block. -/
def Within (size : ℕ) (off len : ℤ) : Prop :=
  0 ≤ off ∧ 0 ≤ len ∧ off + len ≤ size ∧ len ≤ blockSize

variable {junk : Junk} {now t : UInt32}

/-- The copies of `write_file`: first the last block of the buffer, then the others. -/
theorem writeFile_copies (hw : m.writeFile i buf junk now = some (t, m')) :
    let c : Source := ⟨buf, junk, ceilDiv buf.length blockSize⟩
    ∃ m₁, Copies P m m₁ ∧
      ((∀ j, j + 1 < c.newBlockN → P (blockSize * j : ℕ) blockSize) →
        Copies P (m₁.touch (.source c.lastOff (buf.length - c.lastOff))) m') := by
  intro c
  rw [writeFile_eq] at hw
  refine ⟨((m.touch (.inode (iblock i))).getBlockids (m.inode i) junk.indirectBlock).2.2.2,
    (Copies.touch nofun).trans (.getBlockids ..), fun hblock => ?_⟩
  generalize (m.touch (.inode (iblock i))).getBlockids (m.inode i) junk.indirectBlock = g at hw ⊢
  obtain ⟨ids, needFree, ind, m₁⟩ := g
  dsimp only at hw ⊢
  obtain ⟨-, hw⟩ := Option.ite_none_left_eq_some.1 hw
  obtain ⟨-, rfl⟩ := Prod.mk.inj (Option.some_inj.1 hw)
  obtain ⟨hptr, hcopies⟩ := Copies.overwrite hblock
    (m₁.touch (.source c.lastOff (buf.length - c.lastOff))) ids
    (min_le_right ids.length c.newBlockN)
  refine Copies.trans (hcopies.trans ?_) Copies.writeInode
  split
  next => exact .shrink ..
  next hle =>
    split
    next hlt =>
      rw [min_eq_left hlt.le] at hptr ⊢
      exact .grow hblock _ _ _ _ hlt hptr
    next => exact .refl _

/-- Where there is a last block, the copy of it is within the buffer, as are the blocks before. -/
theorem within_of_ne_nil (junk : Junk) (hne : buf ≠ []) :
    let c : Source := ⟨buf, junk, ceilDiv buf.length blockSize⟩
    Within buf.length c.lastOff (buf.length - c.lastOff) ∧
      ∀ j, j + 1 < c.newBlockN → Within buf.length (blockSize * j : ℕ) blockSize := by
  have hlen := List.length_pos_iff.2 hne
  have hceil : ceilDiv buf.length 512 = (buf.length - 1) / 512 + 1 := by
    rw [ceilDiv, if_neg hlen.ne']
  simp only [Source.lastOff, Within, blockSize_eq, hceil]
  refine ⟨⟨?_, ?_, ?_, ?_⟩, fun j hj => ⟨?_, ?_, ?_, ?_⟩⟩ <;> omega

/-- Of an empty buffer `write_file` copies the block in front. -/
theorem not_copies_nil (hw : m.writeFile i [] junk now = some (t, m')) :
    ¬ Copies (Within 0) m m' := by
  rintro ⟨new, hnew, hP⟩
  obtain ⟨m₁, ⟨new₁, hnew₁, -⟩, hrest⟩ := writeFile_copies (P := fun _ _ => True) hw
  obtain ⟨new₂, hnew₂, -⟩ := hrest fun _ _ => trivial
  have hsplit : m.accesses ++ new = m.accesses ++ (new₁ ++ [.source (-512) 512] ++ new₂) := by
    rw [← hnew, hnew₂, touch, hnew₁]
    simp only [List.append_assoc]
    rfl
  have hmem : Access.source (-512) 512 ∈ new := by
    rw [List.append_cancel_left hsplit]
    simp
  exact absurd (hP _ _ hmem).1 (by decide)

/-- **`write_file` reads only the caller's buffer**, whatever the inode and the disk look like, if
there is anything in the buffer. -/
theorem copies_within_iff (m : BlockManager) (i : ℕ) (junk : Junk) (now : UInt32)
    (hlen : buf.length ≤ maxFile * blockSize) :
    ∃ t m', m.writeFile i buf junk now = some (t, m') ∧
      (Copies (Within buf.length) m m' ↔ buf ≠ []) := by
  obtain ⟨t, m', hw⟩ := m.exists_writeFile i hlen junk now
  refine ⟨t, m', hw, fun h hnil => ?_, fun hne => ?_⟩
  · subst hnil
    exact not_copies_nil hw h
  · obtain ⟨m₁, hfirst, hrest⟩ := writeFile_copies (P := Within buf.length) hw
    obtain ⟨hlast, hblock⟩ := within_of_ne_nil junk hne
    refine (hfirst.trans (Copies.touch ?_)).trans (hrest hblock)
    rintro off len heq
    obtain ⟨rfl, rfl⟩ := Access.source.inj heq
    exact hlast

/-- One byte is written to the inode of the root. -/
theorem copies_within_byte : ∃ t m',
    new.writeFile 1 [7] ⟨Buffer.zero, Buffer.zero, fun _ => 0⟩ 0 = some (t, m') ∧
      (Copies (Within 1) new m' ↔ [(7 : UInt8)] ≠ []) :=
  copies_within_iff new 1 _ 0 (by decide)

/-- Nothing is written there. -/
theorem not_copies_within : ¬ ∀ (m : BlockManager) (i : ℕ) (buf : Bytes) (junk : Junk)
    (now t : UInt32) (m' : BlockManager), buf.length ≤ maxFile * blockSize →
      m.writeFile i buf junk now = some (t, m') → Copies (Within buf.length) m m' := by
  intro hall
  have hle : ([] : Bytes).length ≤ maxFile * blockSize := Nat.zero_le _
  obtain ⟨t, m', hw⟩ := new.exists_writeFile 1 hle ⟨Buffer.zero, Buffer.zero, fun _ => 0⟩ 0
  exact not_copies_nil hw (hall _ _ _ _ _ _ _ hle hw)

end BlockManager
end Inode
end CseLab
