import CseLab.Inode.Runs

/-!
# A full disk

`alloc_block` and `alloc_inode` answer `-1` where nothing is free, and nobody looks: a write goes on
with block `(uint32_t)-1`, which `BBLOCK` takes to the last inode's, and `create_file` with inode
`(uint32_t)-1`, which `IBLOCK` takes to the last block of the bitmap.  Of the data blocks that are
free at first the last ten are behind the end of the disk besides.

* `System.accesses_proper` — a run that takes no more than there is stays where it belongs, and
  `System.not_accesses_proper` is one that does not.
* `System.harmless_of_fits` — a write that there is room for touches nothing else, and
  `System.not_harmless` is the one that changes the type of another inode.
-/

set_option autoImplicit false

namespace CseLab
namespace Inode

namespace BlockManager

variable {m m' : BlockManager}

/-! ## Where the constructor has been -/

theorem accesses_loadBit (ch : UInt8) (k : ℕ) (l : Loading) :
    (loadBit ch k l).m.accesses = l.m.accesses := by
  simp only [loadBit]
  split_ifs <;> rfl

theorem accesses_loadByte (ch : UInt8) (l : Loading) :
    (loadByte ch l).m.accesses = l.m.accesses := by
  have hbits : (loop 0 8 (loadBit ch) l).m.accesses = l.m.accesses :=
    loop_keeps (P := fun r : Loading => r.m.accesses = l.m.accesses) rfl fun k r _ _ hr =>
      (accesses_loadBit ch k r).trans hr
  simp only [loadByte]
  split_ifs <;> first | rfl | exact hbits

theorem onTrack_loadBlock {i : ℕ} {l : Loading} (hi : i < bitmapBlockNum) :
    OnTrack l.loaded (loadBlock i l).loaded := by
  rw [loadBlock, Loading.loaded, Loading.loaded]
  split
  next => exact .refl _
  next =>
    have hproper : (Access.bitmap (bitmapStart + i)).Proper := by
      simp only [Access.Proper]
      omega
    exact (OnTrack.touch hproper).trans (.of_eq (loop_keeps
      (P := fun r : Loading => r.m.accesses = (l.m.touch (.bitmap (bitmapStart + i))).accesses)
      rfl fun j r _ _ hr => (accesses_loadByte _ r).trans hr))

theorem proper_new : ∀ a ∈ new.accesses, a.Proper := by
  have hload : OnTrack ⟨emptyDisk, ∅, ∅, [.bitmap bitmapStart]⟩ new := by
    rw [new_eq, loadBitmap]
    exact loop_keeps
      (P := fun l : Loading => OnTrack ⟨emptyDisk, ∅, ∅, [.bitmap bitmapStart]⟩ l.loaded)
      (.refl _) fun i l _ hi hl => hl.trans (onTrack_loadBlock hi)
  intro a ha
  rcases hload a ha with ha | ha
  · obtain rfl := List.mem_singleton.1 ha
    exact ⟨le_rfl, by simp⟩
  · exact ha

end BlockManager

namespace System

variable {s s' s₀ : System} {as : List Action} {i : ℕ} {now : UInt32}

/-! ## Staying where one belongs -/

/-- Such a call keeps the invariant and goes only where it belongs. -/
theorem Inv.fitting {a : Action} (h : s.Inv) (hok : s.Fitting a) (hs : s.step a = some s') :
    s'.Inv ∧ s.m.OnTrack s'.m := by
  have hroom : ∀ i buf junk now, a = .write i buf junk now → s'.m.Roomy := by
    rintro i buf junk now rfl
    obtain ⟨-, -, -, t, hw⟩ := step_write hs
    exact BlockManager.roomy_of_fits hok hw
  refine ⟨h.step hroom hs, ?_⟩
  cases a with
  | create type now =>
    rcases create_cases h type now with ⟨i, m', hcreated, -, -, heq⟩ | ⟨hnone, -⟩
    · obtain rfl := Option.some_inj.1 (heq.symm.trans hs)
      exact hcreated.track
    · exact absurd hok (Finset.not_nonempty_iff_eq_empty.2 hnone)
  | write i buf junk now =>
    obtain ⟨hi, -, -, t, hw⟩ := step_write hs
    exact (BlockManager.writeFile_spec h.sound hi hw (hroom i buf junk now rfl)).2.track
  | remove i =>
    obtain ⟨hi, hs⟩ := Option.ite_none_right_eq_some.1 hs
    obtain rfl := Option.some_inj.1 hs
    exact (BlockManager.removeFile_spec (h.sound.inums i hi)).track (h.sound.onDisk i hi)
  | read i now =>
    obtain ⟨hi, hs⟩ := Option.ite_none_right_eq_some.1 hs
    obtain rfl := Option.some_inj.1 hs
    exact (BlockManager.readFile_spec h.sound hi now).2.2.2.2
  | getattr i now =>
    obtain ⟨hi, hs⟩ := Option.ite_none_right_eq_some.1 hs
    obtain rfl := Option.some_inj.1 hs
    exact (BlockManager.getattr_spec i now).2.2 (h.sound.inums i hi)

/-- **Every block is read and written where its kind is**, in a run that takes no more than there
is. -/
theorem accesses_proper (h0 : System.start now = some s₀) (h : Run step Fitting s₀ as s) :
    ∀ a ∈ s.m.accesses, a.Proper := by
  have hrun : s.Inv ∧ s₀.m.OnTrack s.m := h.invariant
    (P := fun s => s.Inv ∧ s₀.m.OnTrack s.m) ⟨(Started.of_start h0).1.inv, .refl _⟩
    fun s a s' hinv hok hs => by
      obtain ⟨hinv', htrack⟩ := hinv.1.fitting hok hs
      exact ⟨hinv', hinv.2.trans htrack⟩
  have htrack := (Started.of_start h0).2.trans hrun.2
  exact fun a ha => (htrack a ha).elim (BlockManager.proper_new a) id

/-- Two files. -/
theorem accesses_proper_files : ∃ s₀ s, System.start 0 = some s₀ ∧ Run step Fitting s₀ twoFiles s ∧
    s.live = {1, 2, 3} ∧ ∀ a ∈ s.m.accesses, a.Proper :=
  let ⟨s₀, s, h0, h, hfiles⟩ := exists_twoFiles
  have hrun := h.mono fun _ _ => And.left
  ⟨s₀, s, h0, hrun, hfiles.live, accesses_proper h0 hrun⟩

/-! ## Out of inodes -/

/-- Every live inode is that of an empty directory, and every data block is free. -/
structure Blank (s : System) : Prop where
  inv : s.Inv
  free : s.m.freedData = Finset.range dataBlockNum
  empty : ∀ j ∈ s.live, s.m.fileSize j = 0
  type : ∀ j ∈ s.live, Ino.type (s.m.inode j) = tDir

theorem Started.blank (h : s.Started) : s.Blank := by
  refine ⟨h.inv, h.free, fun j hj => ?_, fun j hj => ?_⟩
  · rw [h.live, Finset.mem_singleton] at hj
    exact hj ▸ h.empty
  · rw [h.live, Finset.mem_singleton] at hj
    exact hj ▸ h.type

/-- One more directory. -/
theorem Blank.create (h : s.Blank) (hne : s.m.freedInode.Nonempty) : ∃ s',
    s.step (.create tDir 0) = some s' ∧ s'.Blank ∧
      s'.m.freedInode.card + 1 = s.m.freedInode.card := by
  rcases create_cases h.inv tDir 0 with ⟨i, m', hcreated, hlt, hnew, hs⟩ | ⟨hnone, -⟩
  · have hold : ∀ j ∈ s.live, j ≠ i := fun j hj hji => hnew (hji ▸ hj)
    refine ⟨_, hs, ⟨h.inv.step (fun _ _ _ _ ha => absurd ha (by simp)) hs,
      hcreated.freedData.trans h.free, fun j hj => ?_, fun j hj => ?_⟩, ?_⟩
    · rcases Finset.mem_insert.1 hj with rfl | hj
      · exact hcreated.size
      · rw [(hcreated.other h.inv.sound hj (hold j hj)).1]
        exact h.empty j hj
    · rcases Finset.mem_insert.1 hj with rfl | hj
      · exact hcreated.type
      · rw [hcreated.inode j (h.inv.sound.inums j hj) (hold j hj)]
        exact h.type j hj
    · rw [hcreated.freedInode]
      exact Finset.card_erase_add_one hcreated.least.1
  · exact absurd hne (Finset.not_nonempty_iff_eq_empty.2 hnone)

/-- Directories until no inode is free. -/
theorem Blank.create_all (n : ℕ) (h : s.Blank) (hn : s.m.freedInode.card = n) :
    ∃ as s', Run step anyStep s as s' ∧ s'.Blank ∧ s'.m.freedInode = ∅ := by
  induction n generalizing s with
  | zero => exact ⟨[], s, .nil, h, Finset.card_eq_zero.1 hn⟩
  | succ n ih =>
    obtain ⟨s', hs, hblank, hcard⟩ := h.create (Finset.card_pos.1 (by omega))
    obtain ⟨as, s'', hrun, hfull⟩ := ih hblank (by omega)
    exact ⟨_, s'', (Run.snoc .nil trivial hs).append hrun, hfull⟩

/-- **The next file is created in the bitmap.** -/
theorem not_accesses_proper : ¬ ∀ now s₀ as s, System.start now = some s₀ →
    Run step anyStep s₀ as s → ∀ a ∈ s.m.accesses, a.Proper := by
  intro hall
  obtain ⟨s₀, h0, hs₀, -⟩ := start_spec 0
  obtain ⟨as, s, hrun, -, hnone⟩ := hs₀.blank.create_all _ rfl
  have hs : s.step (.create tDir 0) = some ⟨(s.m.createFile tDir 0).2,
      if (s.m.createFile tDir 0).1 = noId then s.live
      else insert (s.m.createFile tDir 0).1 s.live⟩ := rfl
  have hmem : Access.inode 9 ∈ (s.m.createFile tDir 0).2.accesses := by
    have hne : ¬ s.m.freedInode.Nonempty := Finset.not_nonempty_iff_eq_empty.2 hnone
    simp only [BlockManager.createFile, BlockManager.allocInode, dif_neg hne,
      BlockManager.readInode, BlockManager.writeInode, BlockManager.writeBlock_accesses,
      BlockManager.touch]
    exact List.mem_append_right _ (List.mem_singleton.2 rfl)
  have hproper := hall 0 s₀ _ _ h0 (hrun.snoc trivial hs) _ hmem
  exact absurd hproper.1 (by decide)

/-! ## Out of blocks -/

/-- The write of `buf` to file `i` does no harm: it is done or not done, and what else there is
stays as it is. -/
structure Harmless (s : System) (i : ℕ) (buf : Bytes) (s' : System) : Prop where
  inodes : ∀ j < inodeNum, j ≠ i → s'.m.inode j = s.m.inode j
  files : ∀ j ∈ s.live, j ≠ i → ∀ t t', s'.m.reads j t = s.m.reads j t'
  done : (∀ t, s'.m.reads i t = (buf.length, buf)) ∨ ∀ t t', s'.m.reads i t = s.m.reads i t'
  apart : ∀ j k, j ∈ s'.live → k ∈ s'.live → j ≠ k → ∀ x ∈ s'.m.owned j, x ∉ s'.m.owned k

/-- A write that is made has room. -/
def WritesFit (s : System) (a : Action) : Prop :=
  ∀ i buf junk now, a = .write i buf junk now → s.m.Fits i buf

theorem Inv.of_writesFit (h0 : System.start now = some s₀) (h : Run System.step WritesFit s₀ as s) :
    s.Inv :=
  h.invariant (P := Inv) (Started.of_start h0).1.inv fun s a s' hinv hok hs =>
    hinv.step (fun i buf junk now ha => by
      have hfits := hok i buf junk now ha
      subst ha
      obtain ⟨-, -, -, t, hw⟩ := step_write hs
      exact BlockManager.roomy_of_fits hfits hw) hs

/-- **Where there is room a write is harmless.** -/
theorem harmless_of_fits {buf : Bytes} {junk : Junk} {t : UInt32}
    (h0 : System.start now = some s₀) (h : Run step WritesFit s₀ as s)
    (hok : s.WritesFit (.write i buf junk t)) (hs : s.step (.write i buf junk t) = some s') :
    s.Harmless i buf s' := by
  have hinv := Inv.of_writesFit h0 h
  have hinv' := Inv.of_writesFit h0 (h.snoc hok hs)
  obtain ⟨hi, hlive, -, type, hw⟩ := step_write hs
  have hroom := BlockManager.roomy_of_fits (hok i buf junk t rfl) hw
  obtain ⟨-, hwritten⟩ := BlockManager.writeFile_spec hinv.sound hi hw hroom
  have hsound : s'.m.Sound s.live := hlive ▸ hinv'.sound
  refine ⟨hwritten.inode, fun j hj hji t t' => ?_, .inl fun t => ?_, hinv'.sound.owns.apart⟩
  · obtain ⟨hsize, -, hcontent⟩ := hwritten.other hinv.sound hi hj hji
    rw [BlockManager.reads_eq hsound hj, BlockManager.reads_eq hinv.sound hj, hsize, hcontent]
  · rw [BlockManager.reads_eq hsound hi, hwritten.size, hwritten.content]

/-- One of two files is written again. -/
theorem harmless_files : ∃ s₀ s s', System.start 0 = some s₀ ∧ Run step WritesFit s₀ twoFiles s ∧
    s.live = {1, 2, 3} ∧ s.step (.write 2 [5] noJunk 0) = some s' ∧ s.Harmless 2 [5] s' := by
  obtain ⟨s₀, s, h0, h, hfiles⟩ := exists_twoFiles
  have hrun : Run step WritesFit s₀ twoFiles s := h.mono fun _ _ hok _ _ _ _ ha => by
    subst ha
    exact hok.1
  have hmem : 2 ∈ s.live := by simp [hfiles.live]
  have hlen : ([5] : Bytes).length ≤ maxFile * blockSize := by simp
  obtain ⟨t, m, hw, hs⟩ := write_step hmem hlen noJunk 0
  refine ⟨s₀, s, _, h0, hrun, hfiles.live, hs, harmless_of_fits h0 hrun ?_ hs⟩
  rintro i buf junk now ha
  obtain ⟨rfl, rfl, -, -⟩ := Action.write.inj ha
  exact BlockManager.fits_of_card (by decide) (le_trans (by decide) hfiles.card)

/-! ### The run that uses the disk up -/

/-- All inodes are directories; those above `k` are empty, and `c` data blocks are free. -/
structure Filled (s : System) (k c : ℕ) : Prop where
  inv : s.Inv
  none : s.m.freedInode = ∅
  type : ∀ j ∈ s.live, Ino.type (s.m.inode j) = tDir
  empty : ∀ j ∈ s.live, k < j → s.m.fileSize j = 0
  card : s.m.freedData.card = c

theorem Filled.live {k c : ℕ} (h : s.Filled k c) {j : ℕ} (h0 : 0 < j) (hj : j < inodeNum) :
    j ∈ s.live := by
  rcases (h.inv.inodes.all j).1 hj with rfl | hlive | hfree
  · exact absurd h0 (Nat.lt_irrefl 0)
  · exact hlive
  · rw [h.none] at hfree
    exact absurd hfree (Finset.notMem_empty j)

/-- `n` blocks go to the next directory. -/
theorem Filled.write {k c n : ℕ} (h : s.Filled k (n + c)) (hk : k + 1 < inodeNum) (hn : n ≤ nDirect)
    (hc : 10 ≤ c) : ∃ a s', s.step a = some s' ∧ s'.Filled (k + 1) c := by
  have hlive : k + 1 ∈ s.live := h.live (Nat.succ_pos k) hk
  have hempty := h.empty _ hlive (Nat.lt_succ_self k)
  have hlen : (List.replicate (n * blockSize) (0 : UInt8)).length = n * blockSize :=
    List.length_replicate ..
  generalize List.replicate (n * blockSize) (0 : UInt8) = buf at hlen
  have hle : buf.length ≤ maxFile * blockSize := by
    simp only [nDirect_eq] at hn
    simp only [hlen, blockSize_eq, maxFile_eq]
    omega
  obtain ⟨t, m', hw, hs⟩ := write_step hlive hle ⟨Buffer.zero, Buffer.zero, fun _ => 0⟩ 0
  have hblocks : blocksFor n = n := by rw [blocksFor, if_neg (by omega), Nat.add_zero]
  have hzero : blocksFor (ceilDiv 0 blockSize) = 0 := rfl
  have hfits : s.m.Fits (k + 1) buf := by
    rw [BlockManager.Fits, BlockManager.inUse, BlockManager.needs, hlen, ceilDiv_mul, hblocks,
      hempty, hzero, h.card]
    simp only [nDirect_eq] at hn
    simp only [dataBlockNum_eq, BlockManager.diskDataNum_eq]
    omega
  have hroom := BlockManager.roomy_of_fits hfits hw
  obtain ⟨-, hwritten⟩ := BlockManager.writeFile_spec h.inv.sound hlive hw hroom
  have hcard := hwritten.card h.inv.sound hlive
  rw [BlockManager.length_owned, BlockManager.length_owned, BlockManager.length_fileIds,
    BlockManager.length_fileIds, hwritten.size, hlen, ceilDiv_mul, hblocks, hempty, h.card] at hcard
  have hother := fun j hj hji => hwritten.other h.inv.sound hlive (j := j) hj hji
  refine ⟨_, _, hs, h.inv.step (fun _ _ _ _ _ => hroom) hs, hwritten.freedInode.trans h.none,
    fun j hj => ?_, fun j hj hkj => ?_, ?_⟩
  · by_cases hji : j = k + 1
    · rw [hji]
      exact hwritten.type.trans (h.type _ hlive)
    · exact (congrArg Ino.type (hwritten.inode j (h.inv.sound.inums j hj) hji)).trans (h.type j hj)
  · exact (hother j hj (by omega)).1.trans (h.empty j hj (by omega))
  · dsimp only
    omega

/-- A hundred blocks go to each of the next directories. -/
theorem Filled.writes (n : ℕ) {k c : ℕ} (h : s.Filled k (100 * n + c)) (hk : k + n < inodeNum)
    (hc : 10 ≤ c) : ∃ as s', Run step anyStep s as s' ∧ s'.Filled (k + n) c := by
  induction n generalizing s k with
  | zero => exact ⟨[], s, .nil, by simpa using h⟩
  | succ n ih =>
    have hsplit : 100 * (n + 1) + c = 100 + (100 * n + c) := by omega
    obtain ⟨a, s', hs, hfilled⟩ := (hsplit ▸ h).write (by omega) le_rfl (by omega)
    obtain ⟨as, s'', hrun, hfull⟩ := ih hfilled (by omega)
    exact ⟨_, s'', (Run.snoc .nil trivial hs).append hrun, by
      rwa [Nat.add_right_comm, Nat.add_assoc] at hfull⟩

/-- What is free on the disk when ten blocks are: those behind its end. -/
theorem Filled.free {k : ℕ} (h : s.Filled k 10) : s.m.freedData = Finset.Ico 31734 31744 := by
  refine (Finset.eq_of_subset_of_card_le (fun x hx => ?_) ?_).symm
  · rw [Finset.mem_Ico] at hx
    rcases (h.inv.sound.owns.all x).1 (by simpa using hx.2) with hfree | ⟨j, hj, hown⟩
    · exact hfree
    · have hlt := h.inv.sound.onDisk j hj x hown
      simp only [BlockManager.diskDataNum_eq] at hlt
      omega
  · rw [h.card, Nat.card_Ico]

end System

namespace BlockManager

variable {m : BlockManager} {c : Source} {i : ℕ}

theorem allocBlock_Ico {a b : ℕ} (hab : a < b) (h : m.freedData = Finset.Ico a b) :
    m.allocBlock = (a, { m with freedData := Finset.Ico (a + 1) b }) := by
  have hne : m.freedData.Nonempty := h ▸ Finset.nonempty_Ico.2 hab
  have hmin : m.freedData.min' hne = a := by
    refine le_antisymm (Finset.min'_le _ _ (h ▸ Finset.left_mem_Ico.2 hab)) ?_
    exact Finset.le_min' _ _ _ fun x hx => (Finset.mem_Ico.1 (h ▸ hx)).1
  rw [allocBlock, dif_pos hne, hmin, h]
  refine congrArg (Prod.mk a) (congrArg (fun f => { m with freedData := f }) ?_)
  ext x
  rw [Finset.mem_erase, Finset.mem_Ico, Finset.mem_Ico]
  omega

/-- A write behind the end of the disk. -/
theorem writeFrom_lost {id : ℕ} {tmp : Ptr} (hid : blockNum ≤ bblock id) :
    (m.writeFrom c id tmp).blocks = m.blocks := by
  have hlost : ∀ (m : BlockManager) (b : Buffer), (m.writeData id b).blocks = m.blocks :=
    fun m b => by rw [writeData, writeBlock, if_neg (not_lt.2 hid)]; rfl
  cases tmp with
  | buf off => exact hlost _ _
  | lastBlock off => exact hlost _ _

/-- The ten blocks behind the end of the disk. -/
theorem grow_lost {n : ℕ} (ino : Buffer) (hn : n ≤ 10) (hN : 10 < c.newBlockN)
    (h : m.freedData = Finset.Ico 31734 31744) :
    let r := loop 0 n (growDirect c) (.buf 0, ino, m)
    r.1 = .buf (blockSize * n) ∧ r.2.2.blocks = m.blocks ∧
      r.2.2.freedData = Finset.Ico (31734 + n) 31744 := by
  refine loop_induct (P := fun i (r : Ptr × Buffer × BlockManager) =>
    r.1 = .buf (blockSize * i) ∧ r.2.2.blocks = m.blocks ∧
      r.2.2.freedData = Finset.Ico (31734 + i) 31744) (Nat.zero_le n) ⟨rfl, rfl, h⟩ ?_
  rintro i ⟨tmp, b, r⟩ - hi ⟨rfl, hblocks, hfree⟩
  have hout : blockNum ≤ bblock (31734 + i) := by
    rw [bblock_eq (by simp only [dataBlockNum_eq]; omega), blockNum_eq]
    omega
  have halloc := allocBlock_Ico (by omega) hfree
  dsimp only [growDirect]
  rw [halloc]
  refine ⟨Source.turn_next (by omega), (writeFrom_lost hout).trans hblocks, ?_⟩
  rw [(Same.writeFrom ..).freedData, writeData_freedData, Nat.add_assoc]

/-- The eleventh is the last inode's. -/
theorem grow_over {ino ind : Buffer} (hN : c.newBlockN = 11)
    (h : m.freedData = Finset.Ico 31734 31744) :
    (m.grow c ino ind (.buf 0) 0 false).2.inode 1023 = c.fetch (.lastBlock 0) := by
  rw [grow_direct (by simp [hN]), hN]
  obtain ⟨htmp, -, hfree⟩ := grow_lost ino le_rfl (by rw [hN]; decide) h
  rw [loop_succ (Nat.zero_le 10)]
  generalize loop 0 10 (growDirect c) (.buf 0, ino, m) = r at htmp hfree ⊢
  obtain ⟨tmp, b, r⟩ := r
  have halloc : r.allocBlock = (noId, r) := by
    rw [allocBlock, dif_neg]
    rw [hfree]
    simp
  have hturn : c.turn 10 tmp = .lastBlock 0 := if_pos hN.symm
  dsimp only [growDirect]
  rw [halloc, hturn]
  change (r.writeData noId (c.fetch (.lastBlock 0))).readBlock (bblock noId) = _
  rw [writeData, readBlock_writeBlock (by decide), if_pos rfl]

/-- A write of eleven blocks to an empty file, when only those behind the end of the disk are free.
-/
theorem writeFile_over {buf : Bytes} (junk : Junk) (now : UInt32) (hi : i < 1023)
    (hempty : m.fileSize i = 0) (hfree : m.freedData = Finset.Ico 31734 31744)
    (hlen : buf.length = 11 * blockSize) : ∃ r, m.writeFile i buf junk now = some r ∧
      r.2.inode 1023 = (Source.mk buf junk 11).fetch (.lastBlock 0) := by
  obtain ⟨ind, m₂, hget, -, hm₂, -⟩ := getBlockids_same (m.touch (.inode (iblock i))) (m.inode i)
    junk.indirectBlock
  have hids : (m.touch (.inode (iblock i))).idsOf (m.inode i) = [] := by
    refine List.length_eq_zero_iff.1 ?_
    rw [length_idsOf, ← fileSize, hempty]
    rfl
  have hN : ceilDiv buf.length blockSize = 11 := hlen ▸ ceilDiv_mul 11
  rw [hids] at hget
  rw [writeFile_eq, hget, hN]
  refine ⟨_, if_neg (by simp), ?_⟩
  rw [inode_writeInode (by simp; omega) (by simp), if_neg hi.ne']
  have hfree₂ : (m₂.touch (.source (Source.lastOff ⟨buf, junk, 11⟩)
      (buf.length - Source.lastOff ⟨buf, junk, 11⟩))).freedData = Finset.Ico 31734 31744 :=
    hm₂.freedData.trans hfree
  generalize m₂.touch _ = m₃ at hfree₂ ⊢
  dsimp only [List.length_nil]
  rw [if_neg (by omega), if_pos (by omega), Nat.zero_min, loop_of_le le_rfl,
    decide_eq_false (by simp)]
  exact grow_over (c := ⟨buf, junk, 11⟩) rfl hfree₂

end BlockManager

namespace System

/-- **The last block written becomes the last inode.** -/
theorem not_harmless : ¬ ∀ now s₀ as s i buf junk t s', System.start now = some s₀ →
    Run step anyStep s₀ as s → s.step (.write i buf junk t) = some s' → s.Harmless i buf s' := by
  intro hall
  obtain ⟨s₀, h0, hs₀, -⟩ := start_spec 0
  obtain ⟨as₁, s₁, hrun₁, hblank, hnone⟩ := hs₀.blank.create_all _ rfl
  have hfilled : s₁.Filled 0 (100 * 317 + (34 + 10)) :=
    ⟨hblank.inv, hnone, hblank.type, fun j hj _ => hblank.empty j hj, by
      rw [hblank.free, Finset.card_range, dataBlockNum_eq]⟩
  obtain ⟨as₂, s₂, hrun₂, hfilled₂⟩ := hfilled.writes 317 (by simp) (by omega)
  obtain ⟨a, s₃, hs₃, hfilled₃⟩ := hfilled₂.write (by simp) (by simp) le_rfl
  have hlive := hfilled₃.live (j := 319) (by omega) (by simp)
  have hlast := hfilled₃.live (j := 1023) (by omega) (by simp)
  have hlen : (List.replicate (11 * blockSize) (7 : UInt8)).length = 11 * blockSize :=
    List.length_replicate ..
  have h319 : 319 < 1023 := by decide
  obtain ⟨⟨t, m'⟩, hw, hinode⟩ := BlockManager.writeFile_over
    ⟨Buffer.zero, Buffer.zero, fun _ => 0⟩ 0 h319 (hfilled₃.empty 319 hlive (by omega))
    hfilled₃.free hlen
  have hs : s₃.step (.write 319 (List.replicate (11 * blockSize) 7)
      ⟨Buffer.zero, Buffer.zero, fun _ => 0⟩ 0) = some ⟨m', s₃.live⟩ := by
    rw [step, if_pos hlive, hw]
    rfl
  have hharm := hall 0 s₀ _ _ _ _ _ _ _ h0 ((hrun₁.append hrun₂).snoc trivial hs₃) hs
  have hsame := hharm.inodes 1023 (by simp) (by omega)
  have htype := hfilled₃.type 1023 hlast
  rw [← hsame, hinode] at htype
  have hbyte : ∀ k < 4, (Source.mk (List.replicate (11 * blockSize) 7)
      ⟨Buffer.zero, Buffer.zero, fun _ => 0⟩ 11).fetch (.lastBlock 0) k = 7 := by
    intro k hk
    refine Source.fetch_turn (j := 10) (c := Source.mk (List.replicate (11 * blockSize) 7)
      ⟨Buffer.zero, Buffer.zero, fun _ => 0⟩ 11) k (by simp; omega) 7 ?_
    exact List.getElem?_replicate_of_lt (by simp; omega)
  rw [Ino.type, Buffer.word, hbyte _ (by omega), hbyte _ (by omega), hbyte _ (by omega),
    hbyte _ (by omega)] at htype
  exact absurd htype (by decide)

end System

end Inode
end CseLab
