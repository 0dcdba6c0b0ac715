import CseLab.Inode.Space

/-!
# Runs of `inode_manager`

The invariant of a run: the files of the live inodes are in order and every inode is live, free or
number 0.  A write keeps it when the data blocks in use fit on the disk afterwards, any other call
keeps it anyhow (`System.Inv.step`).

* `System.divided` — no block is leaked, shared or freed twice, and no inode either.
* `System.write_read` — a file reads back as it was written, and the others as they were.
-/

set_option autoImplicit false

namespace CseLab
namespace Inode

namespace BlockManager

variable {m m' : BlockManager} {files : Finset ℕ} {i j : ℕ} {buf : Bytes}

/-- Files whose sizes and blocks are what they were are in order as they were. -/
theorem Sound.of_same (h : m.Sound files) (hfree : m'.freedData = m.freedData)
    (hfiles : ∀ j ∈ files, m'.fileSize j = m.fileSize j ∧ m'.owned j = m.owned j) :
    m'.Sound files where
  inums := h.inums
  small j hj := (hfiles j hj).1 ▸ h.small j hj
  owns := (hfree ▸ h.owns).congr fun j hj => (hfiles j hj).2
  onDisk j hj := by
    rw [(hfiles j hj).2]
    exact h.onDisk j hj

/-- A new access time changes no file. -/
theorem Sound.stamp {now : UInt32} (h : m.Sound files) (hi : i < inodeNum)
    (hs : Same (m.writeInode i (Ino.setAtime (m.inode i) now)) m') {j : ℕ} (hj : j ∈ files) :
    m'.fileSize j = m.fileSize j ∧ m'.owned j = m.owned j ∧ m'.content j = m.content j := by
  obtain ⟨hsize, howned, hcontent⟩ := hs.file j
  obtain ⟨hsize', howned', hcontent'⟩ :=
    h.stamped hi (b := Ino.setAtime (m.inode i) now) (fun w hw => Buffer.word_setWord_ne (by omega))
      hj
  exact ⟨hsize.trans hsize', howned.trans howned', hcontent.trans hcontent'⟩

/-- What a new access time changes. -/
theorem getattr_spec (i : ℕ) (now : UInt32) :
    (m.getattr i now).1 = Ino.attr (m.inode i) ∧
      Same (m.writeInode i (Ino.setAtime (m.inode i) now)) (m.getattr i now).2 ∧
      (i < inodeNum → OnTrack m (m.getattr i now).2) :=
  ⟨rfl, (Same.touch m _).writeInode ..,
    fun hi => (OnTrack.touch (proper_inode hi)).trans (.writeInode hi)⟩

theorem Refused.other (h : Refused m m') (hs : m.Sound files) (hj : j ∈ files) :
    m'.fileSize j = m.fileSize j ∧ m'.owned j = m.owned j ∧ m'.content j = m.content j :=
  same_file (fun _ _ => by rw [h.inode j (hs.inums j hj)]) fun x hx =>
    h.data x (lt_of_onDisk (hs.onDisk j hj x hx))

/-- Every inode is live, free or number 0, and only one of these. -/
structure Inodes (m : BlockManager) (live : Finset ℕ) : Prop where
  zero : 0 ∉ live ∧ 0 ∉ m.freedInode
  apart : Disjoint live m.freedInode
  all : ∀ x, x < inodeNum ↔ x = 0 ∨ x ∈ live ∨ x ∈ m.freedInode

namespace Inodes

theorem lt_of_free (h : Inodes m files) : ∀ x ∈ m.freedInode, x < inodeNum := fun x hx =>
  (h.all x).2 (.inr (.inr hx))

theorem same (h : Inodes m files) (hfree : m'.freedInode = m.freedInode) : Inodes m' files :=
  ⟨hfree ▸ h.zero, hfree ▸ h.apart, fun x => hfree ▸ h.all x⟩

theorem create (h : Inodes m files) (hi : i ∈ m.freedInode)
    (hfree : m'.freedInode = m.freedInode.erase i) : Inodes m' (insert i files) where
  zero := by
    have h0 : (0 : ℕ) ≠ i := by
      rintro rfl
      exact h.zero.2 hi
    rw [hfree, Finset.mem_insert, Finset.mem_erase]
    exact ⟨fun hz => hz.elim h0 h.zero.1, fun hz => h.zero.2 hz.2⟩
  apart := by
    rw [hfree, Finset.disjoint_insert_left]
    exact ⟨Finset.notMem_erase _ _, h.apart.mono_right (Finset.erase_subset _ _)⟩
  all x := by
    rw [h.all x, hfree, Finset.mem_insert, Finset.mem_erase]
    by_cases hx : x = i
    · subst hx
      simp [hi]
    · simp [hx]

theorem remove (h : Inodes m files) (hi : i ∈ files)
    (hfree : m'.freedInode = insert i m.freedInode) :
    Inodes m' (files.erase i) where
  zero := by
    have h0 : (0 : ℕ) ≠ i := by
      rintro rfl
      exact h.zero.1 hi
    rw [hfree, Finset.mem_erase, Finset.mem_insert]
    exact ⟨fun hz => h.zero.1 hz.2, fun hz => hz.elim h0 h.zero.2⟩
  apart := by
    rw [hfree, Finset.disjoint_insert_right]
    exact ⟨Finset.notMem_erase _ _, h.apart.mono_left (Finset.erase_subset _ _)⟩
  all x := by
    rw [h.all x, hfree, Finset.mem_erase, Finset.mem_insert]
    by_cases hx : x = i
    · subst hx
      simp [hi]
    · simp [hx]

end Inodes

/-- What `read_file` tells of inode `i` at the time `now`: the size and the bytes. -/
def reads (m : BlockManager) (i : ℕ) (now : UInt32) : ℕ × Bytes :=
  let r := (m.readFile i now).1
  (r.size, r.buf_out.take r.size)

theorem reads_eq (h : m.Sound files) (hi : i ∈ files) (now : UInt32) :
    m.reads i now = (m.fileSize i, m.content i) := by
  obtain ⟨hsize, hcontent, -⟩ := readFile_spec h hi now
  exact Prod.ext hsize hcontent

/-- There is room for a file if so many blocks are free. -/
theorem fits_of_card (hsmall : blocksFor (ceilDiv buf.length blockSize) ≤ diskDataNum)
    (hcard : 10 + blocksFor (ceilDiv buf.length blockSize) ≤ m.freedData.card) : m.Fits i buf := by
  simp only [diskDataNum_eq] at hsmall
  simp only [Fits, inUse, needs, dataBlockNum_eq, diskDataNum_eq]
  omega

/-! ## No file has anything -/

/-- All files are empty, and all data blocks free. -/
structure Empty (m : BlockManager) : Prop where
  size : ∀ i < inodeNum, m.fileSize i = 0
  freedData : m.freedData = Finset.range dataBlockNum
  freedInode : ∀ i ∈ m.freedInode, i < inodeNum

namespace Empty

theorem owned (h : m.Empty) {i : ℕ} (hi : i < inodeNum) : m.owned i = [] :=
  owned_of_empty (h.size i hi)

theorem sound (h : m.Empty) (hfiles : ∀ i ∈ files, i < inodeNum) : m.Sound files := by
  have hnil : ∀ i ∈ files, m.owned i = [] := fun i hi => h.owned (hfiles i hi)
  refine ⟨hfiles, fun i hi => ?_, ⟨fun i hi => ?_, fun i j hi _ _ x hx => ?_, fun i hi x hx => ?_,
    fun x => ?_⟩, fun i hi x hx => ?_⟩
  · rw [h.size i (hfiles i hi)]
    exact Nat.zero_le _
  · rw [hnil i hi]
    exact List.nodup_nil
  · rw [hnil i hi] at hx
    exact absurd hx List.not_mem_nil
  · rw [hnil i hi] at hx
    exact absurd hx List.not_mem_nil
  · rw [h.freedData, Finset.mem_range]
    refine ⟨.inl, ?_⟩
    rintro (hlt | ⟨i, hi, hx⟩)
    · exact hlt
    · rw [hnil i hi] at hx
      exact absurd hx List.not_mem_nil
  · rw [hnil i hi] at hx
    exact absurd hx List.not_mem_nil

theorem create (h : m.Empty) (type now : UInt32) : (m.createFile type now).2.Empty := by
  by_cases hne : m.freedInode.Nonempty
  · have hcreated := createFile_spec type now hne h.freedInode
    refine ⟨fun i hi => ?_, hcreated.freedData.trans h.freedData, fun i hi => ?_⟩
    · by_cases hin : i = (m.createFile type now).1
      · rw [hin]
        exact hcreated.size
      · rw [fileSize, hcreated.inode i hi hin]
        exact h.size i hi
    · rw [hcreated.freedInode] at hi
      exact h.freedInode i (Finset.mem_of_mem_erase hi)
  · obtain ⟨-, hrefused⟩ := createFile_refused type now hne
    refine ⟨fun i hi => ?_, hrefused.freedData.trans h.freedData, fun i hi => ?_⟩
    · rw [fileSize, hrefused.inode i hi]
      exact h.size i hi
    · rw [hrefused.freedInode] at hi
      exact h.freedInode i hi

theorem of_new (hinode : m.freedInode = (Finset.range inodeNum).erase 0)
    (hdata : m.freedData = Finset.range dataBlockNum)
    (hblocks : m.blocks = emptyDisk) : m.Empty := by
  refine ⟨fun i hi => ?_, hdata, fun i hi => ?_⟩
  · have hne : 10 + i ≠ bitmapStart := by
      rw [bitmapStart_eq]
      omega
    rw [fileSize, inode, readBlock,
      if_pos (iblock_lt hi), hblocks, emptyDisk, iblock_eq hi,
      Function.update_of_ne hne, Ino.size, Buffer.word_zero]
    rfl
  · rw [hinode] at hi
    exact Finset.mem_range.1 (Finset.mem_of_mem_erase hi)

/-- There is room for a file of one block. -/
theorem fits (h : m.Empty) (i : ℕ) (hlen : ceilDiv buf.length blockSize ≤ 1) : m.Fits i buf := by
  have hle : blocksFor (ceilDiv buf.length blockSize) ≤ 1 := blocksFor_mono hlen
  refine fits_of_card (hle.trans (by decide)) ?_
  rw [h.freedData, Finset.card_range, dataBlockNum_eq]
  omega

end Empty

end BlockManager

namespace System

variable {s s' s₀ : System} {as : List Action} {i : ℕ} {now : UInt32}

/-- What holds between two calls. -/
structure Inv (s : System) : Prop where
  sound : s.m.Sound s.live
  inodes : s.m.Inodes s.live

/-- What the constructor leaves. -/
structure Started (s : System) : Prop where
  inv : s.Inv
  live : s.live = {1}
  free : s.m.freedData = Finset.range dataBlockNum
  empty : s.m.fileSize 1 = 0
  type : Ino.type (s.m.inode 1) = tDir

/-- The constructor, on a disk where no inode but 0 is taken and no data block. -/
theorem startOn_spec {m : BlockManager} (now : UInt32)
    (hinode : m.freedInode = (Finset.range inodeNum).erase 0)
    (hdata : m.freedData = Finset.range dataBlockNum) :
    ∃ s, startOn m now = some s ∧ s.Started ∧ m.OnTrack s.m := by
  have hempty : m.Sound ∅ := by
    refine ⟨nofun, nofun, ⟨nofun, nofun, nofun, fun x => ?_⟩, nofun⟩
    rw [hdata, Finset.mem_range]
    simp
  have hinodes : m.Inodes ∅ := by
    refine ⟨by simp [hinode], by simp, fun x => ?_⟩
    rw [hinode, Finset.mem_erase, Finset.mem_range]
    simp only [inodeNum_eq, Finset.notMem_empty, false_or]
    omega
  have hone : 1 ∈ m.freedInode := by simp [hinode]
  have hcreated := BlockManager.createFile_spec tDir now ⟨1, hone⟩
    hinodes.lt_of_free
  rw [startOn]
  generalize m.createFile tDir now = r at *
  obtain ⟨root, m'⟩ := r
  obtain ⟨hmem, hleast⟩ := hcreated.least
  have hroot : root = 1 := by
    have hle := hleast 1 hone
    have hne : root ≠ 0 := fun h0 => hinodes.zero.2 (h0 ▸ hmem)
    dsimp only at hle hne
    omega
  subst hroot
  refine ⟨_, if_neg (by simp), ⟨⟨?_, ?_⟩, rfl, hcreated.freedData.trans hdata, hcreated.size,
    hcreated.type⟩, hcreated.track⟩
  · exact hcreated.sound hempty (hinodes.lt_of_free _ hmem) (by simp)
  · exact hinodes.create hmem hcreated.freedInode

theorem empty_startOn {m : BlockManager} (h : m.Empty) (hs : startOn m now = some s) :
    s.m.Empty := by
  obtain ⟨-, hs⟩ := Option.ite_none_left_eq_some.1 hs
  obtain rfl := Option.some_inj.1 hs
  exact h.create ..

theorem empty_start (hs : System.start now = some s) : s.m.Empty :=
  have ⟨hinode, hdata, hblocks⟩ := BlockManager.new_spec
  empty_startOn (.of_new hinode hdata hblocks) hs

/-- **The constructor makes a root directory of inode 1.** -/
theorem start_spec (now : UInt32) :
    ∃ s, System.start now = some s ∧ s.Started ∧ BlockManager.new.OnTrack s.m :=
  startOn_spec now BlockManager.new_spec.1 BlockManager.new_spec.2.1

theorem Started.of_start (h : System.start now = some s) :
    s.Started ∧ BlockManager.new.OnTrack s.m := by
  obtain ⟨s', h', hs'⟩ := start_spec now
  exact Option.some_inj.1 (h'.symm.trans h) ▸ hs'

/-- `create_file`, with a free inode and without. -/
theorem create_cases (h : s.Inv) (type now : UInt32) :
    (∃ i m', BlockManager.Created s.m type i m' ∧ i < inodeNum ∧ i ∉ s.live ∧
      s.step (.create type now) = some ⟨m', insert i s.live⟩) ∨
    (s.m.freedInode = ∅ ∧ ∃ m', BlockManager.Refused s.m m' ∧
      s.step (.create type now) = some ⟨m', s.live⟩) := by
  by_cases hne : s.m.freedInode.Nonempty
  · have hcreated := BlockManager.createFile_spec type now hne h.inodes.lt_of_free
    rw [step]
    generalize s.m.createFile type now = r at *
    obtain ⟨inum, m'⟩ := r
    have hmem := hcreated.least.1
    have hlt := h.inodes.lt_of_free _ hmem
    refine .inl ⟨inum, m', hcreated, hlt, Finset.disjoint_right.1 h.inodes.apart hmem, ?_⟩
    have hid : inum ≠ noId := by
      simp only [inodeNum_eq, noId_eq] at hlt ⊢
      omega
    exact congrArg some (congrArg (System.mk _) (if_neg hid))
  · obtain ⟨hno, hrefused⟩ := BlockManager.createFile_refused type now hne
    rw [step]
    generalize s.m.createFile type now = r at *
    obtain ⟨inum, m'⟩ := r
    exact .inr ⟨Finset.not_nonempty_iff_eq_empty.1 hne, m', hrefused,
      congrArg some (congrArg (System.mk _) (if_pos hno))⟩

/-- A write that is no longer than a file can be is made. -/
theorem write_step {buf : Bytes} (hi : i ∈ s.live) (hlen : buf.length ≤ maxFile * blockSize)
    (junk : Junk) (now : UInt32) : ∃ t m', s.m.writeFile i buf junk now = some (t, m') ∧
      s.step (.write i buf junk now) = some ⟨m', s.live⟩ := by
  obtain ⟨t, m', hw⟩ := s.m.exists_writeFile i hlen junk now
  refine ⟨t, m', hw, ?_⟩
  rw [step, if_pos hi, hw]
  rfl

/-- What a write that is made is. -/
theorem step_write {buf : Bytes} {junk : Junk} (hs : s.step (.write i buf junk now) = some s') :
    i ∈ s.live ∧ s'.live = s.live ∧ buf.length ≤ maxFile * blockSize ∧
      ∃ t, s.m.writeFile i buf junk now = some (t, s'.m) := by
  obtain ⟨hi, hs⟩ := Option.ite_none_right_eq_some.1 hs
  obtain ⟨⟨t, m'⟩, hw, rfl⟩ := Option.map_eq_some_iff.1 hs
  exact ⟨hi, rfl, BlockManager.writeFile_isSome.1 (Option.isSome_iff_exists.2 ⟨_, hw⟩), t, hw⟩

/-- Every call keeps the invariant, a write where the blocks in use fit on the disk afterwards. -/
theorem Inv.step {a : Action} (h : s.Inv)
    (hroom : ∀ i buf junk now, a = .write i buf junk now → s'.m.Roomy)
    (hs : s.step a = some s') : s'.Inv := by
  cases a with
  | create type now =>
    rcases create_cases h type now with ⟨i, m', hcreated, hlt, hnew, heq⟩ | ⟨-, m', hrefused, heq⟩
    · obtain rfl := Option.some_inj.1 (heq.symm.trans hs)
      exact ⟨hcreated.sound h.sound hlt hnew,
        h.inodes.create hcreated.least.1 hcreated.freedInode⟩
    · obtain rfl := Option.some_inj.1 (heq.symm.trans hs)
      exact ⟨h.sound.of_same hrefused.freedData fun j hj =>
        ⟨(hrefused.other h.sound hj).1, (hrefused.other h.sound hj).2.1⟩,
        h.inodes.same hrefused.freedInode⟩
  | write i buf junk now =>
    obtain ⟨hi, hlive, hlen, t, hw⟩ := step_write hs
    obtain ⟨-, hwritten⟩ := BlockManager.writeFile_spec h.sound hi hw (hroom i buf junk now rfl)
    exact ⟨hlive ▸ hwritten.sound h.sound hi hlen, hlive ▸ h.inodes.same hwritten.freedInode⟩
  | remove i =>
    obtain ⟨hi, hs⟩ := Option.ite_none_right_eq_some.1 hs
    obtain rfl := Option.some_inj.1 hs
    have hremoved := BlockManager.removeFile_spec (m := s.m) (h.sound.inums i hi)
    exact ⟨hremoved.sound h.sound hi, h.inodes.remove hi hremoved.freedInode⟩
  | read i now =>
    obtain ⟨hi, hs⟩ := Option.ite_none_right_eq_some.1 hs
    obtain rfl := Option.some_inj.1 hs
    obtain ⟨-, -, -, hsame, -⟩ := BlockManager.readFile_spec h.sound hi now
    have hstamp := fun j => h.sound.stamp (h.sound.inums i hi) hsame (j := j)
    exact ⟨h.sound.of_same (hsame.freedData.trans (BlockManager.writeInode_freedData _)) fun j hj =>
      ⟨(hstamp j hj).1, (hstamp j hj).2.1⟩,
      h.inodes.same (hsame.freedInode.trans (BlockManager.writeInode_freedInode _))⟩
  | getattr i now =>
    obtain ⟨hi, hs⟩ := Option.ite_none_right_eq_some.1 hs
    obtain rfl := Option.some_inj.1 hs
    obtain ⟨-, hsame, -⟩ := BlockManager.getattr_spec (m := s.m) i now
    have hstamp := fun j => h.sound.stamp (h.sound.inums i hi) hsame (j := j)
    exact ⟨h.sound.of_same (hsame.freedData.trans (BlockManager.writeInode_freedData _)) fun j hj =>
      ⟨(hstamp j hj).1, (hstamp j hj).2.1⟩,
      h.inodes.same (hsame.freedInode.trans (BlockManager.writeInode_freedInode _))⟩

/-! ### Two files -/

/-- A run in which the data blocks in use always fit on the disk. -/
def StaysRoomy (s : System) (a : Action) : Prop := ∀ s', s.step a = some s' → s'.m.Roomy

theorem StaysRoomy.of_step {a : Action} (hs : s.step a = some s') (h : s'.m.Roomy) :
    s.StaysRoomy a := fun s'' hs'' => by
  obtain rfl := Option.some_inj.1 (hs.symm.trans hs'')
  exact h

/-- A call takes no more than there is: a new file finds an inode, and a write room. -/
def Fitting (s : System) : Action → Prop
  | .create _ _ => s.m.freedInode.Nonempty
  | .write i buf _ _ => s.m.Fits i buf
  | _ => True

def noJunk : Junk := ⟨Buffer.zero, Buffer.zero, fun _ => 0⟩

/-- More than a block. -/
def long : Bytes := List.replicate 600 7

theorem length_long : long.length = 600 := List.length_replicate

/-- Two files besides the root directory, of two blocks and of one. -/
def twoFiles : List Action :=
  [.create 2 0, .create 2 0, .write 2 long noJunk 0, .write 3 [8, 9] noJunk 0]

/-- What that leaves. -/
structure TwoFiles (s : System) : Prop where
  inv : s.Inv
  live : s.live = {1, 2, 3}
  two : s.m.content 2 = long
  three : s.m.content 3 = [8, 9]
  card : 31741 ≤ s.m.freedData.card

/-- The next inode, where those up to `i` are live. -/
theorem create_next (h : s.Inv) (hpos : 1 ≤ i) (hi : i < inodeNum)
    (hlive : ∀ j, j ∈ s.live ↔ 1 ≤ j ∧ j < i) (type now : UInt32) :
    ∃ m', BlockManager.Created s.m type i m' ∧
      s.step (.create type now) = some ⟨m', insert i s.live⟩ := by
  have hfree : i ∈ s.m.freedInode := by
    rcases (h.inodes.all i).1 hi with rfl | hmem | hmem
    · exact absurd hpos (by decide)
    · exact absurd ((hlive i).1 hmem).2 (Nat.lt_irrefl i)
    · exact hmem
  rcases create_cases h type now with ⟨j, m', hcreated, hj, hnew, hs⟩ | ⟨hnone, -⟩
  · have hle := hcreated.least.2 i hfree
    have hji : j = i := by
      rcases hle.lt_or_eq with hlt | heq
      · have hj0 : j ≠ 0 := fun h0 => h.inodes.zero.2 (h0 ▸ hcreated.least.1)
        exact absurd ((hlive j).2 ⟨Nat.pos_of_ne_zero hj0, hlt⟩) hnew
      · exact heq
    exact ⟨m', hji ▸ hcreated, hji ▸ hs⟩
  · rw [hnone] at hfree
    exact absurd hfree (Finset.notMem_empty i)

/-- A write there is room for. -/
theorem write_next {buf : Bytes} (h : s.Inv) (hi : i ∈ s.live)
    (hlen : buf.length ≤ maxFile * blockSize) (hfits : s.m.Fits i buf) (junk : Junk)
    (now : UInt32) : ∃ m', s.step (.write i buf junk now) = some ⟨m', s.live⟩ ∧
      Inv ⟨m', s.live⟩ ∧ m'.content i = buf ∧
      (∀ j ∈ s.live, j ≠ i → m'.content j = s.m.content j) ∧
      s.m.freedData.card ≤ m'.freedData.card + blocksFor (ceilDiv buf.length blockSize) := by
  obtain ⟨t, m', hw, hs⟩ := write_step hi hlen junk now
  have hroom := BlockManager.roomy_of_fits hfits hw
  obtain ⟨-, hwritten⟩ := BlockManager.writeFile_spec h.sound hi hw hroom
  refine ⟨m', hs, h.step (fun _ _ _ _ _ => hroom) hs, hwritten.content,
    fun j hj hji => (hwritten.other h.sound hi hj hji).2.2, ?_⟩
  have hcard := BlockManager.card_writeFile hw
  rw [BlockManager.needs] at hcard
  omega

theorem exists_twoFiles : ∃ s₀ s, System.start 0 = some s₀ ∧
    Run step (fun s a => s.Fitting a ∧ s.StaysRoomy a) s₀ twoFiles s ∧ s.TwoFiles := by
  obtain ⟨s₀, h0, hs₀, -⟩ := start_spec 0
  obtain ⟨m₁, hm₁, hs₁⟩ := create_next hs₀.inv (i := 2) (by decide) (by decide)
    (fun j => by rw [hs₀.live, Finset.mem_singleton]; omega) 2 0
  have hinv₁ := hs₀.inv.step (fun _ _ _ _ h => Action.noConfusion h) hs₁
  have hlive₁ : ∀ j, j ∈ insert 2 s₀.live ↔ 1 ≤ j ∧ j < 3 := fun j => by
    rw [hs₀.live, Finset.mem_insert, Finset.mem_singleton]
    omega
  obtain ⟨m₂, hm₂, hs₂⟩ := create_next hinv₁ (i := 3) (by decide) (by decide) hlive₁ 2 0
  have hinv₂ := hinv₁.step (fun _ _ _ _ h => Action.noConfusion h) hs₂
  have hlive₂ : insert 3 (insert 2 s₀.live) = {1, 2, 3} := by
    rw [hs₀.live]
    decide
  have hcard₂ : m₂.freedData.card = dataBlockNum := by
    rw [hm₂.freedData, hm₁.freedData, hs₀.free, Finset.card_range]
  have hblocks : blocksFor (ceilDiv long.length blockSize) = 2 := by rw [length_long]; rfl
  have hfits₂ : m₂.Fits 2 long := BlockManager.fits_of_card
    (by rw [hblocks]; decide) (by rw [hblocks, hcard₂]; decide)
  obtain ⟨m₃, hs₃, hinv₃, htwo, -, hcard₃⟩ := write_next hinv₂ (by simp) (by
    rw [length_long]
    decide) hfits₂ noJunk 0
  rw [hblocks] at hcard₃
  dsimp only at hcard₃ hs₃
  have hfits₃ : m₃.Fits 3 [8, 9] := BlockManager.fits_of_card (by decide) <| by
    have hone : blocksFor (ceilDiv ([8, 9] : Bytes).length blockSize) = 1 := rfl
    simp only [dataBlockNum_eq] at hcard₂
    omega
  obtain ⟨m₄, hs₄, hinv₄, hthree, hother, hcard₄⟩ :=
    write_next hinv₃ (by simp) (by simp) hfits₃ noJunk 0
  have hone : blocksFor (ceilDiv ([8, 9] : Bytes).length blockSize) = 1 := rfl
  simp only [dataBlockNum_eq] at hcard₂
  dsimp only at hcard₄
  have hcard₁ : m₁.freedData.card = m₂.freedData.card := congrArg Finset.card hm₂.freedData.symm
  have hroom : ∀ m : BlockManager, 31741 ≤ m.freedData.card → m.Roomy := fun m hcard =>
    BlockManager.roomy_iff.2 (by omega)
  have hok₁ := StaysRoomy.of_step hs₁ (hroom m₁ (by omega))
  have hok₂ := StaysRoomy.of_step hs₂ (hroom m₂ (by omega))
  have hok₃ := StaysRoomy.of_step hs₃ (hroom m₃ (by omega))
  have hok₄ := StaysRoomy.of_step hs₄ (hroom m₄ (by omega))
  exact ⟨s₀, _, h0, (((Run.nil.snoc ⟨⟨_, hm₁.least.1⟩, hok₁⟩ hs₁).snoc
    ⟨⟨_, hm₂.least.1⟩, hok₂⟩ hs₂).snoc ⟨hfits₂, hok₃⟩ hs₃).snoc ⟨hfits₃, hok₄⟩ hs₄, hinv₄, hlive₂,
    (hother 2 (by simp) (by decide)).trans htwo, hthree, show 31741 ≤ m₄.freedData.card by omega⟩

/-! ### The results -/

theorem Inv.of_run (h0 : System.start now = some s₀) (h : Run System.step StaysRoomy s₀ as s) :
    s.Inv :=
  h.invariant (P := Inv) (Started.of_start h0).1.inv fun _ _ _ hinv hok hs =>
    hinv.step (fun _ _ _ _ _ => hok _ hs) hs

/-- **Every data block is free or has one owner, and every inode is live or free**, but for number
0. -/
theorem divided (h0 : System.start now = some s₀) (h : Run step StaysRoomy s₀ as s) :
    Divided (· < dataBlockNum) (· ∈ s.m.freedData) (· ∈ s.live) s.m.owned ∧ s.m.Inodes s.live :=
  ⟨(Inv.of_run h0 h).sound.owns, (Inv.of_run h0 h).inodes⟩

/-- Of the root directory and two more files. -/
theorem divided_files : ∃ s₀ s, System.start 0 = some s₀ ∧ Run step StaysRoomy s₀ twoFiles s ∧
    s.live = {1, 2, 3} ∧ s.m.content 2 = long ∧ s.m.content 3 = [8, 9] ∧
    Divided (· < dataBlockNum) (· ∈ s.m.freedData) (· ∈ s.live) s.m.owned ∧
    s.m.Inodes s.live :=
  let ⟨s₀, s, h0, h, hfiles⟩ := exists_twoFiles
  have hrun := h.mono fun _ _ => And.right
  ⟨s₀, s, h0, hrun, hfiles.live, hfiles.two, hfiles.three, divided h0 hrun⟩

/-- **Files are kept faithfully**: what is written is read back, and nothing else has changed. -/
theorem write_read {buf : Bytes} (h0 : System.start now = some s₀)
    (h : Run step StaysRoomy s₀ as s) (hi : i ∈ s.live) (hlen : buf.length ≤ maxFile * blockSize)
    (junk : Junk) (t : UInt32) :
    ∃ s', s.step (.write i buf junk t) = some s' ∧ (s'.m.Roomy → ∀ t₁ t₂,
      s'.m.reads i t₁ = (buf.length, buf) ∧
        ∀ j ∈ s.live, j ≠ i → s'.m.reads j t₁ = s.m.reads j t₂) := by
  have hinv := Inv.of_run h0 h
  obtain ⟨type, m', hw, hs⟩ := write_step hi hlen junk t
  refine ⟨⟨m', s.live⟩, hs, fun hroom t₁ t₂ => ?_⟩
  obtain ⟨-, hwritten⟩ := BlockManager.writeFile_spec hinv.sound hi hw hroom
  have hsound := hwritten.sound hinv.sound hi hlen
  refine ⟨?_, fun j hj hji => ?_⟩
  · rw [BlockManager.reads_eq hsound hi, hwritten.size, hwritten.content]
  · obtain ⟨hsize, -, hcontent⟩ := hwritten.other hinv.sound hi hj hji
    rw [BlockManager.reads_eq hsound hj, BlockManager.reads_eq hinv.sound hj, hsize, hcontent]

/-- One of two files is written again. -/
theorem write_read_files : ∃ s₀ s s', System.start 0 = some s₀ ∧
    Run step StaysRoomy s₀ twoFiles s ∧ s.live = {1, 2, 3} ∧ s.m.content 3 = [8, 9] ∧
    s.step (.write 2 [5] noJunk 0) = some s' ∧ s'.m.Roomy ∧ ∀ t₁ t₂,
      s'.m.reads 2 t₁ = (1, [5]) ∧
        ∀ j ∈ s.live, j ≠ 2 → s'.m.reads j t₁ = s.m.reads j t₂ := by
  obtain ⟨s₀, s, h0, h, hfiles⟩ := exists_twoFiles
  have hrun := h.mono fun _ _ => And.right
  have hmem : 2 ∈ s.live := by simp [hfiles.live]
  have hlen : ([5] : Bytes).length ≤ maxFile * blockSize := by simp
  obtain ⟨s', hs, hread⟩ := write_read h0 hrun hmem hlen noJunk 0
  obtain ⟨-, -, -, t, hw⟩ := step_write hs
  have hfits : s.m.Fits 2 [5] :=
    BlockManager.fits_of_card (by decide) (le_trans (by decide) hfiles.card)
  have hroom := BlockManager.roomy_of_fits hfits hw
  exact ⟨s₀, s, s', h0, hrun, hfiles.live, hfiles.three, hs, hroom, hread hroom⟩

end System

end Inode
end CseLab
