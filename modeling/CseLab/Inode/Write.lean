import CseLab.Inode.Layout
import Mathlib.Order.Interval.Finset.Nat

/-!
# What `write_file` does

The three loops do the same to the disk: they store one block after another of the caller's buffer
in blocks that are the file's next ones.  `Laid` is how far they have come, and `growWith_spec` is
about the two that take new blocks, which differ in where they put the ids.  `Ready` is what is left
of the three ways through the function when only the inode is to be written, and `Written` what it
comes to.

Whether there is room is asked once, at the end: where the blocks in use fit on the disk afterwards
they did so all along, and `alloc_block`, which takes the least id, has found one on the disk.
-/

set_option autoImplicit false

namespace CseLab
namespace Inode

/-! ## The buffer, block by block -/

/-- `b` has block `j` of `buf`. -/
def Holds (b : Buffer) (buf : Bytes) (j : ℕ) : Prop :=
  ∀ k < blockSize, ∀ x, buf[blockSize * j + k]? = some x → b k = x

theorem Source.byteAt_eq {c : Source} {k : ℕ} {x : UInt8} (h : c.buf[k]? = some x) :
    c.byteAt k = x := by
  have hk : k < c.buf.length := (List.getElem?_eq_some_iff.1 h).1
  rw [byteAt, if_pos ⟨by omega, by omega⟩, Int.toNat_natCast, List.getD_eq_getElem?_getD, h]
  rfl

/-- Where the pointer has come to there is the block that is due. -/
theorem Source.fetch_turn {c : Source} {j : ℕ} :
    Holds (c.fetch (c.turn j (.buf (blockSize * j)))) c.buf j := by
  intro k hk x hx
  have hlt : blockSize * j + k < c.buf.length := (List.getElem?_eq_some_iff.1 hx).1
  rw [turn]
  split
  next hj =>
    have hoff : c.lastOff = ((blockSize * j : ℕ) : ℤ) := by
      rw [lastOff, ← hj]
      simp only [blockSize_eq]
      omega
    simp only [fetch, Nat.zero_add, lastBlock, hoff]
    rw [if_pos (by omega), ← Int.natCast_add]
    exact byteAt_eq hx
  next =>
    simp only [fetch]
    rw [← Int.natCast_add]
    exact byteAt_eq hx

/-- The pointer after a turn that was not the last. -/
theorem Source.turn_next {c : Source} {j : ℕ} (hj : j + 1 < c.newBlockN) :
    (c.turn j (.buf (blockSize * j))).next = .buf (blockSize * (j + 1)) := by
  rw [turn, if_neg (by omega), Ptr.next, Nat.mul_succ]

namespace BlockManager

variable {m m' m₀ : BlockManager} {i j id : ℕ} {buf : Bytes} {L taken : List ℕ}

theorem Same.writeFrom (m : BlockManager) (c : Source) (id : ℕ) (tmp : Ptr) :
    Same (m.writeData id (c.fetch tmp)) (m.writeFrom c id tmp) := by
  cases tmp with
  | buf off => exact (Same.touch m _).writeData id _
  | lastBlock off => exact Same.refl _

theorem OnTrack.writeFrom (m : BlockManager) (c : Source) (id : ℕ) (tmp : Ptr) :
    OnTrack (m.writeData id (c.fetch tmp)) (m.writeFrom c id tmp) := by
  cases tmp with
  | buf off =>
    intro a ha
    simp only [BlockManager.writeFrom, BlockManager.writeData, writeBlock_accesses,
      BlockManager.touch, List.mem_append, List.mem_singleton] at ha ⊢
    rcases ha with (ha | rfl) | ha
    · exact .inl (.inl ha)
    · exact .inr trivial
    · exact .inl (.inr ha)
  | lastBlock off => exact .refl _

/-! ## Room -/

/-- The data blocks in use fit on the disk. -/
def Roomy (m : BlockManager) : Prop := m.inUse ≤ diskDataNum

instance (m : BlockManager) : Decidable m.Roomy := by
  unfold Roomy
  infer_instance

theorem roomy_iff : m.Roomy ↔ 10 ≤ m.freedData.card := by
  simp only [Roomy, inUse, dataBlockNum_eq, diskDataNum_eq]
  omega

theorem Same.roomy (h : Same m m') : m'.Roomy ↔ m.Roomy := by
  rw [roomy_iff, roomy_iff, h.freedData]

/-- Where there is room after an allocation there was before. -/
theorem roomy_of_allocBlock (h : m.allocBlock.2.Roomy) : m.Roomy := by
  rw [allocBlock] at h
  split at h
  next =>
    rw [roomy_iff] at h ⊢
    exact h.trans (Finset.card_erase_le)
  next => exact h

theorem roomy_writeData {b : Buffer} : (m.writeData id b).Roomy ↔ m.Roomy := by
  rw [roomy_iff, roomy_iff, writeData_freedData]

theorem roomy_writeFrom {c : Source} {tmp : Ptr} : (m.writeFrom c id tmp).Roomy ↔ m.Roomy :=
  (Same.writeFrom ..).roomy.trans roomy_writeData

/-- `alloc_block` where there is room. -/
theorem allocBlock_spec (hpool : ∀ x ∈ m.freedData, x < dataBlockNum)
    (hroom : m.allocBlock.2.Roomy) :
    m.allocBlock.1 ∈ m.freedData ∧ m.allocBlock.1 < diskDataNum ∧ m.Roomy ∧
      m.allocBlock.2 = { m with freedData := m.freedData.erase m.allocBlock.1 } := by
  by_cases hne : m.freedData.Nonempty
  · have halloc : m.allocBlock = (m.freedData.min' hne,
        { m with freedData := m.freedData.erase (m.freedData.min' hne) }) := by
      rw [allocBlock, dif_pos hne]
    rw [halloc, roomy_iff] at hroom
    rw [halloc]
    dsimp only at hroom ⊢
    have hmem := m.freedData.min'_mem hne
    have hcard : (m.freedData.erase (m.freedData.min' hne)).card + 1 = m.freedData.card :=
      Finset.card_erase_add_one hmem
    have hsub : m.freedData ⊆ Finset.Ico (m.freedData.min' hne) dataBlockNum := fun x hx =>
      Finset.mem_Ico.2 ⟨m.freedData.min'_le x hx, hpool x hx⟩
    have hle := Finset.card_le_card hsub
    rw [Nat.card_Ico] at hle
    simp only [dataBlockNum_eq] at hle
    refine ⟨hmem, ?_, roomy_iff.2 (by omega), rfl⟩
    simp only [diskDataNum_eq]
    omega
  · rw [allocBlock, dif_neg hne, roomy_iff, Finset.not_nonempty_iff_eq_empty.1 hne] at hroom
    simp at hroom

theorem mem_allocBlock (hpool : ∀ x ∈ m.freedData, x < dataBlockNum)
    (hroom : m.allocBlock.2.Roomy) (x : ℕ) :
    x ∈ m.allocBlock.2.freedData ↔ x ∈ m.freedData ∧ x ≠ m.allocBlock.1 := by
  rw [(allocBlock_spec hpool hroom).2.2.2, Finset.mem_erase, and_comm]

/-! ## The loops -/

/-- The blocks `L` have the first blocks of `buf`, for which the blocks `taken` were allocated, and
nothing else has changed since `m₀`. -/
structure Laid (m₀ : BlockManager) (buf : Bytes) (L taken : List ℕ) (m : BlockManager) : Prop where
  stores : ∀ j x, L[j]? = some x → Holds (m.data x) buf j
  nodup : L.Nodup
  onDisk : ∀ x ∈ L, x < diskDataNum
  rest : ∀ x < dataBlockNum, x ∉ L → m.data x = m₀.data x
  inode : ∀ i < inodeNum, m.inode i = m₀.inode i
  freedInode : m.freedInode = m₀.freedInode
  taken_nodup : taken.Nodup
  taken_free : ∀ x ∈ taken, x ∈ m₀.freedData
  taken_onDisk : ∀ x ∈ taken, x < diskDataNum
  free : ∀ x, x ∈ m.freedData ↔ x ∈ m₀.freedData ∧ x ∉ taken
  track : OnTrack m₀ m

namespace Laid

theorem refl (m : BlockManager) (buf : Bytes) : Laid m buf [] [] m :=
  ⟨nofun, List.nodup_nil, nofun, fun _ _ _ => rfl, fun _ _ => rfl, rfl, List.nodup_nil, nofun,
    nofun, fun x => by simp, .refl m⟩

theorem keeps (h : Laid m₀ buf L taken m) (hk : Keeps m m') (hfree : m'.freedData = m.freedData) :
    Laid m₀ buf L taken m' where
  stores j x hx := by
    rw [hk.data x (lt_of_onDisk (h.onDisk x (List.mem_of_getElem? hx)))]
    exact h.stores j x hx
  nodup := h.nodup
  onDisk := h.onDisk
  rest x hx hL := (hk.data x hx).trans (h.rest x hx hL)
  inode i hi := (hk.inode i hi).trans (h.inode i hi)
  freedInode := hk.freedInode.trans h.freedInode
  taken_nodup := h.taken_nodup
  taken_free := h.taken_free
  taken_onDisk := h.taken_onDisk
  free x := hfree ▸ h.free x
  track := h.track.trans hk.track

theorem same (h : Laid m₀ buf L taken m) (hs : Same m m') (ht : OnTrack m m') :
    Laid m₀ buf L taken m' :=
  h.keeps (hs.keeps ht) hs.freedData

/-- How many blocks are free then. -/
theorem card (h : Laid m₀ buf L taken m) :
    m.freedData.card + taken.length = m₀.freedData.card := by
  have hset : m.freedData = m₀.freedData \ taken.toFinset := by
    ext x
    rw [h.free x, Finset.mem_sdiff, List.mem_toFinset]
  have hsub : taken.toFinset ⊆ m₀.freedData := fun x hx =>
    h.taken_free x (List.mem_toFinset.1 hx)
  rw [hset, ← List.toFinset_card_of_nodup h.taken_nodup]
  exact Finset.card_sdiff_add_card_eq_card hsub

/-- The next block has come to be as it should, and the others are as they were. -/
theorem snoc (h : Laid m₀ buf L taken m) (hid : id < diskDataNum) (hL : id ∉ L)
    (hb : Holds (m'.data id) buf L.length)
    (hdata : ∀ x < dataBlockNum, x ≠ id → m'.data x = m.data x)
    (hinode : ∀ i < inodeNum, m'.inode i = m.inode i) (hfreed : m'.freedInode = m.freedInode)
    (hfree : m'.freedData = m.freedData) (htrack : OnTrack m m') :
    Laid m₀ buf (L ++ [id]) taken m' where
  stores j x hx := by
    rcases Nat.lt_trichotomy j L.length with hj | rfl | hj
    · rw [List.getElem?_append_left hj] at hx
      have hmem := List.mem_of_getElem? hx
      rw [hdata x (lt_of_onDisk (h.onDisk x hmem)) (by rintro rfl; exact hL hmem)]
      exact h.stores j x hx
    · rw [List.getElem?_concat_length, Option.some_inj] at hx
      exact hx ▸ hb
    · rw [List.getElem?_eq_none (by simp; omega)] at hx
      cases hx
  nodup := List.nodup_append.2 ⟨h.nodup, List.nodup_singleton id, by
    rintro x hx y hy rfl
    exact hL (List.mem_singleton.1 hy ▸ hx)⟩
  onDisk x hx := by
    rcases List.mem_append.1 hx with hx | hx
    · exact h.onDisk x hx
    · exact List.mem_singleton.1 hx ▸ hid
  rest x hx hnot := by
    rw [List.mem_append, not_or, List.mem_singleton] at hnot
    rw [hdata x hx hnot.2]
    exact h.rest x hx hnot.1
  inode i hi := (hinode i hi).trans (h.inode i hi)
  freedInode := hfreed.trans h.freedInode
  taken_nodup := h.taken_nodup
  taken_free := h.taken_free
  taken_onDisk := h.taken_onDisk
  free x := hfree ▸ h.free x
  track := h.track.trans htrack

/-- The next block is stored. -/
theorem write {b : Buffer} (h : Laid m₀ buf L taken m) (hid : id < diskDataNum) (hL : id ∉ L)
    (hb : Holds b buf L.length) : Laid m₀ buf (L ++ [id]) taken (m.writeData id b) := by
  refine h.snoc hid hL ?_ (fun x hx hne => ?_) (fun i hi => inode_writeData hid hi)
    (writeData_freedInode b) (writeData_freedData b) (.writeData hid)
  · rwa [data_writeData hid (lt_of_onDisk hid), if_pos rfl]
  · rw [data_writeData hid hx, if_neg hne]

/-- The next block has been there all along. -/
theorem old (h : Laid m₀ buf L taken m) (hid : id < diskDataNum) (hL : id ∉ L)
    (hb : Holds (m₀.data id) buf L.length) : Laid m₀ buf (L ++ [id]) taken m :=
  h.snoc hid hL ((h.rest id (lt_of_onDisk hid) hL).symm ▸ hb) (fun _ _ _ => rfl) (fun _ _ => rfl)
    rfl rfl (.refl m)

/-- A block is allocated. -/
theorem alloc (h : Laid m₀ buf L taken m) (hpool : ∀ x ∈ m₀.freedData, x < dataBlockNum)
    (hroom : m.allocBlock.2.Roomy) :
    m.Roomy ∧ m.allocBlock.1 ∈ m₀.freedData ∧ m.allocBlock.1 ∉ taken ∧
      m.allocBlock.1 < diskDataNum ∧
      Laid m₀ buf L (taken ++ [m.allocBlock.1]) m.allocBlock.2 := by
  have hpool' : ∀ x ∈ m.freedData, x < dataBlockNum := fun x hx => hpool x ((h.free x).1 hx).1
  obtain ⟨hmem, hdisk, hroom', heq⟩ := allocBlock_spec hpool' hroom
  obtain ⟨hfree, hnot⟩ := (h.free _).1 hmem
  have hfreed := mem_allocBlock hpool' hroom
  generalize m.allocBlock.1 = id at *
  rw [heq] at hfreed ⊢
  refine ⟨hroom', hfree, hnot, hdisk, h.stores, h.nodup, h.onDisk, h.rest, h.inode, h.freedInode,
    ?_, ?_, ?_, fun x => ?_, h.track⟩
  · rw [List.nodup_append]
    exact ⟨h.taken_nodup, List.nodup_singleton id, by
      rintro x hx y hy rfl
      exact hnot (List.mem_singleton.1 hy ▸ hx)⟩
  · rintro x hx
    rcases List.mem_append.1 hx with hx | hx
    · exact h.taken_free x hx
    · exact List.mem_singleton.1 hx ▸ hfree
  · rintro x hx
    rcases List.mem_append.1 hx with hx | hx
    · exact h.taken_onDisk x hx
    · exact List.mem_singleton.1 hx ▸ hdisk
  · rw [hfreed x, h.free x, List.mem_append, List.mem_singleton, not_or, and_assoc]

end Laid

/-- The pointer is at block `j`, if there is one. -/
def PtrAt (c : Source) (j : ℕ) (tmp : Ptr) : Prop := j < c.newBlockN → tmp = .buf (blockSize * j)

theorem PtrAt.next {c : Source} {tmp : Ptr} (h : PtrAt c j tmp) (hj : j < c.newBlockN) :
    PtrAt c (j + 1) (c.turn j tmp).next ∧ Holds (c.fetch (c.turn j tmp)) c.buf j := by
  rw [h hj]
  exact ⟨Source.turn_next, Source.fetch_turn⟩

theorem getElem_notMem_take {L : List ℕ} {n : ℕ} (h : L.Nodup) (hn : n < L.length) :
    L[n] ∉ L.take n := by
  intro hmem
  obtain ⟨j, hj, hjeq⟩ := List.getElem_of_mem hmem
  rw [List.getElem_take, List.Nodup.getElem_inj_iff h] at hjeq
  rw [List.length_take] at hj
  omega

/-- The first loop. -/
theorem overwrite_spec {c : Source} {ids : List ℕ} {hi : ℕ} (hids : ids.Nodup)
    (hdisk : ∀ x ∈ ids, x < diskDataNum) (hlen : hi ≤ ids.length) (hN : hi ≤ c.newBlockN)
    (h : Laid m₀ c.buf [] [] m) :
    let r := loop 0 hi (overwrite c ids) (.buf 0, m)
    PtrAt c hi r.1 ∧ Laid m₀ c.buf (ids.take hi) [] r.2 := by
  refine loop_induct (P := fun i (r : Ptr × BlockManager) =>
    PtrAt c i r.1 ∧ Laid m₀ c.buf (ids.take i) [] r.2) (Nat.zero_le hi) ⟨fun _ => rfl, h⟩ ?_
  rintro i ⟨tmp, m'⟩ - hi ⟨hptr, hlaid⟩
  have hlt : i < ids.length := hi.trans_le hlen
  obtain ⟨hptr', hholds⟩ := hptr.next (hi.trans_le hN)
  have hget : ids.getD i 0 = ids[i] := by
    rw [List.getD_eq_getElem?_getD, List.getElem?_eq_getElem hlt]
    rfl
  refine ⟨hptr', ?_⟩
  rw [List.take_succ_eq_append_getElem hlt]
  dsimp only [overwrite]
  rw [hget]
  refine (hlaid.write (hdisk _ (List.getElem_mem hlt)) ?_ ?_).same (.writeFrom ..)
    (.writeFrom _ _ _ _)
  · exact getElem_notMem_take hids hlt
  · rwa [List.length_take, Nat.min_eq_left hlt.le]

/-- The body of the loops that take new blocks: `put` is how an id goes on record. -/
def growWith (c : Source) (put : Buffer → ℕ → ℕ → Buffer) (i : ℕ) :
    Ptr × Buffer × BlockManager → Ptr × Buffer × BlockManager :=
  fun (tmp, b, m) =>
    let tmp := c.turn i tmp
    let (newBlockId, m) := m.allocBlock
    (tmp.next, put b i newBlockId, m.writeFrom c newBlockId tmp)

/-- Where there is room after such a loop there was before. -/
theorem roomy_of_growWith {c : Source} {put : Buffer → ℕ → ℕ → Buffer} {lo hi : ℕ} {tmp : Ptr}
    {b : Buffer} : (loop lo hi (growWith c put) (tmp, b, m)).2.2.Roomy → m.Roomy :=
  loop_keeps (P := fun r : Ptr × Buffer × BlockManager => r.2.2.Roomy → m.Roomy) id
    fun _ _ _ _ hr hroom => hr (roomy_of_allocBlock (roomy_writeFrom.1 hroom))

theorem growDirect_eq (c : Source) : growDirect c = growWith c Ino.setBlocks := rfl

theorem growIndirect_eq (c : Source) :
    growIndirect c = growWith c fun b i id => b.setWord (i - nDirect) (UInt32.ofNat id) := rfl

/-- The loops that take new blocks; `get` reads back what `put` records, and `R` is anything else
about the records that `put` keeps. -/
theorem growWith_spec {c : Source} (put : Buffer → ℕ → ℕ → Buffer) (get : Buffer → ℕ → ℕ)
    (R : Buffer → Prop) {lo hi : ℕ} {tmp : Ptr} {b : Buffer}
    (hpool : ∀ x ∈ m₀.freedData, x < dataBlockNum)
    (hput : ∀ b i j id, lo ≤ i → i < hi → lo ≤ j → j < hi → id < diskDataNum →
      get (put b i id) j = if j = i then id else get b j)
    (hR : ∀ b i id, lo ≤ i → i < hi → R b → R (put b i id))
    (hold : ∀ x ∈ L, x ∈ m₀.freedData → x ∈ taken)
    (hle : lo ≤ hi) (hN : hi ≤ c.newBlockN) (hL : L.length = lo) (hptr : PtrAt c lo tmp)
    (h : Laid m₀ c.buf L taken m) (hb : R b) :
    let r := loop lo hi (growWith c put) (tmp, b, m)
    PtrAt c hi r.1 ∧ R r.2.1 ∧ (r.2.2.Roomy → ∃ got : List ℕ, got.length = hi - lo ∧
      Laid m₀ c.buf (L ++ got) (taken ++ got) r.2.2 ∧
      ∀ j x, got[j]? = some x → get r.2.1 (lo + j) = x) := by
  refine loop_induct (P := fun i (r : Ptr × Buffer × BlockManager) =>
    PtrAt c i r.1 ∧ R r.2.1 ∧ (r.2.2.Roomy → ∃ got : List ℕ, got.length = i - lo ∧
      Laid m₀ c.buf (L ++ got) (taken ++ got) r.2.2 ∧
      ∀ j x, got[j]? = some x → get r.2.1 (lo + j) = x)) hle
    ⟨hptr, hb, fun _ => ⟨[], by simp, by simpa using h, by simp⟩⟩ ?_
  rintro i ⟨tmp, b, m'⟩ hlo hi ⟨hptr, hb, hroomy⟩
  obtain ⟨hptr', hholds⟩ := hptr.next (hi.trans_le hN)
  refine ⟨hptr', hR _ _ _ hlo hi hb, fun hroom => ?_⟩
  dsimp only [growWith] at hroom ⊢
  have hroom₁ : m'.allocBlock.2.Roomy := roomy_writeFrom.1 hroom
  obtain ⟨got, hlen, hlaid, hgot⟩ := hroomy (roomy_of_allocBlock hroom₁)
  obtain ⟨-, hfree, hnot, hdisk, hlaid'⟩ := hlaid.alloc hpool hroom₁
  generalize m'.allocBlock.1 = id at *
  have hlenL : (L ++ got).length = i := by rw [List.length_append, hL, hlen]; omega
  refine ⟨got ++ [id], by simp [hlen]; omega, ?_, ?_⟩
  · rw [← List.append_assoc, ← List.append_assoc]
    refine (hlaid'.write hdisk ?_ (hlenL ▸ hholds)).same (.writeFrom ..) (.writeFrom _ _ _ _)
    intro hmem
    rcases List.mem_append.1 hmem with hmem | hmem
    · exact hnot (List.mem_append_left _ (hold id hmem hfree))
    · exact hnot (List.mem_append_right _ hmem)
  · intro j x hx
    rcases Nat.lt_trichotomy j got.length with hj | rfl | hj
    · rw [List.getElem?_append_left hj] at hx
      rw [hput b i (lo + j) id hlo hi (Nat.le_add_right lo j) (by omega) hdisk, if_neg (by omega)]
      exact hgot j x hx
    · rw [List.getElem?_concat_length, Option.some_inj] at hx
      rw [hput b i _ id hlo hi (Nat.le_add_right lo _) (by omega) hdisk, if_pos (by omega), hx]
    · rw [List.getElem?_eq_none (by simp; omega)] at hx
      cases hx

/-! ## Ready for the inode -/

/-- In `m` the file of inode `i` of `m₀` has `buf` in its data blocks `L`, has besides the blocks
`Q`, and the free blocks make up for the difference; `ino`, which is still to be written, lists
them. -/
structure Ready (m₀ : BlockManager) (i : ℕ) (buf : Bytes) (L Q : List ℕ) (ino : Buffer)
    (m : BlockManager) : Prop where
  len : L.length = ceilDiv buf.length blockSize
  nodup : (L ++ Q).Nodup
  taken : ∀ x ∈ L ++ Q, x ∈ m₀.freedData ∨ x ∈ m₀.owned i
  onDisk : ∀ x ∈ L ++ Q, x < diskDataNum
  free : ∀ x, x ∈ m.freedData ↔ (x ∈ m₀.freedData ∨ x ∈ m₀.owned i) ∧ x ∉ L ++ Q
  stores : ∀ j x, L[j]? = some x → Holds (m.data x) buf j
  rest : ∀ x < dataBlockNum, x ∉ L ++ Q → m.data x = m₀.data x
  inode : ∀ j < inodeNum, m.inode j = m₀.inode j
  freedInode : m.freedInode = m₀.freedInode
  track : OnTrack m₀ m
  type : Ino.type ino = Ino.type (m₀.inode i)
  indirectId : Q = if nDirect < L.length then [Ino.blocks ino nDirect] else []
  direct : ∀ j x, j < nDirect → L[j]? = some x → Ino.blocks ino j = x
  indirect : ∀ j x, L[nDirect + j]? = some x →
    ((m.data (Ino.blocks ino nDirect)).word j).toNat = x

/-- What `write_file` comes to. -/
structure Written (m₀ : BlockManager) (i : ℕ) (buf : Bytes) (m : BlockManager) : Prop where
  type : Ino.type (m.inode i) = Ino.type (m₀.inode i)
  size : m.fileSize i = buf.length
  content : m.content i = buf
  nodup : (m.owned i).Nodup
  taken : ∀ x ∈ m.owned i, x ∈ m₀.freedData ∨ x ∈ m₀.owned i
  onDisk : ∀ x ∈ m.owned i, x < diskDataNum
  free : ∀ x, x ∈ m.freedData ↔ (x ∈ m₀.freedData ∨ x ∈ m₀.owned i) ∧ x ∉ m.owned i
  rest : ∀ x < dataBlockNum, x ∉ m.owned i → m.data x = m₀.data x
  inode : ∀ j < inodeNum, j ≠ i → m.inode j = m₀.inode j
  freedInode : m.freedInode = m₀.freedInode
  track : OnTrack m₀ m

/-- A shorter file of as many blocks. -/
theorem Ready.take {Q : List ℕ} {ino : Buffer} {n : ℕ} (h : Ready m₀ i buf L Q ino m)
    (hn : L.length = ceilDiv (buf.take n).length blockSize) : Ready m₀ i (buf.take n) L Q ino m :=
  { h with
    len := hn
    stores := fun j x hx k hk y hy => by
      rw [List.getElem?_take] at hy
      split at hy
      · exact h.stores j x hx k hk y hy
      · cases hy }

/-- The inode is written: `b` is `ino` but for the size and the times. -/
theorem Ready.fileIds_writeInode {Q : List ℕ} {ino b : Buffer} (h : Ready m₀ i buf L Q ino m)
    (hi : i < inodeNum) (hword : ∀ w, w = 0 ∨ 5 ≤ w → b.word w = ino.word w)
    (hsize : ceilDiv (Ino.size b).toNat blockSize = L.length) :
    (m.writeInode i b).fileIds i = L := by
  have hblocks : ∀ j, Ino.blocks b j = Ino.blocks ino j := fun j => by
    rw [Ino.blocks, hword _ (.inr (by omega))]
    rfl
  have hinode : (m.writeInode i b).inode i = b := by rw [inode_writeInode hi hi, if_pos rfl]
  refine List.ext_getElem (by rw [length_fileIds, fileSize, hinode, hsize]) fun j hj hj' => ?_
  have hL : L[j]? = some L[j] := List.getElem?_eq_getElem hj'
  simp only [fileIds, getElem_idsOf, hinode, idAt, hblocks]
  split
  next hlt => exact h.direct j _ hlt hL
  next hge =>
    have hq : Ino.blocks ino nDirect ∈ L ++ Q := by
      rw [h.indirectId, if_pos (by omega)]
      simp
    rw [data_writeInode hi (lt_of_onDisk (h.onDisk _ hq))]
    exact h.indirect (j - nDirect) _ (by rwa [Nat.add_sub_cancel' (by omega)])

/-- What that comes to. -/
theorem Ready.done {Q : List ℕ} {ino b : Buffer} (h : Ready m₀ i buf L Q ino m) (hi : i < inodeNum)
    (hword : ∀ w, w = 0 ∨ 5 ≤ w → b.word w = ino.word w)
    (hsize : (Ino.size b).toNat = buf.length) : Written m₀ i buf (m.writeInode i b) := by
  have hinode : (m.writeInode i b).inode i = b := by rw [inode_writeInode hi hi, if_pos rfl]
  have hdata : ∀ x < dataBlockNum, (m.writeInode i b).data x = m.data x := fun x hx =>
    data_writeInode hi hx
  have hfsize : (m.writeInode i b).fileSize i = buf.length := by rw [fileSize, hinode, hsize]
  have hids := h.fileIds_writeInode hi hword (by rw [hsize, h.len])
  have howned : (m.writeInode i b).owned i = L ++ Q := by
    have hq : Ino.blocks b nDirect = Ino.blocks ino nDirect :=
      congrArg UInt32.toNat (hword _ (.inr (by omega)))
    rw [owned, BlockManager.indirectId, hids, hinode, hq, h.indirectId]
  refine ⟨?_, hfsize, ?_, ?_, ?_, ?_, fun x => ?_, fun x hx hnot => ?_, fun j hj hji => ?_, ?_,
    h.track.trans (.writeInode hi)⟩
  · rw [hinode, ← h.type]
    exact hword 0 (.inl rfl)
  · refine List.ext_getElem? fun k => ?_
    by_cases hk : k < buf.length
    · have hlt : k / blockSize < L.length := h.len ▸ div_lt_ceilDiv hk
      have hmod : blockSize * (k / blockSize) + k % blockSize = k := Nat.div_add_mod k blockSize
      have hL : L[k / blockSize]? = some L[k / blockSize] := List.getElem?_eq_getElem hlt
      rw [getElem?_content (hfsize ▸ hk), hids, List.getD_eq_getElem?_getD, hL, Option.getD_some,
        hdata _ (lt_of_onDisk (h.onDisk _ (List.mem_append_left _ (List.getElem_mem hlt)))),
        List.getElem?_eq_getElem hk]
      exact congrArg some (h.stores _ _ hL _ (Nat.mod_lt _ (by simp)) _
        (hmod.symm ▸ List.getElem?_eq_getElem hk))
    · rw [List.getElem?_eq_none (by rw [length_content, hfsize]; omega),
        List.getElem?_eq_none (by omega)]
  · rw [howned]
    exact h.nodup
  · rw [howned]
    exact h.taken
  · rw [howned]
    exact h.onDisk
  · rw [writeInode_freedData, howned]
    exact h.free x
  · rw [howned] at hnot
    rw [hdata x hx]
    exact h.rest x hx hnot
  · rw [inode_writeInode hi hj, if_neg hji]
    exact h.inode j hj
  · rw [writeInode_freedInode]
    exact h.freedInode

theorem Ready.written {Q : List ℕ} {ino : Buffer} {now : UInt32} (h : Ready m₀ i buf L Q ino m)
    (hi : i < inodeNum) (hlen : buf.length ≤ maxFile * blockSize) :
    Written m₀ i buf
      (m.writeInode i (Ino.setTimes (Ino.setSize ino (UInt32.ofNat buf.length)) now)) := by
  refine h.done hi (fun w hw => ?_) ?_
  · rw [Ino.word_setTimes (by omega), Ino.setSize, Buffer.word_setWord_ne (by omega)]
  · rw [Ino.size, Ino.word_setTimes (by decide), Ino.setSize, Buffer.word_setWord_self,
      Ino.toNat_ofNat_size hlen]

/-- Nothing more has happened. -/
theorem Written.same (h : Written m₀ i buf m) (hs : Same m m') (ht : OnTrack m m') :
    Written m₀ i buf m' := by
  obtain ⟨hsize, howned, hcontent⟩ := hs.file i
  refine ⟨?_, hsize.trans h.size, hcontent.trans h.content, ?_, ?_, ?_, fun x => ?_,
    fun x hx hnot => ?_, fun j hj hji => ?_, hs.freedInode.trans h.freedInode, h.track.trans ht⟩
  · rw [hs.inode]
    exact h.type
  · rw [howned]
    exact h.nodup
  · rw [howned]
    exact h.taken
  · rw [howned]
    exact h.onDisk
  · rw [hs.freedData, howned]
    exact h.free x
  · rw [howned] at hnot
    rw [hs.data]
    exact h.rest x hx hnot
  · rw [hs.inode]
    exact h.inode j hj hji

/-- What freeing the blocks from `newBlockN` on leaves. -/
theorem shrink_spec (m : BlockManager) (ino : Buffer) {ids : List ℕ} {N : ℕ} (hN : N ≤ ids.length) :
    let r := m.shrink ino ids N
    r.blocks = m.blocks ∧ r.freedInode = m.freedInode ∧ r.accesses = m.accesses ∧
      ∀ x, x ∈ r.freedData ↔ x ∈ m.freedData ∨ x ∈ ids.drop N ∨
        nDirect < ids.length ∧ N ≤ nDirect ∧ x = Ino.blocks ino nDirect := by
  have hloop := loop_induct (f := fun i (m : BlockManager) => m.freeBlock (ids.getD i 0)) (s := m)
    (P := fun i r => r.blocks = m.blocks ∧ r.freedInode = m.freedInode ∧
      r.accesses = m.accesses ∧ ∀ x, x ∈ r.freedData ↔ x ∈ m.freedData ∨ x ∈ (ids.take i).drop N)
    hN ⟨rfl, rfl, rfl, fun x => by simp⟩ (fun i r hNi hi hr => ?_)
  · obtain ⟨hblocks, hinode, hacc, hfree⟩ := hloop
    rw [List.take_length] at hfree
    dsimp only [shrink]
    generalize loop N ids.length (fun i (m : BlockManager) => m.freeBlock (ids.getD i 0)) m = r at *
    split
    next h =>
      refine ⟨hblocks, hinode, hacc, fun x => ?_⟩
      rw [freeBlock, Finset.mem_insert, hfree x, or_comm, or_assoc]
      simp only [h, true_and]
    next h =>
      refine ⟨hblocks, hinode, hacc, fun x => ?_⟩
      rw [hfree x, ← and_assoc]
      simp only [h, false_and, or_false]
  · obtain ⟨hblocks, hinode, hacc, hfree⟩ := hr
    refine ⟨hblocks, hinode, hacc, fun x => ?_⟩
    rw [List.take_succ_eq_append_getElem hi, List.drop_append_of_le_length (by simp; omega),
      List.mem_append, List.mem_singleton, freeBlock, Finset.mem_insert, hfree x,
      List.getD_eq_getElem?_getD, List.getElem?_eq_getElem hi, Option.getD_some]
    tauto

theorem Sound.pool {files : Finset ℕ} (h : m.Sound files) : ∀ x ∈ m.freedData, x < dataBlockNum :=
  fun x hx => (h.owns.all x).2 (.inl hx)

theorem data_congr (h : m'.blocks = m.blocks) (x : ℕ) : m'.data x = m.data x := by
  rw [data, data, readBlock, readBlock, h]

theorem inode_congr (h : m'.blocks = m.blocks) (i : ℕ) : m'.inode i = m.inode i := by
  rw [inode, inode, readBlock, readBlock, h]

theorem getElem?_fileIds {x : ℕ} (h : (m.fileIds i)[j]? = some x) :
    x = idAt (m.inode i) (m.data (Ino.blocks (m.inode i) nDirect)) j := by
  obtain ⟨hj, rfl⟩ := List.getElem?_eq_some_iff.1 h
  exact getElem_idsOf hj

section kept

variable {F A B I : Prop}

/-- What is free when `A` and `I` of the blocks `A`, `B`, `I` are kept. -/
theorem kept_all (hAB : A → ¬ B) (hI : A ∨ B → ¬ I) (hF : (A ∨ B) ∨ I → ¬ F) :
    F ∨ B ↔ (F ∨ (A ∨ B) ∨ I) ∧ ¬ (A ∨ I) := by tauto

/-- What is free when `A` of them are. -/
theorem kept_none (hAB : A → ¬ B) (hI : A ∨ B → ¬ I) (hF : (A ∨ B) ∨ I → ¬ F) :
    F ∨ B ∨ I ↔ (F ∨ (A ∨ B) ∨ I) ∧ ¬ A := by tauto

end kept

/-- What there is to allocate when a file has kept its first `N` blocks, and of the block of block
numbers what it needs. -/
theorem Sound.free_of_kept {files : Finset ℕ} {N : ℕ} (h : m₀.Sound files) (hi : i ∈ files)
    (hle : N ≤ (m₀.fileIds i).length) (x : ℕ) :
    x ∈ m₀.freedData ∨ x ∈ (m₀.fileIds i).drop N ∨
        nDirect < (m₀.fileIds i).length ∧ N ≤ nDirect ∧ x = Ino.blocks (m₀.inode i) nDirect ↔
      (x ∈ m₀.freedData ∨ x ∈ m₀.owned i) ∧ x ∉ (m₀.fileIds i).take N ++
        if nDirect < N then [Ino.blocks (m₀.inode i) nDirect] else [] := by
  have hids : x ∈ m₀.fileIds i ↔ x ∈ (m₀.fileIds i).take N ∨ x ∈ (m₀.fileIds i).drop N := by
    rw [← List.mem_append, List.take_append_drop]
  have hapart : x ∈ (m₀.fileIds i).take N → x ∉ (m₀.fileIds i).drop N :=
    fun hx hx' => List.disjoint_take_drop (h.nodup_ids hi) le_rfl hx hx'
  have hids_ind : x ∈ m₀.fileIds i → x ∉ m₀.indirectId i := fun hx hx' =>
    (List.nodup_append.1 (h.owns.nodup i hi)).2.2 x hx x hx' rfl
  have hfree := h.owns.owned i hi x
  have hind : x ∈ m₀.indirectId i ↔
      nDirect < (m₀.fileIds i).length ∧ x = Ino.blocks (m₀.inode i) nDirect := by
    rw [BlockManager.indirectId]
    split
    next hlt => rw [List.mem_singleton, and_iff_right hlt]
    next hlt => simp only [List.not_mem_nil, hlt, false_and]
  rw [hids] at hids_ind
  rw [owned, List.mem_append, hids] at hfree ⊢
  rw [List.mem_append]
  by_cases hN : nDirect < N
  · have hlt : nDirect < (m₀.fileIds i).length := hN.trans_le hle
    have hlast : x ∈ m₀.indirectId i ↔ x = Ino.blocks (m₀.inode i) nDirect := by
      rw [hind, and_iff_right hlt]
    rw [if_pos hN, List.mem_singleton, ← hlast]
    simp only [not_le.2 hN, false_and, and_false, or_false]
    exact kept_all hapart hids_ind hfree
  · have hN' : N ≤ nDirect := not_lt.1 hN
    rw [if_neg hN]
    simp only [hN', true_and, ← hind, List.not_mem_nil, or_false]
    exact kept_none hapart hids_ind hfree

/-- What a file has that has only given blocks back. -/
theorem ready_of_freed {files : Finset ℕ} {N : ℕ} (h : m₀.Sound files) (hi : i ∈ files)
    (hN : N = ceilDiv buf.length blockSize) (hle : N ≤ (m₀.fileIds i).length)
    (hlaid : Laid m₀ buf ((m₀.fileIds i).take N) [] m) (hk : Keeps m m')
    (hfree : ∀ x, x ∈ m'.freedData ↔ x ∈ m.freedData ∨ x ∈ (m₀.fileIds i).drop N ∨
      nDirect < (m₀.fileIds i).length ∧ N ≤ nDirect ∧ x = Ino.blocks (m₀.inode i) nDirect) :
    ∃ L Q, Ready m₀ i buf L Q (m₀.inode i) m' := by
  have hlen : ((m₀.fileIds i).take N).length = N := by rw [List.length_take, Nat.min_eq_left hle]
  have hsub : ((m₀.fileIds i).take N ++
      if nDirect < N then [Ino.blocks (m₀.inode i) nDirect] else []).Sublist (m₀.owned i) := by
    refine (List.take_sublist N _).append ?_
    rw [BlockManager.indirectId]
    split
    next hlt => rw [if_pos (hlt.trans_le hle)]
    next => exact List.nil_sublist _
  generalize hQ : (if nDirect < N then [Ino.blocks (m₀.inode i) nDirect] else []) = Q at hsub
  exact ⟨(m₀.fileIds i).take N, Q, {
    len := hlen.trans hN
    nodup := (h.owns.nodup i hi).sublist hsub
    taken := fun x hx => .inr (hsub.subset hx)
    onDisk := fun x hx => h.onDisk i hi x (hsub.subset hx)
    free := fun x => by
      rw [hfree x, hlaid.free x, ← hQ, and_iff_left List.not_mem_nil]
      exact h.free_of_kept hi hle x
    stores := fun j x hx => by
      rw [hk.data x (lt_of_onDisk (hlaid.onDisk x (List.mem_of_getElem? hx)))]
      exact hlaid.stores j x hx
    rest := fun x hx hnot => (hk.data x hx).trans
      (hlaid.rest x hx fun hmem => hnot (List.mem_append_left _ hmem))
    inode := fun j hj => (hk.inode j hj).trans (hlaid.inode j hj)
    freedInode := hk.freedInode.trans hlaid.freedInode
    track := hlaid.track.trans hk.track
    type := rfl
    indirectId := by rw [hlen, hQ]
    direct := fun j x hj hx => by
      rw [List.getElem?_take] at hx
      split at hx
      · rw [getElem?_fileIds hx, idAt, if_pos hj]
      · cases hx
    indirect := fun j x hx => by
      rw [List.getElem?_take] at hx
      split at hx
      next hlt =>
        have h100 : nDirect < (m₀.fileIds i).length := by omega
        have hnot : Ino.blocks (m₀.inode i) nDirect ∉ (m₀.fileIds i).take N := fun hmem =>
          h.indirect_notMem hi h100 (List.mem_of_mem_take hmem)
        have hlt := lt_of_onDisk (h.onDisk i hi _ (mem_owned_indirect h100))
        rw [hk.data _ hlt, hlaid.rest _ hlt hnot, getElem?_fileIds hx, idAt, if_neg (by omega),
          Nat.add_sub_cancel_left]
      next => cases hx }⟩

/-- The way through the function where the file has blocks enough. -/
theorem ready_shrink {files : Finset ℕ} {N : ℕ} (h : m₀.Sound files) (hi : i ∈ files)
    (hN : N = ceilDiv buf.length blockSize) (hle : N ≤ (m₀.fileIds i).length)
    (hlaid : Laid m₀ buf ((m₀.fileIds i).take N) [] m) :
    ∃ L Q, Ready m₀ i buf L Q (m₀.inode i) (m.shrink (m₀.inode i) (m₀.fileIds i) N) := by
  obtain ⟨hblocks, hinode, hacc, hfree⟩ := shrink_spec m (m₀.inode i) hle
  exact ready_of_freed h hi hN hle hlaid ⟨fun x _ => data_congr hblocks x,
    fun j _ => inode_congr hblocks j, hinode, .of_eq hacc⟩ hfree

/-- What a file has that has only taken blocks, when all but the blocks `Q` are as they were laid.
-/
theorem ready_of_laid {files : Finset ℕ} {Q : List ℕ} {ino : Buffer} (h : m₀.Sound files)
    (hi : i ∈ files) (hlaid : Laid m₀ buf L taken m)
    (hlen : L.length = ceilDiv buf.length blockSize)
    (hmem : ∀ x, x ∈ L ++ Q ↔ x ∈ m₀.owned i ∨ x ∈ taken) (hnodup : (L ++ Q).Nodup)
    (hfree : m'.freedData = m.freedData) (hfreed : m'.freedInode = m.freedInode)
    (hdata : ∀ x < dataBlockNum, x ∉ Q → m'.data x = m.data x)
    (hinode : ∀ j < inodeNum, m'.inode j = m.inode j) (htrack : OnTrack m m')
    (htype : Ino.type ino = Ino.type (m₀.inode i))
    (hQ : Q = if nDirect < L.length then [Ino.blocks ino nDirect] else [])
    (hdirect : ∀ j x, j < nDirect → L[j]? = some x → Ino.blocks ino j = x)
    (hindirect : ∀ j x, L[nDirect + j]? = some x →
      ((m'.data (Ino.blocks ino nDirect)).word j).toNat = x) :
    Ready m₀ i buf L Q ino m' where
  len := hlen
  nodup := hnodup
  taken x hx := ((hmem x).1 hx).symm.imp_left (hlaid.taken_free x)
  onDisk x hx := ((hmem x).1 hx).elim (h.onDisk i hi x) (hlaid.taken_onDisk x)
  free x := by
    rw [hfree, hlaid.free x, hmem x, not_or]
    have hown := h.owns.owned i hi x
    constructor
    · rintro ⟨hx, hnot⟩
      exact ⟨.inl hx, fun hx' => hown hx' hx, hnot⟩
    · rintro ⟨hx, hnot, hnot'⟩
      exact ⟨hx.resolve_right hnot, hnot'⟩
  stores j x hx := by
    have hxL := List.mem_of_getElem? hx
    have hxQ : x ∉ Q := fun hxQ => (List.nodup_append.1 hnodup).2.2 x hxL x hxQ rfl
    rw [hdata x (lt_of_onDisk (hlaid.onDisk x hxL)) hxQ]
    exact hlaid.stores j x hx
  rest x hx hnot := by
    rw [List.mem_append, not_or] at hnot
    exact (hdata x hx hnot.2).trans (hlaid.rest x hx hnot.1)
  inode j hj := (hinode j hj).trans (hlaid.inode j hj)
  freedInode := hfreed.trans hlaid.freedInode
  track := hlaid.track.trans htrack
  type := htype
  indirectId := hQ
  direct := hdirect
  indirect := hindirect

theorem toNat_ofNat_id (hid : id < diskDataNum) : (UInt32.ofNat id).toNat = id := by
  rw [UInt32.toNat_ofNat']
  simp only [diskDataNum_eq] at hid
  omega

theorem blocks_setBlocks {b : Buffer} (hid : id < diskDataNum) :
    Ino.blocks (Ino.setBlocks b i id) j = if j = i then id else Ino.blocks b j := by
  rw [Ino.blocks, Ino.setBlocks]
  split
  next h => rw [h, Buffer.word_setWord_self, toNat_ofNat_id hid]
  next h => rw [Buffer.word_setWord_ne (by omega)]; rfl

/-- The second loop, from where the file's blocks end. -/
theorem growDirect_spec {c : Source} {ids : List ℕ} {hi : ℕ} {tmp : Ptr} {ino : Buffer}
    (hpool : ∀ x ∈ m₀.freedData, x < dataBlockNum) (hold : ∀ x ∈ ids, x ∉ m₀.freedData)
    (hle : ids.length ≤ hi) (hdir : hi ≤ nDirect) (hN : hi ≤ c.newBlockN)
    (hptr : PtrAt c ids.length tmp) (h : Laid m₀ c.buf ids [] m)
    (hids : ∀ j x, ids[j]? = some x → Ino.blocks ino j = x) :
    let r := loop ids.length hi (growDirect c) (tmp, ino, m)
    PtrAt c hi r.1 ∧ (∀ w, w < 5 ∨ 5 + nDirect ≤ w → r.2.1.word w = ino.word w) ∧
      (r.2.2.Roomy → ∃ got : List ℕ, (ids ++ got).length = hi ∧
        Laid m₀ c.buf (ids ++ got) got r.2.2 ∧
        ∀ j x, (ids ++ got)[j]? = some x → Ino.blocks r.2.1 j = x) := by
  rw [growDirect_eq]
  obtain ⟨hptr', hR, hgot⟩ := growWith_spec Ino.setBlocks Ino.blocks
    (fun b => ∀ w, w < 5 + ids.length ∨ 5 + nDirect ≤ w → b.word w = ino.word w) hpool
    (fun b i j id _ _ _ _ hid => blocks_setBlocks hid)
    (fun b i id hlo hi' hb w hw => by
      rw [Ino.setBlocks, Buffer.word_setWord_ne (by omega)]
      exact hb w hw)
    (fun x hx hx' => absurd hx' (hold x hx)) hle hN rfl hptr h (fun _ _ => rfl)
  refine ⟨hptr', fun w hw => hR w (by omega), fun hroom => ?_⟩
  obtain ⟨got, hlen, hlaid, hput⟩ := hgot hroom
  refine ⟨got, by rw [List.length_append, hlen]; omega, hlaid, fun j x hx => ?_⟩
  by_cases hj : j < ids.length
  · rw [List.getElem?_append_left hj] at hx
    rw [Ino.blocks, hR _ (.inl (by omega))]
    exact hids j x hx
  · rw [List.getElem?_append_right (by omega)] at hx
    obtain ⟨k, rfl⟩ := Nat.exists_eq_add_of_le (not_lt.1 hj)
    rw [Nat.add_sub_cancel_left] at hx
    exact hput k x hx

/-- The third loop, from where the file's blocks end; `q` is the indirect block. -/
theorem growIndirect_spec {c : Source} {lo q : ℕ} {tmp : Ptr} {ind : Buffer}
    (hpool : ∀ x ∈ m₀.freedData, x < dataBlockNum) (hold : ∀ x ∈ L, x ∈ m₀.freedData → x ∈ taken)
    (hlo : nDirect ≤ lo) (hle : lo ≤ c.newBlockN) (hL : L.length = lo) (hptr : PtrAt c lo tmp)
    (h : Laid m₀ c.buf L taken m) (hq : q ∉ L) (hqt : q ∈ m₀.freedData → q ∈ taken)
    (hind : ∀ j x, L[nDirect + j]? = some x → (ind.word j).toNat = x) :
    let r := loop lo c.newBlockN (growIndirect c) (tmp, ind, m)
    r.2.2.Roomy → ∃ got : List ℕ, (L ++ got).length = c.newBlockN ∧
      Laid m₀ c.buf (L ++ got) (taken ++ got) r.2.2 ∧ q ∉ L ++ got ∧
      ∀ j x, (L ++ got)[nDirect + j]? = some x → (r.2.1.word j).toNat = x := by
  rw [growIndirect_eq]
  obtain ⟨-, hR, hgot⟩ := growWith_spec
    (fun b i id => b.setWord (i - nDirect) (UInt32.ofNat id))
    (fun b j => (b.word (j - nDirect)).toNat)
    (fun b => ∀ w, w + nDirect < lo → b.word w = ind.word w) hpool
    (fun b i j id hi _ hj _ hid => by
      split
      next hji => rw [hji, Buffer.word_setWord_self, toNat_ofNat_id hid]
      next hji => rw [Buffer.word_setWord_ne (by omega)])
    (fun b i id hi hi' hb w hw => by
      rw [Buffer.word_setWord_ne (by omega)]
      exact hb w hw)
    hold hle le_rfl hL hptr h (fun _ _ => rfl)
  intro r hroom
  obtain ⟨got, hlen, hlaid, hput⟩ := hgot hroom
  refine ⟨got, by rw [List.length_append, hlen]; omega, hlaid, fun hmem => ?_,
    fun j x hx => ?_⟩
  · rcases List.mem_append.1 hmem with hmem | hmem
    · exact hq hmem
    · have hfree := hlaid.taken_free q (List.mem_append_right _ hmem)
      exact (List.nodup_append.1 hlaid.taken_nodup).2.2 q (hqt hfree) q hmem rfl
  · by_cases hj : nDirect + j < L.length
    · rw [List.getElem?_append_left hj] at hx
      rw [hR j (by omega)]
      exact hind j x hx
    · rw [List.getElem?_append_right (by omega)] at hx
      have hword := hput _ x hx
      rwa [show lo + (nDirect + j - L.length) - nDirect = j by omega] at hword

/-- The indirect block, once its list is complete. -/
theorem ready_indirect {files : Finset ℕ} {q : ℕ} {ino ind : Buffer} (h : m₀.Sound files)
    (hi : i ∈ files) (hlaid : Laid m₀ buf L taken m)
    (hlen : L.length = ceilDiv buf.length blockSize)
    (h100 : nDirect < L.length) (hmem : ∀ x, x ∈ L ++ [q] ↔ x ∈ m₀.owned i ∨ x ∈ taken)
    (hqL : q ∉ L) (hq : Ino.blocks ino nDirect = q) (htype : Ino.type ino = Ino.type (m₀.inode i))
    (hdirect : ∀ j x, j < nDirect → L[j]? = some x → Ino.blocks ino j = x)
    (hindirect : ∀ j x, L[nDirect + j]? = some x → (ind.word j).toNat = x) :
    Ready m₀ i buf L [q] ino (m.writeData q ind) := by
  have hdisk : q < diskDataNum :=
    ((hmem q).1 (by simp)).elim (h.onDisk i hi q) (hlaid.taken_onDisk q)
  have hnodup : (L ++ [q]).Nodup := List.nodup_append.2 ⟨hlaid.nodup, List.nodup_singleton q, by
    rintro x hx y hy rfl
    exact hqL (List.mem_singleton.1 hy ▸ hx)⟩
  refine ready_of_laid h hi hlaid hlen hmem hnodup (writeData_freedData _) (writeData_freedInode _)
    (fun x hx hxq => ?_) (fun j hj => inode_writeData hdisk hj) (.writeData hdisk) htype
    (by rw [if_pos h100, hq]) hdirect fun j x hx => ?_
  · rw [data_writeData hdisk hx, if_neg (mt List.mem_singleton.2 hxq)]
  · rw [hq, data_writeData hdisk (lt_of_onDisk hdisk), if_pos rfl]
    exact hindirect j x hx

section grow

variable {files : Finset ℕ} {c : Source} {tmp : Ptr} {ind : Buffer}

omit m₀ files i in
theorem grow_direct {ino : Buffer} {blockN : ℕ} {needFree : Bool} (hdir : c.newBlockN ≤ nDirect) :
    m.grow c ino ind tmp blockN needFree =
      (loop blockN c.newBlockN (growDirect c) (tmp, ino, m)).2 := by
  simp only [grow, Nat.min_eq_left hdir, not_lt.2 hdir, if_false]

omit m₀ files i in
theorem grow_cross {ino : Buffer} {blockN : ℕ} (hle : blockN ≤ nDirect)
    (hlt : nDirect < c.newBlockN) : m.grow c ino ind tmp blockN false =
      let r := loop blockN nDirect (growDirect c) (tmp, ino, m)
      let q := r.2.2.allocBlock
      let r' := loop nDirect c.newBlockN (growIndirect c) (r.1, ind, q.2)
      (Ino.setBlocks r.2.1 nDirect q.1,
        r'.2.2.writeData (Ino.blocks (Ino.setBlocks r.2.1 nDirect q.1) nDirect) r'.2.1) := by
  simp only [grow, Nat.min_eq_right hlt.le, Nat.max_eq_left hle, hlt, if_true, Bool.false_eq_true,
    if_false]

omit m₀ files i in
theorem grow_indirect {ino : Buffer} {blockN : ℕ} (hle : nDirect < blockN)
    (hlt : blockN < c.newBlockN) : m.grow c ino ind tmp blockN true =
      let r := loop blockN c.newBlockN (growIndirect c) (tmp, ind, m)
      (ino, r.2.2.writeData (Ino.blocks ino nDirect) r.2.1) := by
  simp only [grow, Nat.min_eq_right (hle.trans hlt).le, Nat.max_eq_right hle.le, hle.trans hlt,
    if_true, loop_of_le hle.le]

/-- The way through the function where the file has blocks too few, and all that it lacks are the
inode's own. -/
theorem ready_grow_direct (h : m₀.Sound files) (hi : i ∈ files)
    (hN : c.newBlockN = ceilDiv c.buf.length blockSize) (hlt : (m₀.fileIds i).length < c.newBlockN)
    (hdir : c.newBlockN ≤ nDirect) (hptr : PtrAt c (m₀.fileIds i).length tmp)
    (hlaid : Laid m₀ c.buf (m₀.fileIds i) [] m) {needFree : Bool}
    (hroom : (m.grow c (m₀.inode i) ind tmp (m₀.fileIds i).length needFree).2.Roomy) :
    ∃ L Q, Ready m₀ i c.buf L Q
      (m.grow c (m₀.inode i) ind tmp (m₀.fileIds i).length needFree).1
      (m.grow c (m₀.inode i) ind tmp (m₀.fileIds i).length needFree).2 := by
  have hids : ∀ j x, (m₀.fileIds i)[j]? = some x → Ino.blocks (m₀.inode i) j = x := by
    intro j x hx
    have hj := (List.getElem?_eq_some_iff.1 hx).1
    rw [getElem?_fileIds hx, idAt, if_pos (by omega)]
  have hown : m₀.owned i = m₀.fileIds i := by
    rw [owned, BlockManager.indirectId, if_neg (by omega), List.append_nil]
  obtain ⟨-, hR, hgot⟩ := growDirect_spec h.pool
    (h.ids_taken hi) hlt.le hdir le_rfl hptr hlaid hids
  rw [grow_direct hdir] at hroom ⊢
  generalize loop (m₀.fileIds i).length c.newBlockN (growDirect c) (tmp, m₀.inode i, m) = r at *
  obtain ⟨got, hlen, hlaid', hput⟩ := hgot hroom
  refine ⟨_, [], ready_of_laid h hi hlaid' (hlen.trans hN) (fun x => ?_) ?_ rfl rfl
    (fun _ _ _ => rfl) (fun _ _ => rfl) (.refl _) (hR 0 (by decide)) ?_
    (fun j x _ hx => hput j x hx)
    fun j x hx => ?_⟩
  · rw [List.append_nil, List.mem_append, hown]
  · rw [List.append_nil]
    exact hlaid'.nodup
  · rw [if_neg (by omega)]
  · have hj := (List.getElem?_eq_some_iff.1 hx).1
    omega

/-- The way where the file gets an indirect block. -/
theorem ready_grow_cross (h : m₀.Sound files) (hi : i ∈ files)
    (hN : c.newBlockN = ceilDiv c.buf.length blockSize) (hle : (m₀.fileIds i).length ≤ nDirect)
    (hlt : nDirect < c.newBlockN) (hptr : PtrAt c (m₀.fileIds i).length tmp)
    (hlaid : Laid m₀ c.buf (m₀.fileIds i) [] m)
    (hroom : (m.grow c (m₀.inode i) ind tmp (m₀.fileIds i).length false).2.Roomy) :
    ∃ L Q, Ready m₀ i c.buf L Q
      (m.grow c (m₀.inode i) ind tmp (m₀.fileIds i).length false).1
      (m.grow c (m₀.inode i) ind tmp (m₀.fileIds i).length false).2 := by
  have hids : ∀ j x, (m₀.fileIds i)[j]? = some x → Ino.blocks (m₀.inode i) j = x := by
    intro j x hx
    have hj := (List.getElem?_eq_some_iff.1 hx).1
    rw [getElem?_fileIds hx, idAt, if_pos (by omega)]
  have hown : m₀.owned i = m₀.fileIds i := by
    rw [owned, BlockManager.indirectId, if_neg (by omega), List.append_nil]
  have hold := h.ids_taken hi
  obtain ⟨hptr', hR, hgot⟩ := growDirect_spec h.pool hold hle le_rfl hlt.le hptr hlaid hids
  rw [grow_cross hle hlt] at hroom ⊢
  generalize loop (m₀.fileIds i).length nDirect (growDirect c) (tmp, m₀.inode i, m) = r at *
  obtain ⟨tmp₂, ino₂, m₂⟩ := r
  dsimp only at hptr' hR hgot hroom ⊢
  have hroom₃ := roomy_writeData.1 hroom
  have hroom₂ : m₂.allocBlock.2.Roomy := roomy_of_growWith (growIndirect_eq c ▸ hroom₃)
  obtain ⟨got, hlen, hlaid₂, hput⟩ := hgot (roomy_of_allocBlock hroom₂)
  obtain ⟨-, hqfree, hqnot, hqdisk, hlaid₃⟩ := hlaid₂.alloc h.pool hroom₂
  have hqL : m₂.allocBlock.1 ∉ m₀.fileIds i ++ got := by
    rw [List.mem_append, not_or]
    exact ⟨fun hmem => hold _ hmem hqfree, hqnot⟩
  have hq : Ino.blocks (Ino.setBlocks ino₂ nDirect m₂.allocBlock.1) nDirect = m₂.allocBlock.1 := by
    rw [blocks_setBlocks hqdisk, if_pos rfl]
  rw [hq]
  generalize hid : m₂.allocBlock.1 = q at *
  have hold₂ : ∀ x ∈ m₀.fileIds i ++ got, x ∈ m₀.freedData → x ∈ got ++ [q] := by
    intro x hx hfree
    rcases List.mem_append.1 hx with hx | hx
    · exact absurd hfree (hold x hx)
    · exact List.mem_append_left _ hx
  have hind : ∀ j x, (m₀.fileIds i ++ got)[nDirect + j]? = some x → (ind.word j).toNat = x := by
    intro j x hx
    have hj := (List.getElem?_eq_some_iff.1 hx).1
    omega
  obtain ⟨got', hlen', hlaid₄, hqL', hput'⟩ := growIndirect_spec h.pool hold₂ le_rfl hlt.le hlen
    hptr' hlaid₃ hqL (fun _ => by simp) hind hroom₃
  generalize loop nDirect c.newBlockN (growIndirect c) (tmp₂, ind, m₂.allocBlock.2) = r at *
  refine ⟨_, _, ready_indirect h hi hlaid₄ (hlen'.trans hN) (hlen' ▸ hlt) (fun x => ?_) hqL' hq ?_
    (fun j x hj hx => ?_) hput'⟩
  · simp only [hown, List.mem_append, List.mem_singleton, or_assoc, or_comm, or_left_comm]
  · rw [Ino.type, Ino.setBlocks, Buffer.word_setWord_ne (by omega)]
    exact hR 0 (by decide)
  · rw [blocks_setBlocks hqdisk, if_neg (by omega)]
    rw [List.getElem?_append_left (by omega)] at hx
    exact hput j x hx

/-- The way where the file has an indirect block already. -/
theorem ready_grow_indirect (h : m₀.Sound files) (hi : i ∈ files)
    (hN : c.newBlockN = ceilDiv c.buf.length blockSize) (hle : nDirect < (m₀.fileIds i).length)
    (hlt : (m₀.fileIds i).length < c.newBlockN) (hptr : PtrAt c (m₀.fileIds i).length tmp)
    (hlaid : Laid m₀ c.buf (m₀.fileIds i) [] m)
    (hind : ind = m₀.data (Ino.blocks (m₀.inode i) nDirect))
    (hroom : (m.grow c (m₀.inode i) ind tmp (m₀.fileIds i).length true).2.Roomy) :
    ∃ L Q, Ready m₀ i c.buf L Q
      (m.grow c (m₀.inode i) ind tmp (m₀.fileIds i).length true).1
      (m.grow c (m₀.inode i) ind tmp (m₀.fileIds i).length true).2 := by
  have hown := h.owns.owned i hi
  rw [owned, BlockManager.indirectId, if_pos hle] at hown
  have hqL := h.indirect_notMem hi hle
  rw [grow_indirect hle hlt] at hroom ⊢
  have hroom₃ := roomy_writeData.1 hroom
  obtain ⟨got, hlen, hlaid', hqL', hput⟩ := growIndirect_spec h.pool
    (fun x hx hfree => absurd hfree (hown x (List.mem_append_left _ hx))) hle.le hlt.le rfl hptr
    hlaid hqL (fun hfree => absurd hfree (hown _ (by simp))) (fun j x hx => by
      rw [getElem?_fileIds hx, idAt, if_neg (by omega), Nat.add_sub_cancel_left, hind]) hroom₃
  refine ⟨_, _, ready_indirect h hi hlaid' (hlen.trans hN) (by omega) (fun x => ?_) hqL' rfl rfl
    (fun j x hj hx => ?_) hput⟩
  · simp only [owned, BlockManager.indirectId, if_pos hle, List.mem_append, List.mem_singleton,
      List.nil_append, or_assoc, or_comm]
  · rw [List.getElem?_append_left (by omega)] at hx
    rw [getElem?_fileIds hx, idAt, if_pos hj]

end grow

/-! ## `write_file` -/

/-- The function, its lets taken apart. -/
theorem writeFile_eq (m : BlockManager) (i : ℕ) (buf : Bytes) (junk : Junk) (now : UInt32) :
    let c : Source := ⟨buf, junk, ceilDiv buf.length blockSize⟩
    let ino := m.inode i
    let g := (m.touch (.inode (iblock i))).getBlockids ino junk.indirectBlock
    let r := loop 0 (min g.1.length c.newBlockN) (overwrite c g.1)
      (.buf 0, g.2.2.2.touch (.source c.lastOff (buf.length - c.lastOff)))
    let r' :=
      if c.newBlockN < g.1.length then (ino, r.2.shrink ino g.1 c.newBlockN)
      else if g.1.length < c.newBlockN then r.2.grow c ino g.2.2.1 r.1 g.1.length g.2.1
      else (ino, r.2)
    m.writeFile i buf junk now =
      if maxFile < c.newBlockN then none
      else some (Ino.type ino,
        r'.2.writeInode i (Ino.setTimes (Ino.setSize r'.1 (UInt32.ofNat buf.length)) now)) := by
  intro c ino g r r'
  simp only [writeFile, readInode]
  rfl

/-- The `assert` holds of what fits in a file, and of nothing else. -/
theorem writeFile_isSome {junk : Junk} {now : UInt32} :
    (m.writeFile i buf junk now).isSome ↔ buf.length ≤ maxFile * blockSize := by
  rw [writeFile_eq, ← ceilDiv_le_iff]
  split
  next h => exact ⟨nofun, fun hle => absurd hle (not_le.2 h)⟩
  next h => exact ⟨fun _ => not_lt.1 h, fun _ => rfl⟩

theorem exists_writeFile (m : BlockManager) (i : ℕ) (hlen : buf.length ≤ maxFile * blockSize)
    (junk : Junk) (now : UInt32) : ∃ t m', m.writeFile i buf junk now = some (t, m') :=
  let ⟨r, hr⟩ := Option.isSome_iff_exists.1 (writeFile_isSome.2 hlen)
  ⟨r.1, r.2, hr⟩

/-- **What `write_file` does** where there is room. -/
theorem writeFile_spec {files : Finset ℕ} {junk : Junk} {now t : UInt32} (h : m.Sound files)
    (hi : i ∈ files) (hw : m.writeFile i buf junk now = some (t, m')) (hroom : m'.Roomy) :
    t = Ino.type (m.inode i) ∧ Written m i buf m' := by
  have hlen : buf.length ≤ maxFile * blockSize :=
    writeFile_isSome.1 (Option.isSome_iff_exists.2 ⟨_, hw⟩)
  have hlt := h.inums i hi
  have hsame := Same.touch m (.inode (iblock i))
  obtain ⟨ind, m₂, hget, hind, hm₂, htrack⟩ := getBlockids_same (m.touch (.inode (iblock i)))
    (m.inode i) junk.indirectBlock
  have hids : (m.touch (.inode (iblock i))).idsOf (m.inode i) = m.fileIds i := rfl
  rw [hids] at hget hind htrack
  have htrack₂ := (OnTrack.touch (proper_inode hlt)).trans (htrack fun h100 => h.onDisk i hi _
    (mem_owned_indirect h100))
  rw [writeFile_eq, hget] at hw
  generalize hc : (⟨buf, junk, ceilDiv buf.length blockSize⟩ : Source) = c at hw
  have hbuf : c.buf = buf := by rw [← hc]
  have hN : c.newBlockN = ceilDiv c.buf.length blockSize := by rw [← hc]
  dsimp only at hw
  generalize hm₃ : m₂.touch (.source c.lastOff (buf.length - c.lastOff)) = m₃ at hw
  have hstart : Laid m c.buf [] [] m₃ :=
    (Laid.refl m c.buf).same ((hsame.trans hm₂).trans (hm₃ ▸ Same.touch ..))
      (htrack₂.trans (hm₃ ▸ OnTrack.touch trivial))
  obtain ⟨hptr, hlaid⟩ := overwrite_spec
    (h.nodup_ids hi) (h.ids_onDisk hi) (Nat.min_le_left ..) (Nat.min_le_right ..) hstart
  generalize loop 0 (min (m.fileIds i).length c.newBlockN) (overwrite c (m.fileIds i)) (.buf 0, m₃)
    = r at *
  obtain ⟨-, hw⟩ := Option.ite_none_left_eq_some.1 hw
  obtain ⟨htype, hw'⟩ := Prod.mk.inj (Option.some_inj.1 hw)
  refine ⟨htype.symm, ?_⟩
  have hready : ∀ r' : Buffer × BlockManager, (r'.2.Roomy → ∃ L Q, Ready m i c.buf L Q r'.1 r'.2) →
      r'.2.writeInode i (Ino.setTimes (Ino.setSize r'.1 (UInt32.ofNat buf.length)) now) = m' →
      Written m i buf m' := by
    rintro r' hr' rfl
    rw [roomy_iff, writeInode_freedData] at hroom
    obtain ⟨L, Q, hr'⟩ := hr' (roomy_iff.2 hroom)
    rw [hbuf] at hr'
    exact hr'.written hlt hlen
  refine hready _ (fun hroom => ?_) hw'
  rcases Nat.lt_or_ge (m.fileIds i).length c.newBlockN with hcase | hcase
  · rw [Nat.min_eq_left hcase.le] at hptr hlaid
    rw [List.take_length] at hlaid
    rw [if_neg hcase.not_gt, if_pos hcase] at hroom ⊢
    by_cases h100 : nDirect < (m.fileIds i).length
    · rw [decide_eq_true h100] at hroom ⊢
      exact ready_grow_indirect h hi hN h100 hcase hptr hlaid
        ((hind h100).trans (hsame.data _)) hroom
    · rw [decide_eq_false h100] at hroom ⊢
      rcases Nat.lt_or_ge nDirect c.newBlockN with hN100 | hN100
      · exact ready_grow_cross h hi hN (not_lt.1 h100) hN100 hptr hlaid hroom
      · exact ready_grow_direct h hi hN hcase hN100 hptr hlaid hroom
  · rw [Nat.min_eq_right hcase] at hlaid
    have hshrink := ready_shrink h hi hN hcase hlaid
    rcases hcase.lt_or_eq with hlt | heq
    · rwa [if_pos hlt]
    · rw [if_neg (by omega), if_neg (by omega)]
      rwa [shrink, heq, loop_of_le le_rfl, if_neg (by omega)] at hshrink

end BlockManager

end Inode
end CseLab
