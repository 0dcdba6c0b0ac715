import CseLab.Extent.OnDisk

/-!
# Ids that are used again

Inode numbers are given out again, the smallest first, and a client may go on using the id of a file
that another has removed.  Its `get` enters it in `owner_map`, and the next `create` of the id,
which inserts into `owner_map`, leaves that entry as it is: the creator is not among the owners,
writes to its own copy, and whoever has the old one never hears of it.  A `put` on such an id does
more harm, for the inode still lists its blocks, and they may be another file's by now.

If the entry is not there when the id is taken, or names the creator alone, the extent is the
creator's (`OnDisk.owned_by_creator`).
-/

set_option autoImplicit false

namespace CseLab
namespace Extent

open Inode (BlockManager Junk blockSize inodeNum inodeOf inodeOf_of_lt maxFile)
open Inode.BlockManager (diskDataNum mem_taken)
open Inode.System (noJunk)

/-- What a `get` returns is what was last `put`, if there has been a `put` since the `create`. -/
def Sees (before : List Event) : Event → Prop
  | .got _ buf => ∀ d ∈ content false before, buf = d
  | _ => True

namespace OnDisk

/-- The client at `port` is the only owner, and no other has a copy. -/
def Owned (s : OnDisk) (port eid : ℕ) : Prop :=
  (s.cells eid).owners = some [port] ∧ ∀ p ≠ port, (s.cells (inodeOf eid)).cache p eid = none

/-- What may be asked of inode `k`: it is written or removed only if it is not free, and written
only if there is room; and where it is free, it is read only if the blocks left in it are on the
disk. -/
def Allows (m : BlockManager) (k : ℕ) : Demand → Prop
  | .nothing => True
  | .read .. => k ∈ m.freedInode → ∀ x ∈ m.owned k, x < diskDataNum
  | .writeBack _ buf | .write buf _ =>
    k ∉ m.freedInode ∧ buf.length ≤ maxFile * blockSize ∧ m.Fits k buf
  | .remove => k ∉ m.freedInode

/-- Calls about an inode come one after another, under its number, and ask of it what they may; and
an inode is taken only if `owner_map` has no entry for it, or the creator's alone. -/
def Unclaimed (s : OnDisk) : Action → Prop
  | .create port _ _ => ∃ eid ∈ s.im.freedInode, (∀ j ∈ s.im.freedInode, eid ≤ j) ∧
      (s.cells eid).pending = [] ∧
      ((s.cells eid).owners = none ∨ (s.cells eid).owners = some [port])
  | .call _ eid _ _ => eid < inodeNum ∧ (s.cells eid).pending = []
  | .serve k i _ _ => ∀ call, (s.cells k).pending[i]? = some call →
      Allows s.im k ((s.cells k).demand call.pc)

variable {s s' s₀ : OnDisk} {as : List Action} {a : Action} {now : UInt32}

theorem Inv.serve {k i : ℕ} {call : Call} {junk : Junk} (h : s.Inv)
    (hcall : (s.cells k).pending[i]? = some call)
    (hok : Allows s.im k ((s.cells k).demand call.pc)) : (s.serve k i call junk now).Inv := by
  have hk := h.lt_of_call hcall
  cases hdemand : (s.cells k).demand call.pc with
  | nothing =>
    rw [serve_nothing hdemand]
    exact h.of_nothing hcall hdemand now
  | read attr is_share =>
    rw [hdemand] at hok
    rw [serve_read hdemand]
    refine h.of_read hcall hdemand (fun x hx => ?_) now
    by_cases hfree : k ∈ s.im.freedInode
    · exact hok hfree x hx
    · exact h.orderly.onDisk (mem_taken.2 ⟨hk, hfree⟩) x hx
  | writeBack attr buf =>
    rw [hdemand] at hok
    obtain ⟨hfree, hlen, hfits⟩ := hok
    obtain ⟨t, im, hw⟩ := s.im.exists_writeFile k hlen junk now
    rw [serve_writeBack hdemand hw]
    exact h.of_writeBack hcall hdemand (mem_taken.2 ⟨hk, hfree⟩) hfits hw
  | write buf starts =>
    rw [hdemand] at hok
    obtain ⟨hfree, hlen, hfits⟩ := hok
    obtain ⟨t, im, hw⟩ := s.im.exists_writeFile k hlen junk now
    rw [serve_write hdemand hw]
    exact h.of_write hcall hdemand (mem_taken.2 ⟨hk, hfree⟩) hfits hw
  | remove =>
    rw [hdemand] at hok
    rw [serve_remove hdemand]
    exact h.of_remove hcall hdemand (mem_taken.2 ⟨hk, hok⟩)

theorem Inv.step (h : s.Inv) (hok : s.Unclaimed a) (hs : s.step a = some s') : s'.Inv := by
  cases a with
  | create port type now =>
    obtain ⟨eid, hmem, hleast, hpending, hown⟩ := hok
    obtain ⟨i, im, hc, -, hi, hle, -⟩ := h.orderly.createFile ⟨eid, hmem⟩ type now
    obtain rfl := Nat.le_antisymm (hle eid hmem) (hleast i hi)
    rw [OnDisk.step, hc] at hs
    obtain ⟨-, hs⟩ := Option.ite_none_left_eq_some.1 hs
    obtain rfl := Option.some_inj.1 hs
    exact h.of_create hc ⟨i, hmem⟩ hpending hown
  | call port eid op now =>
    obtain ⟨heid, hpending⟩ := hok
    rw [OnDisk.step, inodeOf_of_lt heid] at hs
    obtain ⟨-, hs⟩ := Option.ite_none_left_eq_some.1 hs
    obtain rfl := Option.some_inj.1 hs
    exact h.of_call heid hpending port op now
  | serve k i junk now =>
    obtain ⟨-, hs⟩ := Option.ite_none_left_eq_some.1 hs
    obtain ⟨call, hcall, rfl⟩ := Option.map_eq_some_iff.1 hs
    exact h.serve hcall (hok call hcall)

theorem Inv.of_run (h0 : start now = some s₀) (h : Run OnDisk.step Unclaimed s₀ as s) : s.Inv :=
  h.invariant (.of_start h0) fun _ _ _ hinv hok hs => hinv.step hok hs

/-- **A new extent belongs to its creator alone**, if no one else had a claim to its inode: when a
`create` returns, the creator is the only owner and no other client has a copy; and whoever gets the
extent later sees what has been put. -/
theorem owned_by_creator (h0 : start now = some s₀) (h : Run step Unclaimed s₀ as s) :
    (∀ k i port eid type junk now' s', (s.cells k).pending[i]? = some ⟨port, eid, .created type⟩ →
      s.step (.serve k i junk now') = some s' → s'.Owned port eid) ∧
    ∀ eid, Journal Sees (s.cells eid).log := by
  have hinv := Inv.of_run h0 h
  refine ⟨fun k i port eid type junk now' s' hcall hs => ?_, fun eid => ?_⟩
  · obtain ⟨rfl, hk, -, p, pc, heq, -, hphase⟩ :=
      (hinv.cell k _ (stands_fileOf s.im k)).of_getElem? hcall
    obtain ⟨rfl, rfl, rfl⟩ := Call.mk.inj heq
    obtain ⟨hown, hothers, -⟩ := hphase
    obtain ⟨-, hs⟩ := Option.ite_none_left_eq_some.1 hs
    rw [hcall, Option.map_some, Option.some_inj] at hs
    subst hs
    have hserve : s.serve eid 0 ⟨port, eid, .created type⟩ junk now' = s.setCell eid
        ((s.cells eid).serve eid 0 ⟨port, eid, .created type⟩ now') := rfl
    rw [Owned, hserve, inodeOf_of_lt hk, cells_setCell_self]
    exact ⟨hown, fun q hq => (Cell.cache_setCache_of_ne _ hq ..).trans (hothers.none_of_nil hq)⟩
  · refine (hinv.cell eid _ (stands_fileOf s.im eid)).told.mono fun before e htold => ?_
    cases e with
    | got port buf =>
      obtain ⟨⟨a, hfits⟩, -⟩ := htold
      exact hfits.data
    | _ => trivial

/-! ### An id that has been used before -/

/-- A call is about a file that is there. -/
def Live (s : OnDisk) : Action → Prop
  | .call _ eid _ _ => typeOf (s.cells eid).log ≠ none
  | _ => True

/-- A run, where `live` about files that are there, leads to the disk `m`, and to `c` for inode 2.
-/
def Reaches (live : Prop) (s₀ : OnDisk) (m : BlockManager) (c : Cell) : Prop :=
  ∃ as s, Run step (fun s a => s.Unclaimed a ∧ (live → s.Live a)) s₀ as s ∧
    s.im = m ∧ s.cells 2 = c

namespace Reaches

variable {live : Prop} {m m' : BlockManager} {c : Cell} {call : Call} {buf : Bytes}

theorem of_create (h : Reaches live s₀ m c) (port : ℕ) {type : UInt32}
    (hc : m.createFile type 0 = (2, m')) (hmem : 2 ∈ m.freedInode)
    (hleast : ∀ j ∈ m.freedInode, 2 ≤ j) (hcrashed : c.crashed = false) (hpending : c.pending = [])
    (hown : c.owners = none ∨ c.owners = some [port]) :
    Reaches live s₀ m' (({ c with owners := some (c.owners.getD [port]) }.wait
      ⟨port, 2, .created type⟩).note (.created type)) := by
  obtain ⟨as, s, hrun, rfl, rfl⟩ := h
  have hok : s.Unclaimed (.create port type 0) := ⟨2, hmem, hleast, hpending, hown⟩
  have hs : s.step (.create port type 0) = some ({ s with im := m' }.create port 2 type) := by
    rw [step, hc]
    exact if_neg (by rw [inodeOf_of_lt (by decide), hcrashed]; decide)
  refine ⟨_, _, hrun.snoc ⟨hok, fun _ => trivial⟩ hs, rfl, ?_⟩
  rw [create_eq (by decide), cells_setCell_self]

theorem of_call (h : Reaches live s₀ m c) (port : ℕ) (op : Op) (hcrashed : c.crashed = false)
    (hpending : c.pending = []) (hlive : live → typeOf c.log ≠ none) :
    Reaches live s₀ m (c.call port 2 op 0) := by
  obtain ⟨as, s, hrun, rfl, rfl⟩ := h
  have hok : s.Unclaimed (.call port 2 op 0) := ⟨by decide, hpending⟩
  have hs : s.step (.call port 2 op 0) = some (s.setCell 2 ((s.cells 2).call port 2 op 0)) := by
    rw [step, inodeOf_of_lt (by decide), hcrashed]
    rfl
  exact ⟨_, _, hrun.snoc ⟨hok, hlive⟩ hs, rfl, cells_setCell_self ..⟩

/-- The call under way takes a step. -/
theorem serve (h : Reaches live s₀ m c) (hcrashed : c.crashed = false)
    (hcall : c.pending[0]? = some call) (hallows : Allows m 2 (c.demand call.pc)) {c' : Cell}
    (hserve : ∀ s : OnDisk, s.im = m → s.cells 2 = c →
      (s.serve 2 0 call noJunk 0).im = m' ∧ (s.serve 2 0 call noJunk 0).cells 2 = c') :
    Reaches live s₀ m' c' := by
  obtain ⟨as, s, hrun, rfl, rfl⟩ := h
  have hok : s.Unclaimed (.serve 2 0 noJunk 0) := fun call' hcall' => by
    obtain rfl := Option.some_inj.1 (hcall.symm.trans hcall')
    exact hallows
  have hs : s.step (.serve 2 0 noJunk 0) = some (s.serve 2 0 call noJunk 0) := by
    rw [step, hcrashed, hcall]
    rfl
  exact ⟨_, _, hrun.snoc ⟨hok, fun _ => trivial⟩ hs, hserve s rfl rfl⟩

theorem of_nothing (h : Reaches live s₀ m c) (hcrashed : c.crashed = false)
    (hcall : c.pending[0]? = some call) (hdemand : c.demand call.pc = .nothing) :
    Reaches live s₀ m (c.serve 2 0 call 0) := by
  refine h.serve hcrashed hcall (by rw [hdemand]; trivial) fun s hm hc => ?_
  subst hm hc
  rw [serve_nothing hdemand]
  exact ⟨rfl, cells_setCell_self ..⟩

/-- An owner's copy is called back for a `remove`. -/
theorem of_removing (h : Reaches live s₀ m c) (hcrashed : c.crashed = false) {port owner : ℕ}
    {todo : List ℕ} (hcall : c.pending[0]? = some ⟨port, 2, .removing (owner :: todo)⟩)
    (hcached : (c.cache owner 2).isSome) : Reaches live s₀ m
      ((c.setCache owner 2 none).goto 0 ⟨port, 2, .removing (owner :: todo)⟩ (.removing todo)) := by
  have hserve : c.serve 2 0 ⟨port, 2, .removing (owner :: todo)⟩ 0 = _ :=
    Cell.invalidate_of_isSome hcached ..
  exact hserve ▸ h.of_nothing hcrashed hcall rfl

theorem of_read (h : Reaches live s₀ m c) (hcrashed : c.crashed = false) (hm : m.Orderly)
    (hcall : c.pending[0]? = some call) {attr is_share : Bool}
    (hdemand : c.demand call.pc = .read attr is_share)
    (hdisk : ∀ x ∈ m.owned 2, x < diskDataNum) : Reaches live s₀ (m.readFile 2 0).2
      ({ c with owners := some (c.owners.getD [] ++ [call.port]) }.goto 0 call
        (.pulled attr ⟨m.content 2, ((fileOf m 2).read 0).attr, is_share⟩)) := by
  refine h.serve hcrashed hcall (by rw [hdemand]; exact fun _ => hdisk) fun s hm' hc => ?_
  subst hm' hc
  rw [serve_read hdemand, serveGet_eq hm (by decide) hdisk]
  exact ⟨rfl, cells_setCell_self ..⟩

theorem of_writeBack (h : Reaches live s₀ m c) (hcrashed : c.crashed = false) (hm : m.Orderly)
    (hcall : c.pending[0]? = some call) {attr : Bool}
    (hdemand : c.demand call.pc = .writeBack attr buf) (htaken : 2 ∈ m.taken)
    (hlen : buf.length ≤ maxFile * blockSize) (hfits : m.Fits 2 buf) :
    ∃ m' a, m'.Orderly ∧ m'.freedInode = m.freedInode ∧ m'.content 2 = buf ∧ Reaches live s₀ m'
      ({ c with owners := some (c.owners.getD [] ++ [call.port]) }.goto 0 call
        (.pulled attr ⟨buf, a, true⟩)) := by
  obtain ⟨t, im, hw⟩ := m.exists_writeFile 2 hlen noJunk 0
  obtain ⟨-, hfree, hcontent, -, -, him⟩ := hm.writeFile htaken hfits hw
  have htaken' : 2 ∈ im.taken := BlockManager.taken_of_eq hfree ▸ htaken
  have hdisk := him.onDisk htaken'
  obtain ⟨-, -, -, hfree', -, hcontent', -, hm'⟩ := him.readFile (by decide) hdisk 0
  have hallows : Allows m 2 (c.demand call.pc) := by
    rw [hdemand]
    exact ⟨(mem_taken.1 htaken).2, hlen, hfits⟩
  refine ⟨(im.readFile 2 0).2, ((fileOf im 2).read 0).attr, hm', hfree'.trans hfree,
    (hcontent' htaken').trans hcontent, h.serve hcrashed hcall hallows fun s hs hc => ?_⟩
  subst hs hc
  rw [serve_writeBack hdemand hw, serveGet_eq (s := { s with im := im }) him (by decide) hdisk]
  refine ⟨rfl, (cells_setCell_self ..).trans ?_⟩
  rw [fileOf, hcontent]

theorem of_remove (h : Reaches live s₀ m c) (hcrashed : c.crashed = false)
    (hcall : c.pending[0]? = some call) (hdemand : c.demand call.pc = .remove)
    (htaken : 2 ∈ m.taken) : Reaches live s₀ (m.removeFile 2)
      (({ c with owners := none }.note (.removed call.port)).done 0) := by
  refine h.serve hcrashed hcall (by rw [hdemand]; exact (mem_taken.1 htaken).2) fun s hs hc => ?_
  subst hs hc
  rw [serve_remove hdemand]
  exact ⟨rfl, cells_setCell_self ..⟩

end Reaches

/-- What is asked of calls besides may be dropped. -/
theorem Reaches.any {m : BlockManager} {c : Cell} (h : Reaches True s₀ m c) :
    Reaches False s₀ m c :=
  let ⟨as, s, hrun, hm, hc⟩ := h
  ⟨as, s, hrun.mono fun _ _ hok => ⟨hok.1, False.elim⟩, hm, hc⟩

/-- Client 7 has created extent 2 and put `"x"`, and client 8 has got it. -/
structure Shared (c : Cell) : Prop where
  owners : c.owners = some [7, 8]
  cached : (c.cache 8 2).isSome
  pending : c.pending = []
  crashed : c.crashed = false
  log : c.log = [.created 2, .put 7 [120] false, .got 8 [120]]

theorem exists_shared : ∃ s₀ m c, start 0 = some s₀ ∧ Reaches True s₀ m c ∧ Shared c ∧
    m.Orderly ∧ 2 ∈ m.taken ∧ m.content 2 = [120] ∧ ∀ j ∈ m.freedInode, 2 < j := by
  obtain ⟨s, hs, hstarted, -⟩ := Inode.System.start_spec 0
  have h0 : start 0 = some ⟨s.m, System.start 0⟩ := by
    rw [start, hs]
    rfl
  have hempty := Inode.System.empty_start hs
  have hinodes := hstarted.inv.inodes
  rw [hstarted.live] at hinodes
  have hleast : ∀ j ∈ s.m.freedInode, 2 ≤ j := fun j hj => by
    have hne0 : j ≠ 0 := fun h0 => hinodes.zero.2 (h0 ▸ hj)
    have hne1 : j ≠ 1 := fun h1 =>
      Finset.disjoint_left.1 hinodes.apart (Finset.mem_singleton_self 1) (h1 ▸ hj)
    omega
  have hmem : 2 ∈ s.m.freedInode := by
    rcases (hinodes.all 2).1 (by decide) with h2 | h2 | h2
    · exact absurd h2 (by decide)
    · exact absurd h2 (by decide)
    · exact h2
  obtain ⟨i, m₁, hc₁, -, hi, hle, hfree₁, -, -, -, hm₁⟩ :=
    hempty.orderly.createFile ⟨2, hmem⟩ 2 0
  obtain rfl := Nat.le_antisymm (hle 2 hmem) (hleast i hi)
  have hempty₁ : m₁.Empty := by
    have hcreate := hempty.create 2 0
    rwa [hc₁] at hcreate
  have htaken₁ : 2 ∈ m₁.taken := mem_taken.2 ⟨by decide, by
    rw [hfree₁]
    exact Finset.notMem_erase 2 _⟩
  have hstart : Reaches True ⟨s.m, System.start 0⟩ s.m (System.start 0 2) :=
    ⟨[], _, .nil, rfl, rfl⟩
  have hcreated := (hstart.of_create 7 hc₁ hmem hleast rfl rfl (.inl rfl)).of_nothing rfl
    rfl rfl
  have hput := hcreated.of_call 7 (.put [120]) rfl rfl fun _ => Option.some_ne_none 2
  have hasked := hput.of_call 8 .get rfl rfl fun _ => Option.some_ne_none 2
  have hget := (hasked.of_nothing rfl rfl rfl).of_nothing rfl rfl rfl
  obtain ⟨m₂, a, hm₂, hfree₂, hcontent₂, hgot⟩ := hget.of_writeBack rfl hm₁ rfl rfl htaken₁
    (by decide) (hempty₁.fits 2 (by decide))
  have hend := hgot.of_nothing rfl rfl rfl
  refine ⟨_, m₂, _, h0, hend, ⟨rfl, rfl, rfl, rfl, rfl⟩, hm₂,
    BlockManager.taken_of_eq hfree₂ ▸ htaken₁, hcontent₂, fun j hj => ?_⟩
  rw [hfree₂, hfree₁, Finset.mem_erase] at hj
  exact lt_of_le_of_ne (hleast j hj.2) (Ne.symm hj.1)

/-- Then 7 removes it, and 8 gets it once more. -/
theorem exists_stale : ∃ s₀ as s, start 0 = some s₀ ∧ Run step Unclaimed s₀ as s ∧
    s.im.Orderly ∧ 2 ∈ s.im.freedInode ∧ (∀ j ∈ s.im.freedInode, 2 ≤ j) ∧
    (s.cells 2).owners = some [8] ∧ (s.cells 2).pending = [] ∧ (s.cells 2).crashed = false ∧
    (s.cells 2).log =
      [.created 2, .put 7 [120] false, .got 8 [120], .removed 7, .got 8 [120]] := by
  obtain ⟨s₀, m, c, h0, hshared, hc, hm, htaken, hcontent, hleast⟩ := exists_shared
  obtain ⟨free, file, owners, cache, pending, crashed, log⟩ := c
  obtain ⟨rfl, hcached, rfl, rfl, rfl⟩ := hc
  have hremoving := (hshared.any.of_call 7 .remove rfl rfl False.elim).of_nothing rfl rfl rfl
  have hremoved := (hremoving.of_removing rfl rfl hcached).of_remove rfl rfl rfl htaken
  obtain ⟨hfree, -, hm'⟩ := hm.removeFile htaken
  -- the blocks are still there
  obtain ⟨-, howned, hcontent'⟩ := (BlockManager.removeFile_spec (m := m) (by decide)).left
    (by decide) (hm.onDisk htaken)
  have hdisk : ∀ x ∈ (m.removeFile 2).owned 2, x < diskDataNum := fun x hx =>
    hm.onDisk htaken x (howned ▸ hx)
  have hstale := (hremoved.of_call 8 .get rfl rfl False.elim).of_read rfl hm' rfl rfl hdisk
  rw [hcontent', hcontent] at hstale
  obtain ⟨-, -, -, hfree', -, -, -, hm''⟩ := hm'.readFile (by decide) hdisk 0
  obtain ⟨as, s, hrun, hs, hc⟩ := hstale.of_nothing rfl rfl rfl
  have hfreed : s.im.freedInode = insert 2 m.freedInode := by rw [hs, hfree', hfree]
  refine ⟨s₀, as, s, h0, hrun.mono fun _ _ => And.left, hs ▸ hm'', ?_, fun j hj => ?_, ?_⟩
  · rw [hfreed]
    exact Finset.mem_insert_self ..
  · rw [hfreed, Finset.mem_insert] at hj
    rcases hj with rfl | hj
    · exact le_rfl
    · exact (hleast j hj).le
  · rw [hc]
    exact ⟨rfl, rfl, rfl, rfl⟩

/-- And 8 creates extent 2 again. -/
theorem owned_by_creator_again : ∃ s₀ as s, start 0 = some s₀ ∧ Run step Unclaimed s₀ as s ∧
    (s.cells 2).log = [.created 2, .put 7 [120] false, .got 8 [120], .removed 7, .got 8 [120],
      .created 2] ∧ (s.cells 2).pending = [⟨8, 2, .created 2⟩] ∧
    (∀ k i port eid type junk now' s', (s.cells k).pending[i]? = some ⟨port, eid, .created type⟩ →
      s.step (.serve k i junk now') = some s' → s'.Owned port eid) ∧
    ∀ eid, Journal Sees (s.cells eid).log := by
  obtain ⟨s₀, as, s, h0, hrun, hm, hmem, hleast, hown, hpending, hcrashed, hlog⟩ := exists_stale
  obtain ⟨i, m, hc, -, hi, hle, -⟩ := hm.createFile ⟨2, hmem⟩ 2 0
  obtain rfl := Nat.le_antisymm (hle 2 hmem) (hleast i hi)
  have hstale : Reaches False s₀ s.im (s.cells 2) :=
    ⟨as, s, hrun.mono fun _ _ hok => ⟨hok, False.elim⟩, rfl, rfl⟩
  obtain ⟨as', s', hrun', -, hc'⟩ :=
    hstale.of_create 8 hc hmem hleast hcrashed hpending (.inr hown)
  have hrun₁ := hrun'.mono fun _ _ => And.left
  refine ⟨s₀, as', s', h0, hrun₁, ?_, ?_, owned_by_creator h0 hrun₁⟩
  · rw [hc']
    exact congrArg (· ++ _) hlog
  · rw [hc']
    exact congrArg (· ++ _) hpending

/-- If client 9 creates extent 2 instead, 8 is the only owner. -/
theorem not_owned_by_creator : ¬ ∀ (as : List Action) (s₀ s s' : OnDisk) (k i port eid : ℕ)
    (type now : UInt32) (junk : Junk), start 0 = some s₀ → Run step anyStep s₀ as s →
      (s.cells k).pending[i]? = some ⟨port, eid, .created type⟩ →
        s.step (.serve k i junk now) = some s' → s'.Owned port eid := by
  intro hall
  obtain ⟨s₀, as, s, h0, hrun, hm, hmem, hleast, hown, hpending, hcrashed, -⟩ := exists_stale
  obtain ⟨i, m, hc, -, hi, hle, -⟩ := hm.createFile ⟨2, hmem⟩ 2 0
  obtain rfl := Nat.le_antisymm (hle 2 hmem) (hleast i hi)
  have hrun₁ : Run step anyStep s₀ as s := hrun.mono fun _ _ _ => trivial
  obtain ⟨s₁, hs₁, hc₁⟩ : ∃ s₁, s.step (.create 9 2 0) = some s₁ ∧ s₁.cells 2 =
      ({ s.cells 2 with owners := some ((s.cells 2).owners.getD [9]) }.wait
        ⟨9, 2, .created 2⟩).note (.created 2) := by
    refine ⟨{ s with im := m }.create 9 2 2, ?_, ?_⟩
    · rw [step, hc]
      exact if_neg (by rw [inodeOf_of_lt (by decide), hcrashed]; decide)
    · rw [create_eq (by decide), cells_setCell_self]
  have hcall : (s₁.cells 2).pending[0]? = some ⟨9, 2, .created 2⟩ := by
    rw [hc₁]
    exact congrArg (fun l : List Call => (l ++ [_])[0]?) hpending
  have hs₂ : s₁.step (.serve 2 0 noJunk 0) =
      some (s₁.setCell 2 ((s₁.cells 2).serve 2 0 ⟨9, 2, .created 2⟩ 0)) := by
    have hcrashed₁ : (s₁.cells 2).crashed = false := by
      rw [hc₁]
      exact hcrashed
    rw [step, hcrashed₁, hcall]
    rfl
  have howned := (hall _ s₀ s₁ _ 2 0 9 2 2 0 noJunk h0 (hrun₁.snoc trivial hs₁) hcall hs₂).1
  rw [cells_setCell_self, hc₁] at howned
  have hnine : some ((s.cells 2).owners.getD [9]) = some [9] := howned
  rw [hown] at hnine
  exact absurd hnine (by decide)

end OnDisk

end Extent
end CseLab
