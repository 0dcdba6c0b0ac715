import CseLab.Extent.Machine
import CseLab.Inode.Runs

/-!
# Running out of inodes

`extent_server` over the `inode_manager` on its disk, to see what `create` does when no inode is
free.  `alloc_inode` says so with `-1`, a `uint32_t`, and nothing between it and the client looks at
it: `create_file` takes it for an inode number, `create` compares it with `-1` when it is 64 bits
wide and answers `OK`, and `get`, `put` and `remove` reduce it to inode 1023, another file's.

Requests are any there are, for any ids, and are served in steps with others in between, as in
`CseLab.Extent.Machine`; what a client answers when it is called back is whatever it likes.  What
the requests but `create` are answered is left out here.

* `BlockManager.freedInode_writeFile` — only `create` and `remove` have to do with free inodes,
  whatever the disk looks like.
* `ExtentServer.creates_cleanly_iff` — when `create` is as it should be, and in which runs no two
  files share an inode.
-/

set_option autoImplicit false

namespace CseLab

namespace Inode.BlockManager

variable {m m' : BlockManager} {i : ℕ} {buf : Bytes}

/-! ## The free inodes -/

@[simp] theorem allocBlock_freedInode (m : BlockManager) :
    m.allocBlock.2.freedInode = m.freedInode := by
  rw [allocBlock]
  split <;> rfl

@[simp] theorem writeFrom_freedInode (m : BlockManager) (c : Source) (id : ℕ) (tmp : Ptr) :
    (m.writeFrom c id tmp).freedInode = m.freedInode := by
  rw [(Same.writeFrom m c id tmp).freedInode, writeData_freedInode]

theorem freedInode_growWith {lo hi : ℕ} (m : BlockManager) (c : Source)
    (put : Buffer → ℕ → ℕ → Buffer) (tmp : Ptr) (b : Buffer) :
    (loop lo hi (growWith c put) (tmp, b, m)).2.2.freedInode = m.freedInode := by
  refine loop_keeps (P := fun r : Ptr × Buffer × BlockManager => r.2.2.freedInode = m.freedInode)
    rfl ?_
  rintro i ⟨tmp, b, r⟩ - - hr
  dsimp only [growWith]
  rw [writeFrom_freedInode, allocBlock_freedInode]
  exact hr

theorem freedInode_grow (m : BlockManager) (c : Source) (ino ind : Buffer) (tmp : Ptr)
    (blockN : ℕ) (needFree : Bool) :
    (m.grow c ino ind tmp blockN needFree).2.freedInode = m.freedInode := by
  have hdirect : (loop blockN (min c.newBlockN nDirect) (growDirect c)
      (tmp, ino, m)).2.2.freedInode = m.freedInode := freedInode_growWith m c Ino.setBlocks tmp ino
  have hindirect : ∀ tmp ind (m : BlockManager), (loop (max nDirect blockN) c.newBlockN
      (growIndirect c) (tmp, ind, m)).2.2.freedInode = m.freedInode := fun tmp ind m =>
    freedInode_growWith m c (fun b i id => b.setWord (i - nDirect) (UInt32.ofNat id)) tmp ind
  rw [grow]
  generalize loop blockN _ (growDirect c) (tmp, ino, m) = r at hdirect ⊢
  dsimp only
  split
  · cases needFree with
    | true => exact (writeData_freedInode _).trans ((hindirect ..).trans hdirect)
    | false =>
      exact (writeData_freedInode _).trans
        ((hindirect ..).trans ((allocBlock_freedInode _).trans hdirect))
  · exact hdirect

theorem freedInode_writeFile {junk : Junk} {now t : UInt32}
    (hw : m.writeFile i buf junk now = some (t, m')) : m'.freedInode = m.freedInode := by
  obtain ⟨ind, m₂, hget, -, hm₂, -⟩ := getBlockids_same (m.touch (.inode (iblock i))) (m.inode i)
    junk.indirectBlock
  rw [writeFile_eq, hget] at hw
  obtain ⟨-, hw⟩ := Option.ite_none_left_eq_some.1 hw
  obtain ⟨-, hw⟩ := Prod.mk.inj (Option.some_inj.1 hw)
  rw [← hw, writeInode_freedInode]
  generalize hc : (⟨buf, junk, ceilDiv buf.length blockSize⟩ : Source) = c
  have hloop : ∀ ids hi tmp (m : BlockManager),
      (loop 0 hi (overwrite c ids) (tmp, m)).2.freedInode = m.freedInode := fun ids hi tmp m =>
    loop_keeps (P := fun r : Ptr × BlockManager => r.2.freedInode = m.freedInode) rfl
      fun i r _ _ hr => (writeFrom_freedInode ..).trans hr
  dsimp only
  split
  next hlt => exact (shrink_spec _ _ hlt.le).2.1.trans ((hloop ..).trans hm₂.freedInode)
  next =>
    split
    · exact (freedInode_grow ..).trans ((hloop ..).trans hm₂.freedInode)
    · exact (hloop ..).trans hm₂.freedInode

theorem freedInode_readFile (m : BlockManager) (i : ℕ) (now : UInt32) :
    (m.readFile i now).2.freedInode = m.freedInode := by
  have hstamp : ∀ b, ((m.touch (.inode (iblock i))).writeInode i b).freedInode = m.freedInode :=
    fun b => writeInode_freedInode b
  obtain ⟨ind, m₂, hget, -, hm₂, -⟩ := getBlockids_same
    ((m.touch (.inode (iblock i))).writeInode i (Ino.setAtime (m.inode i) now))
    (Ino.setAtime (m.inode i) now) Buffer.zero
  rw [readFile_eq, hget]
  split
  · exact hstamp _
  · exact (readLoop _ [] m₂).2.1.freedInode.trans (hm₂.freedInode.trans (hstamp _))

end Inode.BlockManager

namespace Extent

open Inode (BlockManager Junk inodeNum inodeNum_eq inodeOf inodeOf_of_lt noId tDir)

/-! ## The server -/

/-- What `create` returns. -/
inductive XxStatus
  | OK
  | RPCERR
  deriving DecidableEq

/-- What a client asks of the server. -/
inductive Request
  | get
  | put (buf : Bytes)
  | remove
  deriving DecidableEq

namespace ExtentServer

/-- Where a request has got to: it has not been served yet; or, `share` is out to the only owner; or
the loop over the owners has `todo` ahead. -/
inductive Pc
  | ask (req : Request)
  | sharing
  | putting (buf : Bytes) (todo : List ℕ)
  | removing (todo : List ℕ)
  deriving DecidableEq

/-- A request under way. -/
structure Call where
  port : ℕ
  eid : ℕ
  pc : Pc
  deriving DecidableEq

/-- `eid`, once the server has reduced it. -/
def Call.inum (c : Call) : ℕ := inodeOf c.eid

end ExtentServer

/-- `extent_server`. -/
structure ExtentServer where
  im : BlockManager
  ownerMap : ℕ → Option (List ℕ)
  pending : List ExtentServer.Call
  /-- For the record only: the ids of the files that were created and are not removed, each as it
  was told to the client. -/
  live : List ℕ

namespace ExtentServer

def setOwners (s : ExtentServer) (eid : ℕ) (owners : Option (List ℕ)) : ExtentServer :=
  { s with ownerMap := Function.update s.ownerMap eid owners }

/-- `create`: what it returns, and `eid`.  The id of `create_file` has 32 bits, the `-1` that it is
compared with 64. -/
def create (s : ExtentServer) (port : ℕ) (type now : UInt32) : XxStatus × ℕ × ExtentServer :=
  let (eid, im) := s.im.createFile type now
  if eid = 2 ^ 64 - 1 then (.RPCERR, eid, { s with im := im })
  else
    -- an entry that is there stays
    (.OK, eid, { s with im := im, live := s.live ++ [eid] }.setOwners eid
      (some ((s.ownerMap eid).getD [port])))

/-- The `k`-th request goes on at `pc`. -/
def goto (s : ExtentServer) (k : ℕ) (c : Call) (pc : Pc) : ExtentServer :=
  { s with pending := s.pending.set k { c with pc := pc } }

/-- The `k`-th request is answered. -/
def done (s : ExtentServer) (k : ℕ) : ExtentServer := { s with pending := s.pending.eraseIdx k }

/-- The end of `get`. -/
def serveGet (s : ExtentServer) (k : ℕ) (c : Call) (now : UInt32) : ExtentServer :=
  ({ s with im := (s.im.readFile c.inum now).2 }.setOwners c.inum
    (some ((s.ownerMap c.inum).getD [] ++ [c.port]))).done k

/-- The end of `put`. -/
def servePut (s : ExtentServer) (k : ℕ) (c : Call) (buf : Bytes) (junk : Junk) (now : UInt32) :
    Option ExtentServer :=
  (s.im.writeFile c.inum buf junk now).map fun r =>
    ({ s with im := r.2 }.setOwners c.inum (some [c.port])).done k

/-- The end of `remove`. -/
def serveRemove (s : ExtentServer) (k : ℕ) (c : Call) : ExtentServer :=
  ({ s with
    im := s.im.removeFile c.inum
    live := s.live.filter (inodeOf · ≠ c.inum) }.setOwners c.inum none).done k

/-- The `k`-th request takes its next step, with what the client says that is called back; `none`
where an assertion fails or an entry that is gone is used. -/
def serve (s : ExtentServer) (k : ℕ) (c : Call) (r : ShareResult) (junk : Junk) (now : UInt32) :
    Option ExtentServer :=
  match c.pc with
  | .ask .get =>
    match s.ownerMap c.inum with
    | some [_] => some (s.goto k c .sharing)
    | _ => some (s.serveGet k c now)
  | .sharing =>
    if (s.ownerMap c.inum).isNone then none
    else if r.update then
      (s.im.writeFile c.inum r.data junk now).map fun w => { s with im := w.2 }.serveGet k c now
    else some (s.serveGet k c now)
  | .ask (.put buf) =>
    match s.ownerMap c.inum with
    | some owners => some (s.goto k c (.putting buf (owners.filter (· ≠ c.port))))
    | none => s.servePut k c buf junk now
  | .putting buf (_ :: todo) => some (s.goto k c (.putting buf todo))
  | .putting buf [] =>
    if (s.ownerMap c.inum).isNone then none else s.servePut k c buf junk now
  | .ask .remove =>
    match s.ownerMap c.inum with
    | some owners => some (s.goto k c (.removing (owners.filter (· ≠ c.port))))
    | none => some (s.serveRemove k c)
  | .removing (_ :: todo) => some (s.goto k c (.removing todo))
  | .removing [] => if (s.ownerMap c.inum).isNone then none else some (s.serveRemove k c)

/-- What can happen: a `create` is served, another request comes in, or one under way goes on. -/
inductive Action
  | create (port : ℕ) (type now : UInt32)
  | call (port eid : ℕ) (req : Request)
  | serve (k : ℕ) (r : ShareResult) (junk : Junk) (now : UInt32)

def step (s : ExtentServer) : Action → Option ExtentServer
  | .create port type now => some (s.create port type now).2.2
  | .call port eid req => some { s with pending := s.pending ++ [⟨port, eid, .ask req⟩] }
  | .serve k r junk now => s.pending[k]?.bind fun c => s.serve k c r junk now

/-- The constructor. -/
def start (now : UInt32) : Option ExtentServer :=
  (Inode.System.start now).map fun s => ⟨s.m, fun _ => none, [], [1]⟩

variable {s s' s₀ : ExtentServer} {as : List Action} {a : Action} {c : Call} {port eid k : ℕ}
  {type now : UInt32}

/-! ## Which inodes are free -/

/-- What a step but a `create` leaves of the free inodes and of the files. -/
inductive Change (s s' : ExtentServer) : Prop
  | removed (i : ℕ) (hi : i < inodeNum) (hfree : s'.im.freedInode = insert i s.im.freedInode)
    (hlive : s'.live = s.live.filter (inodeOf · ≠ i))
  | same (hfree : s'.im.freedInode = s.im.freedInode) (hlive : s'.live = s.live)

theorem Call.inum_lt (c : Call) : c.inum < inodeNum := Nat.mod_lt _ (by decide)

theorem change_serveGet (s : ExtentServer) (k : ℕ) (c : Call) (now : UInt32) :
    (s.serveGet k c now).im.freedInode = s.im.freedInode ∧ (s.serveGet k c now).live = s.live :=
  ⟨BlockManager.freedInode_readFile .., rfl⟩

theorem change_servePut {buf : Bytes} {junk : Junk} (h : s.servePut k c buf junk now = some s') :
    s'.im.freedInode = s.im.freedInode ∧ s'.live = s.live := by
  obtain ⟨⟨t, m⟩, hw, rfl⟩ := Option.map_eq_some_iff.1 h
  exact ⟨BlockManager.freedInode_writeFile hw, rfl⟩

theorem change_serveRemove (s : ExtentServer) (k : ℕ) (c : Call) :
    s.Change (s.serveRemove k c) :=
  .removed c.inum c.inum_lt (BlockManager.removeFile_spec c.inum_lt).freedInode rfl

/-- **Only `create` and `remove` have to do with free inodes.** -/
theorem change_serve {r : ShareResult} {junk : Junk} (h : s.serve k c r junk now = some s') :
    s.Change s' := by
  have hput : ∀ {buf}, s.servePut k c buf junk now = some s' → s.Change s' := fun h =>
    .same (change_servePut h).1 (change_servePut h).2
  have hget : ∀ s : ExtentServer, s.Change (s.serveGet k c now) := fun s =>
    .same (change_serveGet s k c now).1 (change_serveGet s k c now).2
  obtain ⟨port, eid, pc⟩ := c
  cases pc with
  | ask req =>
    cases req with
    | get =>
      simp only [serve] at h
      split at h <;> obtain rfl := Option.some_inj.1 h
      · exact .same rfl rfl
      · exact hget s
    | put buf =>
      simp only [serve] at h
      split at h
      · obtain rfl := Option.some_inj.1 h
        exact .same rfl rfl
      · exact hput h
    | remove =>
      simp only [serve] at h
      split at h <;> obtain rfl := Option.some_inj.1 h
      · exact .same rfl rfl
      · exact change_serveRemove ..
  | sharing =>
    simp only [serve] at h
    obtain ⟨-, h⟩ := Option.ite_none_left_eq_some.1 h
    split at h
    · obtain ⟨⟨t, m⟩, hw, rfl⟩ := Option.map_eq_some_iff.1 h
      obtain ⟨hfree, hlive⟩ := change_serveGet { s with im := m } k ⟨port, eid, .sharing⟩ now
      exact .same (hfree.trans (BlockManager.freedInode_writeFile hw)) hlive
    · obtain rfl := Option.some_inj.1 h
      exact hget s
  | putting buf todo =>
    cases todo with
    | nil => exact hput (Option.ite_none_left_eq_some.1 h).2
    | cons owner todo =>
      obtain rfl := Option.some_inj.1 h
      exact .same rfl rfl
  | removing todo =>
    cases todo with
    | nil =>
      obtain rfl := Option.some_inj.1 (Option.ite_none_left_eq_some.1 h).2
      exact change_serveRemove ..
    | cons owner todo =>
      obtain rfl := Option.some_inj.1 h
      exact .same rfl rfl

/-- What `create` does where an inode is free, and where none is. -/
theorem create_cases (hfree : ∀ j ∈ s.im.freedInode, j < inodeNum) (port : ℕ) (type now : UInt32) :
    (∃ i m, BlockManager.Created s.im type i m ∧ i < inodeNum ∧ s.create port type now =
      (.OK, i, { s with im := m, live := s.live ++ [i] }.setOwners i
        (some ((s.ownerMap i).getD [port])))) ∨
    (s.im.freedInode = ∅ ∧ ∃ m : BlockManager, m.freedInode = ∅ ∧ s.create port type now =
      (.OK, noId, { s with im := m, live := s.live ++ [noId] }.setOwners noId
        (some ((s.ownerMap noId).getD [port])))) := by
  rw [create]
  by_cases hne : s.im.freedInode.Nonempty
  · have hcreated := BlockManager.createFile_spec type now hne hfree
    generalize s.im.createFile type now = r at *
    obtain ⟨i, m⟩ := r
    have hi : i < inodeNum := hfree i hcreated.least.1
    have hne : i ≠ 2 ^ 64 - 1 := by
      rw [inodeNum_eq] at hi
      omega
    exact .inl ⟨i, m, hcreated, hi, if_neg hne⟩
  · obtain ⟨hid, hrefused⟩ := BlockManager.createFile_refused type now hne
    have hnone := Finset.not_nonempty_iff_eq_empty.1 hne
    generalize s.im.createFile type now = r at *
    obtain ⟨i, m⟩ := r
    dsimp only at hid hrefused
    subst hid
    exact .inr ⟨hnone, m, hrefused.freedInode.trans hnone, if_neg (by decide)⟩

/-! ## The invariant -/

/-- No two files share an inode. -/
def Apart (s : ExtentServer) : Prop := (s.live.map inodeOf).Nodup

/-- A `create` comes while an inode is free. -/
def InodeLeft (s : ExtentServer) : Action → Prop
  | .create .. => s.im.freedInode.Nonempty
  | _ => True

/-- What holds in every run: an inode but number 0 is a file's if and only if it is not free. -/
structure Inv (s : ExtentServer) : Prop where
  lt : ∀ j ∈ s.im.freedInode, j < inodeNum
  live : ∀ e ∈ s.live, inodeOf e ∉ s.im.freedInode
  all : ∀ j, 0 < j → j < inodeNum → j ∈ s.im.freedInode ∨ ∃ e ∈ s.live, inodeOf e = j

theorem Inv.create (h : s.Inv) (port : ℕ) (type now : UInt32) :
    (s.create port type now).2.2.Inv := by
  rcases create_cases h.lt port type now with ⟨i, m, hcreated, hi, heq⟩ | ⟨hnone, m, hm, heq⟩
  · rw [heq]
    refine ⟨fun j hj => ?_, fun e he => ?_, fun j h0 hj => ?_⟩
    all_goals simp only [setOwners, hcreated.freedInode, Finset.mem_erase, List.mem_append,
      List.mem_singleton] at *
    · exact h.lt j hj.2
    · rcases he with he | rfl
      · exact fun hmem => h.live e he hmem.2
      · exact fun hmem => hmem.1 (inodeOf_of_lt hi)
    · by_cases hji : j = i
      · exact .inr ⟨i, .inr rfl, (inodeOf_of_lt hi).trans hji.symm⟩
      · rcases h.all j h0 hj with hfree | ⟨e, he, hej⟩
        · exact .inl ⟨hji, hfree⟩
        · exact .inr ⟨e, .inl he, hej⟩
  · rw [heq]
    refine ⟨fun j hj => ?_, fun e _ => ?_, fun j h0 hj => ?_⟩
    all_goals simp only [setOwners, hm, Finset.notMem_empty, List.mem_append] at *
    · exact not_false
    · rcases h.all j h0 hj with hfree | ⟨e, he, hej⟩
      · rw [hnone] at hfree
        exact absurd hfree (Finset.notMem_empty j)
      · exact .inr ⟨e, .inl he, hej⟩

theorem Inv.change (h : s.Inv) (hc : s.Change s') : s'.Inv := by
  cases hc with
  | removed i hi hfree hlive =>
    refine ⟨fun j hj => ?_, fun e he => ?_, fun j h0 hj => ?_⟩
    all_goals simp only [hfree, hlive, Finset.mem_insert, List.mem_filter, decide_eq_true_eq] at *
    · rcases hj with rfl | hj
      · exact hi
      · exact h.lt j hj
    · rintro (hei | hmem)
      · exact he.2 hei
      · exact h.live e he.1 hmem
    · by_cases hji : j = i
      · exact .inl (.inl hji)
      · rcases h.all j h0 hj with hmem | ⟨e, he, rfl⟩
        · exact .inl (.inr hmem)
        · exact .inr ⟨e, ⟨he, hji⟩, rfl⟩
  | same hfree hlive => exact ⟨hfree ▸ h.lt, hlive ▸ hfree ▸ h.live, hlive ▸ hfree ▸ h.all⟩

/-- A step that is not a `create`. -/
theorem step_change (hs : s.step a = some s') :
    (∃ port type now, a = .create port type now ∧ s' = (s.create port type now).2.2) ∨
      (∀ port type now, a ≠ .create port type now) ∧ s.Change s' := by
  cases a with
  | create port type now =>
    obtain rfl := Option.some_inj.1 hs
    exact .inl ⟨port, type, now, rfl, rfl⟩
  | call port eid req =>
    obtain rfl := Option.some_inj.1 hs
    exact .inr ⟨by simp, .same rfl rfl⟩
  | serve k r junk now =>
    obtain ⟨c, -, hs⟩ := Option.bind_eq_some_iff.1 hs
    exact .inr ⟨by simp, change_serve hs⟩

theorem Inv.step (h : s.Inv) (hs : s.step a = some s') : s'.Inv := by
  rcases step_change hs with ⟨port, type, now, -, rfl⟩ | ⟨-, hc⟩
  · exact h.create port type now
  · exact h.change hc

theorem Inv.of_start (h0 : start now = some s₀) : s₀.Inv ∧ s₀.Apart := by
  obtain ⟨s, hs, rfl⟩ := Option.map_eq_some_iff.1 h0
  obtain ⟨hstarted, -⟩ := Inode.System.Started.of_start hs
  have hinodes := hstarted.inv.inodes
  rw [hstarted.live] at hinodes
  refine ⟨⟨hinodes.lt_of_free, fun e he => ?_, fun j hj0 hj => ?_⟩, List.nodup_singleton _⟩
  · rw [List.mem_singleton.1 he]
    exact fun hmem => Finset.disjoint_left.1 hinodes.apart (Finset.mem_singleton_self 1) hmem
  · rcases (hinodes.all j).1 hj with rfl | hone | hfree
    · exact absurd hj0 (Nat.lt_irrefl 0)
    · exact .inr ⟨1, List.mem_singleton_self 1, (Finset.mem_singleton.1 hone).symm⟩
    · exact .inl hfree

theorem Inv.of_run {ok : ExtentServer → Action → Prop} (h0 : start now = some s₀)
    (h : Run ExtentServer.step ok s₀ as s) : s.Inv :=
  h.invariant (Inv.of_start h0).1 fun _ _ _ hinv _ hs => hinv.step hs

theorem apart_snoc (eid : ℕ) : ((s.live ++ [eid]).map inodeOf).Nodup ↔
    s.Apart ∧ ∀ e ∈ s.live, inodeOf e ≠ inodeOf eid := by
  rw [List.map_append, List.map_singleton, List.nodup_append]
  simp [Apart]

/-- A step keeps the files apart unless it is a `create` and no inode is free. -/
theorem apart_step (hinv : s.Inv) (hapart : s.Apart) (hs : s.step a = some s') :
    s'.Apart ↔ s.InodeLeft a := by
  rcases step_change hs with ⟨port, type, now, rfl, rfl⟩ | ⟨hne, hc⟩
  · rcases create_cases hinv.lt port type now with ⟨i, m, hcreated, hi, heq⟩ | ⟨hnone, m, -, heq⟩
    · rw [heq]
      refine iff_of_true ((apart_snoc i).2 ⟨hapart, fun e he hei => hinv.live e he ?_⟩)
        ⟨i, hcreated.least.1⟩
      rw [hei, inodeOf_of_lt hi]
      exact hcreated.least.1
    · -- the id that stands for none is inode 1023, which is some file's
      rw [heq]
      refine iff_of_false (fun hnew => ?_) (Finset.not_nonempty_iff_eq_empty.2 hnone)
      rcases hinv.all 1023 (by decide) (by decide) with hfree | ⟨e, he, hlast⟩
      · rw [hnone] at hfree
        exact absurd hfree (Finset.notMem_empty _)
      · exact ((apart_snoc noId).1 hnew).2 e he hlast
  · have hleft : s.InodeLeft a := by
      cases a with
      | create port type now => exact absurd rfl (hne port type now)
      | call | serve => trivial
    refine iff_of_true ?_ hleft
    cases hc with
    | removed i hi hfree hlive =>
      rw [Apart, hlive]
      exact hapart.sublist (List.filter_sublist.map _)
    | same hfree hlive =>
      rw [Apart, hlive]
      exact hapart

/-! ## What `create` ought to do -/

/-- `create` answers OK only with an inode that was free and is now an empty file of the type; where
no inode is free it answers otherwise and leaves the disk and `owner_map` alone. -/
structure CreatesCleanly (s : ExtentServer) (port : ℕ) (type now : UInt32) : Prop where
  ok : (s.create port type now).1 = .OK →
    1 ≤ (s.create port type now).2.1 ∧ (s.create port type now).2.1 < inodeNum ∧
      (s.create port type now).2.1 ∈ s.im.freedInode ∧
      Inode.Ino.type ((s.create port type now).2.2.im.inode (s.create port type now).2.1) = type ∧
      (s.create port type now).2.2.im.fileSize (s.create port type now).2.1 = 0
  full : s.im.freedInode = ∅ → (s.create port type now).1 ≠ .OK ∧
    (s.create port type now).2.2.im.blocks = s.im.blocks ∧
    (s.create port type now).2.2.im.freedData = s.im.freedData ∧
    (s.create port type now).2.2.im.freedInode = s.im.freedInode ∧
    (s.create port type now).2.2.ownerMap = s.ownerMap

/-- Inode 0 is free once a client has had it removed. -/
theorem Inv.createsCleanly_iff (h : s.Inv) (port : ℕ) (type now : UInt32) :
    s.CreatesCleanly port type now ↔ s.im.freedInode.Nonempty ∧ 0 ∉ s.im.freedInode := by
  rcases create_cases h.lt port type now with ⟨i, m, hcreated, hi, heq⟩ | ⟨hnone, m, -, heq⟩
  · constructor
    · intro hclean
      obtain ⟨hpos, -⟩ := hclean.ok (by rw [heq])
      rw [heq] at hpos
      refine ⟨⟨i, hcreated.least.1⟩, fun h0 => ?_⟩
      have hle := hcreated.least.2 0 h0
      dsimp only at hpos
      omega
    · rintro ⟨hne, h0⟩
      have hpos : i ≠ 0 := by
        rintro rfl
        exact h0 hcreated.least.1
      refine ⟨fun _ => ?_, fun hnone => absurd hne (Finset.not_nonempty_iff_eq_empty.2 hnone)⟩
      rw [heq]
      exact ⟨Nat.pos_of_ne_zero hpos, hi, hcreated.least.1, hcreated.type, hcreated.size⟩
  · refine iff_of_false (fun hclean => ?_) fun hne =>
      Finset.not_nonempty_iff_eq_empty.2 hnone hne.1
    have hok := (hclean.full hnone).1
    rw [heq] at hok
    exact hok rfl

/-- **`create` does as it should exactly if an inode is free and inode 0 is not**, and the runs in
which no two files ever share an inode are those that create files only while one is free. -/
theorem creates_cleanly_iff (h0 : start now = some s₀) :
    (∀ as s, Run step anyStep s₀ as s → ∀ port type now,
      s.CreatesCleanly port type now ↔ s.im.freedInode.Nonempty ∧ 0 ∉ s.im.freedInode) ∧
    ∀ as s, Run step (fun s _ => s.Apart) s₀ as s ∧ s.Apart ↔ Run step InodeLeft s₀ as s := by
  refine ⟨fun as s hrun => (Inv.of_run h0 hrun).createsCleanly_iff, fun as s => ?_⟩
  exact (Run.always_iff_with (Inv.of_run h0) fun _ _ _ => apart_step).trans
    (and_iff_right (Inv.of_start h0).2)

/-- The first file. -/
theorem creates_cleanly_first : ∃ s₀, start 0 = some s₀ ∧ s₀.CreatesCleanly 4000 tDir 0 := by
  obtain ⟨s, hs, hstarted, -⟩ := Inode.System.start_spec 0
  have h0 : start 0 = some ⟨s.m, fun _ => none, [], [1]⟩ := by rw [start, hs]; rfl
  refine ⟨_, h0, ((creates_cleanly_iff h0).1 [] _ .nil 4000 tDir 0).2 ⟨⟨2, ?_⟩, ?_⟩⟩
  · have hall := (hstarted.inv.inodes.all 2).1 (by decide)
    simpa [hstarted.live] using hall
  · exact hstarted.inv.inodes.zero.2

/-! ### The server fills up -/

/-- Files until no inode is free. -/
theorem Inv.create_all (h : s.Inv) (n : ℕ) (hn : s.im.freedInode.card = n) :
    ∃ as s', Run ExtentServer.step anyStep s as s' ∧ s'.Inv ∧ s'.im.freedInode = ∅ := by
  induction n generalizing s with
  | zero => exact ⟨[], s, .nil, h, Finset.card_eq_zero.1 hn⟩
  | succ n ih =>
    have hcard : (s.create 4000 tDir 0).2.2.im.freedInode.card = n := by
      rcases create_cases h.lt 4000 tDir 0 with ⟨i, m, hcreated, -, heq⟩ | ⟨hnone, -⟩
      · rw [heq]
        simp only [setOwners, hcreated.freedInode, Finset.card_erase_of_mem hcreated.least.1, hn]
        rfl
      · rw [hnone] at hn
        exact absurd hn (Nat.succ_ne_zero n).symm
    obtain ⟨as, s', hrun, hfull⟩ := ih (h.create 4000 tDir 0) hcard
    exact ⟨_, s', (Run.snoc .nil trivial (a := .create 4000 tDir 0) rfl).append hrun, hfull⟩

/-- **The file that comes when all inodes are taken is answered OK**, and shares an inode. -/
theorem not_creates_cleanly :
    (¬ ∀ now s₀ as s port type t, start now = some s₀ → Run step anyStep s₀ as s →
      s.CreatesCleanly port type t) ∧
    ¬ ∀ now s₀ as s, start now = some s₀ → Run step anyStep s₀ as s → s.Apart := by
  obtain ⟨s, hs, -⟩ := Inode.System.start_spec 0
  have h0 : start 0 = some ⟨s.m, fun _ => none, [], [1]⟩ := by rw [start, hs]; rfl
  obtain ⟨as, s₁, hrun, hinv, hnone⟩ := (Inv.of_start h0).1.create_all _ rfl
  have hempty : ¬ s₁.im.freedInode.Nonempty := Finset.not_nonempty_iff_eq_empty.2 hnone
  constructor
  · intro hall
    exact hempty ((hinv.createsCleanly_iff 4000 tDir 0).1 (hall 0 _ _ _ _ _ _ h0 hrun)).1
  · intro hall
    have hapart := hall 0 _ _ _ h0 hrun
    have hnext := hall 0 _ _ _ h0 (hrun.snoc trivial (a := .create 4000 tDir 0) rfl)
    exact hempty ((apart_step hinv hapart (a := .create 4000 tDir 0) rfl).1 hnext)

end ExtentServer

end Extent
end CseLab
