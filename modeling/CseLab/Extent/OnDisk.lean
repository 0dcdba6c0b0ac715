import CseLab.Extent.Coherence
import CseLab.Inode.Taken

/-!
# Extents on the disk

`System` gives every inode a file of its own, and keeps it for whoever still has its number when it
has been removed.  `OnDisk` is the same server, with the same clients, over `inode_manager`: of the
cells all counts but the inode and the file, which are on the disk.

* `Cell.serve_of_read` and its like: either way a step of a call comes to the same, once it is said
  what it asks of the files (`Cell.demand`).
* `OnDisk.Inv`: the clients' copies and the files on the disk agree as they do in a `System`, as
  long as no file is written or removed that is not there.  What is on the disk of such a file is
  not the server's any more, so of an inode that is free `Extent.Inv` is asked whatever the file.
-/

set_option autoImplicit false

namespace CseLab
namespace Extent

open Inode (Attr BlockManager Junk inodeNum inodeOf inodeOf_of_lt tDir)
open Inode.BlockManager (diskDataNum mem_taken)

/-! ## What a step asks of the files -/

/-- What a step of a call asks of `inode_manager`. -/
inductive Demand
  | nothing
  | read (attr is_share : Bool)
  /-- A copy of an owner's is written, and then the file is read. -/
  | writeBack (attr : Bool) (buf : Bytes)
  | write (buf : Bytes) (starts : Bool)
  | remove
  deriving DecidableEq

namespace Cell

/-- What the next step of a call at `pc` asks for. -/
def demand (c : Cell) : Pc → Demand
  | .get attr =>
    match c.owners with
    | none => .read attr false
    | some [_] => .nothing
    | some _ => .read attr true
  | .shared attr r =>
    if c.owners.isNone then .nothing
    else if r.update then .writeBack attr r.data
    else .read attr true
  | .put buf starts => if c.owners.isNone then .write buf starts else .nothing
  | .putting buf starts [] => if c.owners.isNone then .nothing else .write buf starts
  | .remove => if c.owners.isNone then .remove else .nothing
  | .removing [] => if c.owners.isNone then .nothing else .remove
  | _ => .nothing

/-- The cell, with this inode. -/
def on (c : Cell) (free : Bool) (file : File) : Cell := { c with free := free, file := file }

/-- The cell, its inode seen to. -/
def meet (c : Cell) (i : ℕ) (call : Call) (now : UInt32) : Demand → Cell
  | .nothing => c
  | .read attr is_share => c.serveGet i call attr is_share now
  | .writeBack attr buf =>
    { c with file := c.file.write buf now }.serveGet i call attr true now
  | .write buf starts => c.servePut i call buf starts now
  | .remove => c.serveRemove i call

section

variable {c : Cell} {call : Call}

/-- **What a step comes to**, once it asks anything of the file. -/
theorem serve_of_demand (h : c.demand call.pc ≠ .nothing) (k i : ℕ) (now : UInt32) :
    c.serve k i call now = c.meet i call now (c.demand call.pc) := by
  obtain ⟨f, file, owners, cache, pending, crashed, log⟩ := c
  obtain ⟨port, eid, pc⟩ := call
  cases pc with
  | get attr =>
    rcases owners with _ | _ | ⟨q, _ | ⟨r, l⟩⟩
    · rfl
    · rfl
    · exact absurd rfl h
    · rfl
  | shared attr r =>
    obtain ⟨update, data⟩ := r
    cases owners with
    | none => exact absurd rfl h
    | some owners => cases update <;> rfl
  | put buf starts | remove =>
    cases owners with
    | none => rfl
    | some owners => exact absurd rfl h
  | putting buf starts todo | removing todo =>
    rcases todo with _ | ⟨q, todo⟩
    · cases owners with
      | none => exact absurd rfl h
      | some owners => rfl
    · exact absurd rfl h
  | sharing | pulled | putDone | created => exact absurd rfl h

/-- A step that asks nothing of the file does not touch it. -/
theorem serve_on (h : c.demand call.pc = .nothing) (k i : ℕ) (free : Bool) (file : File)
    (now : UInt32) : (c.on free file).serve k i call now = (c.serve k i call now).on free file := by
  obtain ⟨f, file', owners, cache, pending, crashed, log⟩ := c
  obtain ⟨port, eid, pc⟩ := call
  cases pc with
  | get attr =>
    rcases owners with _ | _ | ⟨q, _ | ⟨r, l⟩⟩
    · cases h
    · cases h
    · rfl
    · cases h
  | sharing attr q => cases hq : cache q k <;> simp only [serve, on, hq] <;> rfl
  | shared attr r =>
    obtain ⟨update, data⟩ := r
    cases owners with
    | none => rfl
    | some owners => cases update <;> cases h
  | pulled attr r => cases attr <;> rfl
  | put buf starts | remove =>
    cases owners with
    | none => cases h
    | some owners => rfl
  | putting buf starts todo | removing todo =>
    rcases todo with _ | ⟨q, todo⟩
    · cases owners with
      | none => rfl
      | some owners => cases h
    · cases hq : cache q k <;> simp only [serve, invalidate, on, hq] <;> rfl
  | putDone buf starts type => cases hq : cache port eid <;> simp only [serve, on, hq] <;> rfl
  | created type => rfl

/-- Neither does a client. -/
theorem call_on (c : Cell) (port eid : ℕ) (op : Op) (free : Bool) (file : File) (now : UInt32) :
    (c.on free file).call port eid op now = (c.call port eid op now).on free file := by
  have hget : ∀ attr, (c.on free file).callGet port eid attr now =
      (c.callGet port eid attr now).on free file := fun attr => by
    cases hq : c.cache port eid with
    | none => simp only [callGet, on, hq]; rfl
    | some e => cases attr <;> simp only [callGet, on, hq] <;> rfl
  cases op with
  | get => exact hget false
  | getattr => exact hget true
  | put buf =>
    cases hq : c.cache port eid with
    | none => simp only [call, callPut, on, hq]; rfl
    | some e => by_cases hst : e.status = .shared <;> simp only [call, callPut, on, hq, hst] <;> rfl
  | remove => rfl

end

end Cell

/-! ## Another file -/

section

variable {fresh free : Bool} {k i : ℕ} {c : Cell} {call : Call} {f f₀ : File}
  {attr is_share : Bool} {now : UInt32}

namespace Inv

/-- Of the file, only the data, the size and the type count. -/
theorem of_file (f₀ : File) (h : Inv fresh k (c.on free f₀)) (hdata : f.data = f₀.data)
    (hsize : f.attr.size = f₀.attr.size) (htype : f.attr.type = f₀.attr.type) :
    Inv fresh k (c.on free f) := by
  obtain ⟨data, attr⟩ := f
  obtain rfl : data = f₀.data := hdata
  refine ⟨⟨h.crashed, h.free, h.range, hsize.trans h.size, fun t ht => htype.trans (h.type t ht),
    h.freed, h.told⟩, h.dead, h.phase.imp (fun hquiet => ?_) fun hbusy => ?_⟩
  · exact ⟨hquiet.1, hquiet.2.agree, hquiet.2.backed⟩
  · obtain ⟨hk, port, pc, hpending, hphase⟩ := hbusy
    refine ⟨hk, port, pc, hpending, ?_⟩
    cases pc with
    | get attr' => exact ⟨hphase.1, hphase.2.agree, hphase.2.backed⟩
    | sharing attr' owner => exact ⟨hphase.1, ⟨hphase.2.1.agree, hphase.2.1.backed⟩, hphase.2.2⟩
    | _ => exact hphase

/-- Where there are no calls and nothing is known, any file will do. -/
theorem of_unknown (f₀ : File) {free' : Bool} (h : Inv false k (c.on free' f₀))
    (hpending : c.pending = []) (hnone : content false c.log = none) (hfree : free → k < inodeNum)
    (hsize : f.attr.size = UInt32.ofNat f.data.length) : Inv false k (c.on free f) := by
  refine ⟨⟨h.crashed, hfree, h.range, hsize, nofun, nofun, h.told⟩, nofun,
    .inl ⟨hpending, (h.of_nil hpending).agree, fun _ d hd => ?_⟩⟩
  exact absurd (hnone.symm.trans hd) nofun

/-- The server may read any file, if the file may be any. -/
theorem serveGet_on (h : Inv fresh k (c.on free f)) (hcall : c.pending[i]? = some call)
    (hf : Inv fresh k ((c.on free f).serveGet i call attr is_share now))
    (hf₀ : Inv fresh k ((c.on free f₀).serveGet i call attr is_share now)) :
    Inv fresh k (({ c with owners := some (c.owners.getD [] ++ [call.port]) }.goto i call
      (.pulled attr ⟨f₀.data, (f₀.read now).attr, is_share⟩)).on free f) := by
  obtain ⟨rfl, hk, hlive, p, pc, rfl, hpending, -⟩ := h.of_getElem? hcall
  obtain ⟨hp, owners, hown, hagree, hshared, hshare, hdata, -⟩ :=
    (hf.of_pending (congrArg (List.set · 0 _) hpending)).2
  obtain ⟨-, -, -, -, -, -, -, hfits⟩ := (hf₀.of_pending (congrArg (List.set · 0 _) hpending)).2
  exact .busy hk (h.toBase.of_eq rfl rfl rfl rfl) hlive (congrArg (List.set · 0 _) hpending)
    ⟨hp, owners, hown, hagree, hshared, hshare, hdata, hfits⟩

end Inv

end

/-! ## The server over `inode_manager`, and all clients -/

/-- The disk, and all that concerns an inode besides. -/
structure OnDisk where
  im : BlockManager
  cells : ℕ → Cell

namespace OnDisk

/-- What can happen: a `create` is served, a client begins a call, or a call under way takes its
next step. -/
inductive Action
  | create (port : ℕ) (type now : UInt32)
  | call (port eid : ℕ) (op : Op) (now : UInt32)
  | serve (k i : ℕ) (junk : Junk) (now : UInt32)

def setCell (s : OnDisk) (k : ℕ) (c : Cell) : OnDisk :=
  { s with cells := Function.update s.cells k c }

@[simp] theorem cells_setCell_self (s : OnDisk) (k : ℕ) (c : Cell) :
    (s.setCell k c).cells k = c :=
  Function.update_self ..

theorem cells_setCell_of_ne {j k : ℕ} (h : j ≠ k) (s : OnDisk) (c : Cell) :
    (s.setCell k c).cells j = s.cells j :=
  Function.update_of_ne h ..

/-- `extent_server::create`, with `eid` from `create_file`, which is not reduced to an inode number.
-/
def create (s : OnDisk) (port eid : ℕ) (type : UInt32) : OnDisk :=
  let s := s.setCell eid { s.cells eid with owners := some ((s.cells eid).owners.getD [port]) }
  s.setCell (inodeOf eid)
    (((s.cells (inodeOf eid)).wait ⟨port, eid, .created type⟩).note (.created type))

/-- The end of `extent_server::get`. -/
def serveGet (s : OnDisk) (k i : ℕ) (call : Call) (attr is_share : Bool) (now : UInt32) : OnDisk :=
  let (r, im) := s.im.readFile k now
  let data := if r.size = 0 then [] else r.buf_out.take r.size
  { s with im := im }.setCell k
    ({ s.cells k with owners := some ((s.cells k).owners.getD [] ++ [call.port]) }.goto i call
      (.pulled attr ⟨data, r.a, is_share⟩))

/-- The `i`-th call about inode `k` takes its next step. -/
def serve (s : OnDisk) (k i : ℕ) (call : Call) (junk : Junk) (now : UInt32) : OnDisk :=
  match (s.cells k).demand call.pc with
  | .nothing => s.setCell k ((s.cells k).serve k i call now)
  | .read attr is_share => s.serveGet k i call attr is_share now
  | .writeBack attr buf =>
    match s.im.writeFile k buf junk now with
    | some (_, im) => { s with im := im }.serveGet k i call attr true now
    | none => s.setCell k (s.cells k).crash
  | .write buf starts =>
    match s.im.writeFile k buf junk now with
    | some (type, im) =>
      { s with im := im }.setCell k
        ({ s.cells k with owners := some [call.port] }.goto i call (.putDone buf starts type))
    | none => s.setCell k (s.cells k).crash
  | .remove =>
    { s with im := s.im.removeFile k }.setCell k
      (({ s.cells k with owners := none }.note (.removed call.port)).done i)

section

variable {s : OnDisk} {k i : ℕ} {call : Call} {junk : Junk} {now t : UInt32} {im : BlockManager}
  {attr is_share starts : Bool} {buf : Bytes}

theorem serve_nothing (h : (s.cells k).demand call.pc = .nothing) :
    s.serve k i call junk now = s.setCell k ((s.cells k).serve k i call now) := by
  rw [serve, h]

theorem serve_read (h : (s.cells k).demand call.pc = .read attr is_share) :
    s.serve k i call junk now = s.serveGet k i call attr is_share now := by
  rw [serve, h]

theorem serve_writeBack (h : (s.cells k).demand call.pc = .writeBack attr buf)
    (hw : s.im.writeFile k buf junk now = some (t, im)) : s.serve k i call junk now =
      { s with im := im }.serveGet k i call attr true now := by
  rw [serve, h]
  dsimp only
  rw [hw]

theorem serve_write (h : (s.cells k).demand call.pc = .write buf starts)
    (hw : s.im.writeFile k buf junk now = some (t, im)) : s.serve k i call junk now =
      { s with im := im }.setCell k
        ({ s.cells k with owners := some [call.port] }.goto i call (.putDone buf starts t)) := by
  rw [serve, h]
  dsimp only
  rw [hw]

theorem serve_remove (h : (s.cells k).demand call.pc = .remove) :
    s.serve k i call junk now = { s with im := s.im.removeFile k }.setCell k
      (({ s.cells k with owners := none }.note (.removed call.port)).done i) := by
  rw [serve, h]

end

def step (s : OnDisk) : Action → Option OnDisk
  | .create port type now =>
    let (eid, im) := s.im.createFile type now
    if (s.cells (inodeOf eid)).crashed then none
    else some ({ s with im := im }.create port eid type)
  | .call port eid op now =>
    if (s.cells (inodeOf eid)).crashed then none
    else some (s.setCell (inodeOf eid) ((s.cells (inodeOf eid)).call port eid op now))
  | .serve k i junk now =>
    if (s.cells k).crashed then none
    else ((s.cells k).pending[i]?).map fun call => s.serve k i call junk now

/-- What the constructor of `extent_server` leaves. -/
def start (now : UInt32) : Option OnDisk :=
  (Inode.System.start now).map fun s => ⟨s.m, System.start now⟩

/-! ## The invariant -/

end OnDisk

/-- The file of inode `k`. -/
def fileOf (m : BlockManager) (k : ℕ) : File := ⟨m.content k, Inode.Ino.attr (m.inode k)⟩

/-- `f` may stand for the file of inode `k`: if the inode is free, anything may. -/
structure Stands (m : BlockManager) (k : ℕ) (f : File) : Prop where
  size : f.attr.size = UInt32.ofNat f.data.length
  data : k ∈ m.taken → f.data = (fileOf m k).data
  type : k ∈ m.taken → f.attr.type = (fileOf m k).attr.type

theorem stands_fileOf (m : BlockManager) (k : ℕ) : Stands m k (fileOf m k) where
  size := by
    rw [fileOf, BlockManager.length_content, BlockManager.fileSize, UInt32.ofNat_toNat]
    rfl
  data _ := rfl
  type _ := rfl

section

variable {m m' : BlockManager} {j k : ℕ} {f : File}

theorem Stands.elsewhere (h : Stands m' j f) (hm : m.Elsewhere m' k) (hjk : j ≠ k) :
    Stands m j f := by
  refine ⟨h.size, fun hj => ?_, fun hj => ?_⟩
  all_goals
    obtain ⟨hlt, hfree⟩ := mem_taken.1 hj
    have hj' : j ∈ m'.taken := mem_taken.2 ⟨hlt, mt (hm.free j hjk).1 hfree⟩
  · exact (h.data hj').trans (hm.content j hj hjk)
  · rw [h.type hj', fileOf, hm.inode j hlt hjk, fileOf]

end

namespace OnDisk

variable {s s' : OnDisk} {k i : ℕ} {c : Cell} {im : BlockManager} {call : Call} {now : UInt32}
  {junk : Junk} {port eid : ℕ} {type : UInt32}

/-- Inode `k` with all that concerns it, `f` standing for its file. -/
def view (s : OnDisk) (k : ℕ) (f : File) : Cell :=
  (s.cells k).on (decide (k ∈ s.im.freedInode)) f

/-- What holds at any time: the files that are there are in order, and the copies of them and
whatever stands for them are as `Extent.Inv` says. -/
structure Inv (s : OnDisk) : Prop where
  orderly : s.im.Orderly
  cell : ∀ k f, Stands s.im k f → Extent.Inv false k (s.view k f)

namespace Inv

/-- A step that changes one inode. -/
theorem setCell (h : s.Inv) (hm : im.Orderly) (helse : s.im.Elsewhere im k)
    (hc : ∀ f, Stands im k f → Extent.Inv false k (c.on (decide (k ∈ im.freedInode)) f)) :
    ({ s with im := im }.setCell k c).Inv where
  orderly := hm
  cell j f hf := by
    by_cases hj : j = k
    · subst hj
      rw [view, cells_setCell_self]
      exact hc f hf
    · rw [view, cells_setCell_of_ne hj]
      have hfree : decide (j ∈ im.freedInode) = decide (j ∈ s.im.freedInode) :=
        decide_eq_decide.2 (helse.free j hj)
      exact Eq.mpr (congrArg (fun b => Extent.Inv false j ((s.cells j).on b f)) hfree)
        (h.cell j f (hf.elsewhere helse hj))

theorem of_call (h : s.Inv) (heid : eid < inodeNum) (hpending : (s.cells eid).pending = [])
    (port : ℕ) (op : Op) (now : UInt32) :
    (s.setCell eid ((s.cells eid).call port eid op now)).Inv :=
  h.setCell h.orderly (.refl ..) fun f hf => by
    rw [← Cell.call_on]
    exact (h.cell eid f hf).call heid hpending nofun port op now

/-- A step that leaves the files alone. -/
theorem of_nothing (h : s.Inv) (hcall : (s.cells k).pending[i]? = some call)
    (hdemand : (s.cells k).demand call.pc = .nothing) (now : UInt32) :
    (s.setCell k ((s.cells k).serve k i call now)).Inv :=
  h.setCell h.orderly (.refl ..) fun f hf => by
    rw [← Cell.serve_on hdemand]
    exact (h.cell k f hf).serve hcall now

/-- What a step would come to if `f` were the file. -/
theorem meet (h : s.Inv) {f : File} (hf : Stands s.im k f)
    (hcall : (s.cells k).pending[i]? = some call)
    (hdemand : (s.cells k).demand call.pc ≠ .nothing) (now : UInt32) : Extent.Inv false k
      ((s.view k f).meet i call now ((s.cells k).demand call.pc)) := by
  have hserve := (h.cell k f hf).serve hcall now
  have hmeet : (s.view k f).serve k i call now =
      (s.view k f).meet i call now ((s.cells k).demand call.pc) :=
    Cell.serve_of_demand (c := s.view k f) hdemand k i now
  rwa [hmeet] at hserve

theorem lt_of_call (h : s.Inv) (hcall : (s.cells k).pending[i]? = some call) : k < inodeNum :=
  ((h.cell k _ (stands_fileOf s.im k)).of_getElem? hcall).2.1

end Inv

/-! ### The server reads -/

/-- What the server's answer to a `get` is, of a file whose blocks are on the disk. -/
theorem serveGet_eq (h : s.im.Orderly) (hk : k < inodeNum)
    (hdisk : ∀ x ∈ s.im.owned k, x < diskDataNum) (i : ℕ) (call : Call) (attr is_share : Bool)
    (now : UInt32) : s.serveGet k i call attr is_share now =
      { s with im := (s.im.readFile k now).2 }.setCell k
        ({ s.cells k with owners := some ((s.cells k).owners.getD [] ++ [call.port]) }.goto i call
          (.pulled attr ⟨(fileOf s.im k).data, ((fileOf s.im k).read now).attr, is_share⟩)) := by
  obtain ⟨hsize, hdata, hattr, -⟩ := h.readFile hk hdisk now
  have hdata' : (if (s.im.readFile k now).1.size = 0 then []
      else (s.im.readFile k now).1.buf_out.take (s.im.readFile k now).1.size) =
        (fileOf s.im k).data := by
    split
    next hzero =>
      exact (List.length_eq_zero_iff.1
        (BlockManager.length_content.trans (hsize.symm.trans hzero))).symm
    next => exact hdata
  simp only [serveGet, hdata', hattr]
  rfl

/-- What stands for a file that has been read stood for it before. -/
theorem stands_of_readFile {m : BlockManager} {f : File} (h : m.Orderly) (hk : k < inodeNum)
    (hdisk : ∀ x ∈ m.owned k, x < diskDataNum) (hf : Stands (m.readFile k now).2 k f) :
    Stands m k f := by
  obtain ⟨-, -, -, hfree, hattr, hcontent, -⟩ := h.readFile hk hdisk now
  have htaken := BlockManager.taken_of_eq hfree
  refine ⟨hf.size, fun hmem => (hf.data (htaken ▸ hmem)).trans (hcontent hmem), fun hmem => ?_⟩
  rw [hf.type (htaken ▸ hmem), fileOf, hattr]
  rfl

theorem Inv.of_read {attr is_share : Bool} (h : s.Inv)
    (hcall : (s.cells k).pending[i]? = some call)
    (hdemand : (s.cells k).demand call.pc = .read attr is_share)
    (hdisk : ∀ x ∈ s.im.owned k, x < diskDataNum) (now : UInt32) :
    (s.serveGet k i call attr is_share now).Inv := by
  have hk := h.lt_of_call hcall
  obtain ⟨-, -, -, hfree, -, -, helse, hm⟩ := h.orderly.readFile hk hdisk now
  have hget : ∀ f, Stands s.im k f →
      Extent.Inv false k ((s.view k f).serveGet i call attr is_share now) := fun f hf => by
    have hmeet := h.meet hf hcall (by simp [hdemand]) now
    rwa [hdemand] at hmeet
  rw [serveGet_eq h.orderly hk hdisk]
  refine h.setCell hm helse fun f hf => ?_
  have hf' := stands_of_readFile h.orderly hk hdisk hf
  rw [hfree]
  exact (h.cell k f hf').serveGet_on hcall (hget f hf') (hget _ (stands_fileOf ..))

/-! ### The server writes -/

/-- A file that is there is written. -/
theorem fileOf_writeFile {m m' : BlockManager} {buf : Bytes} {t : UInt32} (h : m.Orderly)
    (hk : k ∈ m.taken) (hfits : m.Fits k buf) (hw : m.writeFile k buf junk now = some (t, m')) :
    fileOf m' k = (fileOf m k).write buf now := by
  obtain ⟨-, -, hcontent, hattr, -⟩ := h.writeFile hk hfits hw
  rw [fileOf, hcontent, hattr]
  rfl

theorem Inv.of_write {buf : Bytes} {starts : Bool} {t : UInt32} (h : s.Inv)
    (hcall : (s.cells k).pending[i]? = some call)
    (hdemand : (s.cells k).demand call.pc = .write buf starts) (hk : k ∈ s.im.taken)
    (hfits : s.im.Fits k buf) (hw : s.im.writeFile k buf junk now = some (t, im)) :
    ({ s with im := im }.setCell k
      ({ s.cells k with owners := some [call.port] }.goto i call (.putDone buf starts t))).Inv := by
  obtain ⟨ht, hfree, -, -, helse, hm⟩ := h.orderly.writeFile hk hfits hw
  have hmeet := h.meet (stands_fileOf s.im k) hcall (by simp [hdemand]) now
  rw [hdemand] at hmeet
  refine h.setCell hm helse fun f hf => ?_
  have htaken : k ∈ im.taken := BlockManager.taken_of_eq hfree ▸ hk
  have hfile := fileOf_writeFile h.orderly hk hfits hw
  rw [hfree, ht]
  refine Extent.Inv.of_file ((fileOf s.im k).write buf now) hmeet ?_ ?_ ?_
  · rw [hf.data htaken, hfile]
  · rw [hf.size, hf.data htaken, hfile]
    rfl
  · rw [hf.type htaken, hfile]

theorem Inv.of_writeBack {attr : Bool} {buf : Bytes} {t : UInt32} (h : s.Inv)
    (hcall : (s.cells k).pending[i]? = some call)
    (hdemand : (s.cells k).demand call.pc = .writeBack attr buf) (hk : k ∈ s.im.taken)
    (hfits : s.im.Fits k buf) (hw : s.im.writeFile k buf junk now = some (t, im)) :
    ({ s with im := im }.serveGet k i call attr true now).Inv := by
  obtain ⟨-, hfree, -, -, helse, hm⟩ := h.orderly.writeFile hk hfits hw
  have hmeet := h.meet (stands_fileOf s.im k) hcall (by simp [hdemand]) now
  rw [hdemand] at hmeet
  have htaken : k ∈ im.taken := BlockManager.taken_of_eq hfree ▸ hk
  have hlt := (mem_taken.1 hk).1
  have hdisk := hm.onDisk htaken
  have hfile := fileOf_writeFile h.orderly hk hfits hw
  obtain ⟨-, -, -, hfree', -, -, helse', hm'⟩ := hm.readFile hlt hdisk now
  rw [serveGet_eq (s := { s with im := im }) hm hlt hdisk]
  refine h.setCell hm' (helse.trans helse') fun f hf => ?_
  have hf' := stands_of_readFile hm hlt hdisk hf
  rw [hfree', hfree, hfile]
  refine Extent.Inv.of_file (((fileOf s.im k).write buf now).read now) hmeet ?_ ?_ ?_
  · rw [hf'.data htaken, hfile]
    rfl
  · rw [hf'.size, hf'.data htaken, hfile]
    rfl
  · rw [hf'.type htaken, hfile]
    rfl

/-! ### The server removes and creates -/

theorem Inv.of_remove (h : s.Inv) (hcall : (s.cells k).pending[i]? = some call)
    (hdemand : (s.cells k).demand call.pc = .remove) (hk : k ∈ s.im.taken) :
    ({ s with im := s.im.removeFile k }.setCell k
      (({ s.cells k with owners := none }.note (.removed call.port)).done i)).Inv := by
  obtain ⟨hfree, helse, hm⟩ := h.orderly.removeFile hk
  have hmeet := h.meet (stands_fileOf s.im k) hcall (by simp [hdemand]) 0
  rw [hdemand] at hmeet
  obtain ⟨rfl, -, -, p, pc, rfl, hpending, -⟩ :=
    (h.cell k _ (stands_fileOf s.im k)).of_getElem? hcall
  refine h.setCell hm helse fun f hf => ?_
  rw [hfree, decide_eq_true (Finset.mem_insert_self ..)]
  exact Extent.Inv.of_unknown (fileOf s.im k).remove hmeet
    (congrArg (List.eraseIdx · 0) hpending) content_removed (fun _ => (mem_taken.1 hk).1) hf.size

/-- Both entries are of one inode. -/
theorem create_eq (heid : eid < inodeNum) (s : OnDisk) (port : ℕ) (type : UInt32) :
    s.create port eid type = s.setCell eid
      (({ s.cells eid with owners := some ((s.cells eid).owners.getD [port]) }.wait
        ⟨port, eid, .created type⟩).note (.created type)) := by
  rw [create, inodeOf_of_lt heid, cells_setCell_self, setCell, setCell, Function.update_idem]
  rfl

theorem Inv.of_create (h : s.Inv) (hc : s.im.createFile type now = (eid, im))
    (hne : s.im.freedInode.Nonempty) (hpending : (s.cells eid).pending = [])
    (hown : (s.cells eid).owners = none ∨ (s.cells eid).owners = some [port]) :
    ({ s with im := im }.create port eid type).Inv := by
  obtain ⟨i, m', heq, hlt, hmem, -, hfree, hcontent, hattr, helse, hm⟩ :=
    h.orderly.createFile hne type now
  obtain ⟨rfl, rfl⟩ := Prod.mk.inj (heq.symm.trans hc)
  have hcreate := (h.cell i _ (stands_fileOf s.im i)).create hpending
    (decide_eq_true hmem) hown type now
  rw [create_eq hlt]
  refine h.setCell hm helse fun f hf => ?_
  have hnotfree : i ∉ m'.freedInode := by
    rw [hfree]
    exact Finset.notMem_erase i _
  have htaken := mem_taken.2 ⟨hlt, hnotfree⟩
  have hfile : fileOf m' i = .create type now := by
    rw [fileOf, hcontent, hattr]
    rfl
  rw [decide_eq_false hnotfree]
  refine Extent.Inv.of_file (.create type now) hcreate ?_ ?_ ?_
  · rw [hf.data htaken, hfile]
  · rw [hf.size, hf.data htaken, hfile]
    rfl
  · rw [hf.type htaken, hfile]

/-! ### The beginning -/

theorem Inv.of_start {s₀ : OnDisk} (h0 : start now = some s₀) : s₀.Inv := by
  obtain ⟨s, hs, rfl⟩ := Option.map_eq_some_iff.1 h0
  have hm := (Inode.System.empty_start hs).orderly
  refine ⟨hm, fun k f hf => ?_⟩
  refine Extent.Inv.of_unknown (System.start now k).file (System.inv_start false now k) rfl ?_
    (fun hfree => hm.free_lt k (of_decide_eq_true hfree)) hf.size
  change content false (if k = 1 then [.created tDir] else []) = none
  split
  · rfl
  · rfl

end OnDisk

end Extent
end CseLab
