import CseLab.Inode.Manager
import CseLab.Lib.Journal
import CseLab.Lib.Roster

/-!
# Extents and their caches

`extent_server` over an inode store that is ideal, and the `extent_client`s that cache what it
holds.  That each inode has a file of its own is so on the disk for the files that are there
(`OnDisk.refines`), and for no others.  A client answers `get`, `getattr` and `put` from its own
copy where it can; otherwise it asks the server, which knows by `owner_map` who has a copy, and
calls back the owners to have a copy shared or dropped.

What concerns one inode makes up a `Cell`: the inode itself, its entry in `owner_map`, the clients'
copies of it and the calls about it that are under way.  A call is served in steps, with any others
in between; a step is what one process does between two messages.  Clients are told apart by their
ports.

The server reduces an id to an inode number (`inodeOf`), while a client keeps its copies by the id
it was asked for; so a cell has room for a client's copies under several ids.  The reduced id is
what the server calls back with.

What happened to an extent is put on record in `log`, and `content` and `typeOf` read off it what
the file ought to be.
-/

set_option autoImplicit false

namespace CseLab
namespace Extent

open Inode (Attr inodeNum inodeOf tDir)

/-! ## A client's copy and the server's file -/

/-- `extent_client::extent_status`. -/
inductive Status
  | exclusive
  | shared
  | modified
  deriving DecidableEq

/-- `extent_client::extent_t`. -/
structure ExtentT where
  data : Bytes
  attr : Attr
  status : Status
  deriving DecidableEq

/-- `new extent_t()`, all whose members are zeroed. -/
def ExtentT.blank : ExtentT := ⟨[], ⟨0, 0, 0, 0, 0⟩, .exclusive⟩

/-- What a `put` sets in the attributes. -/
def written (attr : Attr) (buf : Bytes) (now : UInt32) : Attr :=
  { attr with size := UInt32.ofNat buf.length, atime := now, mtime := now, ctime := now }

/-- `extent_client::put` on a copy that the client has to itself. -/
def ExtentT.put (e : ExtentT) (buf : Bytes) (now : UInt32) : ExtentT :=
  ⟨buf, written e.attr buf now, .modified⟩

/-- `extent_client::put` on the client's copy, once the server has answered with the type. -/
def ExtentT.putDone (e : ExtentT) (buf : Bytes) (type now : UInt32) : ExtentT :=
  ⟨buf, { written e.attr buf now with type := type }, .exclusive⟩

/-- The copy that `extent_client::create` inserts. -/
def ExtentT.created (type now : UInt32) : ExtentT := ⟨[], ⟨type, now, now, now, 0⟩, .exclusive⟩

/-- The copy, used at `now`. -/
def ExtentT.touch (e : ExtentT) (now : UInt32) : ExtentT :=
  { e with attr := { e.attr with atime := now } }

/-- `rextent_protocol::share_result`. -/
structure ShareResult where
  update : Bool
  data : Bytes
  deriving DecidableEq

/-- `extent_client::share_handler` on a copy that was found. -/
def ExtentT.share (e : ExtentT) : ShareResult × ExtentT :=
  (if e.status = .modified then ⟨true, e.data⟩ else ⟨false, []⟩, { e with status := .shared })

/-- `extent_protocol::get_result`. -/
structure GetResult where
  data : Bytes
  attr : Attr
  is_share : Bool
  deriving DecidableEq

/-- The copy that `extent_client::pull_helper` makes of the server's answer. -/
def GetResult.extent (r : GetResult) : ExtentT :=
  ⟨r.data, r.attr, if r.is_share then .shared else .exclusive⟩

/-- An inode with its file. -/
structure File where
  data : Bytes
  attr : Attr
  deriving DecidableEq

/-- `inode_manager::create_file`. -/
def File.create (type now : UInt32) : File := ⟨[], ⟨type, now, now, now, 0⟩⟩

/-- `inode_manager::read_file`. -/
def File.read (f : File) (now : UInt32) : File := { f with attr := { f.attr with atime := now } }

/-- `inode_manager::write_file`. -/
def File.write (f : File) (buf : Bytes) (now : UInt32) : File := ⟨buf, written f.attr buf now⟩

/-- `inode_manager::remove_file`. -/
def File.remove (f : File) : File := { f with attr := { f.attr with type := 0 } }

/-! ## What is on record -/

/-- What happened to an extent: it was created or removed, a client's `put` returned, or a client's
`get` or `getattr` returned with what it was told.  The `put` by which a client starts is marked. -/
inductive Event
  | created (type : UInt32)
  | put (port : ℕ) (buf : Bytes) (starts : Bool)
  | removed (port : ℕ)
  | got (port : ℕ) (buf : Bytes)
  | attr (port : ℕ) (a : Attr)
  deriving DecidableEq

/-- The file's contents as the clients' `put`s have left them: `""` from the `create` on, or, unless
`fresh`, nothing in particular until there has been a `put`. -/
def content (fresh : Bool) : List Event → Option Bytes :=
  List.foldl (fun content e =>
    match e with
    | .created _ => if fresh then some [] else none
    | .put _ buf false => some buf
    | .removed _ => none
    | _ => content) none

/-- The type the extent was created with, while it is not removed. -/
def typeOf : List Event → Option UInt32 :=
  List.foldl (fun type e =>
    match e with
    | .created type => some type
    | .removed _ => none
    | _ => type) none

/-! ## All that concerns one inode -/

/-- Where a client's call has got to.

* `get`: not served yet; `sharing`: `share` is out to an owner; `shared`: that owner has answered;
  `pulled`: the server has.  What is to be returned is the attributes if `attr`.
* `put`: not served yet; `putting`: the server is at its loop over the owners, with `todo` ahead;
  `putDone`: it has answered.
* `remove`, `removing`: likewise.
* `created`: the server has answered a `create`. -/
inductive Pc
  | get (attr : Bool)
  | sharing (attr : Bool) (owner : ℕ)
  | shared (attr : Bool) (r : ShareResult)
  | pulled (attr : Bool) (r : GetResult)
  | put (buf : Bytes) (starts : Bool)
  | putting (buf : Bytes) (starts : Bool) (todo : List ℕ)
  | putDone (buf : Bytes) (starts : Bool) (type : UInt32)
  | remove
  | removing (todo : List ℕ)
  | created (type : UInt32)
  deriving DecidableEq

/-- The owner the server is about to call back. -/
def Pc.callee : Pc → Option ℕ
  | .sharing _ owner => some owner
  | .putting _ _ todo => todo.head?
  | .removing todo => todo.head?
  | _ => none

/-- A call under way, of the client at `port`, about `eid`. -/
structure Call where
  port : ℕ
  eid : ℕ
  pc : Pc
  deriving DecidableEq

/-- One inode with all that concerns it; `cache port eid` is the entry in the client's `extent_map`.
Once an assertion has failed, or an entry that is gone has been used, the cell is `crashed`. -/
structure Cell where
  free : Bool
  file : File
  owners : Option (List ℕ)
  cache : ℕ → ℕ → Option ExtentT
  pending : List Call
  crashed : Bool
  log : List Event

/-- What a client asks of its `extent_client`. -/
inductive Op
  | get
  | getattr
  | put (buf : Bytes)
  | remove
  deriving DecidableEq

namespace Cell

/-- `extent_map[eid] = e`, or its erasure. -/
def setCache (c : Cell) (port eid : ℕ) (e : Option ExtentT) : Cell :=
  { c with cache := Function.update c.cache port (Function.update (c.cache port) eid e) }

/-- `extent_map.insert`, which keeps an entry that is there. -/
def insert (c : Cell) (port eid : ℕ) (e : ExtentT) : Cell :=
  c.setCache port eid (some ((c.cache port eid).getD e))

def note (c : Cell) (e : Event) : Cell := { c with log := c.log ++ [e] }

def wait (c : Cell) (call : Call) : Cell := { c with pending := c.pending ++ [call] }

/-- `extent_client::get` and `getattr` have come by the copy `e`. -/
def answer (c : Cell) (port : ℕ) (attr : Bool) (e : ExtentT) : Cell :=
  c.note (if attr then .attr port e.attr else .got port e.data)

/-- `extent_client::get` and `getattr`, up to the call of the server. -/
def callGet (c : Cell) (port eid : ℕ) (attr : Bool) (now : UInt32) : Cell :=
  match c.cache port eid with
  | some e => (c.setCache port eid (some (e.touch now))).answer port attr (e.touch now)
  | none => c.wait ⟨port, eid, .get attr⟩

/-- `extent_client::put`, up to the call of the server. -/
def callPut (c : Cell) (port eid : ℕ) (buf : Bytes) (starts : Bool) (now : UInt32) : Cell :=
  match c.cache port eid with
  | some e =>
    if e.status = .shared then c.wait ⟨port, eid, .put buf starts⟩
    else (c.setCache port eid (some (e.put buf now))).note (.put port buf starts)
  | none => (c.setCache port eid (some .blank)).wait ⟨port, eid, .put buf starts⟩

/-- `extent_client::remove`, up to the call of the server. -/
def callRemove (c : Cell) (port eid : ℕ) : Cell :=
  (c.setCache port eid none).wait ⟨port, eid, .remove⟩

section

variable {c : Cell} {port eid : ℕ} {e : ExtentT}

theorem callGet_of_some (h : c.cache port eid = some e) (attr : Bool) (now : UInt32) :
    c.callGet port eid attr now =
      (c.setCache port eid (some (e.touch now))).answer port attr (e.touch now) := by
  rw [callGet, h]

theorem callGet_of_none (h : c.cache port eid = none) (attr : Bool) (now : UInt32) :
    c.callGet port eid attr now = c.wait ⟨port, eid, .get attr⟩ := by
  rw [callGet, h]

theorem callPut_of_shared (h : c.cache port eid = some e) (hst : e.status = .shared) (buf : Bytes)
    (starts : Bool) (now : UInt32) :
    c.callPut port eid buf starts now = c.wait ⟨port, eid, .put buf starts⟩ := by
  rw [callPut, h]
  exact if_pos hst

theorem callPut_of_ne (h : c.cache port eid = some e) (hst : e.status ≠ .shared) (buf : Bytes)
    (starts : Bool) (now : UInt32) :
    c.callPut port eid buf starts now =
      (c.setCache port eid (some (e.put buf now))).note (.put port buf starts) := by
  rw [callPut, h]
  exact if_neg hst

theorem callPut_of_none (h : c.cache port eid = none) (buf : Bytes) (starts : Bool)
    (now : UInt32) : c.callPut port eid buf starts now =
      (c.setCache port eid (some .blank)).wait ⟨port, eid, .put buf starts⟩ := by
  rw [callPut, h]

end

/-- A client begins a call. -/
def call (c : Cell) (port eid : ℕ) (op : Op) (now : UInt32) : Cell :=
  match op with
  | .get => c.callGet port eid false now
  | .getattr => c.callGet port eid true now
  | .put buf => c.callPut port eid buf false now
  | .remove => c.callRemove port eid

/-- `extent_server::create` has been given this inode. -/
def create (c : Cell) (port eid : ℕ) (type now : UInt32) : Cell :=
  { c with
    free := false
    file := .create type now
    owners := some (c.owners.getD [port])
    pending := c.pending ++ [⟨port, eid, .created type⟩]
    log := c.log ++ [.created type] }

/-- The `i`-th call goes on at `pc`. -/
def goto (c : Cell) (i : ℕ) (call : Call) (pc : Pc) : Cell :=
  { c with pending := c.pending.set i { call with pc := pc } }

/-- The `i`-th call returns. -/
def done (c : Cell) (i : ℕ) : Cell := { c with pending := c.pending.eraseIdx i }

def crash (c : Cell) : Cell := { c with crashed := true }

/-- The end of `extent_server::get`. -/
def serveGet (c : Cell) (i : ℕ) (call : Call) (attr is_share : Bool) (now : UInt32) : Cell :=
  { c with
    owners := some (c.owners.getD [] ++ [call.port])
    file := c.file.read now }.goto i call
      (.pulled attr ⟨c.file.data, (c.file.read now).attr, is_share⟩)

/-- The end of `extent_server::put`. -/
def servePut (c : Cell) (i : ℕ) (call : Call) (buf : Bytes) (starts : Bool) (now : UInt32) : Cell :=
  { c with
    owners := some [call.port]
    file := c.file.write buf now }.goto i call (.putDone buf starts c.file.attr.type)

/-- The end of `extent_server::remove`. -/
def serveRemove (c : Cell) (i : ℕ) (call : Call) : Cell :=
  ({ c with free := true, owners := none, file := c.file.remove }.note
    (.removed call.port)).done i

/-- `extent_client::invalidate_handler` at `owner`, after which the call is at `pc`. -/
def invalidate (c : Cell) (k i owner : ℕ) (call : Call) (pc : Pc) : Cell :=
  match c.cache owner k with
  | some _ => (c.setCache owner k none).goto i call pc
  | none => c.crash

theorem invalidate_of_isSome {c : Cell} {k owner : ℕ} (h : (c.cache owner k).isSome) (i : ℕ)
    (call : Call) (pc : Pc) :
    c.invalidate k i owner call pc = (c.setCache owner k none).goto i call pc := by
  obtain ⟨e, he⟩ := Option.isSome_iff_exists.1 h
  rw [invalidate, he]

/-- The `i`-th call takes its next step. -/
def serve (c : Cell) (k i : ℕ) (call : Call) (now : UInt32) : Cell :=
  match call.pc with
  | .get attr =>
    match c.owners with
    | none => c.serveGet i call attr false now
    | some [owner] => c.goto i call (.sharing attr owner)
    | some _ => c.serveGet i call attr true now
  | .sharing attr owner =>
    match c.cache owner k with
    | some e => (c.setCache owner k (some e.share.2)).goto i call (.shared attr e.share.1)
    | none => c.crash
  | .shared attr r =>
    match c.owners with
    | some _ =>
      { c with file := if r.update then c.file.write r.data now else c.file }.serveGet i call attr
        true now
    | none => c.crash
  | .pulled attr r =>
    let e := (c.cache call.port call.eid).getD r.extent
    ((c.setCache call.port call.eid (some e)).answer call.port attr e).done i
  | .put buf starts =>
    match c.owners with
    | none => c.servePut i call buf starts now
    | some owners => c.goto i call (.putting buf starts (owners.filter (· ≠ call.port)))
  | .putting buf starts (owner :: todo) =>
    c.invalidate k i owner call (.putting buf starts todo)
  | .putting buf starts [] =>
    match c.owners with
    | some _ => c.servePut i call buf starts now
    | none => c.crash
  | .putDone buf starts type =>
    match c.cache call.port call.eid with
    | some e =>
      ((c.setCache call.port call.eid (some (e.putDone buf type now))).note
        (.put call.port buf starts)).done i
    | none => c.crash
  | .remove =>
    match c.owners with
    | none => c.serveRemove i call
    | some owners => c.goto i call (.removing (owners.filter (· ≠ call.port)))
  | .removing (owner :: todo) => c.invalidate k i owner call (.removing todo)
  | .removing [] =>
    match c.owners with
    | some _ => c.serveRemove i call
    | none => c.crash
  | .created type =>
    (c.insert call.port call.eid (.created type now)).done i

end Cell

/-! ## The server and all clients -/

/-- The inodes. -/
abbrev System := ℕ → Cell

/-- What can happen: a `create` is served with `eid`, a client begins a call, a client starts, or a
call under way takes its next step. -/
inductive Action
  | create (port : ℕ) (type : UInt32) (eid : ℕ) (now : UInt32)
  | call (port eid : ℕ) (op : Op) (now : UInt32)
  | start (port : ℕ) (now : UInt32)
  | serve (k i : ℕ) (now : UInt32)
  deriving DecidableEq

namespace System

variable (s : System)

/-- `inode_manager::create_file` takes the smallest inode that is free; a store that is full does
not come up.  A client starts with a `put` on the root. -/
def step : Action → Option System
  | .create port type eid now =>
    if (s eid).free ∧ ¬ (s eid).crashed ∧ ∀ k < eid, ¬ (s k).free then
      some (Function.update s eid ((s eid).create port eid type now))
    else none
  | .call port eid op now =>
    if (s (inodeOf eid)).crashed then none
    else some (Function.update s (inodeOf eid) ((s (inodeOf eid)).call port eid op now))
  | .start port now =>
    if (s 1).crashed then none
    else some (Function.update s 1 ((s 1).callPut port 1 [] true now))
  | .serve k i now =>
    if (s k).crashed then none
    else ((s k).pending[i]?).map fun call => Function.update s k ((s k).serve k i call now)

/-- What the constructor of `extent_server` leaves: the root, and nothing else but free inodes. -/
def start (now : UInt32) : System := fun k =>
  { free := 2 ≤ k ∧ k < inodeNum
    file := if k = 1 then .create tDir now else ⟨[], ⟨0, 0, 0, 0, 0⟩⟩
    owners := none
    cache := fun _ _ => none
    pending := []
    crashed := false
    log := if k = 1 then [.created tDir] else [] }

end System

end Extent
end CseLab
