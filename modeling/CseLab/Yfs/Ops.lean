import CseLab.Lib.Atomic.Machine
import CseLab.Yfs.Dir
import CseLab.Yfs.Splice
import CseLab.Inode.Manager

/-!
# The operations of `yfs_client`

What a client does for each request, call by call: the locks it gets and gives up, and what it asks
the extent server.  The server is taken for an ideal one, which keeps what is put into it: `Server`
leaves open which number it gives to a new extent, as long as no extent has it.

`kreated` and `unlinked` say what is left of the operations on directories if nobody else is at
work.
-/

set_option autoImplicit false

namespace CseLab
namespace Yfs

open Atomic (Heap Proc)
open Inode (inodeNum tDir)

/-! ## The extent server -/

/-- `extent_protocol::T_FILE`. -/
def tFile : UInt32 := 2

/-- `extent_protocol::T_SYMLINK`. -/
def tSymlink : UInt32 := 3

/-- An extent; if its type is 0, there is none. -/
structure Extent where
  type : UInt32
  data : Bytes

namespace Extent

/-- What is where no extent is. -/
def gone : Extent := ⟨0, []⟩

/-- `extent_server::put`. -/
def put (e : Extent) (buf : Bytes) : Extent := { e with data := buf }

end Extent

/-- The extents by number. -/
abbrev Store := ℕ → Extent

/-- How the server chooses the number of a new extent, by the types of those there are; `none` if
there is no room for one more.  A number fits into an `entry`. -/
structure Server where
  next : (ℕ → UInt32) → Option ℕ
  next_free : ∀ types id, next types = some id → types id = 0
  next_lt : ∀ types id, next types = some id → id < 4294967296

/-- The server's extents. -/
def Server.heap (S : Server) : Heap ℕ Extent UInt32 where
  kind := Extent.type
  gone := Extent.gone
  next := S.next
  next_gone := S.next_free

/-- `inode_manager` gives out the lowest number that is free. -/
def Server.lowest : Server where
  next types := (List.range' 1 (inodeNum - 1)).find? fun id => types id = 0
  next_free types id h := by simpa using List.find?_some h
  next_lt types id h := by
    have hmem := List.mem_range'_1.1 (List.mem_of_find?_eq_some h)
    rw [Inode.inodeNum_eq] at hmem
    omega

/-- There is a root directory and nothing else. -/
def emptyRoot : Store := Function.update (fun _ => .gone) 1 ⟨tDir, []⟩

/-! ## Requests -/

/-- `yfs_client::status`. -/
inductive Status
  | ok
  | rpcerr
  | noent
  | ioerr
  | exist
  deriving DecidableEq

/-- What a user asks for.  In `create`, `mkdir` and `mklink` the memory in which the new entry is
made holds `mem`; in `write`, `data` is as long as `size` says. -/
inductive Op
  | create (parent : ℕ) (name : Bytes) (mem : ℕ → UInt8)
  | mkdir (parent : ℕ) (name : Bytes) (mem : ℕ → UInt8)
  | mklink (parent : ℕ) (name link : Bytes) (mem : ℕ → UInt8)
  | unlink (parent : ℕ) (name : Bytes)
  | lookup (parent : ℕ) (name : Bytes)
  | readdir (dir : ℕ)
  | read (ino size off : ℕ)
  | write (ino : ℕ) (data : Bytes) (off : ℕ)
  | setattr (ino size : ℕ)

/-- The answer. -/
inductive Reply
  /-- A status alone. -/
  | status (ret : Status)
  /-- `OK`, and `ino_out`. -/
  | inode (ino : ℕ)
  /-- `OK`, and `ino_out` if `found`. -/
  | found (ino : Option ℕ)
  /-- `OK`, and what is in the directory. -/
  | list (l : List Dirent)
  /-- `OK`, and what is in the file. -/
  | data (buf : Bytes)
  deriving DecidableEq

/-- What is done for a request. -/
abbrev Code := Proc ℕ Extent Reply

/-! ## What is done for them -/

namespace Client

/-- `yfs_client::kreate`, and then `k`, with the new inode unless there is one of that name.  A name
that is longer than the record is written past its end. -/
def kreate (parent : ℕ) (name : Bytes) (fileType : UInt32) (mem : ℕ → UInt8)
    (k : Option ℕ → Code) : Code :=
  .get parent fun e =>
    let dirFile := e.data
    if dirFile.length % entrySize ≠ 0 then .fail
    else
      match findEntry dirFile name with
      | some _ => k none
      | none =>
        if entrySize ≤ name.length then .fail
        else
          .create ⟨fileType, []⟩ fun ino =>
            .put parent (·.put (dirFile ++ (newEntry mem name ino).bytes)) (k (some ino))

/-- What `kreate` makes `create` and `mkdir` return. -/
def kreateReply : Option ℕ → Reply
  | none => .status .exist
  | some ino => .inode ino

/-- `yfs_client::create`. -/
def create (parent : ℕ) (name : Bytes) (mem : ℕ → UInt8) : Code :=
  .acquire parent (kreate parent name tFile mem fun ino =>
    .release parent (.ret (kreateReply ino)))

/-- `yfs_client::mkdir`. -/
def mkdir (parent : ℕ) (name : Bytes) (mem : ℕ → UInt8) : Code :=
  .acquire parent (kreate parent name tDir mem fun ino =>
    .release parent (.ret (kreateReply ino)))

/-- `yfs_client::mklink`. -/
def mklink (parent : ℕ) (name link : Bytes) (mem : ℕ → UInt8) : Code :=
  .acquire parent (kreate parent name tSymlink mem fun
    | none => .release parent (.ret (.status .exist))
    | some ino =>
      .acquire ino (.put ino (·.put link) (.release ino
        (.release parent (.ret (.inode ino))))))

/-- `yfs_client::unlink`. -/
def unlink (parent : ℕ) (name : Bytes) : Code :=
  .acquire parent (.get parent fun e =>
    let dirFile := e.data
    if dirFile.length % entrySize ≠ 0 then .fail
    else
      match findEntry dirFile name with
      | none => .release parent (.ret (.status .noent))
      | some i =>
        let inum := (entryInum dirFile i).toNat
        .acquire inum (.remove inum (.release inum
          (.put parent
            (·.put (dirFile.take (entrySize * i) ++ dirFile.drop (entrySize * (i + 1))))
            (.release parent (.ret (.status .ok)))))))

/-- `yfs_client::lookup`. -/
def lookup (parent : ℕ) (name : Bytes) : Code :=
  .acquire parent (.get parent fun a =>
    if a.type ≠ tDir then .release parent (.ret (.status .rpcerr))
    else
      .get parent fun e =>
        let dirFile := e.data
        if dirFile.length % entrySize ≠ 0 then .fail
        else
          .release parent (.ret (.found
            ((findEntry dirFile name).map fun i => (entryInum dirFile i).toNat))))

/-- `yfs_client::readdir`. -/
def readdir (dir : ℕ) : Code :=
  .acquire dir (.get dir fun e =>
    if e.data.length % entrySize ≠ 0 then .fail
    else .release dir (.ret (.list (dirents e.data))))

/-- `yfs_client::read`; `substr` throws if it is asked for a position behind the end. -/
def read (ino size off : ℕ) : Code :=
  .acquire ino (.get ino fun e =>
    if e.data.length < off then .fail
    else .release ino (.ret (.data ((e.data.drop off).take size))))

/-- `yfs_client::write`. -/
def write (ino : ℕ) (data : Bytes) (off : ℕ) : Code :=
  .acquire ino (.get ino fun e =>
    match writeFile e.data data off with
    | none => .fail
    | some newData => .put ino (·.put newData) (.release ino (.ret (.status .ok))))

/-- `yfs_client::setattr`. -/
def setattr (ino size : ℕ) : Code :=
  .acquire ino (.get ino fun e =>
    .put ino (·.put (setattrFile e.data size)) (.release ino (.ret (.status .ok))))

end Client

/-- The client's code. -/
def Op.code : Op → Code
  | create parent name mem => Client.create parent name mem
  | mkdir parent name mem => Client.mkdir parent name mem
  | mklink parent name link mem => Client.mklink parent name link mem
  | unlink parent name => Client.unlink parent name
  | lookup parent name => Client.lookup parent name
  | readdir dir => Client.readdir dir
  | read ino size off => Client.read ino size off
  | write ino data off => Client.write ino data off
  | setattr ino size => Client.setattr ino size

/-- The inode a request is about. -/
def Op.inode : Op → ℕ
  | create parent .. | mkdir parent .. | mklink parent .. | unlink parent _ | lookup parent _ =>
    parent
  | readdir dir => dir
  | read ino .. | write ino .. | setattr ino _ => ino

/-! ## What they come to alone -/

/-- The store with a new inode `ino`, and an entry for it at the end of `parent`. -/
def withEntry (s : Store) (parent : ℕ) (name : Bytes) (mem : ℕ → UInt8) (ino : ℕ) (e : Extent) :
    Store :=
  Function.update (Function.update s ino e) parent
    ((s parent).put ((s parent).data ++ (newEntry mem name ino).bytes))

/-- The store without the `i`-th entry of `parent` and without its inode. -/
def withoutEntry (s : Store) (parent i : ℕ) : Store :=
  let dirFile := (s parent).data
  Function.update (Function.update s (entryInum dirFile i).toNat .gone) parent
    ((s parent).put (dirFile.take (entrySize * i) ++ dirFile.drop (entrySize * (i + 1))))

/-- What `create`, `mkdir` and `mklink` come to: the new inode has the type `fileType` and what is
in it is `content`. -/
def kreated (S : Server) (s : Store) (parent : ℕ) (name : Bytes) (fileType : UInt32)
    (content : Bytes) (mem : ℕ → UInt8) : Option (Reply × Store) :=
  let dirFile := (s parent).data
  if dirFile.length % entrySize ≠ 0 then none
  else
    match findEntry dirFile name with
    | some _ => some (.status .exist, s)
    | none =>
      if entrySize ≤ name.length then none
      else
        (S.next fun id => (s id).type).map fun ino =>
          (.inode ino, withEntry s parent name mem ino ⟨fileType, content⟩)

/-- What `unlink` comes to. -/
def unlinked (s : Store) (parent : ℕ) (name : Bytes) : Option (Reply × Store) :=
  let dirFile := (s parent).data
  if dirFile.length % entrySize ≠ 0 then none
  else
    match findEntry dirFile name with
    | none => some (.status .noent, s)
    | some i =>
      if (entryInum dirFile i).toNat = parent then none
      else some (.status .ok, withoutEntry s parent i)

section

variable {S : Server} {s : Store} {parent : ℕ} {name : Bytes} {fileType : UInt32}
  {mem : ℕ → UInt8} {held : List ℕ}

/-- A new inode is not one that is in use. -/
theorem Server.next_ne {ino : ℕ} (hlive : (s parent).type ≠ 0)
    (hnext : S.next (fun id => (s id).type) = some ino) : parent ≠ ino := by
  rintro rfl
  exact hlive (S.next_free _ _ hnext)

theorem alone_kreate (k : Option ℕ → Code) (hlive : (s parent).type ≠ 0) :
    (Client.kreate parent name fileType mem k).alone S.heap held s =
      if (s parent).data.length % entrySize ≠ 0 then none
      else
        match findEntry (s parent).data name with
        | some _ => (k none).alone S.heap held s
        | none =>
          if entrySize ≤ name.length then none
          else
            (S.next fun id => (s id).type).bind fun ino => (k (some ino)).alone S.heap held
              (withEntry s parent name mem ino ⟨fileType, []⟩) := by
  simp only [Client.kreate, Proc.alone]
  split
  next => rfl
  next =>
    cases findEntry (s parent).data name with
    | some i => rfl
    | none =>
      simp only
      split
      next => rfl
      next =>
        rw [Proc.alone]
        refine Option.bind_congr fun ino hino => ?_
        rw [Proc.alone, Function.update_of_ne (S.next_ne hlive hino), withEntry]

/-- `create` and `mkdir`. -/
theorem alone_kreate_release (hlive : (s parent).type ≠ 0) :
    Proc.alone S.heap (.acquire parent (Client.kreate parent name fileType mem fun ino =>
      .release parent (.ret (Client.kreateReply ino)))) [] s =
      kreated S s parent name fileType [] mem := by
  rw [Proc.alone, if_neg List.not_mem_nil, alone_kreate _ hlive, kreated]
  refine if_congr Iff.rfl rfl ?_
  cases findEntry (s parent).data name with
  | some i => rfl
  | none =>
    refine if_congr Iff.rfl rfl ?_
    rw [Option.map_eq_bind]
    rfl

theorem alone_create (hlive : (s parent).type ≠ 0) :
    (Op.create parent name mem).code.alone S.heap [] s = kreated S s parent name tFile [] mem :=
  alone_kreate_release hlive

theorem alone_mkdir (hlive : (s parent).type ≠ 0) :
    (Op.mkdir parent name mem).code.alone S.heap [] s = kreated S s parent name tDir [] mem :=
  alone_kreate_release hlive

theorem alone_mklink {link : Bytes} (hlive : (s parent).type ≠ 0) :
    (Op.mklink parent name link mem).code.alone S.heap [] s =
      kreated S s parent name tSymlink link mem := by
  rw [Op.code, Client.mklink, Proc.alone, if_neg List.not_mem_nil, alone_kreate _ hlive, kreated]
  refine if_congr Iff.rfl rfl ?_
  cases findEntry (s parent).data name with
  | some i => rfl
  | none =>
    refine if_congr Iff.rfl rfl ?_
    rw [Option.map_eq_bind]
    refine Option.bind_congr fun ino hino => ?_
    have hne := S.next_ne hlive hino
    simp only [Proc.alone, List.mem_singleton, if_neg (Ne.symm hne)]
    rw [withEntry, Function.update_of_ne (Ne.symm hne), Function.update_self,
      Function.update_comm hne, Function.update_idem]
    rfl

theorem alone_unlink :
    (Op.unlink parent name).code.alone S.heap [] s = unlinked s parent name := by
  rw [Op.code, Client.unlink, Proc.alone, if_neg List.not_mem_nil, Proc.alone, unlinked]
  simp only
  split
  next => rfl
  next =>
    cases findEntry (s parent).data name with
    | none => rfl
    | some i =>
      simp only [Proc.alone, List.mem_singleton]
      split
      next => rfl
      next hne =>
        rw [Function.update_of_ne (Ne.symm hne)]
        rfl

theorem alone_lookup :
    (Op.lookup parent name).code.alone S.heap [] s =
      if (s parent).type ≠ tDir then some (.status .rpcerr, s)
      else if (s parent).data.length % entrySize ≠ 0 then none
      else some (.found ((findEntry (s parent).data name).map fun i =>
        (entryInum (s parent).data i).toNat), s) := by
  rw [Op.code, Client.lookup, Proc.alone, if_neg List.not_mem_nil, Proc.alone]
  split
  next => rfl
  next =>
    rw [Proc.alone]
    simp only
    split
    next => rfl
    next => rfl

theorem alone_readdir {dir : ℕ} :
    (Op.readdir dir).code.alone S.heap [] s =
      if (s dir).data.length % entrySize ≠ 0 then none
      else some (.list (dirents (s dir).data), s) := by
  rw [Op.code, Client.readdir, Proc.alone, if_neg List.not_mem_nil, Proc.alone]
  split
  next => rfl
  next => rfl

end

end Yfs
end CseLab
