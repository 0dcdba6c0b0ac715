import CseLab.Inode.Manager
import CseLab.Lib.Locking
import CseLab.Yfs.Ops

/-!
# The operations of lab 2's `yfs_client`

Every operation holds the lock of the inode it is about, and those on directories the lock of an
entry's inode inside that.  The extent server may answer anything: any status, any contents, any
attributes.

* `locks_balanced_iff` — whether an operation gives back the locks it has got, and when it returns.
  `mklink` keeps the lock of the directory if there is an entry of that name.
-/

set_option autoImplicit false

namespace CseLab
namespace Lab2

open Inode (Attr tDir)
open Locking
open Yfs (Dirent Status dirents entryInum entrySize fileN findEntry newEntry tFile tSymlink)

/-! ## The extent server -/

/-- What `extent_client` is asked for. -/
inductive Request
  | getattr (eid : ℕ)
  | get (eid : ℕ) (size offset : ℤ)
  | put (eid : ℕ) (offset free_end : ℤ) (buf : Bytes)
  | create (type : UInt32)
  | remove (eid : ℕ)

/-- The status, and what is stored where the reference argument points. -/
abbrev Request.Answer : Request → Type
  | getattr _ => ℤ × Attr
  | get .. => ℤ × Bytes
  | put .. | remove _ => ℤ
  | create _ => ℤ × ℕ

/-- What is done for a request. -/
abbrev Code := Prog ℕ Request.Answer

namespace Client

def acquire (lid : ℕ) : Code Unit := .acquire lid (.ret ())

def release (lid : ℕ) : Code Unit := .release lid (.ret ())

def getattr (eid : ℕ) : Code (ℤ × Attr) := .ask (.getattr eid) .ret

def get (eid : ℕ) (size offset : ℤ) : Code (ℤ × Bytes) := .ask (.get eid size offset) .ret

def put (eid : ℕ) (offset free_end : ℤ) (buf : Bytes) : Code ℤ :=
  .ask (.put eid offset free_end buf) .ret

def create (type : UInt32) : Code (ℤ × ℕ) := .ask (.create type) .ret

def remove (eid : ℕ) : Code ℤ := .ask (.remove eid) .ret

end Client

/-! ## The operations -/

/-- What they return. -/
inductive Reply
  | type (type : UInt32)
  | status (ret : Status)
  /-- `OK`, and `fin`. -/
  | file (size atime mtime ctime : UInt32)
  /-- `OK`, and `din`. -/
  | dir (atime mtime ctime : UInt32)
  /-- `OK`, and `ino_out`. -/
  | inode (ino : ℕ)
  /-- `OK`, and `ino_out` if `found`. -/
  | found (ino : Option ℕ)
  /-- `OK`, and what is put into the list. -/
  | list (l : List Dirent)
  /-- `OK`, and `data`. -/
  | data (buf : Bytes)

/-- An argument or a size where an `int` is wanted. -/
def toInt (n : ℤ) : ℤ := n.bmod 4294967296

namespace YfsClient

open Client

def getType (inum : ℕ) : Code Reply := do
  acquire inum
  let (status, a) ← getattr inum
  if status ≠ 0 then
    release inum
    return .type 0
  else
    release inum
    return .type a.type

def getfile (inum : ℕ) : Code Reply := do
  acquire inum
  let (status, a) ← getattr inum
  let r : Reply := if status ≠ 0 then .status .ioerr else .file a.size a.atime a.mtime a.ctime
  release inum
  return r

def getdir (inum : ℕ) : Code Reply := do
  acquire inum
  let (status, a) ← getattr inum
  let r : Reply := if status ≠ 0 then .status .ioerr else .dir a.atime a.mtime a.ctime
  release inum
  return r

def setattr (ino size : ℕ) : Code Reply := do
  acquire ino
  let _ ← put ino (toInt size) 1 []
  release ino
  return .status .ok

/-- `yfs_client::kreate`; the new inode, if it is not `EXIST` that is returned.  The memory in which
the new entry is made holds `mem`, and a name that is longer than the record is written past its
end. -/
def kreate (parent : ℕ) (name : Bytes) (file_type : UInt32) (mem : ℕ → UInt8) :
    Code (Option ℕ) := do
  let (_, dir_buf) ← get parent (-1) 0
  match findEntry dir_buf name with
  | some _ => return none
  | none =>
    let (_, id) ← Client.create file_type
    if entrySize ≤ name.length then .fail
    else
      let _ ← put parent (toInt dir_buf.length) 0 (newEntry mem name id).bytes
      return some id

/-- What `create` and `mkdir` return. -/
def kreated : Option ℕ → Reply
  | none => .status .exist
  | some id => .inode id

def create (parent : ℕ) (name : Bytes) (mem : ℕ → UInt8) : Code Reply := do
  acquire parent
  let tmp ← kreate parent name tFile mem
  release parent
  return kreated tmp

def mkdir (parent : ℕ) (name : Bytes) (mem : ℕ → UInt8) : Code Reply := do
  acquire parent
  let tmp ← kreate parent name tDir mem
  release parent
  return kreated tmp

def mklink (parent : ℕ) (name link : Bytes) (mem : ℕ → UInt8) : Code Reply := do
  acquire parent
  match ← kreate parent name tSymlink mem with
  | none => return .status .exist
  | some ino_out =>
    acquire ino_out
    let _ ← put ino_out 0 0 link
    release ino_out
    release parent
    return .inode ino_out

def lookup (parent : ℕ) (name : Bytes) : Code Reply := do
  acquire parent
  let (_, a) ← getattr parent
  if a.type ≠ tDir then
    release parent
    return .status .rpcerr
  else
    let (_, buf) ← get parent (-1) 0
    let found := (findEntry buf name).map fun i => (entryInum buf i).toNat
    release parent
    return .found found

def readdir (dir : ℕ) : Code Reply := do
  acquire dir
  let (_, buf) ← get dir (-1) 0
  release dir
  return .list (dirents buf)

def read (ino size : ℕ) (off : ℤ) : Code Reply := do
  acquire ino
  let (_, data) ← get ino (toInt size) (toInt off)
  release ino
  return .data data

def write (ino : ℕ) (off : ℤ) (data : Bytes) : Code Reply := do
  acquire ino
  let _ ← put ino (toInt off) 0 data
  release ino
  return .status .ok

/-- `yfs_client::unlink`; the loop that looks for the name removes the inode when it has found it,
and stops. -/
def unlink (parent : ℕ) (name : Bytes) : Code Reply := do
  acquire parent
  let (_, buf) ← get parent (-1) 0
  match findEntry buf name with
  | none =>
    release parent
    return .status .noent
  | some i =>
    let inum := (entryInum buf i).toNat
    acquire inum
    let _ ← remove inum
    release inum
    let buff :=
      if i + 1 = fileN buf then []
      else (buf.drop (entrySize * (i + 1))).take (entrySize * (fileN buf - 1 - i))
    let _ ← put parent (toInt (entrySize * i : ℕ)) 1 buff
    release parent
    return .status .ok

end YfsClient

/-- What a user asks for; in `write`, `data` is as long as `size` says. -/
inductive Operation
  | getType (inum : ℕ)
  | getfile (inum : ℕ)
  | getdir (inum : ℕ)
  | setattr (ino size : ℕ)
  | create (parent : ℕ) (name : Bytes) (mem : ℕ → UInt8)
  | mkdir (parent : ℕ) (name : Bytes) (mem : ℕ → UInt8)
  | mklink (parent : ℕ) (name link : Bytes) (mem : ℕ → UInt8)
  | lookup (parent : ℕ) (name : Bytes)
  | readdir (dir : ℕ)
  | read (ino size : ℕ) (off : ℤ)
  | write (ino : ℕ) (off : ℤ) (data : Bytes)
  | unlink (parent : ℕ) (name : Bytes)

namespace Operation

/-- The client's code. -/
def code : Operation → Code Reply
  | getType inum => YfsClient.getType inum
  | getfile inum => YfsClient.getfile inum
  | getdir inum => YfsClient.getdir inum
  | setattr ino size => YfsClient.setattr ino size
  | create parent name mem => YfsClient.create parent name mem
  | mkdir parent name mem => YfsClient.mkdir parent name mem
  | mklink parent name link mem => YfsClient.mklink parent name link mem
  | lookup parent name => YfsClient.lookup parent name
  | readdir dir => YfsClient.readdir dir
  | read ino size off => YfsClient.read ino size off
  | write ino off data => YfsClient.write ino off data
  | unlink parent name => YfsClient.unlink parent name

end Operation

/-! ## What becomes of the locks -/

/-- What the server answers, call by call. -/
abbrev Answers := ℕ → (q : Request) → q.Answer

section

variable (answers : Answers)

/-- What an operation that begins with reading the directory finds in it. -/
def contents (parent : ℕ) : Bytes := (answers 0 (.get parent (-1) 0)).2

/-- The inode that `kreate` gets. -/
def newInode (type : UInt32) : ℕ := (answers 1 (.create type)).2

namespace Operation

/-- The directory in which a symbolic link is to be made has an entry of that name. -/
def LinkExists : Operation → Prop
  | mklink parent name .. => findEntry (contents answers parent) name ≠ none
  | _ => False

/-- No name is written past the end of the record, and no inode that an operation gets into its
hands is the directory itself. -/
def Ends : Operation → Prop
  | create parent name _ | mkdir parent name _ =>
    findEntry (contents answers parent) name = none → name.length < entrySize
  | mklink parent name .. =>
    findEntry (contents answers parent) name = none →
      name.length < entrySize ∧ newInode answers tSymlink ≠ parent
  | unlink parent name => ∀ i, findEntry (contents answers parent) name = some i →
      (entryInum (contents answers parent) i).toNat ≠ parent
  | _ => True

/-- What is done for the request, by a client that has no lock. -/
def outcome (op : Operation) : Outcome ℕ Reply := op.code.run answers 0 []

end Operation
end

variable {answers : Answers} {parent lid n : ℕ} {name : Bytes} {type : UInt32} {mem : ℕ → UInt8}
  {held : List ℕ}

section

variable {eid : ℕ} {size offset free_end : ℤ} {buf : Bytes}

@[simp] theorem ensures_lock {post : Unit → ℕ → List ℕ → Prop} :
    Ensures answers (Client.acquire lid) n held post ↔ lid ∉ held ∧ post () n (lid :: held) :=
  Iff.rfl

@[simp] theorem ensures_unlock {post : Unit → ℕ → List ℕ → Prop} :
    Ensures answers (Client.release lid) n held post ↔ lid ∈ held ∧ post () n (held.erase lid) :=
  Iff.rfl

@[simp] theorem ensures_getattr {post : ℤ × Attr → ℕ → List ℕ → Prop} :
    Ensures answers (Client.getattr eid) n held post ↔
      post (answers n (.getattr eid)) (n + 1) held := Iff.rfl

@[simp] theorem ensures_get {post : ℤ × Bytes → ℕ → List ℕ → Prop} :
    Ensures answers (Client.get eid size offset) n held post ↔
      post (answers n (.get eid size offset)) (n + 1) held := Iff.rfl

@[simp] theorem ensures_put {post : ℤ → ℕ → List ℕ → Prop} :
    Ensures answers (Client.put eid offset free_end buf) n held post ↔
      post (answers n (.put eid offset free_end buf)) (n + 1) held := Iff.rfl

@[simp] theorem ensures_create {post : ℤ × ℕ → ℕ → List ℕ → Prop} :
    Ensures answers (Client.create type) n held post ↔
      post (answers n (.create type)) (n + 1) held := Iff.rfl

@[simp] theorem ensures_remove {post : ℤ → ℕ → List ℕ → Prop} :
    Ensures answers (Client.remove eid) n held post ↔
      post (answers n (.remove eid)) (n + 1) held := Iff.rfl

end

/-- `kreate` touches no lock. -/
theorem ensures_kreate {post : Option ℕ → ℕ → List ℕ → Prop} :
    Ensures answers (YfsClient.kreate parent name type mem) 0 held post ↔
    (findEntry (contents answers parent) name ≠ none → post none 1 held) ∧
    (findEntry (contents answers parent) name = none → name.length < entrySize ∧
      post (some (newInode answers type)) 3 held) := by
  simp only [YfsClient.kreate, ensures_bind, ensures_get]
  change Ensures answers (match findEntry (contents answers parent) name with
    | some _ => pure none
    | none => _) 1 held post ↔ _
  cases findEntry (contents answers parent) name with
  | some i => simp
  | none =>
    rw [← not_le]
    by_cases h : entrySize ≤ name.length
    · simp [h]
    · simp [h, newInode]

/-- `create` and `mkdir`. -/
theorem ensures_locked_kreate
    (h : findEntry (contents answers parent) name = none → name.length < entrySize) :
    Ensures answers (do
      Client.acquire parent
      let tmp ← YfsClient.kreate parent name type mem
      Client.release parent
      return YfsClient.kreated tmp) 0 [] fun _ _ held => held = [] := by
  simp only [ensures_bind, ensures_lock, ensures_kreate]
  exact ⟨List.not_mem_nil, fun _ => by simp, fun hnone => ⟨h hnone, by simp⟩⟩

theorem ensures_mklink {link : Bytes} (hnone : findEntry (contents answers parent) name = none)
    (hlen : name.length < entrySize) (hne : newInode answers tSymlink ≠ parent) :
    Ensures answers (YfsClient.mklink parent name link mem) 0 [] fun _ _ held => held = [] := by
  simp only [YfsClient.mklink, ensures_bind, ensures_lock, ensures_kreate]
  exact ⟨List.not_mem_nil, fun hsome => absurd hnone hsome, fun _ => ⟨hlen, by simp [hne]⟩⟩

/-- `mklink` keeps the lock if there is an entry of that name. -/
theorem ensures_mklink_exists {link : Bytes}
    (hsome : findEntry (contents answers parent) name ≠ none) :
    Ensures answers (YfsClient.mklink parent name link mem) 0 [] fun _ _ held =>
      held = [parent] := by
  simp only [YfsClient.mklink, ensures_bind, ensures_lock, ensures_kreate]
  exact ⟨List.not_mem_nil, fun _ => rfl, fun hnone => absurd hnone hsome⟩

theorem ensures_unlink (h : ∀ i, findEntry (contents answers parent) name = some i →
      (entryInum (contents answers parent) i).toNat ≠ parent) :
    Ensures answers (YfsClient.unlink parent name) 0 [] fun _ _ held => held = [] := by
  simp only [YfsClient.unlink, ensures_bind, ensures_lock, ensures_get]
  refine ⟨List.not_mem_nil, ?_⟩
  cases hfind : findEntry (answers 0 (.get parent (-1) 0)).2 name with
  | none => simp
  | some i =>
    have hne : (entryInum (answers 0 (.get parent (-1) 0)).2 i).toNat ≠ parent := h i hfind
    simp [hne]

/-- The operations that return with no lock. -/
theorem ensures_code {op : Operation} (h : op.Ends answers) (hlink : ¬ op.LinkExists answers) :
    Ensures answers op.code 0 [] fun _ _ held => held = [] := by
  cases op with
  | getType inum => simp [Operation.code, YfsClient.getType]
  | getfile inum => simp [Operation.code, YfsClient.getfile]
  | getdir inum => simp [Operation.code, YfsClient.getdir]
  | setattr ino size => simp [Operation.code, YfsClient.setattr]
  | create parent name mem => exact ensures_locked_kreate h
  | mkdir parent name mem => exact ensures_locked_kreate h
  | mklink parent name link mem =>
    have hnone : findEntry (contents answers parent) name = none := not_not.1 hlink
    exact ensures_mklink hnone (h hnone).1 (h hnone).2
  | lookup parent name => simp [Operation.code, YfsClient.lookup]
  | readdir dir => simp [Operation.code, YfsClient.readdir]
  | read ino size off => simp [Operation.code, YfsClient.read]
  | write ino off data => simp [Operation.code, YfsClient.write]
  | unlink parent name => exact ensures_unlink h

/-- And the one that does not. -/
theorem ensures_of_linkExists {op : Operation} (h : op.LinkExists answers) :
    ∃ parent, Ensures answers op.code 0 [] fun _ _ held => held = [parent] := by
  cases op with
  | mklink parent name link mem => exact ⟨parent, ensures_mklink_exists h⟩
  | _ => exact h.elim

/-! ### When an operation does not return -/

/-- What is done after `kreate` begins only if the name fits. -/
theorem returns_kreate {f : Option ℕ → Code Reply}
    (h : ((YfsClient.kreate parent name type mem >>= f).run answers 0 held).Returns)
    (hnone : findEntry (contents answers parent) name = none) :
    name.length < entrySize ∧ ((f (some (newInode answers type))).run answers 3 held).Returns := by
  rw [contents] at hnone
  by_cases hlen : entrySize ≤ name.length
  · simp [YfsClient.kreate, Client.get, Client.create, hnone, hlen] at h
  · refine ⟨not_le.1 hlen, ?_⟩
    simpa [YfsClient.kreate, Client.get, Client.create, Client.put, newInode, hnone, hlen] using h

/-- An operation that returns has not written past the end of a record, and has not asked for a lock
twice. -/
theorem ends_of_returns {op : Operation} (h : (op.outcome answers).Returns) : op.Ends answers := by
  cases op with
  | create parent name mem => exact fun hnone => (returns_kreate (returns_acquire.1 h).2 hnone).1
  | mkdir parent name mem => exact fun hnone => (returns_kreate (returns_acquire.1 h).2 hnone).1
  | mklink parent name link mem =>
    intro hnone
    obtain ⟨hlen, hrest⟩ := returns_kreate (returns_acquire.1 h).2 hnone
    exact ⟨hlen, fun heq => (returns_acquire.1 hrest).1 (List.mem_singleton.2 heq)⟩
  | unlink parent name =>
    intro i hfind heq
    rw [contents] at hfind heq
    simp [Operation.outcome, Operation.code, YfsClient.unlink, Client.acquire, Client.get, hfind,
      heq] at h
  | _ => trivial

/-- **The locks of lab 2's `yfs_client`** are balanced whenever an operation returns, but for a
`mklink` of a name that is taken.  It returns if no name and no inode number is out of place. -/
theorem locks_balanced_iff (op : Operation) (answers : Answers) :
    ((op.outcome answers).Returns ↔ op.Ends answers) ∧
      ((op.outcome answers).Returns →
        (Balanced (op.outcome answers).log ↔ ¬ op.LinkExists answers)) := by
  refine ⟨⟨ends_of_returns, fun h => ?_⟩, fun h => ?_⟩
  · by_cases hlink : op.LinkExists answers
    · obtain ⟨parent, hkept⟩ := ensures_of_linkExists hlink
      exact hkept.returns
    · exact (ensures_code h hlink).returns
  · constructor
    · intro hb hlink
      obtain ⟨parent, hkept⟩ := ensures_of_linkExists hlink
      obtain ⟨r, held, -, hmoves, rfl⟩ := hkept.run
      exact List.cons_ne_nil _ _ (hmoves.balanced_iff_nil.1 hb)
    · intro hlink
      obtain ⟨r, held, -, hmoves, rfl⟩ := (ensures_code (ends_of_returns h) hlink).run
      exact hmoves

/-- An extent server on which every call is a success: every file is `dir`, and `ino` is every new
inode. -/
def Answers.ok (dir : Bytes) (ino : ℕ) : Answers
  | _, .getattr _ => (0, ⟨tDir, 0, 0, 0, 0⟩)
  | _, .get .. => (0, dir)
  | _, .put .. => (0 : ℤ)
  | _, .create _ => (0, ino)
  | _, .remove _ => (0 : ℤ)

/-- A link is made in the empty root. -/
theorem locks_balanced_link :
    Balanced ((Operation.mklink 1 [97] [98] fun _ => 0).outcome (.ok [] 2)).log := by
  have hends : (Operation.mklink 1 [97] [98] fun _ => 0).Ends (.ok [] 2) :=
    fun _ => ⟨by decide, show (2 : ℕ) ≠ 1 by decide⟩
  have h := locks_balanced_iff (.mklink 1 [97] [98] fun _ => 0) (.ok [] 2)
  exact (h.2 (h.1.2 hends)).2 fun hlink => hlink rfl

/-- And then another of the same name. -/
theorem not_locks_balanced : ¬ ∀ (op : Operation) (answers : Answers),
    (op.outcome answers).Returns → Balanced (op.outcome answers).log := by
  intro hall
  let dir : Bytes := (newEntry (fun _ => 0) [97] 2).bytes
  have hkept : Ensures (Answers.ok dir 3) (Operation.mklink 1 [97] [98] fun _ => 0).code 0 []
      fun _ _ held => held = [1] :=
    ensures_mklink_exists (show findEntry dir [97] ≠ none by decide)
  obtain ⟨r, held, -, hmoves, rfl⟩ := hkept.run
  exact List.cons_ne_nil _ _ (hmoves.balanced_iff_nil.1 (hall _ _ hkept.returns))

end Lab2
end CseLab
