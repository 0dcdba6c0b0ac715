import CseLab.Lib.Bytes
import Mathlib.Data.List.TakeWhile

/-!
# Directory files

A directory is a file of `struct entry`s, each a name field of 80 bytes and an inode number.  The
operations find their way by byte arithmetic: `entryName` and `entryInum` are `e[i].name` and
`e[i].inum` on whatever bytes the file has, a name being read as a C string up to the first NUL,
wherever that is.

`Entry` is one such record, and `dirFile` the file that a list of them makes.  On such a file the
byte arithmetic is what it should be: `entryInum_dirFile`, `entryName_dirFile` if the name field has
a NUL, `append_dirFile` for a new entry and `splice_dirFile` for one that is taken out.
-/

set_option autoImplicit false

namespace CseLab
namespace Yfs

/-! ## Reading -/

/-- How long `entry::name` is. -/
def nameSize : ℕ := 80

/-- `ENTRY_SIZE`. -/
def entrySize : ℕ := 84

/-- The C string at `pos`; `c_str` puts a NUL behind the last byte. -/
def cString (buf : Bytes) (pos : ℕ) : Bytes := (buf.drop pos).takeWhile (· ≠ 0)

/-- How many entries there are. -/
def fileN (dirFile : Bytes) : ℕ := dirFile.length / entrySize

/-- `e[i].name`. -/
def entryName (dirFile : Bytes) (i : ℕ) : Bytes := cString dirFile (entrySize * i)

/-- `e[i].inum`. -/
def entryInum (dirFile : Bytes) (i : ℕ) : UInt32 :=
  let pos := entrySize * i + nameSize
  wordOf (dirFile.getD pos 0) (dirFile.getD (pos + 1) 0) (dirFile.getD (pos + 2) 0)
    (dirFile.getD (pos + 3) 0)

/-- The entry at which a loop that looks for `name` stops. -/
def findEntry (dirFile name : Bytes) : Option ℕ :=
  (List.range (fileN dirFile)).find? fun i => decide (entryName dirFile i = name)

/-- `yfs_client::dirent`. -/
structure Dirent where
  name : Bytes
  inum : ℕ
  deriving DecidableEq

/-- The entries, one after another. -/
def dirents (dirFile : Bytes) : List Dirent :=
  (List.range (fileN dirFile)).map fun i =>
    ⟨entryName dirFile i, (entryInum dirFile i).toNat⟩

/-! ## Records -/

/-- `struct entry`. -/
structure Entry where
  field : Bytes
  inum : UInt32
  length_field : field.length = nameSize

namespace Entry

/-- The record in memory. -/
def bytes (e : Entry) : Bytes := e.field ++ wordBytes e.inum

/-- The name, if it ends within its field. -/
def name (e : Entry) : Bytes := e.field.takeWhile (· ≠ 0)

/-- It does. -/
def Terminated (e : Entry) : Prop := 0 ∈ e.field

/-- What `readdir` makes of it. -/
def dirent (e : Entry) : Dirent := ⟨e.name, e.inum.toNat⟩

@[simp] theorem length_bytes (e : Entry) : e.bytes.length = entrySize := by
  rw [bytes, List.length_append, e.length_field, length_wordBytes]
  rfl

end Entry

/-- The file that the entries make. -/
def dirFile (es : List Entry) : Bytes := es.flatMap Entry.bytes

@[simp] theorem dirFile_nil : dirFile [] = [] := rfl

@[simp] theorem dirFile_cons (e : Entry) (es : List Entry) :
    dirFile (e :: es) = e.bytes ++ dirFile es := rfl

theorem dirFile_append (es fs : List Entry) : dirFile (es ++ fs) = dirFile es ++ dirFile fs :=
  List.flatMap_append

@[simp] theorem length_dirFile (es : List Entry) : (dirFile es).length = entrySize * es.length := by
  induction es with
  | nil => rfl
  | cons e es ih =>
    rw [dirFile_cons, List.length_append, ih, Entry.length_bytes, List.length_cons, Nat.mul_succ,
      Nat.add_comm]

@[simp] theorem fileN_dirFile (es : List Entry) : fileN (dirFile es) = es.length := by
  rw [fileN, length_dirFile, Nat.mul_div_cancel_left _ (by decide)]

variable {es : List Entry} {e : Entry} {i : ℕ} {name : Bytes}

theorem drop_dirFile (es : List Entry) (i : ℕ) :
    (dirFile es).drop (entrySize * i) = dirFile (es.drop i) := by
  induction i generalizing es with
  | zero => rfl
  | succ i ih =>
    cases es with
    | nil => simp
    | cons e es =>
      rw [dirFile_cons, List.drop_succ_cons, ← ih, Nat.mul_succ, Nat.add_comm, ← List.drop_drop,
        List.drop_left' e.length_bytes]

theorem take_dirFile (es : List Entry) (i : ℕ) :
    (dirFile es).take (entrySize * i) = dirFile (es.take i) := by
  induction i generalizing es with
  | zero => rfl
  | succ i ih =>
    cases es with
    | nil => simp
    | cons e es =>
      rw [dirFile_cons, List.take_succ_cons, dirFile_cons, ← ih, Nat.mul_succ, Nat.add_comm,
        List.take_add, List.take_left' e.length_bytes, List.drop_left' e.length_bytes]

/-- From the `i`-th entry on. -/
theorem drop_dirFile_of_getElem? (h : es[i]? = some e) :
    (dirFile es).drop (entrySize * i) = e.bytes ++ dirFile (es.drop (i + 1)) := by
  obtain ⟨hi, rfl⟩ := List.getElem?_eq_some_iff.1 h
  rw [drop_dirFile, List.drop_eq_getElem_cons hi, dirFile_cons]

/-! ## The byte arithmetic on such a file -/

theorem getD_dirFile (h : es[i]? = some e) {j : ℕ} (hj : j < entrySize) :
    (dirFile es).getD (entrySize * i + j) 0 = e.bytes.getD j 0 := by
  have hdrop : ((dirFile es).drop (entrySize * i)).getD j 0 =
      (dirFile es).getD (entrySize * i + j) 0 := by
    simp only [List.getD_eq_getElem?_getD, List.getElem?_drop]
  rw [← hdrop, drop_dirFile_of_getElem? h]
  simp only [List.getD_eq_getElem?_getD]
  rw [List.getElem?_append_left (by rw [e.length_bytes]; exact hj)]

theorem entryInum_dirFile (h : es[i]? = some e) : entryInum (dirFile es) i = e.inum := by
  have hbyte : ∀ j < 4, (dirFile es).getD (entrySize * i + nameSize + j) 0 =
      (wordBytes e.inum).getD j 0 := by
    intro j hj
    have hlt : nameSize + j < entrySize := Nat.add_lt_add_left hj 80
    rw [Nat.add_assoc, getD_dirFile h hlt, Entry.bytes]
    simp only [List.getD_eq_getElem?_getD]
    rw [List.getElem?_append_right (by rw [e.length_field]; exact Nat.le_add_right ..),
      e.length_field, Nat.add_sub_cancel_left]
  rw [entryInum]
  have h0 := hbyte 0 (by decide)
  rw [Nat.add_zero] at h0
  rw [h0, hbyte 1 (by decide), hbyte 2 (by decide), hbyte 3 (by decide)]
  exact wordOf_byteOf e.inum

/-- A name that ends within its field is read right. -/
theorem entryName_dirFile (h : es[i]? = some e) (ht : e.Terminated) :
    entryName (dirFile es) i = e.name := by
  rw [entryName, cString, drop_dirFile_of_getElem? h, Entry.bytes, List.append_assoc,
    List.takeWhile_append, if_neg, Entry.name]
  intro hlen
  have hall : e.field.takeWhile (· ≠ 0) = e.field :=
    (List.takeWhile_prefix _).eq_of_length hlen
  have hzero : (0 : UInt8) ∈ e.field.takeWhile (· ≠ 0) := hall.symm ▸ ht
  simpa using List.mem_takeWhile_imp hzero

theorem dirents_dirFile (h : ∀ e ∈ es, e.Terminated) :
    dirents (dirFile es) = es.map Entry.dirent := by
  refine List.ext_getElem? fun i => ?_
  rw [dirents, List.getElem?_map, List.getElem?_map, fileN_dirFile]
  cases he : es[i]? with
  | none =>
    rw [List.getElem?_eq_none (by simpa using List.getElem?_eq_none_iff.1 he)]
    rfl
  | some e =>
    obtain ⟨hi, -⟩ := List.getElem?_eq_some_iff.1 he
    rw [List.getElem?_range hi, Option.map_some, Option.map_some,
      entryName_dirFile he (h e (List.mem_of_getElem? he)), entryInum_dirFile he, Entry.dirent]

/-- The inode numbers are there whatever the names are. -/
theorem inums_dirFile (es : List Entry) :
    (dirents (dirFile es)).map Dirent.inum = es.map fun e => e.inum.toNat := by
  refine List.ext_getElem? fun i => ?_
  rw [dirents, List.map_map, List.getElem?_map, List.getElem?_map, fileN_dirFile]
  cases he : es[i]? with
  | none =>
    rw [List.getElem?_eq_none (by simpa using List.getElem?_eq_none_iff.1 he)]
    rfl
  | some e =>
    obtain ⟨hi, -⟩ := List.getElem?_eq_some_iff.1 he
    rw [List.getElem?_range hi, Option.map_some, Option.map_some, Function.comp_apply,
      entryInum_dirFile he]

/-- A new entry at the end. -/
theorem append_dirFile (es : List Entry) (e : Entry) :
    dirFile es ++ e.bytes = dirFile (es ++ [e]) := by
  rw [dirFile_append, dirFile_cons, dirFile_nil, List.append_nil]

/-- One entry less. -/
theorem splice_dirFile (es : List Entry) (i : ℕ) :
    (dirFile es).take (entrySize * i) ++ (dirFile es).drop (entrySize * (i + 1)) =
      dirFile (es.eraseIdx i) := by
  rw [take_dirFile, drop_dirFile, ← dirFile_append, List.eraseIdx_eq_take_drop_succ]

/-! ## Looking a name up -/

theorem findEntry_dirFile_none (ht : ∀ e ∈ es, e.Terminated) :
    findEntry (dirFile es) name = none ↔ ∀ e ∈ es, e.name ≠ name := by
  rw [findEntry, List.find?_range_eq_none, fileN_dirFile]
  constructor
  · intro h e he
    obtain ⟨i, hi, rfl⟩ := List.mem_iff_getElem.1 he
    have hget := List.getElem?_eq_getElem hi
    have hne := h i hi
    rw [entryName_dirFile hget (ht _ he)] at hne
    simpa using hne
  · intro h i hi
    have hget := List.getElem?_eq_getElem hi
    have he := List.getElem_mem hi
    rw [entryName_dirFile hget (ht _ he)]
    simpa using h _ he

theorem findEntry_dirFile_some (ht : ∀ e ∈ es, e.Terminated)
    (h : findEntry (dirFile es) name = some i) : ∃ e, es[i]? = some e ∧ e.name = name := by
  rw [findEntry, List.find?_range_eq_some, List.mem_range, fileN_dirFile] at h
  obtain ⟨hname, hi, -⟩ := h
  have hget := List.getElem?_eq_getElem hi
  rw [entryName_dirFile hget (ht _ (List.getElem_mem hi))] at hname
  exact ⟨_, hget, by simpa using hname⟩

/-! ## Writing -/

/-- The entry that `kreate` fills in, in memory that holds `mem`: `strcpy` writes the name and a NUL
behind it, and the rest of the field stays as it was. -/
def newEntry (mem : ℕ → UInt8) (name : Bytes) (inum : ℕ) : Entry where
  field := (List.range nameSize).map fun j => (name ++ [0]).getD j (mem j)
  inum := UInt32.ofNat inum
  length_field := by rw [List.length_map, List.length_range]

/-- A name that fits is followed by a NUL. -/
theorem newEntry_field (mem : ℕ → UInt8) (inum : ℕ) (hlen : name.length < nameSize) :
    ∃ rest, (newEntry mem name inum).field = name ++ 0 :: rest := by
  have htake : (newEntry mem name inum).field.take (name.length + 1) = name ++ [0] := by
    refine List.ext_getElem? fun j => ?_
    rw [List.getElem?_take]
    split
    next hj =>
      have hj' : j < nameSize := Nat.lt_of_lt_of_le hj hlen
      have hget : j < (name ++ [0]).length := by simpa using hj
      rw [newEntry, List.getElem?_map, List.getElem?_range hj', Option.map_some,
        List.getD_eq_getElem?_getD, List.getElem?_eq_getElem hget, Option.getD_some]
    next hj =>
      exact (List.getElem?_eq_none (by simpa using hj)).symm
  refine ⟨(newEntry mem name inum).field.drop (name.length + 1), ?_⟩
  rw [← List.singleton_append, ← List.append_assoc, ← htake, List.take_append_drop]

theorem newEntry_terminated (mem : ℕ → UInt8) (inum : ℕ) (hlen : name.length < nameSize) :
    (newEntry mem name inum).Terminated := by
  obtain ⟨rest, hrest⟩ := newEntry_field mem inum hlen
  rw [Entry.Terminated, hrest]
  simp

/-- The name comes back. -/
theorem newEntry_name (mem : ℕ → UInt8) (inum : ℕ) (hlen : name.length < nameSize)
    (hnul : 0 ∉ name) : (newEntry mem name inum).name = name := by
  obtain ⟨rest, hrest⟩ := newEntry_field mem inum hlen
  have hall : ∀ b ∈ name, decide (b ≠ 0) = true := fun b hb => decide_eq_true fun h => hnul (h ▸ hb)
  rw [Entry.name, hrest, List.takeWhile_append_of_pos hall, List.takeWhile_cons_of_neg (by simp),
    List.append_nil]

end Yfs
end CseLab
