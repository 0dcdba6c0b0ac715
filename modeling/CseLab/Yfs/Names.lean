import CseLab.Yfs.Directory

/-!
# Long names

The name field of an `entry` has 80 bytes, and the file system takes names of up to 255.  `kreate`
copies whatever it is given.  A name of 80 bytes or more goes on into the four bytes of the inode
number, which is then written over it; one of 84 bytes or more goes on behind the record.

Read back, such a name is its first 80 bytes and the inode number's up to the first NUL, and if it
is to be the name that was asked for then it has to end in just these bytes.  Besides, if there is
no NUL in the last record of the directory, what is read there now goes on into the new one.
`entries_faithful_iff` says that nothing else goes wrong.
-/

set_option autoImplicit false

namespace CseLab
namespace Yfs

open Inode (tDir)

/-! ## Reading a directory file of any contents -/

section

variable {file : Bytes} {e : Entry} {i : ℕ} {name : Bytes}

/-- There is a NUL in the last record. -/
def Sealed (file : Bytes) : Prop := file = [] ∨ 0 ∈ file.drop (file.length - entrySize)

theorem mul_fileN (h : file.length % entrySize = 0) : entrySize * fileN file = file.length :=
  Nat.mul_div_cancel' (Nat.dvd_of_mod_eq_zero h)

theorem fileN_append (file : Bytes) (e : Entry) :
    fileN (file ++ e.bytes) = fileN file + 1 := by
  rw [fileN, List.length_append, e.length_bytes, Nat.add_div_right _ (by decide), fileN]

theorem le_length (hi : i < fileN file) : entrySize * i + entrySize ≤ file.length :=
  Nat.le_trans (Nat.mul_le_mul_left entrySize hi) (Nat.mul_div_le ..)

theorem entryInum_append (hi : i < fileN file) (e : Entry) :
    entryInum (file ++ e.bytes) i = entryInum file i := by
  have hle := le_length hi
  have hbyte : ∀ j < 4, (file ++ e.bytes).getD (entrySize * i + nameSize + j) 0 =
      file.getD (entrySize * i + nameSize + j) 0 := by
    intro j hj
    have hlt : entrySize * i + nameSize + j < file.length := by
      simp only [entrySize, nameSize] at hle ⊢
      omega
    simp only [List.getD_eq_getElem?_getD, List.getElem?_append_left hlt]
  simp only [entryInum]
  rw [hbyte 1 (by decide), hbyte 2 (by decide), hbyte 3 (by decide)]
  have h0 := hbyte 0 (by decide)
  rw [Nat.add_zero] at h0
  rw [h0]

theorem entryInum_last (h : file.length % entrySize = 0) (e : Entry) :
    entryInum (file ++ e.bytes) (fileN file) = e.inum := by
  have hbyte : ∀ j < 4, (file ++ e.bytes).getD (entrySize * fileN file + nameSize + j) 0 =
      (wordBytes e.inum).getD j 0 := by
    intro j hj
    simp only [List.getD_eq_getElem?_getD]
    rw [mul_fileN h, Nat.add_assoc, List.getElem?_append_right (Nat.le_add_right ..),
      Nat.add_sub_cancel_left, Entry.bytes,
      List.getElem?_append_right (by rw [e.length_field]; exact Nat.le_add_right ..),
      e.length_field, Nat.add_sub_cancel_left]
  have h0 := hbyte 0 (by decide)
  rw [Nat.add_zero] at h0
  rw [entryInum]
  rw [h0, hbyte 1 (by decide), hbyte 2 (by decide), hbyte 3 (by decide)]
  exact wordOf_byteOf e.inum

theorem takeWhile_append_of_mem {l : Bytes} (h : 0 ∈ l) (l' : Bytes) :
    (l ++ l').takeWhile (· ≠ 0) = l.takeWhile (· ≠ 0) := by
  rw [List.takeWhile_append, if_neg]
  intro hlen
  have hall : l.takeWhile (· ≠ 0) = l := (List.takeWhile_prefix _).eq_of_length hlen
  have hzero : (0 : UInt8) ∈ l.takeWhile (· ≠ 0) := hall.symm ▸ h
  simpa using List.mem_takeWhile_imp hzero

theorem takeWhile_append_of_notMem {l : Bytes} (h : 0 ∉ l) (l' : Bytes) :
    (l ++ l').takeWhile (· ≠ 0) = l ++ l'.takeWhile (· ≠ 0) :=
  List.takeWhile_append_of_pos fun _ hb => decide_eq_true fun h0 => h (h0 ▸ hb)

/-- An old name is what it was, unless it has no end. -/
theorem entryName_append (hi : i < fileN file) (hname : e.bytes.takeWhile (· ≠ 0) ≠ []) :
    entryName (file ++ e.bytes) i = entryName file i ↔ 0 ∈ file.drop (entrySize * i) := by
  have hle : entrySize * i ≤ file.length := Nat.le_trans (Nat.le_add_right ..) (le_length hi)
  rw [entryName, entryName, cString, cString, List.drop_append_of_le_length hle]
  by_cases hzero : 0 ∈ file.drop (entrySize * i)
  · exact iff_of_true (takeWhile_append_of_mem hzero _) hzero
  · refine iff_of_false (fun heq => hname ?_) hzero
    have hself : (file.drop (entrySize * i)).takeWhile (· ≠ 0) = file.drop (entrySize * i) := by
      simpa using takeWhile_append_of_notMem hzero []
    rwa [takeWhile_append_of_notMem hzero, hself, List.append_right_eq_self] at heq

theorem entryName_last (h : file.length % entrySize = 0) (e : Entry) :
    entryName (file ++ e.bytes) (fileN file) = e.bytes.takeWhile (· ≠ 0) := by
  rw [entryName, cString, mul_fileN h, List.drop_left]

/-- The old names are all what they were. -/
theorem names_append (h : file.length % entrySize = 0)
    (hname : e.bytes.takeWhile (· ≠ 0) ≠ []) :
    (∀ i < fileN file, entryName (file ++ e.bytes) i = entryName file i) ↔ Sealed file := by
  constructor
  · intro hall
    by_cases hnil : file = []
    · exact .inl hnil
    · have hpos : 0 < fileN file := by
        rw [Nat.pos_iff_ne_zero]
        intro h0
        have hlen := mul_fileN h
        rw [h0, Nat.mul_zero] at hlen
        exact hnil (List.eq_nil_of_length_eq_zero hlen.symm)
      have hlast := Nat.sub_one_lt_of_lt hpos
      have hmem := (entryName_append hlast hname).1 (hall _ hlast)
      rw [Nat.mul_sub_one, mul_fileN h] at hmem
      exact .inr hmem
  · rintro (rfl | hmem) i hi
    · exact absurd hi (by simp [fileN])
    · refine (entryName_append hi hname).2 ?_
      have hle := le_length hi
      obtain ⟨k, hk⟩ := Nat.exists_eq_add_of_le (Nat.le_sub_of_add_le hle)
      rw [hk, ← List.drop_drop] at hmem
      exact List.mem_of_mem_drop hmem

/-- **The directory with one more record** reads as it did with one more entry. -/
theorem dirents_append_iff (h : file.length % entrySize = 0)
    (hname : e.bytes.takeWhile (· ≠ 0) ≠ []) :
    dirents (file ++ e.bytes) = dirents file ++ [⟨name, e.inum.toNat⟩] ↔
      Sealed file ∧ e.bytes.takeWhile (· ≠ 0) = name := by
  have hnew : dirents (file ++ e.bytes) =
      ((List.range (fileN file)).map fun i =>
        ⟨entryName (file ++ e.bytes) i, (entryInum file i).toNat⟩) ++
      [⟨e.bytes.takeWhile (· ≠ 0), e.inum.toNat⟩] := by
    rw [dirents, fileN_append, List.range_succ, List.map_append, List.map_singleton,
      entryName_last h, entryInum_last h]
    congr 1
    refine List.map_congr_left fun i hi => ?_
    rw [entryInum_append (List.mem_range.1 hi)]
  rw [hnew, dirents, List.append_singleton_inj, List.map_inj_left, ← names_append h hname]
  simp

/-- The new name is found where it has been put. -/
theorem findEntry_append (h : file.length % entrySize = 0) (hseal : Sealed file)
    (hne : name ≠ []) (hname : e.bytes.takeWhile (· ≠ 0) = name)
    (hnone : findEntry file name = none) :
    findEntry (file ++ e.bytes) name = some (fileN file) := by
  have hall := (names_append h (hname ▸ hne)).2 hseal
  rw [findEntry, List.find?_range_eq_none] at hnone
  rw [findEntry, fileN_append, List.find?_range_eq_some]
  refine ⟨by rw [entryName_last h, hname]; simp, by simp, fun j hj => ?_⟩
  rw [hall j hj]
  exact hnone j hj

end

/-! ## The new record -/

section

variable {name : Bytes} (mem : ℕ → UInt8) (ino : ℕ)

/-- A name that does not fit into its field fills it. -/
theorem newEntry_field_long (h : nameSize ≤ name.length) :
    (newEntry mem name ino).field = name.take nameSize := by
  refine List.ext_getElem? fun j => ?_
  rw [List.getElem?_take, newEntry, List.getElem?_map]
  split
  · rename_i hj
    have hlt : j < name.length := Nat.lt_of_lt_of_le hj h
    rw [List.getElem?_range hj, Option.map_some, List.getD_eq_getElem?_getD,
      List.getElem?_append_left hlt, List.getElem?_eq_getElem hlt, Option.getD_some]
  · rename_i hj
    rw [List.getElem?_eq_none (by simpa using hj), Option.map_none]

/-- The bytes of `name` behind the field are those of the number. -/
def Overlaid (name : Bytes) (ino : ℕ) : Prop :=
  name.drop nameSize = (wordBytes (UInt32.ofNat ino)).takeWhile (· ≠ 0)

/-- What is read back. -/
theorem newEntry_reads (hnul : 0 ∉ name) :
    (newEntry mem name ino).bytes.takeWhile (· ≠ 0) = name ↔
      name.length < nameSize ∨ Overlaid name ino := by
  by_cases hlen : name.length < nameSize
  · refine iff_of_true ?_ (.inl hlen)
    rw [Entry.bytes, takeWhile_append_of_mem (newEntry_terminated mem ino hlen)]
    exact newEntry_name mem ino hlen hnul
  · have hle := Nat.not_lt.1 hlen
    have htake : 0 ∉ name.take nameSize := fun h => hnul (List.mem_of_mem_take h)
    rw [or_iff_right hlen, Entry.bytes, newEntry_field_long mem ino hle,
      takeWhile_append_of_notMem htake]
    constructor
    · intro h
      have hdrop := congrArg (List.drop nameSize) h
      rw [List.drop_left' (by simp [hle])] at hdrop
      exact hdrop.symm
    · intro h
      exact (congrArg (name.take nameSize ++ ·) h.symm).trans (List.take_append_drop ..)

/-- Something is. -/
theorem newEntry_reads_ne_nil (hne : name ≠ []) (hnul : 0 ∉ name) :
    (newEntry mem name ino).bytes.takeWhile (· ≠ 0) ≠ [] := by
  by_cases hlen : name.length < nameSize
  · rwa [(newEntry_reads mem ino hnul).2 (.inl hlen)]
  · have htake : 0 ∉ name.take nameSize := fun h => hnul (List.mem_of_mem_take h)
    rw [Entry.bytes, newEntry_field_long mem ino (Nat.not_lt.1 hlen),
      takeWhile_append_of_notMem htake]
    simp [hne, nameSize]

end

/-! ## What should happen -/

variable {S : Server} {s s' : Store} {d ino : ℕ} {name : Bytes} {op : Op}

/-- The directory `d` has got the entry `name`, for the inode `ino`, and nothing else has been
written. -/
structure Added (S : Server) (s s' : Store) (d : ℕ) (name : Bytes) (ino : ℕ) : Prop where
  readdir : (Op.readdir d).code.alone S.heap [] s' =
    some (.list (dirents (s d).data ++ [⟨name, ino⟩]), s')
  lookup : (Op.lookup d name).code.alone S.heap [] s' = some (.found (some ino), s')
  /-- The entry can be taken out again. -/
  unlink : ∃ s'', (Op.unlink d name).code.alone S.heap [] s' = some (.status .ok, s'') ∧
    s'' d = s d
  /-- The new entry is behind the old ones. -/
  file : ∃ e : Entry, s' d = (s d).put ((s d).data ++ e.bytes)
  others : ∀ i, i ≠ d → i ≠ ino → s' i = s i

/-- The request `op`, which is to make `name` in `d`, fails and changes nothing, or does so. -/
def Faithful (S : Server) (s : Store) (d : ℕ) (name : Bytes) (op : Op) : Prop :=
  ∃ r s', op.code.alone S.heap [] s = some (r, s') ∧
    ((∃ e, r = .status e ∧ e ≠ .ok) ∧ s' = s ∨ ∃ ino, r = .inode ino ∧ Added S s s' d name ino)

/-- The directory is whole records, and has the name already; or there is a NUL in the last of them,
an inode left, and the name is shorter than its field or goes on like the inode's number. -/
def Encodable (S : Server) (s : Store) (d : ℕ) (name : Bytes) : Prop :=
  (s d).data.length % entrySize = 0 ∧ (findEntry (s d).data name ≠ none ∨
    Sealed (s d).data ∧ ∃ ino, S.next (fun id => (s id).type) = some ino ∧
      (name.length < nameSize ∨ name.length < entrySize ∧ Overlaid name ino))

section

/-- What the requests that make something do. -/
theorem alone_creates (hname : op.creates = some name) (hd : op.inode = d)
    (hlive : (s d).type ≠ 0) :
    ∃ t content mem, op.code.alone S.heap [] s = kreated S s d name t content mem := by
  subst hd
  cases op with
  | create | mkdir | mklink =>
    cases hname
    first
    | exact ⟨_, _, _, alone_create hlive⟩
    | exact ⟨_, _, _, alone_mkdir hlive⟩
    | exact ⟨_, _, _, alone_mklink hlive⟩
  | _ => cases hname

variable {mem : ℕ → UInt8} {e : Extent}

/-- **If the record reads right**, all operations see the new entry. -/
theorem added_withEntry (hdir : (s d).type = tDir) (h : (s d).data.length % entrySize = 0)
    (hseal : Sealed (s d).data) (hne : name ≠ []) (hnone : findEntry (s d).data name = none)
    (hnext : S.next (fun id => (s id).type) = some ino)
    (hname : (newEntry mem name ino).bytes.takeWhile (· ≠ 0) = name) :
    Added S s (withEntry s d name mem ino e) d name ino := by
  have hlive : (s d).type ≠ 0 := by rw [hdir]; decide
  have hino : (newEntry mem name ino).inum.toNat = ino :=
    UInt32.toNat_ofNat_of_lt' (S.next_lt _ _ hnext)
  have hfile : withEntry s d name mem ino e d =
      (s d).put ((s d).data ++ (newEntry mem name ino).bytes) := Function.update_self ..
  have hdata : (withEntry s d name mem ino e d).data =
      (s d).data ++ (newEntry mem name ino).bytes := by rw [hfile]; rfl
  have hmult : (withEntry s d name mem ino e d).data.length % entrySize = 0 := by
    rw [hdata, List.length_append, Entry.length_bytes, Nat.add_mod_right, h]
  have hfind : findEntry (withEntry s d name mem ino e d).data name =
      some (fileN (s d).data) := by
    rw [hdata, findEntry_append h hseal hne hname hnone]
  have hinum : (entryInum (withEntry s d name mem ino e d).data (fileN (s d).data)).toNat = ino := by
    rw [hdata, entryInum_last h, hino]
  refine ⟨?_, ?_, ?_, ⟨_, hfile⟩, fun i hi hi' => ?_⟩
  · rw [alone_readdir, if_neg (not_not.2 hmult), hdata,
      (dirents_append_iff h (by rw [hname]; exact hne)).2 ⟨hseal, hname⟩, hino]
  · rw [alone_lookup, if_neg (not_not.2 (by rw [hfile]; exact hdir)), if_neg (not_not.2 hmult),
      hfind, Option.map_some, hinum]
  · refine ⟨withoutEntry (withEntry s d name mem ino e) d (fileN (s d).data), ?_, ?_⟩
    · rw [alone_unlink, unlinked, if_neg (not_not.2 hmult), hfind]
      simp only
      rw [if_neg (by rw [hinum]; exact Ne.symm (S.next_ne hlive hnext))]
    · have hlen : entrySize * (fileN (s d).data + 1) =
          ((s d).data ++ (newEntry mem name ino).bytes).length := by
        rw [Nat.mul_succ, mul_fileN h, List.length_append, Entry.length_bytes]
      rw [withoutEntry, Function.update_self, hdata, hlen, List.drop_length, mul_fileN h,
        List.take_left, List.append_nil, hfile]
      rfl
  · rw [withEntry, Function.update_of_ne hi, Function.update_of_ne hi']

/-- If `readdir` shows the new entry, the record reads right. -/
theorem Added.reads (h : Added S s (withEntry s d name mem ino e) d name ino)
    (hmult : (s d).data.length % entrySize = 0) (hino : ino < 4294967296) (hne : name ≠ [])
    (hnul : 0 ∉ name) :
    Sealed (s d).data ∧ (newEntry mem name ino).bytes.takeWhile (· ≠ 0) = name := by
  have hdata : (withEntry s d name mem ino e d).data =
      (s d).data ++ (newEntry mem name ino).bytes := by
    rw [withEntry, Function.update_self]
    rfl
  have hmult' : (withEntry s d name mem ino e d).data.length % entrySize = 0 := by
    rw [hdata, List.length_append, Entry.length_bytes, Nat.add_mod_right, hmult]
  have hread := h.readdir
  rw [alone_readdir, if_neg (not_not.2 hmult'), hdata] at hread
  obtain ⟨hlist, -⟩ := Prod.mk.inj (Option.some_inj.1 hread)
  have hinum : (newEntry mem name ino).inum.toNat = ino := UInt32.toNat_ofNat_of_lt' hino
  rw [Reply.list.injEq] at hlist
  exact (dirents_append_iff hmult (newEntry_reads_ne_nil mem ino hne hnul)).1 (by rwa [hinum])

theorem Faithful.encodable (h : Faithful S s d name op) (hlive : (s d).type ≠ 0)
    (hd : op.inode = d) (hname : op.creates = some name) (hne : name ≠ []) (hnul : 0 ∉ name) :
    Encodable S s d name := by
  obtain ⟨t, content, mem, hop⟩ := alone_creates hname hd hlive
  obtain ⟨r, s', hs, hends⟩ := h
  rw [hop, kreated] at hs
  obtain ⟨hmult, hs⟩ := Option.ite_none_left_eq_some.1 hs
  have hmult := not_not.1 hmult
  refine ⟨hmult, ?_⟩
  cases hfind : findEntry (s d).data name with
  | some i => exact .inl (by simp)
  | none =>
    rw [hfind] at hs
    obtain ⟨hlen, hs⟩ := Option.ite_none_left_eq_some.1 hs
    obtain ⟨ino, hnext, hs⟩ := Option.map_eq_some_iff.1 hs
    cases hs
    rcases hends with ⟨⟨e, he, -⟩, -⟩ | ⟨ino', hino', hadded⟩
    · cases he
    · cases hino'
      obtain ⟨hseal, hread⟩ := hadded.reads hmult (S.next_lt _ _ hnext) hne hnul
      exact .inr ⟨hseal, ino, hnext, ((newEntry_reads mem ino hnul).1 hread).imp_right
        fun hover => ⟨Nat.not_le.1 hlen, hover⟩⟩

theorem Encodable.faithful (h : Encodable S s d name) (hdir : (s d).type = tDir)
    (hd : op.inode = d) (hname : op.creates = some name) (hne : name ≠ []) (hnul : 0 ∉ name) :
    Faithful S s d name op := by
  obtain ⟨t, content, mem, hop⟩ := alone_creates (S := S) (s := s) hname hd (by rw [hdir]; decide)
  obtain ⟨hmult, hcases⟩ := h
  rw [Faithful, hop, kreated, if_neg (not_not.2 hmult)]
  cases hfind : findEntry (s d).data name with
  | some i => exact ⟨_, _, rfl, .inl ⟨⟨_, rfl, by simp⟩, rfl⟩⟩
  | none =>
    obtain ⟨hseal, ino, hnext, hshort⟩ := hcases.resolve_left (not_not.2 hfind)
    have hlen : ¬ entrySize ≤ name.length := by
      rcases hshort with hshort | ⟨hshort, -⟩
      · exact Nat.not_le.2 (Nat.lt_trans hshort (by decide))
      · exact Nat.not_le.2 hshort
    have hread := (newEntry_reads mem ino hnul).2 (hshort.imp_right And.right)
    simp only [if_neg hlen, hnext]
    exact ⟨_, _, rfl, .inr ⟨ino, rfl, added_withEntry hdir hmult hseal hne hfind hnext hread⟩⟩

/-- **A name is stored faithfully just if it is one of those.** -/
theorem entries_faithful_iff (hdir : (s d).type = tDir) (hd : op.inode = d)
    (hname : op.creates = some name) (hne : name ≠ []) (hnul : 0 ∉ name) :
    Faithful S s d name op ↔ Encodable S s d name :=
  ⟨fun h => h.encodable (by rw [hdir]; decide) hd hname hne hnul,
    fun h => h.faithful hdir hd hname hne hnul⟩

end

/-- The root directory with a file and a directory in it. -/
def filledRoot : Store :=
  withEntry (withEntry emptyRoot 1 [102] (fun _ => 0) 2 ⟨tFile, [7]⟩) 1 [100] (fun _ => 255) 3
    ⟨tDir, []⟩

/-- A name of 79 bytes, and one that is there already. -/
theorem entries_faithful_filled :
    Faithful .lowest filledRoot 1 (List.replicate 79 103)
        (.create 1 (List.replicate 79 103) fun _ => 255) ∧
      Faithful .lowest filledRoot 1 [100] (.mkdir 1 [100] fun _ => 255) := by
  have hmult : (filledRoot 1).data.length % entrySize = 0 := by decide +kernel
  have hsealed : Sealed (filledRoot 1).data := .inr (by decide +kernel)
  have hnext : Server.lowest.next (fun id => (filledRoot id).type) = some 4 := by rfl
  have hfind : findEntry (filledRoot 1).data [100] ≠ none := by decide +kernel
  have hshort : (List.replicate 79 103 : Bytes).length < nameSize := by simp [nameSize]
  have hlong : Encodable .lowest filledRoot 1 (List.replicate 79 103) :=
    ⟨hmult, .inr ⟨hsealed, 4, hnext, .inl hshort⟩⟩
  have hthere : Encodable .lowest filledRoot 1 [100] := ⟨hmult, .inl hfind⟩
  have hne : (List.replicate 79 103 : Bytes) ≠ [] := List.cons_ne_nil _ _
  have hnul : (0 : UInt8) ∉ List.replicate 79 (103 : UInt8) := fun hmem =>
    absurd (List.eq_of_mem_replicate hmem) (by decide)
  exact ⟨(entries_faithful_iff rfl rfl rfl hne hnul).2 hlong,
    (entries_faithful_iff rfl rfl rfl (by simp) (by simp)).2 hthere⟩

/-- **A name of 80 bytes gets longer**, as the number of inode 2 starts with a byte that is no
NUL. -/
theorem not_entries_faithful :
    ¬ Faithful .lowest emptyRoot 1 (List.replicate 80 102)
      (.create 1 (List.replicate 80 102) fun _ => 0) := by
  intro h
  obtain ⟨-, hcases⟩ := h.encodable (by decide) rfl rfl (by decide) (by decide)
  rcases hcases with hfind | ⟨-, ino, hnext, hshort⟩
  · exact hfind rfl
  · obtain rfl : 2 = ino := Option.some_inj.1 hnext
    rcases hshort with hlt | ⟨-, hover⟩
    · exact absurd hlt (by decide)
    · rw [Overlaid] at hover
      exact absurd hover (by decide)

end Yfs
end CseLab
