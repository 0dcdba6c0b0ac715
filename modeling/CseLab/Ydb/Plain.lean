import CseLab.Inode.Runs
import CseLab.Ydb.Base
import Mathlib.Algebra.BigOperators.Group.Finset.Basic

/-!
# The server without transactions

`ydb_server` keeps the value of a key in the extent with the number of its hash.  All extents are
created beforehand, and from then on an extent is read, written and removed, but never created
again; number 0 and the root directory serve as extents like the others.

`remove_file` gives a file's blocks back and leaves its size and its blocks in the inode.  So a key
that has been deleted keeps its value, in blocks that are free, and shares them with whoever gets
them next.  Only where there are no blocks to give back does `del` do what it should: `values_kept`.
-/

set_option autoImplicit false

namespace CseLab
namespace Ydb
namespace Plain

open Inode (BlockManager Junk blockSize blocksFor ceilDiv dataBlockNum inodeNum inodeOf
  inodeOf_of_lt maxFile)
open Inode.BlockManager (diskDataNum)
open Inode.System (noJunk)

/-! ## `extent_server` -/

/-- `T_FILE`. -/
def tFile : UInt32 := 2

/-- `extent_server::put`; `none` when the assertion of `write_file` fails. -/
def extentPut (m : BlockManager) (id : ExtentId) (buf : Bytes) (junk : Junk) (now : UInt32) :
    Option BlockManager :=
  (m.writeFile (inodeOf id) buf junk now).map Prod.snd

/-- `extent_server::get`. -/
def extentGet (m : BlockManager) (id : ExtentId) (now : UInt32) : Bytes × BlockManager :=
  let (r, m) := m.readFile (inodeOf id) now
  (if r.size = 0 then [] else r.buf_out.take r.size, m)

/-- `extent_server::remove`. -/
def extentRemove (m : BlockManager) (id : ExtentId) : BlockManager := m.removeFile (inodeOf id)

/-! ## `ydb_server` -/

/-- The extents' disk, and for the record the calls so far. -/
structure Server where
  m : BlockManager
  asked : List Call

/-- A call, with what the memory and the clock have for it. -/
inductive Action
  | get (key : Bytes) (now : UInt32)
  | set (key value : Bytes) (junk : Junk) (now : UInt32)
  | del (key : Bytes)

/-- The value of the last `set` of `key` that no `del` of it has followed, or `""`. -/
def lastSet (key : Bytes) : List Call → Bytes :=
  List.foldl (fun value call =>
    match call with
    | .set key' value' => if key' = key then value' else value
    | .del key' => if key' = key then [] else value
    | _ => value) []

namespace Server

/-- What `ydb_server::get` returns. -/
def get (s : Server) (key : Bytes) (now : UInt32) : Bytes := (extentGet s.m (hash key) now).1

/-- A call. -/
def step (s : Server) : Action → Option Server
  | .get key now => some ⟨(extentGet s.m (hash key) now).2, s.asked ++ [.get key]⟩
  | .set key value junk now =>
    (extentPut s.m (hash key) value junk now).map fun m => ⟨m, s.asked ++ [.set key value]⟩
  | .del key => some ⟨extentRemove s.m (hash key), s.asked ++ [.del key]⟩

/-- The constructors of the extent server and of `ydb_server`, which creates the extents from 2 on.
-/
def start (now : UInt32) (times : ℕ → UInt32) : Option Server :=
  (Inode.System.start now).map fun s =>
    ⟨loop 2 maxKey (fun i m => (m.createFile tFile (times i)).2) s.m, []⟩

end Server

/-! ## What a run asks for -/

/-- How many blocks the values of the keys take. -/
def used (keys : Finset Bytes) (asked : List Call) : ℕ :=
  ∑ key ∈ keys, blocksFor (ceilDiv (lastSet key asked).length blockSize)

/-- Only `keys` are used, and only values that a file can hold and that together fit on the disk. -/
def Within (keys : Finset Bytes) (s : Server) : Action → Prop
  | .get key _ => key ∈ keys
  | .set key value _ _ => key ∈ keys ∧ value.length ≤ maxFile * blockSize ∧
      used keys (s.asked ++ [.set key value]) ≤ diskDataNum
  | .del key => key ∈ keys

/-- And a key is only deleted when its value is `""`. -/
def Sparing (keys : Finset Bytes) (s : Server) : Action → Prop
  | .del key => key ∈ keys ∧ lastSet key s.asked = []
  | a => Within keys s a

variable {keys : Finset Bytes} {s s' s₀ : Server} {as : List Action} {a : Action}
  {key key' value : Bytes} {asked : List Call} {now : UInt32} {times : ℕ → UInt32}

@[simp] theorem lastSet_get : lastSet key (asked ++ [.get key']) = lastSet key asked :=
  List.foldl_concat ..

@[simp] theorem lastSet_set : lastSet key (asked ++ [.set key' value]) =
    if key' = key then value else lastSet key asked :=
  List.foldl_concat ..

@[simp] theorem lastSet_del : lastSet key (asked ++ [.del key']) =
    if key' = key then [] else lastSet key asked :=
  List.foldl_concat ..

theorem Sparing.within (h : Sparing keys s a) : Within keys s a := by
  cases a with
  | get key now => exact h
  | set key value junk now => exact h
  | del key => exact h.1

theorem hash_lt_inodeNum (key : Bytes) : hash key < inodeNum := hash_lt key

@[simp] theorem inodeOf_hash (key : Bytes) : inodeOf (hash key) = hash key :=
  inodeOf_of_lt (hash_lt key)

/-- `extent_server::get` returns what is on the disk, if the blocks of the file are. -/
theorem extentGet_fst {m : BlockManager} (hdisk : ∀ x ∈ m.owned (hash key), x < diskDataNum)
    (now : UInt32) : (extentGet m (hash key) now).1 = m.content (hash key) := by
  obtain ⟨hsize, hcontent, -⟩ := BlockManager.readFile_of_onDisk (hash_lt_inodeNum key) hdisk now
  simp only [extentGet, inodeOf_hash]
  split
  next hzero =>
    have hlen := BlockManager.length_content (m := m) (i := hash key)
    rw [← hsize, hzero] at hlen
    exact (List.length_eq_zero_iff.1 hlen).symm
  next => exact hcontent

/-- What a `set` does to the blocks that are taken. -/
theorem used_set (asked : List Call) (value : Bytes) (hkey : key ∈ keys) :
    used keys (asked ++ [.set key value]) +
        blocksFor (ceilDiv (lastSet key asked).length blockSize) =
      used keys asked + blocksFor (ceilDiv value.length blockSize) := by
  have hrest : ∑ key' ∈ keys.erase key,
      blocksFor (ceilDiv (lastSet key' (asked ++ [.set key value])).length blockSize) =
      ∑ key' ∈ keys.erase key, blocksFor (ceilDiv (lastSet key' asked).length blockSize) :=
    Finset.sum_congr rfl fun key' hmem => by
      rw [lastSet_set, if_neg (Ne.symm (Finset.mem_erase.1 hmem).1)]
  rw [used, used, ← Finset.add_sum_erase keys _ hkey, hrest, ← Finset.add_sum_erase keys
    (fun key' => blocksFor (ceilDiv (lastSet key' asked).length blockSize)) hkey, lastSet_set,
    if_pos rfl]
  omega

/-! ## The invariant -/

/-- What holds between two calls: all files are in order, and the values are their contents. -/
structure Inv (keys : Finset Bytes) (s : Server) : Prop where
  sound : s.m.Sound (Finset.range inodeNum)
  value : ∀ key ∈ keys, s.m.content (hash key) = lastSet key s.asked
  room : s.m.freedData.card + used keys s.asked = dataBlockNum
  fits : used keys s.asked ≤ diskDataNum

theorem hash_mem (key : Bytes) : hash key ∈ Finset.range inodeNum :=
  Finset.mem_range.2 (hash_lt key)

namespace Inv

theorem fileSize (h : Inv keys s) (hkey : key ∈ keys) :
    s.m.fileSize (hash key) = (lastSet key s.asked).length := by
  rw [← h.value key hkey, BlockManager.length_content]

theorem get (h : Inv keys s) (hkey : key ∈ keys) (now : UInt32) :
    s.get key now = lastSet key s.asked :=
  (extentGet_fst (h.sound.onDisk _ (hash_mem key)) now).trans (h.value key hkey)

/-- A call after which all files and values are as they were. -/
theorem same (h : Inv keys s) {m' : BlockManager} {call : Call}
    (hfiles : ∀ i < inodeNum, m'.fileSize i = s.m.fileSize i ∧ m'.owned i = s.m.owned i ∧
      m'.content i = s.m.content i)
    (hfree : m'.freedData = s.m.freedData)
    (hlast : ∀ key, lastSet key (s.asked ++ [call]) = lastSet key s.asked) :
    Inv keys ⟨m', s.asked ++ [call]⟩ := by
  have hused : used keys (s.asked ++ [call]) = used keys s.asked :=
    Finset.sum_congr rfl fun key _ => by rw [hlast]
  refine ⟨h.sound.of_same hfree fun j hj => ?_, fun key hkey => ?_, ?_, ?_⟩
  · obtain ⟨hsize, howned, -⟩ := hfiles j (Finset.mem_range.1 hj)
    exact ⟨hsize, howned⟩
  · exact (hfiles _ (hash_lt key)).2.2.trans ((h.value key hkey).trans (hlast key).symm)
  · rw [hused, hfree]
    exact h.room
  · rw [hused]
    exact h.fits

theorem step_get (h : Inv keys s) (key : Bytes) (now : UInt32) :
    Inv keys ⟨(extentGet s.m (hash key) now).2, s.asked ++ [.get key]⟩ := by
  obtain ⟨-, -, -, hsame, -⟩ := BlockManager.readFile_spec h.sound (hash_mem key) now
  have hm : (extentGet s.m (hash key) now).2 = (s.m.readFile (hash key) now).2 := by
    rw [extentGet, inodeOf_hash]
  rw [hm]
  exact h.same (fun j hj => h.sound.stamp (hash_lt_inodeNum key) hsame (Finset.mem_range.2 hj))
    (hsame.freedData.trans (BlockManager.writeInode_freedData _)) fun _ => lastSet_get

/-- There is room for what is set. -/
theorem fits_set (h : Inv keys s) (hkey : key ∈ keys)
    (hfits : used keys (s.asked ++ [.set key value]) ≤ diskDataNum) :
    s.m.Fits (hash key) value := by
  have hset := used_set s.asked value hkey
  have hroom := h.room
  have hold := h.fits
  rw [BlockManager.Fits, BlockManager.inUse, BlockManager.needs, h.fileSize hkey]
  omega

theorem step_set (h : Inv keys s) (hinj : Set.InjOn hash keys) (hkey : key ∈ keys)
    (hlen : value.length ≤ maxFile * blockSize)
    (hfits : used keys (s.asked ++ [.set key value]) ≤ diskDataNum) {junk : Junk}
    {m' : BlockManager} (hput : extentPut s.m (hash key) value junk now = some m') :
    Inv keys ⟨m', s.asked ++ [.set key value]⟩ := by
  obtain ⟨⟨t, m'⟩, hw, rfl⟩ := Option.map_eq_some_iff.1 hput
  rw [inodeOf_hash] at hw
  have hmem := hash_mem key
  obtain ⟨-, hwritten⟩ := BlockManager.writeFile_spec h.sound hmem hw
    (BlockManager.roomy_of_fits (h.fits_set hkey hfits) hw)
  refine ⟨hwritten.sound h.sound hmem hlen, fun key' hkey' => ?_, ?_, hfits⟩
  · rw [lastSet_set]
    split
    next heq => exact heq ▸ hwritten.content
    next hne =>
      have hother : hash key' ≠ hash key := fun heq => hne (hinj hkey' hkey heq).symm
      exact (hwritten.other h.sound hmem (hash_mem key') hother).2.2.trans (h.value key' hkey')
  · have hcard := hwritten.card h.sound hmem
    rw [BlockManager.length_owned, BlockManager.length_owned, BlockManager.length_fileIds,
      BlockManager.length_fileIds, hwritten.size, h.fileSize hkey] at hcard
    have hset := used_set s.asked value hkey
    have hroom := h.room
    dsimp only
    omega

/-- Where there is no value, `del` leaves all files as they are. -/
theorem step_del (h : Inv keys s) (hkey : key ∈ keys) (hnil : lastSet key s.asked = []) :
    Inv keys ⟨extentRemove s.m (hash key), s.asked ++ [.del key]⟩ := by
  have hremoved := BlockManager.removeFile_spec (m := s.m) (hash_lt_inodeNum key)
  have hempty : s.m.owned (hash key) = [] :=
    BlockManager.owned_of_empty (by rw [h.fileSize hkey, hnil]; rfl)
  rw [extentRemove, inodeOf_hash]
  refine h.same (fun j hj => ?_) (Finset.ext fun x => ?_) fun key' => ?_
  · have hj' := Finset.mem_range.2 hj
    refine BlockManager.same_file (fun w hw => ?_) fun x hx =>
      hremoved.data x (BlockManager.lt_of_onDisk (h.sound.onDisk j hj' x hx))
    rw [hremoved.inode j hj]
    split
    next hjk => rw [Inode.Ino.setType, Buffer.word_setWord_ne (by omega), hjk]
    next => rfl
  · rw [hremoved.free, hempty]
    simp
  · rw [lastSet_del]
    split
    next heq => rw [← heq, hnil]
    next => rfl

theorem step (h : Inv keys s) (hinj : Set.InjOn hash keys) (hok : Sparing keys s a)
    (hs : s.step a = some s') : Inv keys s' := by
  cases a with
  | get key now =>
    obtain rfl := Option.some_inj.1 hs
    exact h.step_get key now
  | set key value junk now =>
    obtain ⟨hkey, hlen, hfits⟩ := hok
    obtain ⟨m', hput, rfl⟩ := Option.map_eq_some_iff.1 hs
    exact h.step_set hinj hkey hlen hfits hput
  | del key =>
    obtain rfl := Option.some_inj.1 hs
    exact h.step_del hok.1 hok.2

end Inv

/-! ## The constructors -/

/-- Where all files are empty, so are all values. -/
theorem Inv.of_empty {m : BlockManager} (h : m.Empty) : Inv keys ⟨m, []⟩ where
  sound := h.sound fun _ => Finset.mem_range.1
  value key hkey := List.length_eq_zero_iff.1 (by
    rw [BlockManager.length_content]
    exact h.size _ (hash_lt key))
  room := by
    have hnone : used keys [] = 0 := Finset.sum_eq_zero fun _ _ => rfl
    rw [hnone, h.freedData, Finset.card_range, Nat.add_zero]
  fits := by
    have hnone : used keys [] = 0 := Finset.sum_eq_zero fun _ _ => rfl
    rw [hnone]
    exact Nat.zero_le _

/-- The constructors leave all values `""`. -/
theorem Inv.of_start (h0 : Server.start now times = some s₀) : Inv keys s₀ := by
  obtain ⟨s, hs, rfl⟩ := Option.map_eq_some_iff.1 h0
  exact .of_empty (loop_keeps (P := BlockManager.Empty) (Inode.System.empty_start hs)
    fun i m _ _ hm => hm.create ..)

theorem exists_start (now : UInt32) (times : ℕ → UInt32) :
    ∃ s₀, Server.start now times = some s₀ := by
  obtain ⟨s, hs, -⟩ := Inode.System.start_spec now
  exact ⟨_, Option.map_eq_some_iff.2 ⟨s, hs, rfl⟩⟩

/-! ## Runs -/

/-- What it asks for. -/
def Action.call : Action → Call
  | .get key _ => .get key
  | .set key value _ _ => .set key value
  | .del key => .del key

theorem asked_of_step (hs : s.step a = some s') : s'.asked = s.asked ++ [a.call] := by
  cases a with
  | get key t =>
    obtain rfl := Option.some_inj.1 hs
    rfl
  | set key value junk t =>
    obtain ⟨m', -, rfl⟩ := Option.map_eq_some_iff.1 hs
    rfl
  | del key =>
    obtain rfl := Option.some_inj.1 hs
    rfl

theorem Sparing.isSome (hok : Sparing keys s a) : (s.step a).isSome := by
  cases a with
  | get key t => rfl
  | set key value junk t =>
    rw [Server.step, Option.isSome_map, extentPut, Option.isSome_map]
    exact BlockManager.writeFile_isSome.2 hok.2.1
  | del key => rfl

/-- **`get` returns the value of the last `set`**, or `""` if a `del` has followed it or there has
been none, for every key at any time, as long as a key is only deleted when its value is `""`. -/
theorem values_kept (hinj : Set.InjOn hash keys) (h0 : Server.start now times = some s₀)
    (h : Run Server.step (Sparing keys) s₀ as s) :
    (∀ key ∈ keys, ∀ t, s.get key t = lastSet key s.asked) ∧
      ∀ a, Sparing keys s a → (s.step a).isSome :=
  have hinv : Inv keys s :=
    h.invariant (P := Inv keys) (.of_start h0) fun _ _ _ hinv hok hs => hinv.step hinj hok hs
  ⟨fun _ hkey t => hinv.get hkey t, fun _ hok => hok.isSome⟩

/-- The keys `"a"` and `"b"`. -/
def keysAB : Finset Bytes := {[97], [98]}

theorem injOn_keysAB : Set.InjOn hash (keysAB : Set Bytes) := by
  intro key hkey key' hkey' heq
  simp only [keysAB, Finset.coe_insert, Finset.coe_singleton, Set.mem_insert_iff,
    Set.mem_singleton_iff] at hkey hkey'
  rcases hkey with rfl | rfl <;> rcases hkey' with rfl | rfl
  · rfl
  · exact absurd heq (by decide)
  · exact absurd heq (by decide)
  · rfl

theorem exists_start_asked : ∃ s₀, Server.start 0 (fun _ => 0) = some s₀ ∧ s₀.asked = [] := by
  obtain ⟨s₀, h0⟩ := exists_start 0 fun _ => 0
  refine ⟨s₀, h0, ?_⟩
  obtain ⟨s, -, rfl⟩ := Option.map_eq_some_iff.1 h0
  rfl

/-- One call more. -/
theorem exists_snoc (h : Run Server.step (Sparing keys) s₀ as s) (hasked : s.asked = asked)
    (hok : Sparing keys s a) : ∃ s', Run Server.step (Sparing keys) s₀ (as ++ [a]) s' ∧
      s'.asked = asked ++ [a.call] := by
  obtain ⟨s', hs⟩ := Option.isSome_iff_exists.1 hok.isSome
  exact ⟨s', h.snoc hok hs, hasked ▸ asked_of_step hs⟩

/-- `"a"` is set to `"x"`. -/
theorem exists_setA : ∃ s₀ s, Server.start 0 (fun _ => 0) = some s₀ ∧
    Run Server.step (Sparing keysAB) s₀ [.set [97] [120] noJunk 0] s ∧
    s.asked = [.set [97] [120]] := by
  obtain ⟨s₀, h0, hasked₀⟩ := exists_start_asked
  have hnil : Run Server.step (Sparing keysAB) s₀ [] s₀ := .nil
  obtain ⟨s, h, hasked⟩ := exists_snoc (a := .set [97] [120] noJunk 0) hnil hasked₀
    ⟨by decide, by decide, by rw [hasked₀]; decide⟩
  exact ⟨s₀, s, h0, h, hasked⟩

/-- `"a"` is set and so is `"b"`, and then `"a"` is set to `""` and deleted. -/
theorem values_kept_several : ∃ s₀ s, Server.start 0 (fun _ => 0) = some s₀ ∧
    Run Server.step (Sparing keysAB) s₀ [.set [97] [120] noJunk 0, .set [98] [121, 122] noJunk 0,
      .set [97] [] noJunk 0, .del [97]] s ∧
    (∀ t, s.get [97] t = []) ∧ (∀ t, s.get [98] t = [121, 122]) ∧
      ∀ a, Sparing keysAB s a → (s.step a).isSome := by
  obtain ⟨s₀, s₁, h0, h₁, hasked₁⟩ := exists_setA
  obtain ⟨s₂, h₂, hasked₂⟩ := exists_snoc (a := .set [98] [121, 122] noJunk 0) h₁ hasked₁
    ⟨by decide, by decide, by rw [hasked₁]; decide⟩
  obtain ⟨s₃, h₃, hasked₃⟩ := exists_snoc (a := .set [97] [] noJunk 0) h₂ hasked₂
    ⟨by decide, by decide, by rw [hasked₂]; decide⟩
  obtain ⟨s₄, h₄, hasked₄⟩ := exists_snoc (a := .del [97]) h₃ hasked₃
    ⟨by decide, by rw [hasked₃]; decide⟩
  obtain ⟨hget, hcan⟩ := values_kept injOn_keysAB h0 h₄
  rw [hasked₄] at hget
  exact ⟨s₀, s₄, h0, h₄, hget [97] (by decide), hget [98] (by decide), hcan⟩

/-- `"a"` is set to `"x"` and deleted, and `get` still returns `"x"`. -/
theorem not_values_kept : ¬ ∀ (keys : Finset Bytes) (as : List Action) (s₀ s : Server),
    Set.InjOn hash (keys : Set Bytes) → Server.start 0 (fun _ => 0) = some s₀ →
      Run Server.step (Within keys) s₀ as s →
        ∀ key ∈ keys, ∀ t, s.get key t = lastSet key s.asked := by
  intro hall
  obtain ⟨s₀, s, h0, h, hasked⟩ := exists_setA
  have hinv : Inv keysAB s := h.invariant (P := Inv keysAB) (.of_start h0)
    fun _ _ _ hinv hok hs => hinv.step injOn_keysAB hok hs
  have hmem : [97] ∈ keysAB := by decide
  have hok : Within keysAB s (.del [97]) := hmem
  have hrun := (h.mono fun _ _ hok => hok.within).snoc hok rfl
  have hvalue : s.m.content (hash [97]) = [120] := by
    rw [hinv.value [97] hmem, hasked]
    rfl
  have hdisk := hinv.sound.onDisk _ (hash_mem [97])
  have hremoved := BlockManager.removeFile_spec (m := s.m) (hash_lt_inodeNum [97])
  obtain ⟨-, howned, hcontent⟩ := hremoved.left (hash_lt_inodeNum [97]) hdisk
  have hget := hall keysAB _ s₀ _ injOn_keysAB h0 hrun [97] hmem 0
  rw [lastSet_del, if_pos rfl, Server.get, extentRemove, inodeOf_hash,
    extentGet_fst (fun x hx => hdisk x (howned ▸ hx)), hcontent, hvalue] at hget
  cases hget

end Plain
end Ydb
end CseLab
