import CseLab.Lib.Posix
import CseLab.Lib.Run
import CseLab.Yfs.Dir
import CseLab.Inode.Manager
import Mathlib.Algebra.GroupWithZero.Nat
import Mathlib.Data.List.Sort

/-!
# The type cache

One version of `yfs_client`, which has the inodes in its own process, remembers the types of 16
inodes: `getType` looks into the slot that the number falls into before it asks for the attributes.
A number is 64 bits wide and a slot keeps an `int` of it, which is widened again to be compared; the
file system takes the lowest 31 bits of a number to be the inode.  `unlink` clears the slot of the
inode it removes by making its number 0; nothing is done when an inode is created.

The types and the free inodes are modelled as they are.  Where the contents of the files are kept is
left open (`Files`): removed directories may be read too, and what is in their blocks by then has
nothing to do with types.

`types_truthful_iff` says along which runs every slot tells the truth.
-/

set_option autoImplicit false

namespace CseLab
namespace Yfs
namespace TypeCached

open Inode (inodeNum tDir)

/-! ## Numbers -/

/-- An `unsigned long long` as an `int`. -/
def narrow (inum : UInt64) : Int32 := Int32.ofNat inum.toNat

/-- An `int` as an `unsigned long long`. -/
def widen (n : Int32) : UInt64 := UInt64.ofNat (n.toInt % 18446744073709551616).toNat

/-- The inode that `extent_server` takes a number for. -/
def idOf (inum : UInt64) : ℕ := inum.toNat &&& 0x7fffffff

/-- `TCACHEN`. -/
def tCacheN : ℕ := 16

instance : NeZero tCacheN := ⟨by decide⟩

/-- The slot of a number. -/
def key (inum : UInt64) : Fin tCacheN := ⟨inum.toNat % tCacheN, Nat.mod_lt _ (by decide)⟩

theorem idOf_eq (inum : UInt64) : idOf inum = inum.toNat % 2147483648 :=
  Nat.and_two_pow_sub_one_eq_mod inum.toNat 31

theorem toNat_widen (n : Int32) : (widen n).toNat = (n.toInt % 18446744073709551616).toNat := by
  rw [widen, UInt64.toNat_ofNat']
  omega

theorem widen_injective {m n : Int32} (h : widen m = widen n) : m = n := by
  have hnat := congrArg UInt64.toNat h
  rw [toNat_widen, toNat_widen] at hnat
  have hm := m.toInt_lt
  have hm' := m.le_toInt
  have hn := n.toInt_lt
  have hn' := n.le_toInt
  exact Int32.toInt_inj.1 (by omega)

/-- A number that a slot has taken down stands for the same inode. -/
theorem idOf_widen_narrow (inum : UInt64) : idOf (widen (narrow inum)) = idOf inum := by
  rw [idOf_eq, idOf_eq, toNat_widen, narrow, Int32.toInt_ofNat', Int.bmod_def]
  simp only [Int32.size]
  omega

/-- Numbers of one inode fall into the same slot. -/
theorem key_eq_of_idOf {inum inum' : UInt64} (h : idOf inum = idOf inum') :
    key inum = key inum' := by
  rw [idOf_eq, idOf_eq] at h
  refine Fin.ext ?_
  show inum.toNat % tCacheN = inum'.toNat % tCacheN
  rw [tCacheN]
  omega

/-! ## The client and the inodes -/

/-- What keeps the contents of the files: `read_file` of a whole file, `write_file` (`none` if its
`assert` fails), and what `create_file` and `remove_file` do besides the type. -/
structure Files (σ : Type*) where
  get : σ → ℕ → Bytes
  put : σ → ℕ → Bytes → ℕ → Bool → Option σ
  create : σ → ℕ → σ
  remove : σ → ℕ → σ

/-- `yfs_client::TypeCache`. -/
structure TypeCache where
  type : Int32
  inum : Int32
  deriving DecidableEq

/-- `extent_protocol::T_FILE`. -/
def tFile : UInt32 := 2

/-- `extent_protocol::T_LINK`. -/
def tLink : UInt32 := 3

/-- The client's slots, the types of the inodes, the set of free ones, in order, and the files. -/
structure State (σ : Type*) where
  typeCache : Fin tCacheN → TypeCache
  types : ℕ → UInt32
  freedInode : List ℕ
  data : σ

/-- `yfs_client::status`. -/
inductive Status
  | ok
  | noent
  | ioerr
  | exist
  deriving DecidableEq

section

variable {σ : Type*} (F : Files σ)

namespace State

/-- What the constructor leaves, in memory that holds `typeCache`. -/
def start (typeCache : Fin tCacheN → TypeCache) (data : σ) : State σ where
  typeCache := typeCache
  types i := if i = 1 then tDir else 0
  freedInode := List.range' 2 (inodeNum - 2)
  data := data

variable (s : State σ)

/-- The type that is stored in an inode, as `extent_client::getattr` reports it. -/
def typeOf (inum : UInt64) : Int32 := (s.types (idOf inum)).toInt32

/-- `yfs_client::getType`. -/
def getType (inum : UInt64) : Int32 × State σ :=
  let cache := s.typeCache (key inum)
  if widen cache.inum = inum then (cache.type, s)
  else (s.typeOf inum, { s with
    typeCache := Function.update s.typeCache (key inum) ⟨s.typeOf inum, narrow inum⟩ })

/-- `inode_manager::create_file`; it is not asked whether there is a free inode. -/
def createFile (type : UInt32) : Option (ℕ × State σ) :=
  match s.freedInode with
  | [] => none
  | id :: freed => some (id, { s with
      freedInode := freed
      types := Function.update s.types id type
      data := F.create s.data id })

/-- `inode_manager::remove_file`. -/
def removeFile (id : ℕ) : State σ :=
  { s with
    freedInode := if id ∈ s.freedInode then s.freedInode else s.freedInode.orderedInsert (· ≤ ·) id
    types := Function.update s.types id 0
    data := F.remove s.data id }

/-- `extent_client::put`. -/
def put (id : ℕ) (buf : Bytes) (off : ℕ) (freeEnd : Bool) : Option (State σ) :=
  (F.put s.data id buf off freeEnd).map fun data => { s with data := data }

/-- `yfs_client::kreate`; a name that is longer than the record is written past its end. -/
def kreate (parent : UInt64) (name : Bytes) (type : UInt32) (mem : ℕ → UInt8) :
    Option (Status × Option ℕ × State σ) :=
  let buf := F.get s.data (idOf parent)
  if (dirents buf).any fun d => d.name = name then some (.exist, none, s)
  else if entrySize ≤ name.length then none
  else
    (s.createFile F type).bind fun (id, s) =>
      (s.put F (idOf parent) (newEntry mem name id).bytes (entrySize * (dirents buf).length)
        false).map fun s => (.ok, some id, s)

/-- `yfs_client::mklink`. -/
def mklink (parent : UInt64) (name link : Bytes) (mem : ℕ → UInt8) : Option (Status × State σ) :=
  (s.kreate F parent name tLink mem).bind fun (ret, inoOut, s) =>
    match inoOut with
    | none => some (ret, s)
    | some id => (s.put F id link 0 false).map fun s => (ret, s)

/-- `yfs_client::lookup`. -/
def lookup (parent : UInt64) (name : Bytes) : Status × Option ℕ × State σ :=
  let direntList := dirents (F.get s.data (idOf parent))
  let (type, s) := s.getType parent
  if type ≠ tDir.toInt32 then (.ioerr, none, s)
  else (.ok, (direntList.find? fun d => d.name = name).map Dirent.inum, s)

/-- The slot that `unlink` looks into for the `int` it has of the removed inode; the remainder of a
negative number is not above 0, and below it there is no slot. -/
def slotOf (deleteInum : Int32) : Option (Fin tCacheN) :=
  if h : 0 ≤ deleteInum.toInt.tmod tCacheN then
    some ⟨(deleteInum.toInt.tmod tCacheN).toNat, by
      have hlt := Int.tmod_lt_of_pos deleteInum.toInt (b := tCacheN) (by decide)
      omega⟩
  else none

/-- The part of `unlink` that looks after the cache. -/
def forget (slot : Fin tCacheN) (deleteInum : Int32) : State σ :=
  let cache := s.typeCache slot
  if cache.inum = deleteInum then
    { s with typeCache := Function.update s.typeCache slot { cache with inum := 0 } }
  else s

/-- `yfs_client::unlink`. -/
def unlink (parent : UInt64) (name : Bytes) : Option (Status × State σ) :=
  let buf := F.get s.data (idOf parent)
  match findEntry buf name with
  | none => some (.noent, s)
  | some i =>
    let deleteInum := (entryInum buf i).toInt32
    if inodeNum ≤ idOf (widen deleteInum) then none
    else
      (slotOf deleteInum).bind fun slot =>
        (((s.removeFile F (idOf (widen deleteInum))).forget slot deleteInum).put F (idOf parent)
          ((buf.drop (entrySize * (i + 1))).take (entrySize * (fileN buf - 1 - i)))
          (entrySize * i) true).map fun s => (.ok, s)

end State

/-! ## Runs -/

/-- What is asked of the client; `mem` is what the memory holds where `kreate` makes its entry. -/
inductive Action
  | getType (inum : UInt64)
  | create (parent : UInt64) (name : Bytes) (mem : ℕ → UInt8)
  | mkdir (parent : UInt64) (name : Bytes) (mem : ℕ → UInt8)
  | mklink (parent : UInt64) (name link : Bytes) (mem : ℕ → UInt8)
  | lookup (parent : UInt64) (name : Bytes)
  | unlink (parent : UInt64) (name : Bytes)

/-- The number it is about. -/
def Action.inum : Action → UInt64
  | getType inum => inum
  | create parent .. | mkdir parent .. | mklink parent .. | lookup parent .. | unlink parent .. =>
    parent

/-- One call, about a number that stands for an inode. -/
def step (s : State σ) (a : Action) : Option (State σ) :=
  if inodeNum ≤ idOf a.inum then none
  else
    match a with
    | .getType inum => some (s.getType inum).2
    | .create parent name mem => (s.kreate F parent name tFile mem).map fun r => r.2.2
    | .mkdir parent name mem => (s.kreate F parent name tDir mem).map fun r => r.2.2
    | .mklink parent name link mem => (s.mklink F parent name link mem).map Prod.snd
    | .lookup parent name => some (s.lookup F parent name).2.2
    | .unlink parent name => (s.unlink F parent name).map Prod.snd

/-! ## The truth -/

namespace State

variable {F} {s s' : State σ} {inum parent : UInt64} {name : Bytes} {d : Int32}

/-- What the client's slot has of an inode number. -/
def cached (s : State σ) (inum : UInt64) : Option Int32 :=
  let cache := s.typeCache (key inum)
  if widen cache.inum = inum then some cache.type else none

/-- `getType` returns the type that is stored in the inode. -/
def Truthful (s : State σ) : Prop :=
  ∀ inum, idOf inum < inodeNum → (s.getType inum).1 = s.typeOf inum

theorem truthful_iff : s.Truthful ↔
    ∀ inum t, idOf inum < inodeNum → s.cached inum = some t → t = s.typeOf inum := by
  refine forall_congr' fun inum => ?_
  rw [getType, cached]
  split
  next => simp [eq_comm]
  next => simp

/-- The files' contents have nothing to do with it. -/
theorem truthful_congr (hcache : s'.typeCache = s.typeCache) (htypes : s'.types = s.types) :
    s'.Truthful ↔ s.Truthful := by
  simp only [truthful_iff, cached, typeOf, hcache, htypes]

theorem put_cases {id off : ℕ} {buf : Bytes} {freeEnd : Bool}
    (h : s.put F id buf off freeEnd = some s') :
    s'.typeCache = s.typeCache ∧ s'.types = s.types := by
  obtain ⟨data, -, rfl⟩ := Option.map_eq_some_iff.1 h
  exact ⟨rfl, rfl⟩

/-- Looking a type up puts nothing wrong into a slot. -/
theorem Truthful.getType (h : s.Truthful) (inum : UInt64) : (s.getType inum).2.Truthful := by
  rw [truthful_iff] at h ⊢
  intro inum' t hid hc
  rw [State.getType] at hc ⊢
  split
  next hhit =>
    rw [if_pos hhit] at hc
    exact h inum' t hid hc
  next hmiss =>
    rw [if_neg hmiss] at hc
    by_cases hkey : key inum' = key inum
    · simp only [cached, hkey, Function.update_self] at hc
      obtain ⟨hwiden, ht⟩ := Option.ite_none_right_eq_some.1 hc
      rw [← Option.some_inj.1 ht]
      exact congrArg (fun id => (s.types id).toInt32)
        ((idOf_widen_narrow inum).symm.trans (congrArg idOf hwiden))
    · simp only [cached, Function.update_of_ne hkey] at hc
      exact h inum' t hid hc

theorem lookup_snd (s : State σ) (parent : UInt64) (name : Bytes) :
    (s.lookup F parent name).2.2 = (s.getType parent).2 := by
  simp only [lookup]
  split <;> rfl

/-! ## Creating an inode -/

/-- If `kreate` gets an inode, nothing but the new type is cached of it. -/
def CreatesUncached (F : Files σ) (s : State σ) (parent : UInt64) (name : Bytes) (type : UInt32) :
    Prop :=
  ((dirents (F.get s.data (idOf parent))).any fun d => d.name = name) = false →
    ∀ id ∈ s.freedInode.head?, ∀ inum t, idOf inum < inodeNum → idOf inum = id →
      s.cached inum = some t → t = type.toInt32

/-- An inode gets a type: the slots tell the truth if they do about this one. -/
theorem truthful_update {id : ℕ} {type : UInt32} (h : s.Truthful)
    (hcache : s'.typeCache = s.typeCache) (htypes : s'.types = Function.update s.types id type) :
    s'.Truthful ↔ ∀ inum t, idOf inum < inodeNum → idOf inum = id → s.cached inum = some t →
      t = type.toInt32 := by
  rw [truthful_iff] at h ⊢
  have hc : ∀ inum, s'.cached inum = s.cached inum := fun inum => by rw [cached, hcache, cached]
  refine forall_congr' fun inum => forall_congr' fun t => ?_
  rw [hc, typeOf, htypes]
  by_cases hid : idOf inum = id
  · rw [hid, Function.update_self]
    exact ⟨fun hall hlt _ hcached => hall hlt hcached, fun hall hlt hcached => hall hlt rfl hcached⟩
  · rw [Function.update_of_ne hid]
    exact ⟨fun _ _ heq => absurd heq hid, fun _ => h inum t⟩

theorem kreate_cases {type : UInt32} {mem : ℕ → UInt8} {r : Status × Option ℕ × State σ}
    (h : s.kreate F parent name type mem = some r) :
    (((dirents (F.get s.data (idOf parent))).any fun d => d.name = name) = true ∧ r.2.2 = s) ∨
    (((dirents (F.get s.data (idOf parent))).any fun d => d.name = name) = false ∧
      ∃ id, s.freedInode.head? = some id ∧ r.2.2.typeCache = s.typeCache ∧
        r.2.2.types = Function.update s.types id type) := by
  rw [kreate] at h
  split at h
  next hany =>
    obtain rfl := Option.some_inj.1 h
    exact .inl ⟨hany, rfl⟩
  next hany =>
    obtain ⟨-, h⟩ := Option.ite_none_left_eq_some.1 h
    obtain ⟨⟨id, s₁⟩, hcreate, hrest⟩ := Option.bind_eq_some_iff.1 h
    obtain ⟨s₂, hput, rfl⟩ := Option.map_eq_some_iff.1 hrest
    obtain ⟨hcache, htypes⟩ := put_cases hput
    refine .inr ⟨Bool.eq_false_iff.2 hany, id, ?_⟩
    rw [createFile] at hcreate
    split at hcreate
    next => exact absurd hcreate nofun
    next id' freed hfreed =>
      obtain ⟨rfl, rfl⟩ := Prod.mk.inj (Option.some_inj.1 hcreate)
      exact ⟨by rw [hfreed]; rfl, hcache, htypes⟩

theorem truthful_kreate {type : UInt32} {mem : ℕ → UInt8} {r : Status × Option ℕ × State σ}
    (h : s.Truthful) (hk : s.kreate F parent name type mem = some r) :
    r.2.2.Truthful ↔ s.CreatesUncached F parent name type := by
  rcases kreate_cases hk with ⟨hany, hr⟩ | ⟨hany, id, hhead, hcache, htypes⟩
  · rw [hr]
    exact ⟨fun _ hno => absurd (hany.symm.trans hno) (by decide), fun _ => h⟩
  · refine (truthful_update h hcache htypes).trans ⟨fun hall _ id' hid => ?_, fun hall => ?_⟩
    · rw [hhead] at hid
      exact Option.some_inj.1 hid ▸ hall
    · exact hall hany id hhead

theorem truthful_mklink {link : Bytes} {mem : ℕ → UInt8} {r : Status × State σ}
    (h : s.Truthful) (hm : s.mklink F parent name link mem = some r) :
    r.2.Truthful ↔ s.CreatesUncached F parent name tLink := by
  obtain ⟨⟨ret, inoOut, s₁⟩, hk, hrest⟩ := Option.bind_eq_some_iff.1 hm
  refine Iff.trans ?_ (truthful_kreate h hk)
  cases inoOut with
  | none =>
    obtain rfl := Option.some_inj.1 hrest
    exact Iff.rfl
  | some id =>
    obtain ⟨s₂, hput, rfl⟩ := Option.map_eq_some_iff.1 hrest
    obtain ⟨hcache, htypes⟩ := put_cases hput
    exact truthful_congr hcache htypes

/-! ## Removing an inode -/

/-- Once the inode `deleted` is removed and its slot cleared, the slots tell the truth: nothing is
cached of it under another number, unless as having no type; and if its slot is slot 0, whose number
is 0 then, the type that is cached there is that of inode 0. -/
def Clears (s : State σ) (deleted : UInt64) : Prop :=
  (∀ inum t, idOf inum = idOf deleted → s.cached inum = some t → inum = deleted ∨ t = 0) ∧
    ∀ t, s.cached deleted = some t → key deleted = 0 →
      t = if idOf deleted = 0 then 0 else s.typeOf 0

/-- That is so of the inode that `unlink` removes, if it does. -/
def ClearsRemoved (F : Files σ) (s : State σ) (parent : UInt64) (name : Bytes) : Prop :=
  ∀ i ∈ findEntry (F.get s.data (idOf parent)) name,
    s.Clears (widen (entryInum (F.get s.data (idOf parent)) i).toInt32)

theorem slotOf_eq {slot : Fin tCacheN} (h : slotOf d = some slot) : slot = key (widen d) := by
  rw [slotOf] at h
  split at h
  · rename_i hnonneg
    have hslot : slot.val = (d.toInt.tmod tCacheN).toNat := by rw [← Option.some_inj.1 h]
    have hd := d.toInt_lt
    have hd' := d.le_toInt
    refine Fin.ext ?_
    rw [hslot]
    show (d.toInt.tmod 16).toNat = (widen d).toNat % 16
    have hnonneg : 0 ≤ d.toInt.tmod 16 := hnonneg
    rw [toNat_widen]
    rcases Int.le_total 0 d.toInt with hpos | hneg
    · rw [Int.tmod_eq_emod_of_nonneg hpos]
      omega
    · have hflip : (-d.toInt).tmod 16 = -d.toInt % 16 :=
        Int.tmod_eq_emod_of_nonneg (Int.neg_nonneg.2 hneg)
      rw [Int.neg_tmod] at hflip
      omega
  · exact absurd h nofun

/-- What the slots have after the slot of the removed inode has been cleared. -/
theorem cached_forget (inum : UInt64) : (s.forget (key (widen d)) d).cached inum =
    if (s.cached (widen d)).isSome ∧ key inum = key (widen d) then
      if inum = 0 then s.cached (widen d) else none
    else s.cached inum := by
  have hhit : (s.cached (widen d)).isSome ↔ (s.typeCache (key (widen d))).inum = d := by
    rw [cached, Option.isSome_ite]
    exact ⟨fun h => widen_injective h, fun h => congrArg widen h⟩
  rw [forget]
  by_cases hd : (s.typeCache (key (widen d))).inum = d
  · rw [if_pos hd]
    by_cases hkey : key inum = key (widen d)
    · rw [if_pos ⟨hhit.2 hd, hkey⟩]
      simp only [cached, hkey, Function.update_self, hd, if_pos]
      have hzero : widen 0 = 0 := by decide
      by_cases hinum : inum = 0
      · rw [if_pos hinum, hinum, if_pos hzero]
      · rw [if_neg hinum, if_neg (by rw [hzero]; exact Ne.symm hinum)]
    · rw [if_neg (fun h => hkey h.2)]
      simp only [cached, Function.update_of_ne hkey]
  · rw [if_neg hd, if_neg (fun h => hd (hhit.1 h.1))]

/-- One slot has one number. -/
theorem cached_unique {inum' : UInt64} (h : (s.cached inum).isSome) (h' : (s.cached inum').isSome)
    (hkey : key inum = key inum') : inum = inum' := by
  rw [cached, Option.isSome_ite] at h h'
  rw [← h, hkey, h']

theorem truthful_forget (h : s.Truthful) (hlt : idOf (widen d) < inodeNum) :
    ((s.removeFile F (idOf (widen d))).forget (key (widen d)) d).Truthful ↔
      s.Clears (widen d) := by
  have htypes : ∀ inum,
      ((s.removeFile F (idOf (widen d))).forget (key (widen d)) d).typeOf inum =
        if idOf inum = idOf (widen d) then 0 else s.typeOf inum := by
    intro inum
    have hupdate : ((s.removeFile F (idOf (widen d))).forget (key (widen d)) d).types =
        Function.update s.types (idOf (widen d)) 0 := by
      rw [forget]
      split <;> rfl
    rw [typeOf, hupdate, Function.update_apply]
    split <;> rfl
  have hkeep : ∀ inum, (s.removeFile F (idOf (widen d))).cached inum = s.cached inum := fun _ => rfl
  rw [truthful_iff] at h
  rw [truthful_iff, Clears]
  simp only [cached_forget, hkeep, htypes]
  constructor
  · intro hall
    refine ⟨fun inum t hid hc => ?_, fun t hc hkey => ?_⟩
    · have hkey := key_eq_of_idOf hid
      by_cases hd : (s.cached (widen d)).isSome
      · exact .inl (cached_unique (Option.isSome_of_eq_some hc) hd hkey)
      · have hsome := hall inum t (hid ▸ hlt)
        rw [if_neg (fun h => hd h.1), if_pos hid] at hsome
        exact .inr (hsome hc)
    · have hzero := hall 0 t (by decide)
      rw [if_pos ⟨Option.isSome_of_eq_some hc, hkey.symm⟩, if_pos rfl] at hzero
      rw [hzero hc]
      exact if_congr eq_comm rfl rfl
  · rintro ⟨hother, hslot⟩ inum t hid hc
    split at hc
    next hin =>
      obtain ⟨hinum, hc⟩ := Option.ite_none_right_eq_some.1 hc
      subst hinum
      rw [hslot t hc hin.2.symm]
      exact if_congr eq_comm rfl rfl
    next hout =>
      split
      next hsame =>
        rcases hother inum t hsame hc with rfl | ht
        · exact absurd ⟨Option.isSome_of_eq_some hc, rfl⟩ hout
        · exact ht
      next => exact h inum t hid hc

theorem truthful_unlink {r : Status × State σ} (h : s.Truthful)
    (hu : s.unlink F parent name = some r) :
    r.2.Truthful ↔ s.ClearsRemoved F parent name := by
  rw [unlink] at hu
  rw [ClearsRemoved]
  cases hfind : findEntry (F.get s.data (idOf parent)) name with
  | none =>
    simp only [hfind] at hu
    obtain rfl := Option.some_inj.1 hu
    exact ⟨fun _ => nofun, fun _ => h⟩
  | some i =>
    simp only [hfind] at hu
    obtain ⟨hlt, hu⟩ := Option.ite_none_left_eq_some.1 hu
    obtain ⟨slot, hslot, hu⟩ := Option.bind_eq_some_iff.1 hu
    obtain ⟨s₂, hput, rfl⟩ := Option.map_eq_some_iff.1 hu
    obtain rfl := slotOf_eq hslot
    obtain ⟨hcache, htypes⟩ := put_cases hput
    refine (truthful_congr hcache htypes).trans ((truthful_forget h (Nat.not_le.1 hlt)).trans ?_)
    exact ⟨fun hall j hj => Option.some_inj.1 hj ▸ hall, fun hall => hall i rfl⟩

end State

/-! ## Along a run -/

/-- The step leaves the slots telling the truth, if they do. -/
def KeepsTruth (F : Files σ) (s : State σ) : Action → Prop
  | .getType _ | .lookup .. => True
  | .create parent name _ => s.CreatesUncached F parent name tFile
  | .mkdir parent name _ => s.CreatesUncached F parent name tDir
  | .mklink parent name _ _ => s.CreatesUncached F parent name tLink
  | .unlink parent name => s.ClearsRemoved F parent name

theorem truthful_step {F : Files σ} {s s' : State σ} {a : Action} (h : s.Truthful)
    (hs : step F s a = some s') : s'.Truthful ↔ KeepsTruth F s a := by
  obtain ⟨-, hs⟩ := Option.ite_none_left_eq_some.1 hs
  cases a with
  | getType inum =>
    obtain rfl := Option.some_inj.1 hs
    exact ⟨fun _ => trivial, fun _ => h.getType inum⟩
  | lookup parent name =>
    obtain rfl := Option.some_inj.1 hs
    rw [State.lookup_snd]
    exact ⟨fun _ => trivial, fun _ => h.getType parent⟩
  | create parent name mem | mkdir parent name mem =>
    obtain ⟨r, hr, rfl⟩ := Option.map_eq_some_iff.1 hs
    exact State.truthful_kreate h hr
  | mklink parent name link mem =>
    obtain ⟨r, hr, rfl⟩ := Option.map_eq_some_iff.1 hs
    exact State.truthful_mklink h hr
  | unlink parent name =>
    obtain ⟨r, hr, rfl⟩ := Option.map_eq_some_iff.1 hs
    exact State.truthful_unlink h hr

/-- **When the type cache tells the truth.**  All along a run `getType` returns the type that is
stored in the inode, whatever number it is asked for, if and only if the memory in which the client
was made had nothing wrong in its slots, no inode was created of which another type was cached, and
none was removed of which something else remained cached. -/
theorem types_truthful_iff {F : Files σ} (typeCache : Fin tCacheN → TypeCache) (data : σ)
    (as : List Action) (s : State σ) :
    Run (step F) (fun s _ => s.Truthful) (.start typeCache data) as s ∧ s.Truthful ↔
      (State.start typeCache data).Truthful ∧
        Run (step F) (KeepsTruth F) (.start typeCache data) as s :=
  Run.always_iff fun _ _ _ => truthful_step

end

/-- Files that are kept as they are; a removed one can still be read. -/
def plainFiles : Files (ℕ → Bytes) where
  get c i := c i
  put c i buf off freeEnd :=
    let buf' := Posix.write (c i) buf off
    if Inode.maxFile * Inode.blockSize < off + buf.length then none
    else some (Function.update c i (if freeEnd then buf'.take (off + buf.length) else buf'))
  create c i := Function.update c i []
  remove c _ := c

/-- Memory that happens to be cleared. -/
def clearedCache : Fin tCacheN → TypeCache := fun _ => ⟨0, 0⟩

/-- The type of inode 2 is looked up, and then inode 2 is created. -/
def lookUpThenCreate : List Action := [.getType 2, .create 1 [97] fun _ => 0]

/-- **The cache can lie**: inode 2 is a file then, and `getType` says that it has no type. -/
theorem not_types_truthful : ¬ ∀ (typeCache : Fin tCacheN → TypeCache) (data : ℕ → Bytes)
    (as : List Action) (s : State (ℕ → Bytes)),
    Run (step plainFiles) anyStep (.start typeCache data) as s → s.Truthful := by
  intro h
  have hrun : (execute (step plainFiles) (.start clearedCache fun _ => []) lookUpThenCreate).map
      (fun s => ((s.getType 2).1, s.typeOf 2)) = some (0, 2) := by
    decide +kernel
  obtain ⟨s, hs, htypes⟩ := Option.map_eq_some_iff.1 hrun
  obtain ⟨hget, htype⟩ := Prod.mk.inj htypes
  have htrue := h clearedCache (fun _ => []) lookUpThenCreate s (.of_execute hs) 2 (by decide)
  rw [hget, htype] at htrue
  exact absurd htrue (by decide)

end TypeCached
end Yfs
end CseLab
