import CseLab.Rpc.Unmarshall
import Mathlib.Data.List.Lex
import Mathlib.Data.Prod.Lex

/-!
# Values of all types

The types for which there are `operator<<` and `operator>>`: vectors and maps of others are among
them, and maps are kept in the order of their keys.  `Lawful` is what the two have in common, and it
goes from the elements to a container; with `lawful_ty` every type has it.
-/

set_option autoImplicit false

namespace CseLab
namespace Rpc

open Unmarshall

/-! ## Types and values -/

/-- The types for which there are `operator<<` and `operator>>`. -/
inductive Ty
  | scalar (s : Scalar)
  | vector (c : Ty)
  | map (a b : Ty)
  deriving DecidableEq

/-- A type with its `operator<`. -/
structure Ordered where
  carrier : Type
  order : LinearOrder carrier

namespace Ty

/-- A `char` has a sign, but in a `std::string` it is compared as if it had none. -/
@[reducible] def scalarOrder : (s : Scalar) → LinearOrder s.Val
  | .bool => inferInstanceAs (LinearOrder Bool)
  | .uchar => .lift' UInt8.toNat fun _ _ => UInt8.toNat_inj.1
  | .char => .lift' Int8.toInt fun _ _ => Int8.toInt_inj.1
  | .ushort => .lift' UInt16.toNat fun _ _ => UInt16.toNat_inj.1
  | .short => .lift' Int16.toInt fun _ _ => Int16.toInt_inj.1
  | .uint => .lift' UInt32.toNat fun _ _ => UInt32.toNat_inj.1
  | .int => .lift' Int32.toInt fun _ _ => Int32.toInt_inj.1
  | .ulonglong => .lift' UInt64.toNat fun _ _ => UInt64.toNat_inj.1
  | .string => .lift' (List.map UInt8.toNat) (List.map_injective_iff.2 fun _ _ => UInt8.toNat_inj.1)

/-- Vectors and maps are compared element by element. -/
def ordered : Ty → Ordered
  | scalar s => ⟨s.Val, scalarOrder s⟩
  | vector c =>
    letI := c.ordered.order
    ⟨List c.ordered.carrier, inferInstance⟩
  | map a b =>
    letI := a.ordered.order
    letI := b.ordered.order
    ⟨OrdMap a.ordered.carrier b.ordered.carrier,
      .lift' (fun d => d.entries.map toLex) fun _ _ h =>
        OrdMap.ext_entries (List.map_injective_iff.2 toLex.injective h)⟩

/-- The values. -/
abbrev Val (t : Ty) : Type := t.ordered.carrier

instance (t : Ty) : LinearOrder t.Val := t.ordered.order

end Ty

section

variable {α β : Type}

/-- `operator>>` of `std::vector<C>`, onto the end of `v`. -/
def getVector (get : Reads α) (v : List α) : Reads (List α) := do
  let n ← getUint
  times (fun v => do
    let z ← get
    return v ++ [z]) n.toNat v

/-- `operator>>` of `std::map<A,B>`. -/
def getMap [LinearOrder α] (getA : Reads α) (getB : Reads β) : Reads (OrdMap α β) := do
  let n ← getUint
  times (fun d => do
    let a ← getA
    let b ← getB
    return d.set a b) n.toNat .empty

end

namespace Ty

/-- `operator<<`. -/
def put : (t : Ty) → t.Val → Marshall → Option Marshall
  | scalar s => s.put
  | vector c => putVector c.put
  | map a b => putMap a.put b.put

/-- `operator>>`, into a new variable. -/
def get : (t : Ty) → Reads t.Val
  | scalar s => s.get
  | vector c => getVector c.get []
  | map a b => getMap a.get b.get

/-- What is written, write by write. -/
def chunks : (t : Ty) → t.Val → List Bytes
  | scalar s, x => s.chunks x
  | vector c, v => listChunks c.chunks v
  | map a b, d => listChunks (fun p => a.chunks p.1 ++ b.chunks p.2) d.entries

end Ty

/-! ## What holds of every type -/

/-- What `put` writes is `chunks`, and it is what `get` reads back. -/
structure Lawful {α : Type} (put : α → Marshall → Option Marshall) (get : Reads α)
    (chunks : α → List Bytes) : Prop where
  sticky : Sticky Failed get
  pos : ∀ x, 0 < (chunks x).flatten.length
  puts : ∀ x, (chunks x).flatten.length < 2147483648 → ∀ m, put x m = m.rawAll (chunks x)
  decodes : ∀ x, (chunks x).flatten.length < 2147483648 →
    Decodes Left Failed get (chunks x).flatten x

theorem flatten_netChunks (w : UInt32) : (netChunks w).flatten = netBytes w := rfl

theorem signExtend_toUInt8 (c : UInt8) : (signExtend c).toUInt8 = c := by
  have h : ∀ b : BitVec 8, (signExtend ⟨b⟩).toUInt8 = ⟨b⟩ := by decide +kernel
  exact h c.toBitVec

theorem decodes_word (w : UInt32) : Decodes Left Failed getUint (netBytes w) w := by
  have h := decodes_getUint (byteOf w 0) (byteOf w 1) (byteOf w 2) (byteOf w 3)
  rw [wordOf_byteOf] at h
  exact h

theorem sticky_getUshort : Sticky Failed getUshort :=
  sticky_rawbyte.bind fun _ => sticky_rawbyte.bind fun _ => .pure _

theorem decodes_half (x : UInt16) : Decodes Left Failed getUshort (halfChunks x).flatten x := by
  have h : Decodes Left Failed getUshort (halfChunks x).flatten _ :=
    (decodes_rawbyte ((x >>> 8) &&& 0xff).toUInt8).cons
      ((decodes_rawbyte (x &&& 0xff).toUInt8).map _) fun _ => sticky_rawbyte.bind fun _ => .pure _
  rw [signExtend_and, signExtend_and, half_of_bytes] at h
  exact h

/-! ### Strings -/

section

variable {α : Type} {g : Reads α} {w : Bytes} {v : α}

theorem sticky_ifOk (d : α) :
    Sticky Failed (getOk >>= fun ok => if ok = true then g else pure d : Reads α) := by
  intro u h
  change Failed ((if u.ok = true then g else pure d : Reads α).run u).2
  rw [if_neg (by rw [h]; exact nofun)]
  exact h

/-- Where nothing has failed the question is idle. -/
theorem decodes_ifOk (h : Decodes Left Failed g w v) (d : α) :
    Decodes Left Failed (getOk >>= fun ok => if ok = true then g else pure d : Reads α) w v := by
  refine ⟨fun u rest hleft => ?_, fun u part hleft hpre hne => ?_⟩
  · change ((if u.ok = true then g else pure d : Reads α).run u).1 = v ∧
      Left ((if u.ok = true then g else pure d : Reads α).run u).2 rest
    rw [if_pos hleft.ok]
    exact h.full u rest hleft
  · change Failed ((if u.ok = true then g else pure d : Reads α).run u).2
    rw [if_pos hleft.ok]
    exact h.short u part hleft hpre hne

end

/-- The bytes of a string, where their number is known. -/
theorem decodes_rawbytes {s : Bytes} (ss : Bytes) (h : s.length < 2147483648) :
    Decodes Left Failed (rawbytes ss (UInt32.ofNat s.length)) s s := by
  have hn : (UInt32.ofNat s.length).toNat = s.length := by
    rw [UInt32.toNat_ofNat', Nat.mod_eq_of_lt (by omega)]
  refine ⟨fun u rest hleft => ?_, fun u part hleft hpre hne => ?_⟩
  · have hlen := hleft.length
    have hlt := u.length_lt
    have hle := hleft.ind_le
    rw [List.length_append] at hlen
    change (rawbytes ss (UInt32.ofNat s.length) u).1 = s ∧
      Left (rawbytes ss (UInt32.ofNat s.length) u).2 rest
    rw [rawbytes_eq, hn, Nat.mod_eq_of_lt (by omega), if_neg (by omega), hleft.drop]
    refine ⟨List.take_left, hleft.ok, ?_, ?_⟩
    · dsimp only
      omega
    · dsimp only
      rw [← List.drop_drop, hleft.drop, List.drop_left]
  · have hlen := hleft.length
    have hlt := u.length_lt
    have hle := hleft.ind_le
    have hshort : part.length < s.length :=
      lt_of_le_of_ne hpre.length_le fun heq => hne (hpre.eq_of_length heq)
    change Failed (rawbytes ss (UInt32.ofNat s.length) u).2
    rw [rawbytes_eq, hn, Nat.mod_eq_of_lt (by omega), if_pos (by omega)]
    rfl

theorem sticky_getString (ss : Bytes) : Sticky Failed (getString ss) :=
  sticky_getUint.bind fun _ => sticky_ifOk ss

theorem decodes_getString {s : Bytes} (ss : Bytes) (h : s.length < 2147483648) :
    Decodes Left Failed (getString ss) (netBytes (UInt32.ofNat s.length) ++ s) s :=
  (decodes_word _).bind (decodes_ifOk (decodes_rawbytes ss h) ss) fun _ => sticky_ifOk ss

/-! ### All of them -/

theorem lawful_scalar (s : Scalar) : Lawful s.put s.get s.chunks where
  sticky := by
    cases s with
    | bool => exact sticky_rawbyte.bind fun _ => .pure _
    | uchar => exact sticky_rawbyte.bind fun _ => .pure _
    | char => exact sticky_rawbyte.bind fun _ => .pure _
    | ushort => exact sticky_getUshort
    | short => exact sticky_getUshort.bind fun x => .pure x.toInt16
    | uint => exact sticky_getUint
    | int => exact sticky_getUint.bind fun x => .pure x.toInt32
    | ulonglong => exact sticky_getUint.bind fun _ => sticky_getUint.bind fun _ => .pure _
    | string => exact sticky_getString []
  pos x := by
    cases s <;> simp [Scalar.chunks, netChunks, netBytes, halfChunks]
  puts := s.put_eq
  decodes x h := by
    cases s with
    | bool =>
      have hdec : Decodes Left Failed getBool [Bool.toUInt8 x] _ := (decodes_rawbyte _).map _
      cases x <;> exact hdec
    | uchar =>
      have hdec : Decodes Left Failed getUchar [x] _ := (decodes_rawbyte _).map _
      rw [signExtend_toUInt8] at hdec
      exact hdec
    | char =>
      have hdec : Decodes Left Failed getChar [Int8.toUInt8 x] _ := (decodes_rawbyte _).map _
      rw [signExtend_toUInt8] at hdec
      exact hdec
    | ushort => exact decodes_half x
    | short =>
      exact (decodes_half (Int16.toUInt16 x)).map UInt16.toInt16
    | uint => exact decodes_word x
    | int => exact (decodes_word (Int32.toUInt32 x)).map UInt32.toInt32
    | ulonglong =>
      have hdec : Decodes Left Failed getUlonglong
          (netBytes (UInt64.toUInt32 (x >>> 32)) ++ netBytes (UInt64.toUInt32 x)) _ :=
        (decodes_word _).bind ((decodes_word _).map _) fun _ => sticky_getUint.bind fun _ => .pure _
      rw [long_of_words] at hdec
      exact hdec
    | string =>
      have hflat :
        (Scalar.string.chunks x).flatten = netBytes (UInt32.ofNat (List.length x)) ++ x := by
        rw [Scalar.chunks, List.flatten_append, List.flatten_singleton, flatten_netChunks]
      rw [hflat, List.length_append] at h
      rw [hflat]
      exact decodes_getString [] (by omega)

/-! ### Containers -/

section

variable {α β ι : Type}

theorem flatten_flatMap (chunks : α → List Bytes) (v : List α) :
    (v.flatMap chunks).flatten = v.flatMap fun x => (chunks x).flatten := by
  induction v with
  | nil => rfl
  | cons x v ih => rw [List.flatMap_cons, List.flatten_append, ih, List.flatMap_cons]

theorem flatten_listChunks (chunks : α → List Bytes) (v : List α) :
    (listChunks chunks v).flatten =
      netBytes (UInt32.ofNat v.length) ++ v.flatMap fun x => (chunks x).flatten := by
  rw [listChunks, List.flatten_append, flatten_netChunks, flatten_flatMap]

/-- An element is not longer than all of them. -/
theorem length_flatMap_chunks {chunks : α → List Bytes} {v : List α} {x : α} (hx : x ∈ v) :
    (chunks x).flatten.length ≤ (v.flatMap chunks).flatten.length := by
  obtain ⟨pre, post, rfl⟩ := List.append_of_mem hx
  simp only [List.flatMap_append, List.flatMap_cons, List.flatten_append, List.length_append]
  omega

theorem length_listChunks {chunks : α → List Bytes} {v : List α} {x : α} (hx : x ∈ v) :
    (chunks x).flatten.length ≤ (listChunks chunks v).flatten.length := by
  rw [listChunks, List.flatten_append, List.length_append]
  exact (length_flatMap_chunks hx).trans (Nat.le_add_left ..)

/-- There are not more elements than bytes. -/
theorem count_le_length {chunks : α → List Bytes} (hpos : ∀ x, 0 < (chunks x).flatten.length)
    (v : List α) : v.length ≤ (listChunks chunks v).flatten.length := by
  rw [listChunks, List.flatten_append, List.length_append]
  refine Nat.le_trans ?_ (Nat.le_add_left ..)
  induction v with
  | nil => exact Nat.zero_le _
  | cons x v ih =>
    have hx := hpos x
    rw [List.flatMap_cons, List.flatten_append, List.length_append, List.length_cons]
    omega

/-- A number, and then a loop that reads so many elements. -/
theorem decodes_counted {chunks : ι → List Bytes} {step : α → Reads α} {next : α → ι → α}
    {xs : List ι} (hpos : ∀ x, 0 < (chunks x).flatten.length)
    (hlen : (listChunks chunks xs).flatten.length < 2147483648)
    (hstep : ∀ a, ∀ x ∈ xs, Decodes Left Failed (step a) (chunks x).flatten (next a x))
    (hsticky : ∀ a, Sticky Failed (step a)) (a : α) :
    Decodes Left Failed (getUint >>= fun n => times step n.toNat a) (listChunks chunks xs).flatten
      (xs.foldl next a) := by
  have hcount : (UInt32.ofNat xs.length).toNat = xs.length := by
    have hle := count_le_length hpos xs
    rw [UInt32.toNat_ofNat', Nat.mod_eq_of_lt (by omega)]
  have hloop := Decodes.times hstep hsticky a
  rw [flatten_listChunks]
  refine (decodes_word _).bind ?_ fun n => Sticky.times hsticky n.toNat a
  rw [hcount]
  exact hloop

variable {put : α → Marshall → Option Marshall} {get : Reads α} {chunks : α → List Bytes}
  {putB : β → Marshall → Option Marshall} {getB : Reads β} {chunksB : β → List Bytes}

theorem pos_listChunks (chunks : α → List Bytes) (v : List α) :
    0 < (listChunks chunks v).flatten.length := by
  rw [flatten_listChunks, List.length_append]
  exact Nat.add_pos_left (by decide : 0 < 4) _

/-- Elements put at the end one after another. -/
theorem foldl_push (v v' : List α) : v.foldl (fun v z => v ++ [z]) v' = v' ++ v := by
  induction v generalizing v' with
  | nil => exact (List.append_nil v').symm
  | cons z v ih =>
    rw [List.foldl_cons, ih, List.append_assoc]
    rfl

namespace Lawful

theorem vector (h : Lawful put get chunks) :
    Lawful (putVector put) (getVector get []) (listChunks chunks) where
  sticky := sticky_getUint.bind fun n =>
    Sticky.times (fun v => h.sticky.bind fun z => .pure (v ++ [z])) n.toNat []
  pos := pos_listChunks chunks
  puts v hv := putVector_eq fun x hx =>
    h.puts x ((length_listChunks hx).trans_lt hv)
  decodes v hv := by
    have hdec : Decodes Left Failed (getVector get []) (listChunks chunks v).flatten
        (v.foldl (fun v z => v ++ [z]) []) :=
      decodes_counted h.pos hv
        (fun a x hx => (h.decodes x ((length_listChunks hx).trans_lt hv)).map _)
        (fun a => h.sticky.bind fun z => .pure _) []
    rw [foldl_push, List.nil_append] at hdec
    exact hdec

/-- A key, and what is there. -/
theorem pair (h : Lawful put get chunks) (hB : Lawful putB getB chunksB) :
    Lawful (fun (p : α × β) m => (put p.1 m).bind fun m => putB p.2 m)
      (get >>= fun a => getB >>= fun b => pure (a, b)) fun p => chunks p.1 ++ chunksB p.2 where
  sticky := h.sticky.bind fun a => hB.sticky.bind fun b => .pure (a, b)
  pos p := by
    rw [List.flatten_append, List.length_append]
    exact Nat.add_pos_left (h.pos p.1) _
  puts p hp m := by
    rw [List.flatten_append, List.length_append] at hp
    rw [h.puts p.1 (by omega), Marshall.rawAll_append]
    exact Option.bind_congr fun m _ => hB.puts p.2 (by omega) m
  decodes p hp := by
    rw [List.flatten_append, List.length_append] at hp
    rw [List.flatten_append]
    exact (h.decodes p.1 (by omega)).bind ((hB.decodes p.2 (by omega)).map _) fun a =>
      hB.sticky.bind fun b => .pure (a, b)

theorem map [LinearOrder α] (h : Lawful put get chunks) (hB : Lawful putB getB chunksB) :
    Lawful (putMap put putB) (getMap get getB)
      fun d => listChunks (fun p => chunks p.1 ++ chunksB p.2) d.entries where
  sticky := sticky_getUint.bind fun n =>
    Sticky.times (fun d => h.sticky.bind fun a => hB.sticky.bind fun b => .pure (OrdMap.set d a b))
      n.toNat OrdMap.empty
  pos d := pos_listChunks _ d.entries
  puts d hd m := putVector_eq (fun p hp =>
    (h.pair hB).puts p ((length_listChunks hp).trans_lt hd)) m
  decodes d hd := by
    have hentry : ∀ d' : OrdMap α β, ∀ p ∈ d.entries,
        Decodes Left Failed (get >>= fun a => getB >>= fun b => pure (d'.set a b))
          (chunks p.1 ++ chunksB p.2).flatten (d'.set p.1 p.2) := by
      intro d' p hp
      exact ((h.pair hB).decodes p ((length_listChunks hp).trans_lt hd)).map fun p => d'.set p.1 p.2
    have hdec := decodes_counted (h.pair hB).pos hd hentry
      (fun d' => h.sticky.bind fun a => hB.sticky.bind fun b => .pure (d'.set a b)) .empty
    rw [OrdMap.foldl_set] at hdec
    exact hdec

end Lawful

end

/-- **Every type** is read back as it is written. -/
theorem lawful_ty : (t : Ty) → Lawful t.put t.get t.chunks
  | .scalar s => lawful_scalar s
  | .vector c => (lawful_ty c).vector
  | .map a b => (lawful_ty a).map (lawful_ty b)

end Rpc
end CseLab
