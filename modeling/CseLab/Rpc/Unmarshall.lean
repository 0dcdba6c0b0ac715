import CseLab.Lib.Decode
import CseLab.Rpc.Marshall

/-!
# Unmarshalling

`unmarshall` reads integers and strings from a buffer that came from elsewhere.  `seen` is which
ranges of the buffer it has looked at.

* `Unmarshall.reads_inside_iff` — the reads stay inside the buffer, unless the length of a string is
  such that its end, reckoned from the beginning of the buffer, does not fit into 32 bits.
-/

set_option autoImplicit false

namespace CseLab
namespace Rpc

/-- `unmarshall`; `_sz` is an `int`. -/
structure Unmarshall where
  buf : Bytes
  ind : ℕ
  ok : Bool
  /-- Where in `buf`, and how far from there, bytes have been looked at. -/
  seen : List (ℕ × ℕ)
  length_lt : buf.length < 2147483648

/-- What reads from it. -/
abbrev Reads (α : Type) := StateM Unmarshall α

/-- A `char` where an `unsigned int` is wanted. -/
def signExtend (c : UInt8) : UInt32 := c.toInt8.toInt32.toUInt32

namespace Unmarshall

/-- A received buffer. -/
def ofBuf (b : Bytes) (h : b.length < 2147483648) : Unmarshall := ⟨b, 0, true, [], h⟩

/-- `unmarshall::okdone`. -/
def okdone (u : Unmarshall) : Bool := u.ok && u.ind == u.buf.length

/-- `unmarshall::rawbyte`. -/
def rawbyte : Reads UInt32 := fun u =>
  match u.buf[u.ind]? with
  | none => (signExtend 0, { u with ok := false })
  | some c => (signExtend c, { u with ind := u.ind + 1, seen := u.seen ++ [(u.ind, 1)] })

/-- `unmarshall::rawbytes`; what would be read from behind the buffer is left out. -/
def rawbytes (ss : Bytes) (n : UInt32) : Reads Bytes := fun u =>
  if UInt32.ofNat u.ind + n > UInt32.ofNat u.buf.length then (ss, { u with ok := false })
  else
    ((u.buf.drop u.ind).take n.toNat,
      { u with ind := (UInt32.ofNat u.ind + n).toNat, seen := u.seen ++ [(u.ind, n.toNat)] })

end Unmarshall

open Unmarshall (rawbyte rawbytes)

/-- `unmarshall::ok`. -/
def getOk : Reads Bool := fun u => (u.ok, u)

/-! ## `operator>>` -/

def getBool : Reads Bool := do
  let c ← rawbyte
  return c ≠ 0

def getUchar : Reads UInt8 := do
  let c ← rawbyte
  return c.toUInt8

def getChar : Reads Int8 := do
  let c ← rawbyte
  return c.toUInt8.toInt8

def getUshort : Reads UInt16 := do
  let b₁ ← rawbyte
  let b₀ ← rawbyte
  return ((b₁ &&& 0xff) <<< 8).toUInt16 ||| (b₀ &&& 0xff).toUInt16

def getShort : Reads Int16 := do
  let b₁ ← rawbyte
  let b₀ ← rawbyte
  return (((b₁ &&& 0xff) <<< 8).toUInt16 ||| (b₀ &&& 0xff).toUInt16).toInt16

def getUint : Reads UInt32 := do
  let b₃ ← rawbyte
  let b₂ ← rawbyte
  let b₁ ← rawbyte
  let b₀ ← rawbyte
  return (b₃ &&& 0xff) <<< 24 ||| (b₂ &&& 0xff) <<< 16 ||| (b₁ &&& 0xff) <<< 8 ||| (b₀ &&& 0xff)

def getInt : Reads Int32 := do
  let b₃ ← rawbyte
  let b₂ ← rawbyte
  let b₁ ← rawbyte
  let b₀ ← rawbyte
  return ((b₃ &&& 0xff) <<< 24 ||| (b₂ &&& 0xff) <<< 16 ||| (b₁ &&& 0xff) <<< 8
    ||| (b₀ &&& 0xff)).toInt32

def getUlonglong : Reads UInt64 := do
  let h ← getUint
  let l ← getUint
  return l.toUInt64 ||| h.toUInt64 <<< 32

/-- Into a `std::string` that holds `s`. -/
def getString (s : Bytes) : Reads Bytes := do
  let sz ← getUint
  if ← getOk then rawbytes s sz else return s

namespace Scalar

/-- `operator>>`, into a new variable. -/
def get : (s : Scalar) → Reads s.Val
  | bool => getBool
  | uchar => getUchar
  | char => getChar
  | ushort => getUshort
  | short => getShort
  | uint => getUint
  | int => getInt
  | ulonglong => getUlonglong
  | string => getString []

end Scalar

/-! ## Headers -/

namespace Unmarshall

/-- `unmarshall::unpack`. -/
def unpack : Reads Int32 := getInt

/-- `_ind` is set. -/
def seek (ind : ℕ) : Reads Unit := fun u => ((), { u with ind := ind })

/-- `unmarshall::unpack_req_header`. -/
def unpackReqHeader : Reads ReqHeader := do
  seek 4
  let xid ← unpack
  let proc ← unpack
  let clt_nonce ← unpack
  let srv_nonce ← unpack
  let xid_rep ← unpack
  seek rpcHeaderSz
  return ⟨xid, proc, clt_nonce.toUInt32, srv_nonce.toUInt32, xid_rep⟩

/-- `unmarshall::unpack_reply_header`. -/
def unpackReplyHeader : Reads ReplyHeader := do
  seek 4
  let xid ← unpack
  let ret ← unpack
  seek rpcHeaderSz
  return ⟨xid, ret⟩

end Unmarshall

/-! ## Where they look -/

namespace Unmarshall

variable {α β : Type} {u u' u'' : Unmarshall} {g : Reads α} {f : α → Reads β}

/-- What is after the read `s`. -/
def after (u : Unmarshall) (s : Scalar) : Unmarshall := (s.get.run u).2

/-- One read after another. -/
def afterAll (u : Unmarshall) (ss : List Scalar) : Unmarshall := ss.foldl after u

/-- From `u` to `u'` there is no look outside the buffer, and the position goes forward, and not
over the end. -/
structure Inside (u u' : Unmarshall) : Prop where
  buf : u'.buf = u.buf
  seen : ∃ new, u'.seen = u.seen ++ new ∧ ∀ r ∈ new, r.1 + r.2 ≤ u.buf.length
  forward : u.ind ≤ u'.ind
  within : u'.ind ≤ max u.ind u.buf.length

/-- What is to be true of a read. -/
structure Safe (u u' : Unmarshall) : Prop where
  buf : u'.buf = u.buf
  seen : u'.ok = false ∨
    ∃ new, u'.seen = u.seen ++ new ∧ ∀ r ∈ new, r.1 + r.2 ≤ u.buf.length
  forward : u.ind ≤ u'.ind
  within : u'.ind ≤ max u.ind u.buf.length

namespace Inside

theorem refl (u : Unmarshall) : Inside u u :=
  ⟨rfl, ⟨[], (List.append_nil _).symm, nofun⟩, Nat.le_refl _, Nat.le_max_left ..⟩

theorem trans (h : Inside u u') (h' : Inside u' u'') : Inside u u'' := by
  obtain ⟨hbuf, ⟨new, hnew, hin⟩, hle, hwithin⟩ := h
  obtain ⟨hbuf', ⟨new', hnew', hin'⟩, hle', hwithin'⟩ := h'
  rw [hbuf] at hin' hwithin'
  refine ⟨hbuf'.trans hbuf, ⟨new ++ new', ?_, fun r hr => ?_⟩, Nat.le_trans hle hle', by omega⟩
  · rw [hnew', hnew, List.append_assoc]
  · exact (List.mem_append.1 hr).elim (hin r) (hin' r)

theorem safe (h : Inside u u') : Safe u u' := ⟨h.buf, .inr h.seen, h.forward, h.within⟩

end Inside

/-- A reader that never looks outside. -/
def Careful (g : Reads α) : Prop := ∀ u : Unmarshall, Inside u (g.run u).2

theorem Careful.pure (a : α) : Careful (pure a) := .refl

theorem Careful.bind (hg : Careful g) (hf : ∀ a, Careful (f a)) : Careful (g >>= f) :=
  fun u => (hg u).trans (hf _ _)

theorem careful_rawbyte : Careful rawbyte := by
  intro u
  change Inside u (rawbyte u).2
  rw [rawbyte]
  cases hc : u.buf[u.ind]? with
  | none =>
    exact ⟨rfl, ⟨[], (List.append_nil _).symm, nofun⟩, Nat.le_refl _, Nat.le_max_left ..⟩
  | some c =>
    obtain ⟨hlt, -⟩ := List.getElem?_eq_some_iff.1 hc
    refine ⟨rfl, ⟨[(u.ind, 1)], rfl, fun r hr => ?_⟩, Nat.le_succ _,
      Nat.le_trans hlt (Nat.le_max_right ..)⟩
    rw [List.mem_singleton.1 hr]
    exact hlt

theorem careful_getUint : Careful getUint :=
  careful_rawbyte.bind fun _ => careful_rawbyte.bind fun _ => careful_rawbyte.bind fun _ =>
    careful_rawbyte.bind fun _ => .pure _

/-- All but strings. -/
theorem careful_get {s : Scalar} (hs : s ≠ .string) : Careful s.get := by
  cases s with
  | bool => exact careful_rawbyte.bind fun _ => .pure _
  | uchar => exact careful_rawbyte.bind fun _ => .pure _
  | char => exact careful_rawbyte.bind fun _ => .pure _
  | ushort => exact careful_rawbyte.bind fun _ => careful_rawbyte.bind fun _ => .pure _
  | short => exact careful_rawbyte.bind fun _ => careful_rawbyte.bind fun _ => .pure _
  | uint => exact careful_getUint
  | int =>
    exact careful_rawbyte.bind fun _ => careful_rawbyte.bind fun _ => careful_rawbyte.bind fun _ =>
      careful_rawbyte.bind fun _ => .pure _
  | ulonglong => exact careful_getUint.bind fun _ => careful_getUint.bind fun _ => .pure _
  | string => exact absurd rfl hs

/-! ### What a read does -/

/-- Nothing has failed, and `rest` is left to read. -/
structure Left (u : Unmarshall) (rest : Bytes) : Prop where
  ok : u.ok = true
  ind_le : u.ind ≤ u.buf.length
  drop : u.buf.drop u.ind = rest

/-- Something could not be read. -/
def Failed (u : Unmarshall) : Prop := u.ok = false

theorem Left.length {rest : Bytes} (h : Left u rest) : rest.length = u.buf.length - u.ind := by
  rw [← h.drop, List.length_drop]

theorem failed_rawbyte (h : u.buf.length ≤ u.ind) : Failed (rawbyte u).2 := by
  rw [rawbyte, List.getElem?_eq_none h]
  rfl

theorem sticky_rawbyte : Sticky Failed rawbyte := by
  intro u h
  change Failed (rawbyte u).2
  rw [rawbyte]
  cases u.buf[u.ind]? with
  | none => rfl
  | some c => exact h

theorem decodes_rawbyte (c : UInt8) : Decodes Left Failed rawbyte [c] (signExtend c) where
  full u rest h := by
    have hget : u.buf[u.ind]? = some c := by
      rw [← List.head?_drop, h.drop]
      rfl
    obtain ⟨hlt, -⟩ := List.getElem?_eq_some_iff.1 hget
    change (rawbyte u).1 = _ ∧ Left (rawbyte u).2 rest
    rw [rawbyte, hget]
    refine ⟨rfl, h.ok, hlt, ?_⟩
    rw [← List.drop_drop, h.drop]
    rfl
  short u part h hpre hne := by
    have hnil : part = [] := by
      rcases List.prefix_cons_iff.1 hpre with hnil | ⟨part', rfl, hpre'⟩
      · exact hnil
      · exact absurd (by rw [List.prefix_nil.1 hpre']) hne
    refine failed_rawbyte ?_
    rw [← List.drop_eq_nil_iff, h.drop, hnil]

theorem signExtend_and (c : UInt8) : signExtend c &&& 0xff = c.toUInt32 := by
  have h : ∀ b : BitVec 8, signExtend ⟨b⟩ &&& 0xff = (⟨b⟩ : UInt8).toUInt32 := by decide +kernel
  exact h c.toBitVec

theorem sticky_getUint : Sticky Failed getUint :=
  sticky_rawbyte.bind fun _ => sticky_rawbyte.bind fun _ => sticky_rawbyte.bind fun _ =>
    sticky_rawbyte.bind fun _ => .pure _

theorem decodes_getUint (b₀ b₁ b₂ b₃ : UInt8) :
    Decodes Left Failed getUint [b₃, b₂, b₁, b₀] (wordOf b₀ b₁ b₂ b₃) := by
  rw [← word_of_shifts]
  simp only [← signExtend_and]
  refine (decodes_rawbyte b₃).cons ?_ fun _ =>
    sticky_rawbyte.bind fun _ => sticky_rawbyte.bind fun _ => sticky_rawbyte.bind fun _ => .pure _
  refine (decodes_rawbyte b₂).cons ?_ fun _ =>
    sticky_rawbyte.bind fun _ => sticky_rawbyte.bind fun _ => .pure _
  refine (decodes_rawbyte b₁).cons ?_ fun _ => sticky_rawbyte.bind fun _ => .pure _
  exact (decodes_rawbyte b₀).map _

/-! ### Strings -/

/-- The length of the string at the position, if there is one. -/
def lengthAt (u : Unmarshall) : ℕ :=
  (wordOf (u.buf.getD (u.ind + 3) 0) (u.buf.getD (u.ind + 2) 0) (u.buf.getD (u.ind + 1) 0)
    (u.buf.getD u.ind 0)).toNat

/-- Its end does not fit into 32 bits. -/
def EndWraps (u : Unmarshall) : Prop :=
  u.ok = true ∧ u.ind + 4 ≤ u.buf.length ∧ 4294967296 ≤ u.ind + 4 + u.lengthAt

/-- Four bytes are read if there are four. -/
theorem getUint_full (hok : u.ok = true) (h : u.ind + 4 ≤ u.buf.length) :
    (getUint.run u).1.toNat = u.lengthAt ∧ (getUint.run u).2.ok = true ∧
      (getUint.run u).2.ind = u.ind + 4 := by
  have hin := careful_getUint u
  have hbyte : ∀ j, u.buf.getD (u.ind + j) 0 = (u.buf.drop u.ind).getD j 0 := by
    intro j
    simp only [List.getD_eq_getElem?_getD, List.getElem?_drop]
  have h0 := hbyte 0
  rw [Nat.add_zero] at h0
  rw [lengthAt, h0, hbyte 1, hbyte 2, hbyte 3]
  have hleft : Left u (u.buf.drop u.ind) := ⟨hok, by omega, rfl⟩
  have hlen := hleft.length
  revert hleft hlen
  match u.buf.drop u.ind with
  | [] | [_] | [_, _] | [_, _, _] =>
    intro _ hlen
    simp only [List.length_cons, List.length_nil] at hlen
    omega
  | b₃ :: b₂ :: b₁ :: b₀ :: rest =>
    intro hleft hlen
    obtain ⟨hval, hleft'⟩ := (decodes_getUint b₀ b₁ b₂ b₃).full u rest hleft
    have hlen' := hleft'.length
    have hle := hleft'.ind_le
    rw [hin.buf] at hle hlen'
    simp only [List.length_cons] at hlen
    exact ⟨by rw [hval]; rfl, hleft'.ok, by omega⟩

/-- Otherwise the read fails. -/
theorem getUint_short (h : ¬ (u.ok = true ∧ u.ind + 4 ≤ u.buf.length)) :
    (getUint.run u).2.ok = false := by
  rcases Nat.le_total u.buf.length u.ind with hend | hle
  · have hfirst := failed_rawbyte hend
    exact sticky_rawbyte.bind (fun _ => sticky_rawbyte.bind fun _ => sticky_rawbyte.bind fun _ =>
      .pure _) (rawbyte u).2 hfirst
  · cases hok : u.ok with
    | false => exact sticky_getUint u hok
    | true =>
      have hleft : Left u (u.buf.drop u.ind) := ⟨hok, hle, rfl⟩
      have hlen := hleft.length
      revert hleft hlen
      match u.buf.drop u.ind with
      | [] => exact fun hleft _ => (decodes_getUint 0 0 0 0).short u _ hleft ⟨_, rfl⟩ nofun
      | [a] => exact fun hleft _ => (decodes_getUint 0 0 0 a).short u _ hleft ⟨_, rfl⟩ nofun
      | [a, b] => exact fun hleft _ => (decodes_getUint 0 0 b a).short u _ hleft ⟨_, rfl⟩ nofun
      | [a, b, c] => exact fun hleft _ => (decodes_getUint 0 c b a).short u _ hleft ⟨_, rfl⟩ nofun
      | _ :: _ :: _ :: _ :: _ =>
        intro _ hlen
        simp only [List.length_cons] at hlen
        exact absurd ⟨hok, by omega⟩ h

/-- `rawbytes` compares the end of the string modulo `2 ^ 32`. -/
theorem rawbytes_eq (u : Unmarshall) (ss : Bytes) (n : UInt32) : rawbytes ss n u =
    if u.buf.length < (u.ind + n.toNat) % 4294967296 then (ss, { u with ok := false })
    else
      ((u.buf.drop u.ind).take n.toNat,
        { u with ind := (u.ind + n.toNat) % 4294967296, seen := u.seen ++ [(u.ind, n.toNat)] }) := by
  have hlt := u.length_lt
  have hend : (UInt32.ofNat u.ind + n).toNat = (u.ind + n.toNat) % 4294967296 := by
    rw [UInt32.toNat_add, UInt32.toNat_ofNat', Nat.mod_add_mod]
  have hsize : (UInt32.ofNat u.buf.length).toNat = u.buf.length := by
    rw [UInt32.toNat_ofNat', Nat.mod_eq_of_lt (by omega)]
  rw [rawbytes, hend]
  refine if_congr ?_ rfl rfl
  rw [gt_iff_lt, UInt32.lt_iff_toNat_lt, hend, hsize]

/-- The bytes of a string are inside the buffer unless their end wraps around. -/
theorem safe_rawbytes_iff (h : Inside u u') (hok : u'.ok = true) (hle : u'.ind ≤ u.buf.length)
    (ss : Bytes) (n : UInt32) :
    Safe u (rawbytes ss n u').2 ↔ u'.ind + n.toNat < 4294967296 := by
  obtain ⟨hbuf, ⟨new, hnew, hin⟩, hforward, hwithin⟩ := h
  have hlength : u'.buf.length = u.buf.length := congrArg List.length hbuf
  have hlt := u.length_lt
  have hn : n.toNat < 4294967296 := n.toNat_lt
  rw [rawbytes_eq]
  constructor
  · rintro ⟨-, hseen, -, -⟩
    by_contra hwraps
    rw [if_neg (by omega)] at hseen
    rcases hseen with hfalse | ⟨new', hnew', hin'⟩
    · exact absurd hok (by rw [hfalse]; exact nofun)
    · dsimp only at hnew'
      rw [hnew, List.append_assoc] at hnew'
      have hmem : (u'.ind, n.toNat) ∈ new' := by
        rw [← List.append_cancel_left hnew']
        exact List.mem_append_right _ List.mem_cons_self
      have hsum : u'.ind + n.toNat ≤ u.buf.length := hin' _ hmem
      omega
  · intro hsum
    rw [Nat.mod_eq_of_lt hsum]
    split
    next => exact ⟨hbuf, .inl rfl, hforward, hwithin⟩
    next hend =>
      refine ⟨hbuf, .inr ⟨new ++ [(u'.ind, n.toNat)], ?_, fun r hr => ?_⟩, ?_, ?_⟩
      · dsimp only
        rw [hnew, List.append_assoc]
      · rcases List.mem_append.1 hr with hr | hr
        · exact hin r hr
        · rw [List.mem_singleton.1 hr, ← hlength]
          exact Nat.not_lt.1 hend
      · exact Nat.le_trans hforward (Nat.le_add_right ..)
      · dsimp only
        omega

/-- A string with its length. -/
theorem safe_getString_iff (u : Unmarshall) (s : Bytes) :
    Safe u ((getString s).run u).2 ↔ ¬ u.EndWraps := by
  have hin := careful_getUint u
  change Safe u ((if (getUint.run u).2.ok = true then rawbytes s (getUint.run u).1 else
    pure s : Reads Bytes).run (getUint.run u).2).2 ↔ _
  by_cases hfull : u.ok = true ∧ u.ind + 4 ≤ u.buf.length
  · obtain ⟨hval, hok, hind⟩ := getUint_full hfull.1 hfull.2
    rw [if_pos hok]
    refine (safe_rawbytes_iff hin hok (hind ▸ hfull.2) s _).trans ?_
    rw [hind, hval, ← Nat.not_le]
    exact not_congr ⟨fun hle => ⟨hfull.1, hfull.2, hle⟩, fun hwraps => hwraps.2.2⟩
  · rw [if_neg (by rw [getUint_short hfull]; exact nofun)]
    exact ⟨fun _ hwraps => hfull ⟨hwraps.1, hwraps.2.1⟩, fun _ => hin.safe⟩

/-- The read `s` is of a string whose end wraps around. -/
def Wraps (u : Unmarshall) (s : Scalar) : Prop := s = .string ∧ u.EndWraps

/-- One read. -/
theorem safe_after_iff (u : Unmarshall) (s : Scalar) : Safe u (u.after s) ↔ ¬ u.Wraps s := by
  by_cases hs : s = .string
  · subst hs
    exact (safe_getString_iff u []).trans
      (not_congr ⟨fun hwraps => ⟨rfl, hwraps⟩, fun hwraps => hwraps.2⟩)
  · exact ⟨fun _ hwraps => hs hwraps.1, fun _ => (careful_get hs u).safe⟩

/-- What is so at every place of a list. -/
theorem forall_places_cons {P : List Scalar → Scalar → Prop} {s : Scalar} {ss : List Scalar} :
    (∀ pre x post, s :: ss = pre ++ x :: post → P pre x) ↔
      P [] s ∧ ∀ pre x post, ss = pre ++ x :: post → P (s :: pre) x := by
  refine ⟨fun h => ⟨h [] s ss rfl, fun pre x post heq => h (s :: pre) x post (by rw [heq]; rfl)⟩,
    fun h pre x post heq => ?_⟩
  cases pre with
  | nil =>
    obtain ⟨rfl, -⟩ := List.cons.inj heq
    exact h.1
  | cons y pre =>
    obtain ⟨rfl, heq'⟩ := List.cons.inj heq
    exact h.2 pre x post heq'

/-- **Reads stay inside the buffer**, whatever is in it and whatever is read one after another, if
and only if none of them is of a string whose end wraps around. -/
theorem reads_inside_iff (u : Unmarshall) (ss : List Scalar) :
    (∀ pre s post, ss = pre ++ s :: post → Safe (u.afterAll pre) ((u.afterAll pre).after s)) ↔
      ∀ pre s post, ss = pre ++ s :: post → ¬ (u.afterAll pre).Wraps s := by
  induction ss generalizing u with
  | nil => simp
  | cons s ss ih =>
    rw [forall_places_cons, forall_places_cons]
    exact and_congr (safe_after_iff u s) (ih (u.after s))

/-- Nothing but the length of a string, and that is four less than `2 ^ 32`. -/
theorem not_reads_inside : ¬ ∀ (u : Unmarshall) (ss : List Scalar), u.ind ≤ u.buf.length →
    ∀ pre s post, ss = pre ++ s :: post → Safe (u.afterAll pre) ((u.afterAll pre).after s) := by
  intro hall
  let u : Unmarshall := .ofBuf [255, 255, 255, 252] (by decide)
  have hsafe : Safe u (u.after .string) := hall u [.string] (Nat.zero_le _) [] .string [] rfl
  exact (safe_getString_iff u []).1 hsafe ⟨rfl, by decide, by decide⟩

end Unmarshall
end Rpc
end CseLab
