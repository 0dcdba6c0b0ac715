import CseLab.Ydb.Base
import Mathlib.Data.ZMod.Units

/-!
# Keys and extents

`ydb_server` stores the value of a key in the extent with the number of the key's hash, and nothing
else: not the key, and no list of the keys that share the number.  Two keys are one key to the
server if their hashes are the same.

`hash` is a polynomial in 65599 over the characters, and 65599 is 63 modulo 1024, a unit.  So two
keys of which one comes from the other by changing one character have different hashes
(`hash_ne_of_one`), while two changes can make up for each other.
-/

set_option autoImplicit false

namespace CseLab
namespace Ydb

/-! ## The hash modulo 1024 -/

/-- A 64-bit number modulo 1024. -/
def residue (x : UInt64) : ZMod 1024 := x.toNat

theorem natCast_mod_word (n : ℕ) : ((n % 18446744073709551616 : ℕ) : ZMod 1024) = n := by
  rw [ZMod.natCast_eq_natCast_iff]
  exact Nat.ModEq.of_dvd (by decide) (Nat.mod_modEq n 18446744073709551616)

theorem residue_add (x y : UInt64) : residue (x + y) = residue x + residue y := by
  rw [residue, UInt64.toNat_add, natCast_mod_word, Nat.cast_add]
  rfl

theorem residue_mul (x y : UInt64) : residue (x * y) = residue x * residue y := by
  rw [residue, UInt64.toNat_mul, natCast_mod_word, Nat.cast_mul]
  rfl

/-- `eid = eid * 65599 + key[i]` modulo 1024. -/
theorem residue_round (x : UInt64) (c : UInt8) :
    residue (x * 65599 + charValue c) = residue x * 63 + residue (charValue c) := by
  rw [residue_add, residue_mul]
  rfl

/-- The number a `char` stands for. -/
def charNum (c : UInt8) : ℤ := if c.toNat < 128 then c.toNat else c.toNat - 256

theorem residue_charValue (c : UInt8) : residue (charValue c) = (charNum c : ZMod 1024) := by
  have hlt : c < 128 ↔ c.toNat < 128 := UInt8.lt_iff_toNat_lt
  rw [charValue, charNum]
  by_cases hc : c.toNat < 128
  · rw [if_pos (hlt.2 hc), if_pos hc, residue, UInt8.toNat_toUInt64, Int.cast_natCast]
  · have hsub : residue (c.toUInt64 - 256) = residue c.toUInt64 - residue 256 := by
      rw [eq_sub_iff_add_eq, ← residue_add, UInt64.sub_add_cancel]
    rw [if_neg (mt hlt.1 hc), if_neg hc, hsub, Int.cast_sub, Int.cast_natCast]
    rfl

theorem residue_charValue_inj {c d : UInt8}
    (h : residue (charValue c) = residue (charValue d)) : c = d := by
  rw [residue_charValue, residue_charValue, ZMod.intCast_eq_intCast_iff] at h
  have hdvd := Int.ModEq.dvd h
  have hc := c.toNat_lt
  have hd := d.toNat_lt
  refine UInt8.toNat_inj.1 ?_
  rw [charNum, charNum] at hdvd
  split at hdvd <;> split at hdvd <;> omega

theorem hash_eq_iff (k₁ k₂ : Bytes) : hash k₁ = hash k₂ ↔
    residue (k₁.foldl (fun eid c => eid * 65599 + charValue c) 0) =
      residue (k₂.foldl (fun eid c => eid * 65599 + charValue c) 0) := by
  rw [hash, hash, UInt64.toNat_mod, UInt64.toNat_mod, residue, residue,
    ZMod.natCast_eq_natCast_iff]
  rfl

/-- What differs before the last characters differs after them. -/
theorem residue_foldl_inj (l : Bytes) {x y : UInt64}
    (h : residue (l.foldl (fun eid c => eid * 65599 + charValue c) x) =
      residue (l.foldl (fun eid c => eid * 65599 + charValue c) y)) : residue x = residue y := by
  induction l generalizing x y with
  | nil => exact h
  | cons c l ih =>
    have hround := ih h
    rw [residue_round, residue_round, add_left_inj] at hround
    have hunit : IsUnit (63 : ZMod 1024) := (ZMod.isUnit_iff_coprime 63 1024).2 (by decide)
    exact hunit.mul_right_cancel hround

/-- **Keys that differ in one character do not meet.** -/
theorem hash_ne_of_one (p q : Bytes) {c d : UInt8} (hne : c ≠ d) :
    hash (p ++ c :: q) ≠ hash (p ++ d :: q) := by
  rw [Ne, hash_eq_iff, List.foldl_append, List.foldl_append, List.foldl_cons, List.foldl_cons]
  intro h
  have hround := residue_foldl_inj q h
  rw [residue_round, residue_round, add_right_inj] at hround
  exact hne (residue_charValue_inj hround)

/-! ## `ydb_server` over an ideal store -/

namespace Ideal

/-- `ydb_server::get`. -/
def get (s : IdealStore) (key : Bytes) : Bytes := s (hash key)

/-- `ydb_server::set`. -/
def set (s : IdealStore) (key value : Bytes) : IdealStore := s.put (hash key) value

/-- `ydb_server::del`. -/
def del (s : IdealStore) (key : Bytes) : IdealStore := s.remove (hash key)

/-- What a call makes of the store; the calls that begin and end transactions do nothing. -/
def serve (s : IdealStore) : Call → IdealStore
  | .set key value => set s key value
  | .del key => del s key
  | .get _ | .transactionCommit | .transactionAbort => s

/-- The store of a server that has served the calls. -/
def after (calls : List Call) : IdealStore := calls.foldl serve IdealStore.fresh

/-- The calls leave alone what is stored for `key₂`, and every extent but that of `key₁`. -/
structure Apart (s : IdealStore) (key₁ key₂ value : Bytes) : Prop where
  get_set : get (set s key₁ value) key₂ = get s key₂
  get_del : get (del s key₁) key₂ = get s key₂
  frame_set : ∀ eid, eid ≠ hash key₁ → set s key₁ value eid = s eid
  frame_del : ∀ eid, eid ≠ hash key₁ → del s key₁ eid = s eid

end Ideal

open Ydb.Ideal

/-- **Keys with different hashes do not interfere**, and two keys with one hash do. -/
theorem keys_apart_iff (key₁ key₂ : Bytes) :
    (∀ calls value, Apart (after calls) key₁ key₂ value) ↔ hash key₁ ≠ hash key₂ := by
  refine ⟨fun h heq => ?_, fun hne calls value => ?_⟩
  · have hget := (h [] [0]).get_set
    rw [Ideal.get, Ideal.set, ← heq, IdealStore.put, Function.update_self] at hget
    exact absurd hget (by simp [Ideal.get, after, IdealStore.fresh])
  · refine ⟨?_, ?_, fun eid h => ?_, fun eid h => ?_⟩
    · exact Function.update_of_ne hne.symm ..
    · exact Function.update_of_ne hne.symm ..
    · exact Function.update_of_ne h ..
    · exact Function.update_of_ne h ..

/-- **The keys "Az" and "B;" are one key**, and the key that is the one byte 1 is the root
directory. -/
theorem not_keys_apart :
    ¬ (∀ key₁ key₂ : Bytes, key₁ ≠ key₂ → ∀ calls value,
      Ideal.get (Ideal.set (after calls) key₁ value) key₂ = Ideal.get (after calls) key₂) ∧
    ¬ (∀ (key : Bytes) calls value, Ideal.set (after calls) key value 1 = after calls 1) := by
  refine ⟨fun h => ?_, fun h => ?_⟩
  · exact absurd (h [65, 122] [66, 59] (by decide) [] [118]) (by decide +kernel)
  · exact absurd (h [1] [] [118]) (by decide +kernel)

end Ydb
end CseLab
