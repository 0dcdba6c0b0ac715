import CseLab.Lib.Buffer

/-!
# Bitmaps in memory

A buffer as an array of bits.  A bit that is clear is set by adding its power of two to the byte it
is in, and one that is set is cleared by subtracting it; nothing is carried or borrowed then, and
the bits beside it stay as they are.
-/

set_option autoImplicit false

namespace CseLab

section byte

variable {c : UInt8} {j k : ℕ}

theorem testBit_toNat_add (hk : k < 8) (h : c.toNat.testBit k = false) :
    (c + UInt8.ofNat (2 ^ k)).toNat.testBit j = (decide (j = k) || c.toNat.testBit j) := by
  have hpow : (UInt8.ofNat (2 ^ k)).toBitVec = BitVec.twoPow 8 k := by
    refine BitVec.eq_of_toNat_eq ?_
    rw [BitVec.toNat_twoPow]
    rfl
  have hand : c.toBitVec &&& BitVec.twoPow 8 k = 0 := by
    rw [BitVec.and_twoPow, if_neg (by simp only [BitVec.getLsbD, UInt8.toNat_toBitVec, h]; simp)]
    rfl
  have hor : (c + UInt8.ofNat (2 ^ k)).toBitVec = c.toBitVec ||| BitVec.twoPow 8 k := by
    rw [UInt8.toBitVec_add, hpow, BitVec.add_eq_or_of_and_eq_zero _ _ hand]
  have hbit := congrArg (fun v => v.getLsbD j) hor
  simp only [BitVec.getLsbD_or, BitVec.getLsbD_twoPow, hk, decide_true, Bool.true_and] at hbit
  have hcomm : decide (j = k) = decide (k = j) := decide_eq_decide.2 eq_comm
  rw [Bool.or_comm, hcomm]
  exact hbit

theorem testBit_toNat_sub (hk : k < 8) (h : c.toNat.testBit k = true) :
    (c - UInt8.ofNat (2 ^ k)).toNat.testBit j = (!decide (j = k) && c.toNat.testBit j) := by
  obtain ⟨d, hd⟩ : ∃ d : UInt8, ∀ j, d.toNat.testBit j =
      (!decide (j = k) && c.toNat.testBit j) := by
    refine ⟨⟨c.toBitVec &&& ~~~BitVec.twoPow 8 k⟩, fun j => ?_⟩
    have hcomm : decide (k = j) = decide (j = k) := decide_eq_decide.2 eq_comm
    change (c.toBitVec &&& ~~~BitVec.twoPow 8 k).getLsbD j =
      (!decide (j = k) && c.toBitVec.getLsbD j)
    rw [BitVec.getLsbD_and, BitVec.getLsbD_not, BitVec.getLsbD_twoPow, hcomm]
    cases hj : c.toBitVec.getLsbD j with
    | false => simp
    | true => simp [BitVec.lt_of_getLsbD hj, hk]
  have hclear : d.toNat.testBit k = false := by rw [hd, decide_eq_true rfl]; rfl
  have hsum : d + UInt8.ofNat (2 ^ k) = c := by
    refine UInt8.toNat_inj.1 (Nat.eq_of_testBit_eq fun j => ?_)
    rw [testBit_toNat_add hk hclear, hd]
    by_cases hj : j = k
    · rw [decide_eq_true hj, hj, h]
      rfl
    · rw [decide_eq_false hj]
      rfl
  have hdiff : c - UInt8.ofNat (2 ^ k) = d := by rw [← hsum, UInt8.add_sub_cancel]
  rw [hdiff, hd]

end byte

namespace Buffer

variable {b : Buffer} {p q : ℕ}

/-- Bit `p`. -/
def bit (b : Buffer) (p : ℕ) : Bool := (b (p / 8)).toNat.testBit (p % 8)

/-- The power of two of bit `p` is added to its byte. -/
def addBit (b : Buffer) (p : ℕ) : Buffer :=
  Function.update b (p / 8) (b (p / 8) + UInt8.ofNat (2 ^ (p % 8)))

/-- The power of two of bit `p` is subtracted from its byte. -/
def subBit (b : Buffer) (p : ℕ) : Buffer :=
  Function.update b (p / 8) (b (p / 8) - UInt8.ofNat (2 ^ (p % 8)))

theorem bit_update_of_ne {c : UInt8} (h : q / 8 ≠ p / 8) :
    bit (Function.update b (p / 8) c) q = b.bit q := by
  rw [bit, Function.update_of_ne h]
  rfl

theorem bit_addBit (h : b.bit p = false) : (b.addBit p).bit q = (decide (q = p) || b.bit q) := by
  by_cases hbyte : q / 8 = p / 8
  · rw [bit, addBit, hbyte, Function.update_self, testBit_toNat_add (Nat.mod_lt _ (by decide)) h,
      bit, hbyte]
    refine congrArg (· || _) (decide_eq_decide.2 ?_)
    omega
  · rw [addBit, bit_update_of_ne hbyte, decide_eq_false (by rintro rfl; exact hbyte rfl),
      Bool.false_or]

theorem bit_subBit (h : b.bit p = true) : (b.subBit p).bit q = (!decide (q = p) && b.bit q) := by
  by_cases hbyte : q / 8 = p / 8
  · rw [bit, subBit, hbyte, Function.update_self, testBit_toNat_sub (Nat.mod_lt _ (by decide)) h,
      bit, hbyte]
    refine congrArg (fun d => !d && _) (decide_eq_decide.2 ?_)
    omega
  · rw [subBit, bit_update_of_ne hbyte, decide_eq_false (by rintro rfl; exact hbyte rfl),
      Bool.not_false, Bool.true_and]

end Buffer

end CseLab
