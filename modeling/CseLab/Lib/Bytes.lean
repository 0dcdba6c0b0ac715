import Mathlib.Algebra.Group.Nat.Defs

/-!
# Byte strings and little-endian words

The servers exchange `std::string`s of arbitrary bytes, and both the version number in front of a
value and the words of an on-disk inode are 32-bit integers stored in memory order.  The machines
the code is built for are little-endian.
-/

set_option autoImplicit false

namespace CseLab

/-- The contents of a `std::string`. -/
abbrev Bytes := List UInt8

/-- Byte `i` of the 32-bit word `w` in memory. -/
def byteOf (w : UInt32) (i : ℕ) : UInt8 := UInt8.ofNat (w.toNat / 256 ^ i)

/-- The word whose four bytes in memory are `b₀`, `b₁`, `b₂`, `b₃`. -/
def wordOf (b₀ b₁ b₂ b₃ : UInt8) : UInt32 :=
  UInt32.ofNat (b₀.toNat + 256 * b₁.toNat + 65536 * b₂.toNat + 16777216 * b₃.toNat)

/-- Reading a word back from memory. -/
@[simp] theorem wordOf_byteOf (w : UInt32) :
    wordOf (byteOf w 0) (byteOf w 1) (byteOf w 2) (byteOf w 3) = w := by
  have hlt : w.toNat < 4294967296 := w.toNat_lt
  apply UInt32.toNat_inj.1
  simp only [wordOf, byteOf, UInt32.toNat_ofNat', UInt8.toNat_ofNat']
  omega

/-- The four bytes of a word. -/
def wordBytes (w : UInt32) : Bytes := [byteOf w 0, byteOf w 1, byteOf w 2, byteOf w 3]

@[simp] theorem length_wordBytes (w : UInt32) : (wordBytes w).length = 4 := rfl

end CseLab
