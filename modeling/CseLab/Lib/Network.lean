import CseLab.Lib.Bytes

/-!
# Network byte order

On the wire an integer is cut into bytes by shifts, the most significant byte first, and put
together again by shifts.  `word_of_shifts` is what four bytes come to; the others say that an
integer comes back.
-/

set_option autoImplicit false

namespace CseLab

/-- The bytes of a word in network order. -/
def netBytes (w : UInt32) : Bytes := [byteOf w 3, byteOf w 2, byteOf w 1, byteOf w 0]

/-- What is below bit `i` does not touch what is above it. -/
theorem or_shift {a b : ℕ} (i : ℕ) (h : b < 2 ^ i) : a * 2 ^ i ||| b = a * 2 ^ i + b := by
  rw [← Nat.shiftLeft_eq, Nat.shiftLeft_add_eq_or_of_lt h]

theorem toNat_byte_shift (b : UInt8) {i : UInt32} (k : ℕ) (hk : i.toNat % 32 = k) (hle : k ≤ 24) :
    (b.toUInt32 <<< i).toNat = b.toNat * 2 ^ k := by
  have hb := b.toNat_lt
  have hpow : (2 : ℕ) ^ k ≤ 2 ^ 24 := Nat.pow_le_pow_right (by decide) hle
  rw [UInt32.toNat_shiftLeft, hk, UInt8.toNat_toUInt32, Nat.shiftLeft_eq, Nat.mod_eq_of_lt]
  calc b.toNat * 2 ^ k ≤ 255 * 2 ^ 24 := Nat.mul_le_mul (by omega) hpow
    _ < 2 ^ 32 := by decide

/-- Four bytes put together. -/
theorem word_of_shifts (b₀ b₁ b₂ b₃ : UInt8) :
    b₃.toUInt32 <<< 24 ||| b₂.toUInt32 <<< 16 ||| b₁.toUInt32 <<< 8 ||| b₀.toUInt32 =
      wordOf b₀ b₁ b₂ b₃ := by
  have h₀ := b₀.toNat_lt
  have h₁ := b₁.toNat_lt
  have h₂ := b₂.toNat_lt
  have h₃ := b₃.toNat_lt
  have h24 : b₃.toNat * 2 ^ 24 ||| b₂.toNat * 2 ^ 16 = (b₃.toNat * 2 ^ 8 + b₂.toNat) * 2 ^ 16 := by
    rw [or_shift 24 (by omega)]
    omega
  have h16 : (b₃.toNat * 2 ^ 8 + b₂.toNat) * 2 ^ 16 ||| b₁.toNat * 2 ^ 8 =
      ((b₃.toNat * 2 ^ 8 + b₂.toNat) * 2 ^ 8 + b₁.toNat) * 2 ^ 8 := by
    rw [or_shift 16 (by omega)]
    omega
  apply UInt32.toNat_inj.1
  rw [UInt32.toNat_or, UInt32.toNat_or, UInt32.toNat_or, toNat_byte_shift b₃ 24 rfl (by decide),
    toNat_byte_shift b₂ 16 rfl (by decide), toNat_byte_shift b₁ 8 rfl (by decide),
    UInt8.toNat_toUInt32, h24, h16, or_shift 8 h₀, wordOf, UInt32.toNat_ofNat']
  omega

/-- One byte cut out. -/
theorem byte_of_shift (x : UInt32) {i : UInt32} {k : ℕ} (hk : i.toNat % 32 = 8 * k) :
    ((x >>> i) &&& 0xff).toUInt8 = byteOf x k := by
  apply UInt8.toNat_inj.1
  rw [byteOf, UInt32.toNat_toUInt8, UInt32.toNat_and, UInt32.toNat_shiftRight, hk,
    Nat.shiftRight_eq_div_pow, UInt8.toNat_ofNat', Nat.pow_mul]
  change (x.toNat / 256 ^ k &&& 2 ^ 8 - 1) % 2 ^ 8 = _
  rw [Nat.and_two_pow_sub_one_eq_mod, Nat.mod_mod]

theorem byte_of_low (x : UInt32) : (x &&& 0xff).toUInt8 = byteOf x 0 := by
  apply UInt8.toNat_inj.1
  rw [byteOf, UInt32.toNat_toUInt8, UInt32.toNat_and, UInt8.toNat_ofNat', Nat.pow_zero, Nat.div_one]
  change (x.toNat &&& 2 ^ 8 - 1) % 2 ^ 8 = _
  rw [Nat.and_two_pow_sub_one_eq_mod, Nat.mod_mod]

/-- Two bytes cut out and put together. -/
theorem half_of_bytes (x : UInt16) :
    ((((x >>> 8) &&& 0xff).toUInt8.toUInt32 <<< 8).toUInt16 |||
      ((x &&& 0xff).toUInt8.toUInt32).toUInt16) = x := by
  have hx := x.toNat_lt
  apply UInt16.toNat_inj.1
  rw [UInt16.toNat_or, UInt32.toNat_toUInt16, toNat_byte_shift _ 8 rfl (by decide)]
  simp only [UInt32.toNat_toUInt16, UInt8.toNat_toUInt32, UInt16.toNat_toUInt8, UInt16.toNat_and,
    UInt16.toNat_shiftRight]
  change ((x.toNat >>> 8 &&& 2 ^ 8 - 1) % 2 ^ 8 * 2 ^ 8) % 2 ^ 16 |||
    ((x.toNat &&& 2 ^ 8 - 1) % 2 ^ 8) % 2 ^ 16 = _
  rw [Nat.and_two_pow_sub_one_eq_mod, Nat.and_two_pow_sub_one_eq_mod, Nat.mod_mod, Nat.mod_mod,
    Nat.shiftRight_eq_div_pow, Nat.mod_eq_of_lt (by omega : _ * 2 ^ 8 < 2 ^ 16),
    Nat.mod_eq_of_lt (by omega : _ % 2 ^ 8 < 2 ^ 16), or_shift 8 (by omega)]
  omega

/-- Two words cut out and put together. -/
theorem long_of_words (x : UInt64) :
    x.toUInt32.toUInt64 ||| (x >>> 32).toUInt32.toUInt64 <<< 32 = x := by
  have hx := x.toNat_lt
  apply UInt64.toNat_inj.1
  rw [UInt64.toNat_or, UInt64.toNat_shiftLeft]
  simp only [UInt32.toNat_toUInt64, UInt64.toNat_toUInt32, UInt64.toNat_shiftRight]
  change x.toNat % 2 ^ 32 ||| (x.toNat >>> 32 % 2 ^ 32) <<< 32 % 2 ^ 64 = _
  rw [Nat.shiftRight_eq_div_pow, Nat.shiftLeft_eq, Nat.or_comm,
    Nat.mod_eq_of_lt (by omega : _ * 2 ^ 32 < 2 ^ 64), or_shift 32 (by omega)]
  omega

end CseLab
