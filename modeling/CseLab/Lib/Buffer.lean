import CseLab.Lib.Bytes
import Mathlib.Data.List.Basic
import Mathlib.Logic.Function.Basic

/-!
# Buffers

A buffer is memory: byte `k` of `b` is `b k`.  How long it is is for its owner to say; what lies
beyond is never looked at.  `word` and `setWord` see it as an array of 32-bit words, which is how a
`struct` of such words and an array of ids are laid over it.
-/

set_option autoImplicit false

namespace CseLab

/-- Memory from some address on. -/
abbrev Buffer := ℕ → UInt8

namespace Buffer

variable {b : Buffer} {i j n : ℕ} {w : UInt32}

/-- All zero. -/
def zero : Buffer := fun _ => 0

@[simp] theorem zero_apply (k : ℕ) : zero k = 0 := rfl

/-- The first `n` bytes. -/
def bytes (b : Buffer) (n : ℕ) : Bytes := (List.range n).map b

@[simp] theorem length_bytes : (b.bytes n).length = n := by simp [bytes]

theorem getElem?_bytes (h : i < n) : (b.bytes n)[i]? = some (b i) := by
  simp [bytes, h]

/-- Word `i`. -/
def word (b : Buffer) (i : ℕ) : UInt32 :=
  wordOf (b (4 * i)) (b (4 * i + 1)) (b (4 * i + 2)) (b (4 * i + 3))

/-- Word `i` becomes `w`. -/
def setWord (b : Buffer) (i : ℕ) (w : UInt32) : Buffer :=
  fun k => if k / 4 = i then byteOf w (k % 4) else b k

@[simp] theorem word_setWord_self : (b.setWord i w).word i = w := by
  have h0 : (4 * i) / 4 = i ∧ (4 * i) % 4 = 0 := by omega
  have h1 : (4 * i + 1) / 4 = i ∧ (4 * i + 1) % 4 = 1 := by omega
  have h2 : (4 * i + 2) / 4 = i ∧ (4 * i + 2) % 4 = 2 := by omega
  have h3 : (4 * i + 3) / 4 = i ∧ (4 * i + 3) % 4 = 3 := by omega
  simp only [word, setWord, h0, h1, h2, h3, if_true, wordOf_byteOf]

theorem word_setWord_ne (h : j ≠ i) : (b.setWord i w).word j = b.word j := by
  have h0 : (4 * j) / 4 ≠ i := by omega
  have h1 : (4 * j + 1) / 4 ≠ i := by omega
  have h2 : (4 * j + 2) / 4 ≠ i := by omega
  have h3 : (4 * j + 3) / 4 ≠ i := by omega
  simp only [word, setWord, h0, h1, h2, h3, if_false]

@[simp] theorem word_zero : zero.word i = 0 := by
  simp only [word, zero]
  rfl

end Buffer

theorem length_flatMap_bytes {α : Type*} (f : α → Buffer) (l : List α) (n : ℕ) :
    (l.flatMap fun a => (f a).bytes n).length = l.length * n := by
  induction l with
  | nil => simp
  | cons a l ih =>
    rw [List.flatMap_cons, List.length_append, ih, Buffer.length_bytes, List.length_cons,
      Nat.succ_mul, Nat.add_comm]

/-- Buffers of `n` bytes one after the other: byte `k` is in buffer `k / n`. -/
theorem getElem?_flatMap_bytes {α : Type*} (f : α → Buffer) (l : List α) {n k : ℕ} (hn : 0 < n) :
    (l.flatMap fun a => (f a).bytes n)[k]? = l[k / n]?.map fun a => f a (k % n) := by
  induction l generalizing k with
  | nil => simp
  | cons a l ih =>
    rw [List.flatMap_cons, List.getElem?_append, Buffer.length_bytes]
    split
    next h => simp [Buffer.getElem?_bytes h, Nat.div_eq_of_lt h, Nat.mod_eq_of_lt h]
    next h =>
      obtain ⟨m, rfl⟩ := Nat.exists_eq_add_of_le (Nat.le_of_not_lt h)
      rw [ih, Nat.add_sub_cancel_left, Nat.add_div_left m hn, Nat.add_mod_left]
      rfl

end CseLab
