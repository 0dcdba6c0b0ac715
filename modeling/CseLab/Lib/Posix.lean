import CseLab.Lib.Bytes
import Mathlib.Data.List.GetD

/-!
# A file as an array of bytes

`Posix.write` and `Posix.truncate` are what writing into a file and setting its length are meant to
come to, byte by byte; a byte behind the end of the file counts as 0.  `write_splice` and
`truncate_extend` are how programs put the new contents together from the old.
-/

set_option autoImplicit false

namespace CseLab
namespace Posix

variable {c d : Bytes} {off n : ℕ}

/-- The file `c` with `d` written at `off`.  A gap between the end of the file and `off` is
zero-filled. -/
def write (c d : Bytes) (off : ℕ) : Bytes :=
  (List.range (max c.length (off + d.length))).map fun k =>
    if off ≤ k ∧ k < off + d.length then d.getD (k - off) 0 else c.getD k 0

/-- The file `c` with its length set to `n`. -/
def truncate (c : Bytes) (n : ℕ) : Bytes := (List.range n).map fun k => c.getD k 0

@[simp] theorem length_write (c d : Bytes) (off : ℕ) :
    (write c d off).length = max c.length (off + d.length) := by
  rw [write, List.length_map, List.length_range]

@[simp] theorem length_truncate (c : Bytes) (n : ℕ) : (truncate c n).length = n := by
  rw [truncate, List.length_map, List.length_range]

theorem getD_write (c d : Bytes) (off k : ℕ) : (write c d off).getD k 0 =
    if off ≤ k ∧ k < off + d.length then d.getD (k - off) 0 else c.getD k 0 := by
  rcases Nat.lt_or_ge k (max c.length (off + d.length)) with hk | hk
  · rw [List.getD_eq_getElem _ _ (by rw [length_write]; exact hk)]
    simp only [write, List.getElem_map, List.getElem_range]
  · obtain ⟨hc, hd⟩ := Nat.max_le.1 hk
    rw [List.getD_eq_default _ _ (by rw [length_write]; exact hk), if_neg (by omega),
      List.getD_eq_default _ _ hc]

theorem getD_truncate (c : Bytes) (n k : ℕ) :
    (truncate c n).getD k 0 = if k < n then c.getD k 0 else 0 := by
  split
  next hk =>
    rw [List.getD_eq_getElem _ _ (by rw [length_truncate]; exact hk)]
    simp only [truncate, List.getElem_map, List.getElem_range]
  next hk =>
    exact List.getD_eq_default _ _ (by rw [length_truncate]; exact Nat.not_lt.1 hk)

/-- Two files are the same if they are equally long and have the same bytes. -/
theorem ext_getD (hlen : c.length = d.length) (h : ∀ k, c.getD k 0 = d.getD k 0) : c = d := by
  refine List.ext_getElem hlen fun k hc hd => ?_
  rw [← List.getD_eq_getElem c 0 hc, ← List.getD_eq_getElem d 0 hd, h k]

theorem getD_append (c d : Bytes) (k : ℕ) :
    (c ++ d).getD k 0 = if k < c.length then c.getD k 0 else d.getD (k - c.length) 0 := by
  split
  next hk => exact List.getD_append c d 0 k hk
  next hk => exact List.getD_append_right c d 0 k (Nat.not_lt.1 hk)

theorem getD_take (c : Bytes) (n k : ℕ) :
    (c.take n).getD k 0 = if k < n then c.getD k 0 else 0 := by
  simp only [List.getD_eq_getElem?_getD, List.getElem?_take]
  split <;> rfl

theorem getD_drop (c : Bytes) (n k : ℕ) : (c.drop n).getD k 0 = c.getD (n + k) 0 := by
  simp only [List.getD_eq_getElem?_getD, List.getElem?_drop]

theorem getD_zeros (n k : ℕ) : (List.replicate n (0 : UInt8)).getD k 0 = 0 := by
  simp only [List.getD_eq_getElem?_getD, List.getElem?_replicate]
  split <;> rfl

/-- What is before `off`, the new bytes, and what is behind them. -/
theorem write_splice (h : off ≤ c.length) :
    c.take off ++ d ++ c.drop (off + d.length) = write c d off := by
  have htake : (c.take off).length = off := List.length_take_of_le h
  refine ext_getD ?_ fun k => ?_
  · simp only [List.length_append, List.length_drop, length_write, htake]
    omega
  · rw [getD_write, getD_append, getD_append, getD_take, getD_drop, List.length_append, htake]
    rcases Nat.lt_or_ge k off with hk | hk
    · rw [if_pos (by omega), if_pos hk, if_pos hk, if_neg (by omega)]
    · rcases Nat.lt_or_ge k (off + d.length) with hk' | hk'
      · rw [if_pos hk', if_neg (by omega), if_pos ⟨hk, hk'⟩]
      · rw [if_neg (by omega), if_neg (by omega), Nat.add_sub_cancel' hk']

/-- Filling the gap first makes no difference. -/
theorem write_pad (h : c.length ≤ off) :
    write (c ++ List.replicate (off - c.length) 0) d off = write c d off := by
  refine ext_getD ?_ fun k => ?_
  · simp only [length_write, List.length_append, List.length_replicate]
    omega
  · rw [getD_write, getD_write, getD_append, getD_zeros]
    split
    next => rfl
    next =>
      split
      next => rfl
      next hk => exact (List.getD_eq_default _ _ (Nat.not_lt.1 hk)).symm

theorem truncate_extend (h : c.length ≤ n) :
    c ++ List.replicate (n - c.length) 0 = truncate c n := by
  refine ext_getD ?_ fun k => ?_
  · simp only [List.length_append, List.length_replicate, length_truncate]
    omega
  · rw [getD_truncate, getD_append, getD_zeros]
    rcases Nat.lt_or_ge k c.length with hk | hk
    · rw [if_pos hk, if_pos (by omega)]
    · rw [if_neg (by omega), List.getD_eq_default _ _ hk, ite_self]

theorem truncate_take (h : n ≤ c.length) : c.take n = truncate c n := by
  refine ext_getD ?_ fun k => ?_
  · rw [List.length_take_of_le h, length_truncate]
  · rw [getD_take, getD_truncate]

end Posix
end CseLab
