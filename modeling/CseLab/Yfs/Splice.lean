import CseLab.Lib.Posix
import Mathlib.Data.Int.Notation

/-!
# How `yfs_client` puts a file together

`yfs_client::setattr` and `yfs_client::write` get a file whole, make the new contents from it and
put them back whole.  The sizes of the two strings go through an `int` on the way and are then
compared with a `size_t`, so that a size from 2^31 on is not what it was; an `off_t` is taken as a
`size_t`.  Below that the new contents are what they should be: `setattrFile_eq` and `writeFile_eq`.
-/

set_option autoImplicit false

namespace CseLab
namespace Yfs

/-- A `size_t` that has been an `int`. -/
def throughInt (n : ℕ) : ℕ := ((Int32.ofNat n).toInt % 18446744073709551616).toNat

theorem throughInt_of_lt {n : ℕ} (h : n < 2147483648) : throughInt n = n := by
  rw [throughInt, Int32.toInt_ofNat_of_lt h]
  omega

/-- `newFile` of `setattr`. -/
def setattrFile (oldFile : Bytes) (size : ℕ) : Bytes :=
  let oldSize := throughInt oldFile.length
  if oldSize < size then oldFile ++ List.replicate (size - oldSize) 0
  else oldFile.take size

/-- `newData` of `write`, whose `data` and `size` are the one string `data`; `none` where `substr`
is asked for a position behind the end, and throws. -/
def writeFile (allData data : Bytes) (off : ℕ) : Option Bytes :=
  let allData :=
    if allData.length < off then allData ++ List.replicate (off - allData.length) 0 else allData
  let oldSize := throughInt allData.length
  if oldSize ≤ off + data.length then some (allData.take off ++ data)
  else if allData.length < off + data.length then none
  else some (allData.take off ++ data ++ allData.drop (off + data.length))

variable {old data d : Bytes} {off size : ℕ}

theorem setattrFile_eq (h : old.length < 2147483648) :
    setattrFile old size = Posix.truncate old size := by
  simp only [setattrFile, throughInt_of_lt h]
  split
  next hlt => exact Posix.truncate_extend (Nat.le_of_lt hlt)
  next hle => exact Posix.truncate_take (Nat.not_lt.1 hle)

/-- What `write` makes of a file that has been filled up to `off`. -/
theorem splice_eq (hoff : off ≤ old.length) (hlen : old.length < 2147483648) :
    (if throughInt old.length ≤ off + data.length then some (old.take off ++ data)
      else if old.length < off + data.length then none
      else some (old.take off ++ data ++ old.drop (off + data.length))) =
    some (Posix.write old data off) := by
  rw [throughInt_of_lt hlen, ← Posix.write_splice hoff]
  split
  next hle => rw [List.drop_eq_nil_of_le hle, List.append_nil]
  next hgt => rw [if_neg (by omega)]

theorem writeFile_eq (h : old.length < 2147483648) (hoff : off < 2147483648) :
    writeFile old data off = some (Posix.write old data off) := by
  simp only [writeFile]
  split
  next hlt =>
    rw [← Posix.write_pad (Nat.le_of_lt hlt)]
    refine splice_eq ?_ ?_ <;>
      rw [List.length_append, List.length_replicate] <;> omega
  next hle => exact splice_eq (Nat.not_lt.1 hle) h

/-- However large `off` is, what is put back is as long as it should be. -/
theorem length_writeFile (h : old.length < 2147483648) (hd : writeFile old data off = some d) :
    d.length = max (max old.length off) (off + data.length) := by
  rcases Nat.lt_or_ge off 2147483648 with hoff | hoff
  · rw [writeFile_eq h hoff, Option.some_inj] at hd
    rw [← hd, Posix.length_write]
    omega
  · simp only [writeFile, if_pos (Nat.lt_of_lt_of_le h hoff)] at hd
    have hlen : (old ++ List.replicate (off - old.length) (0 : UInt8)).length = off := by
      rw [List.length_append, List.length_replicate]
      omega
    split at hd
    next =>
      rw [← Option.some_inj.1 hd, List.length_append, List.length_take, hlen]
      omega
    next =>
      obtain ⟨hle, hd⟩ := Option.ite_none_left_eq_some.1 hd
      rw [← Option.some_inj.1 hd, List.length_append, List.length_append, List.length_take,
        List.length_drop, hlen]
      omega

end Yfs
end CseLab
