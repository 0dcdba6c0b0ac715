import CseLab.Lib.Bytes
import CseLab.Lib.Serial
import Mathlib.Data.Int.Notation

/-!
# What the ydb servers have in common

`ydb_server` maps a key to one of 1024 extents by `hash`; the lock of an extent has the extent's own
number, and the two transactional servers use the two numbers above as locks for their tables.  This
file has that vocabulary: `hash`, the reply codes of `ydb_protocol`, the calls a client issues for a
transaction, and `IdealStore`, the extent service taken as a map from ids to byte strings in which a
removed or never written id reads as the empty string.
-/

set_option autoImplicit false

namespace CseLab
namespace Ydb

/-- `extent_protocol::extentid_t`. -/
abbrev ExtentId := ℕ

/-- `lock_protocol::lockid_t`. -/
abbrev LockId := ℕ

/-- `ydb_protocol::transaction_id`, an `int`. -/
abbrev TransactionId := ℤ

/-- The largest `int`.  Incrementing it is undefined, so a server's life ends there. -/
def intMax : ℤ := 2147483647

/-- `ydb_server::maxKey`. -/
def maxKey : ℕ := 1024

/-- The lock that protects the table of transactions. -/
def tMapLockId : LockId := maxKey

/-- A `char` added to a 64-bit unsigned number: `char` is signed on the target. -/
def charValue (c : UInt8) : UInt64 := if c < 128 then c.toUInt64 else c.toUInt64 - 256

/-- `ydb_server::hash`. -/
def hash (key : Bytes) : ExtentId :=
  (key.foldl (fun eid c => eid * 65599 + charValue c) (0 : UInt64) % 1024).toNat

theorem hash_lt (key : Bytes) : hash key < maxKey := by
  rw [hash, UInt64.toNat_mod]
  exact Nat.mod_lt _ (by decide)

/-- `ydb_protocol::xxstatus`. -/
inductive Status
  | ok
  | rpcerr
  | abort
  | transidinv
  deriving DecidableEq

/-- What a client asks for inside a transaction. -/
inductive Call
  | get (key : Bytes)
  | set (key value : Bytes)
  | del (key : Bytes)
  | transactionCommit
  | transactionAbort
  deriving DecidableEq

/-- What a call that returned `ok` did, its output being `out`: `del` writes the empty string, and
the two calls that end a transaction are no part of what it did. -/
def Call.done : Call → Bytes → Option (Serial.Done ExtentId Bytes)
  | .get key, out => some (.get (hash key) out)
  | .set key value, _ => some (.put (hash key) value)
  | .del key, _ => some (.put (hash key) [])
  | .transactionCommit, _ => none
  | .transactionAbort, _ => none

/-- The key a call is about. -/
def Call.key : Call → Option Bytes
  | .get key | .set key _ | .del key => some key
  | .transactionCommit | .transactionAbort => none

/-- The key a call writes. -/
def Call.writes : Call → Option Bytes
  | .set key _ | .del key => some key
  | .get _ | .transactionCommit | .transactionAbort => none

theorem Call.of_done_get {c : Call} {out v : Bytes} {eid : ExtentId}
    (h : c.done out = some (.get eid v)) : ∃ key, c = .get key ∧ hash key = eid := by
  cases c with
  | get key =>
    simp only [Call.done, Option.some.injEq, Serial.Done.get.injEq] at h
    exact ⟨key, rfl, h.1⟩
  | set | del | transactionCommit | transactionAbort => exact absurd h (by simp [Call.done])

theorem Call.of_done_put {c : Call} {out v : Bytes} {eid : ExtentId}
    (h : c.done out = some (.put eid v)) :
    ∃ key, c.key = some key ∧ c.writes = some key ∧ hash key = eid := by
  cases c with
  | set key value | del key =>
    simp only [Call.done, Option.some.injEq, Serial.Done.put.injEq] at h
    exact ⟨key, rfl, rfl, h.1⟩
  | get | transactionCommit | transactionAbort => exact absurd h (by simp [Call.done])

/-- What the calls of a transaction did. -/
def doneOf (cs : List (Call × Bytes)) : List (Serial.Done ExtentId Bytes) :=
  cs.filterMap fun p => p.1.done p.2

@[simp] theorem doneOf_append (cs ds : List (Call × Bytes)) :
    doneOf (cs ++ ds) = doneOf cs ++ doneOf ds :=
  List.filterMap_append

/-- The extent service as an ideal map: `get` of a removed or never written id is `""`. -/
abbrev IdealStore := ExtentId → Bytes

namespace IdealStore

/-- Nothing has been written. -/
def fresh : IdealStore := fun _ => []

/-- `extent_client::put`. -/
def put (s : IdealStore) (eid : ExtentId) (buf : Bytes) : IdealStore := Function.update s eid buf

/-- `extent_client::remove`. -/
def remove (s : IdealStore) (eid : ExtentId) : IdealStore := Function.update s eid []

end IdealStore

end Ydb
end CseLab
