import CseLab.Yfs.Splice
import CseLab.Ydb.Plain

/-!
# Files that are too large

A file has at most `MAXFILE` blocks.  Nobody asks before the server's `write_file` does, and there
it is an `assert`, in the one process that all clients share; `yfs_client` and `ydb_server` compute
a size from what the user wants and what is there, and answer `OK`.

`serve` is one such request, the RPCs to the server included.  What a message longer than `MAX_PDU`
comes to is that its receiver closes the connection, and the caller's `VERIFY` fails after a while.
`handled_iff` says which requests are handled as they should: those whose file fits.
-/

set_option autoImplicit false

namespace CseLab
namespace Yfs

open Inode (BlockManager Junk System blockSize inodeOf maxFile)
open Ydb.Plain (extentGet extentPut)

/-! ## Requests -/

/-- `MAX_PDU`. -/
def maxPdu : ℕ := 10485760

/-- `RPC_HEADER_SZ`. -/
def rpcHeaderSz : ℕ := 24

/-- What becomes of a request. -/
inductive Fate
  /-- It is answered with the status `ret`, and leaves the server with `m`. -/
  | answered (ret : ℕ) (m : BlockManager)
  /-- The `assert` in `write_file` fails, and the server is gone. -/
  | assertFails
  /-- Whoever sent it is gone: a `VERIFY` has failed, or a string has thrown. -/
  | noAnswer

/-- `OK`, the same number in all protocols. -/
def ok : ℕ := 0

/-- What the memory and the clock have for a request: the time of its `get`, and of its `put`. -/
structure Ambient where
  getTime : UInt32
  junk : Junk
  putTime : UInt32

/-- `extent_client::get`: the contents, unless they are too long for a reply. -/
def get (m : BlockManager) (eid : ℕ) (a : Ambient) : Option (Bytes × BlockManager) :=
  let (buf, m) := extentGet m eid a.getTime
  if maxPdu < rpcHeaderSz + 4 + buf.length then none else some (buf, m)

/-- `extent_client::put`. -/
def put (m : BlockManager) (eid : ℕ) (buf : Bytes) (a : Ambient) : Fate :=
  if maxPdu < rpcHeaderSz + 8 + 4 + buf.length then .noAnswer
  else
    match extentPut m eid buf a.junk a.putTime with
    | none => .assertFails
    | some m => .answered ok m

/-- What a user asks for. -/
inductive Request
  /-- `yfs_client::setattr`. -/
  | setattr (ino size : ℕ)
  /-- `yfs_client::write`, with `size` bytes of `data`. -/
  | write (ino : ℕ) (data : Bytes) (off : ℕ)
  /-- `ydb_server::set`. -/
  | set (key value : Bytes)

namespace Request

/-- The extent it is about. -/
def eid : Request → ℕ
  | setattr ino _ | write ino _ _ => ino
  | set key _ => Ydb.hash key

/-- How long the file would be. -/
def resultSize (old : Bytes) : Request → ℕ
  | setattr _ size => size
  | write _ data off => max (max old.length off) (off + data.length)
  | set _ value => value.length

end Request

/-- The request is carried out. -/
def serve (m : BlockManager) (a : Ambient) : Request → Fate
  | .setattr ino size =>
    match get m ino a with
    | none => .noAnswer
    | some (oldFile, m) => put m ino (setattrFile oldFile size) a
  | .write ino data off =>
    match get m ino a with
    | none => .noAnswer
    | some (allData, m) =>
      match writeFile allData data off with
      | none => .noAnswer
      | some newData => put m ino newData a
  | .set key value => put m (Ydb.hash key) value a

/-- What is in the file before the request. -/
def before (m : BlockManager) (r : Request) (a : Ambient) : Bytes := (extentGet m r.eid a.getTime).1

/-- The file would not be larger than a file can be. -/
def FitsFile (m : BlockManager) (r : Request) (a : Ambient) : Prop :=
  r.resultSize (before m r a) ≤ maxFile * blockSize

/-- The request does no harm to the server, and if it asks for too much it is answered with an error
and the file is as it was. -/
structure Handled (m : BlockManager) (r : Request) (a : Ambient) : Prop where
  harmless : serve m a r ≠ .assertFails
  refused : ¬ FitsFile m r a → ∃ ret m', serve m a r = .answered ret m' ∧ ret ≠ ok ∧
    ∀ now, (extentGet m' r.eid now).1 = before m r a

/-! ## Which are handled -/

variable {m m' : BlockManager} {a : Ambient} {eid ino size off : ℕ} {buf data old : Bytes}

theorem get_cases (h : get m eid a = some (buf, m')) :
    buf = (extentGet m eid a.getTime).1 ∧ buf.length < 2147483648 := by
  rw [get] at h
  obtain ⟨hlen, h⟩ := Option.ite_none_left_eq_some.1 h
  obtain ⟨rfl, -⟩ := Prod.mk.inj (Option.some_inj.1 h)
  refine ⟨rfl, ?_⟩
  have := Nat.not_lt.1 hlen
  rw [maxPdu, rpcHeaderSz] at this
  omega

/-- A `put` is answered if and only if the file is not too large. -/
theorem put_answered (h : buf.length ≤ maxFile * blockSize) :
    ∃ m', put m eid buf a = .answered ok m' := by
  obtain ⟨t, m', hput⟩ := m.exists_writeFile (inodeOf eid) h a.junk a.putTime
  rw [Inode.maxFile_eq, Inode.blockSize_eq] at h
  refine ⟨m', ?_⟩
  rw [put, if_neg (by rw [maxPdu, rpcHeaderSz]; omega), extentPut, hput]
  rfl

theorem put_unanswered (h : ¬ buf.length ≤ maxFile * blockSize) (ret : ℕ) (m' : BlockManager) :
    put m eid buf a ≠ .answered ret m' := by
  have hput : extentPut m eid buf a.junk a.putTime = none := by
    rw [extentPut, Option.map_eq_none_iff, ← Option.not_isSome_iff_eq_none]
    exact fun hsome => h (BlockManager.writeFile_isSome.1 hsome)
  rw [put, hput]
  split <;> exact Fate.noConfusion

/-- What a request puts is as long as its result should be. -/
theorem serve_cases (m : BlockManager) (a : Ambient) (r : Request) :
    serve m a r = .noAnswer ∨ ∃ m₁ buf, serve m a r = put m₁ r.eid buf a ∧
      buf.length = r.resultSize (before m r a) := by
  cases r with
  | setattr ino size =>
    rw [serve]
    cases hget : get m ino a with
    | none => exact .inl rfl
    | some p =>
      obtain ⟨old, m₁⟩ := p
      obtain ⟨-, hlen⟩ := get_cases hget
      refine .inr ⟨m₁, _, rfl, ?_⟩
      rw [setattrFile_eq hlen, Posix.length_truncate]
      rfl
  | write ino data off =>
    rw [serve]
    cases hget : get m ino a with
    | none => exact .inl rfl
    | some p =>
      obtain ⟨old, m₁⟩ := p
      obtain ⟨hold, hlen⟩ := get_cases hget
      cases hnew : writeFile old data off with
      | none => exact .inl (by simp only [hnew])
      | some newData =>
        refine .inr ⟨m₁, newData, by simp only [hnew]; rfl, ?_⟩
        rw [length_writeFile hlen hnew, hold]
        rfl
  | set key value => exact .inr ⟨m, value, rfl, rfl⟩

theorem handled_of_fits {r : Request} (h : FitsFile m r a) : Handled m r a where
  harmless := by
    rcases serve_cases m a r with hno | ⟨m₁, buf, hput, hlen⟩
    · rw [hno]
      exact Fate.noConfusion
    · rw [FitsFile, ← hlen] at h
      obtain ⟨m', hanswered⟩ := @put_answered m₁ a r.eid buf h
      rw [hput, hanswered]
      exact Fate.noConfusion
  refused hno := absurd h hno

theorem not_handled_of_not_fits {r : Request} (h : ¬ FitsFile m r a) : ¬ Handled m r a := by
  intro hh
  obtain ⟨ret, m', hanswered, -⟩ := hh.refused h
  rcases serve_cases m a r with hno | ⟨m₁, buf, hput, hlen⟩
  · rw [hno] at hanswered
    exact Fate.noConfusion hanswered
  · rw [FitsFile, ← hlen] at h
    exact put_unanswered h ret m' (hput ▸ hanswered)

/-- **A request is handled exactly if its file fits**, whatever the state of the server. -/
theorem handled_iff (m : BlockManager) (r : Request) (a : Ambient) :
    Handled m r a ↔ FitsFile m r a :=
  ⟨fun h => by_contra fun hno => not_handled_of_not_fits hno h, handled_of_fits⟩

/-- **A user can stop the server**: a new file's size set to one byte more than a file can have. -/
theorem not_handled : ¬ ∀ now s₀ as s, System.start now = some s₀ →
    Run System.step anyStep s₀ as s → ∀ r a, Handled s.m r a := by
  intro h
  obtain ⟨s₀, h0, -⟩ := Inode.System.start_spec 0
  obtain ⟨s, hs⟩ : ∃ s, s₀.step (.create 2 0) = some s := ⟨_, rfl⟩
  refine not_handled_of_not_fits ?_ (h 0 s₀ [.create 2 0] s h0 (.snoc .nil trivial hs)
    (.setattr 2 116737) ⟨0, ⟨.zero, .zero, fun _ => 0⟩, 0⟩)
  rw [FitsFile, Request.resultSize, Inode.maxFile_eq, Inode.blockSize_eq]
  decide

end Yfs
end CseLab
