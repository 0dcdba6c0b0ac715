import CseLab.Lib.Settles
import CseLab.Yfs.Ops

/-!
# Reading past the end

`read` cuts the part it is asked for out of the whole file with `substr`, which throws if the part
starts behind the end.  Nobody catches that, and the lock of the file is not given back.

`read_settles_iff` is about a `read` that has got the lock, with any other clients about, each of
them doing anything: it goes on to return what is in that part of the file, and to give the lock
back, if the part does not start behind the end, and only then.
-/

set_option autoImplicit false

namespace CseLab
namespace Yfs

open Atomic (Act Proc System Thread)

variable {κ : Type*} [DecidableEq κ]

/-- The clients at work. -/
abbrev Clients (κ : Type*) := System κ Op ℕ Extent Reply

/-- One step of one of them. -/
abbrev Server.step (S : Server) : Clients κ → Act κ Op → Option (Clients κ) :=
  System.step S.heap Op.code

/-- Client `c` has just got the lock for its `read`. -/
def ReadLocked (s : Clients κ) (c : κ) (ino size off : ℕ) : Prop :=
  ∃ t, s.thread c = some t ∧ t.op = .read ino size off ∧ t.op.code = .acquire ino t.prog ∧
    t.held = [ino]

/-- The `read` of client `c` is to return `buf`, the lock of the file given back. -/
def returning (c : κ) (ino size off : ℕ) (buf : Bytes) : Errand (Clients κ) (Act κ Op) where
  own a := a = .go c
  other _ a := a ≠ .go c
  waits _ := False
  keeps s s' := s'.store = s.store
  done s a s' := System.returned s a s' = [(c, .read ino size off, .data buf)] ∧
    s'.lock ino ≠ some c

/-- A `read` that has got the lock reads the file, and returns the part from `off` on that is `size`
bytes long, or as long as there is something; then it does not have the lock any more. -/
def ReadReturns (S : Server) (s : Clients κ) (c : κ) (ino size off : ℕ) : Prop :=
  ∃ s', S.step s (.go c) = some s' ∧ s'.store = s.store ∧
    (returning c ino size off (((s.store ino).data.drop off).take size)).Settles S.step s'

section

variable {S : Server} {s s' : Clients κ} {c : κ} {ino size off : ℕ} {buf : Bytes}

/-- Once the lock has been given back the answer follows. -/
theorem settles_ret (made : List ℕ)
    (ht : s.thread c = some ⟨.read ino size off, .ret (.data buf), [], made⟩)
    (hl : s.lock ino ≠ some c) :
    (returning c ino size off buf).SettlesIn S.step 1 s := by
  refine .intro (I := fun s => s.thread c =
    some ⟨.read ino size off, .ret (.data buf), [], made⟩ ∧ s.lock ino ≠ some c) ⟨ht, hl⟩ ?_ ?_ ?_
  · rintro s a s' ⟨ht, hl⟩ ha hs
    obtain ⟨hthread, hlock⟩ := System.step_other hs (by simp [ht]) ha
    exact ⟨hthread.trans ht, fun h => hl (hlock ino h)⟩
  · rintro s ⟨ht, -⟩
    exact .inr ⟨_, _, rfl, System.step_go ht⟩
  · rintro s a s' ⟨ht, hl⟩ rfl hs
    rw [Server.step, System.step_go ht] at hs
    cases hs
    exact ⟨rfl, .inl ⟨System.returned_ret ht rfl, hl⟩⟩

/-- With the part in hand the lock is given back. -/
theorem settles_release (made : List ℕ)
    (ht : s.thread c = some ⟨.read ino size off, .release ino (.ret (.data buf)), [ino], made⟩) :
    (returning c ino size off buf).SettlesIn S.step 2 s := by
  refine .intro (I := fun s => s.thread c =
    some ⟨.read ino size off, .release ino (.ret (.data buf)), [ino], made⟩) ht ?_ ?_ ?_
  · intro s a s' ht ha hs
    exact (System.step_other hs (by simp [ht]) ha).1.trans ht
  · intro s ht
    exact .inr ⟨_, _, rfl, System.step_go ht⟩
  · rintro s a s' ht rfl hs
    rw [Server.step, System.step_go ht] at hs
    cases hs
    refine ⟨rfl, .inr (settles_ret made ?_ ?_)⟩
    · simp [System.goto]
    · simp [System.goto]

omit [DecidableEq κ] in
/-- What a client that has got the lock for its `read` has in hand. -/
theorem ReadLocked.thread (h : ReadLocked s c ino size off) : ∃ made, s.thread c =
    some ⟨.read ino size off, .get ino fun e =>
      if e.data.length < off then .fail
      else .release ino (.ret (.data ((e.data.drop off).take size))), [ino], made⟩ := by
  obtain ⟨⟨op, prog, held, made⟩, ht, hop, hcode, hheld⟩ := h
  obtain rfl : op = _ := hop
  obtain rfl : held = _ := hheld
  obtain ⟨-, rfl⟩ := Proc.acquire.inj hcode
  exact ⟨made, ht⟩

theorem ReadLocked.returns (h : ReadLocked s c ino size off)
    (hoff : off ≤ (s.store ino).data.length) : ReadReturns S s c ino size off := by
  obtain ⟨made, ht⟩ := h.thread
  have hgo : S.step s (.go c) = _ := System.step_go ht
  rw [System.go] at hgo
  simp only [if_neg (Nat.not_lt.2 hoff)] at hgo
  exact ⟨_, hgo, rfl, 2, settles_release made (by simp [System.goto])⟩

/-- `substr` throws. -/
theorem ReadLocked.throws (h : ReadLocked s c ino size off)
    (hoff : (s.store ino).data.length < off) : ¬ ReadReturns S s c ino size off := by
  obtain ⟨made, ht⟩ := h.thread
  rintro ⟨s', hs, -, hsettles⟩
  rw [Server.step, System.step_go ht, System.go] at hs
  simp only [if_pos hoff, Option.some_inj] at hs
  subst hs
  refine Errand.not_settles id ?_ hsettles
  rintro a s' rfl
  simp [Server.step, System.step, System.goto, System.go]

/-- **A `read` returns what is in the part of the file that it is asked for, and gives the lock
back, just if that part does not start behind the end.** -/
theorem read_settles_iff (h : ReadLocked s c ino size off) :
    ReadReturns S s c ino size off ↔ off ≤ (s.store ino).data.length :=
  ⟨fun hreturns => Nat.not_lt.1 fun hoff => h.throws hoff hreturns, h.returns⟩

end

/-- Inode 2 is a file of three bytes. -/
def threeBytes : Store := Function.update emptyRoot 2 ⟨tFile, [120, 121, 122]⟩

/-- A client asks for what is there from `off` on, and gets the lock. -/
theorem exists_readLocked (off : ℕ) : ∃ s : Clients (Fin 1),
    Run Server.lowest.step anyStep (System.start threeBytes) [.call 0 (.read 2 9 off), .go 0] s ∧
    ReadLocked s 0 2 9 off ∧ (s.store 2).data.length = 3 :=
  ⟨_, Run.of_execute rfl, ⟨_, rfl, rfl, rfl, rfl⟩, rfl⟩

/-- The part at the very end is empty. -/
theorem read_settles_end : ∃ s : Clients (Fin 1),
    ReadLocked s 0 2 9 3 ∧ ReadReturns .lowest s 0 2 9 3 := by
  obtain ⟨s, -, h, hlength⟩ := exists_readLocked 3
  exact ⟨s, h, (read_settles_iff h).2 (Nat.le_of_eq hlength.symm)⟩

/-- **One byte further on, it throws.** -/
theorem not_read_settles : ¬ ∀ as (s : Clients (Fin 1)) ino size off,
    Run Server.lowest.step anyStep (System.start threeBytes) as s → ReadLocked s 0 ino size off →
    ReadReturns .lowest s 0 ino size off := by
  intro hall
  obtain ⟨s, hrun, h, hlength⟩ := exists_readLocked 4
  exact h.throws (by rw [hlength]; decide) (hall _ s 2 9 4 hrun h)

end Yfs
end CseLab
