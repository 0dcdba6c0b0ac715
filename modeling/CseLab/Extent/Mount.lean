import CseLab.Extent.Coherence

/-!
# Starting a client

The constructor of `yfs_client` makes the root a directory by a `put` of `""`, and does not take the
root's lock for it.  Where there are files already it empties the root under everyone's feet; if the
root is empty and no one is busy with it, the `put` changes nothing.

What `lookup`, `readdir` and `read` return is computed from what `get` and `getattr` return, so it
is these that a start may not touch.  `Right` leaves the `put`s of starting clients out of account:
what a client is told must be what the others have left.
-/

set_option autoImplicit false

namespace CseLab
namespace Extent

namespace System

variable {s : System} {as : List Action} {a : Action} {now : UInt32}

/-- A client starts while the root is there and empty and no call about it is under way; else
clients keep to locks and live extents. -/
def OrderlyStart (s : System) : Action → Prop
  | .start .. =>
    (s 1).pending = [] ∧ typeOf (s 1).log ≠ none ∧ content true (s 1).log = some []
  | a => s.Orderly a

/-- Clients keep to locks and live extents, and start at any time. -/
def AnyStart (s : System) : Action → Prop
  | .start .. => True
  | a => s.Orderly a

instance (s : System) : (a : Action) → Decidable (s.OrderlyStart a)
  | .start .. => inferInstanceAs (Decidable (_ ∧ _))
  | .create port type eid now => inferInstanceAs (Decidable (s.Orderly (.create port type eid now)))
  | .call port eid op now => inferInstanceAs (Decidable (s.Orderly (.call port eid op now)))
  | .serve k i now => inferInstanceAs (Decidable (s.Orderly (.serve k i now)))

instance (s : System) : (a : Action) → Decidable (s.AnyStart a)
  | .start .. => .isTrue trivial
  | .create port type eid now => inferInstanceAs (Decidable (s.Orderly (.create port type eid now)))
  | .call port eid op now => inferInstanceAs (Decidable (s.Orderly (.call port eid op now)))
  | .serve k i now => inferInstanceAs (Decidable (s.Orderly (.serve k i now)))

theorem OrderlyStart.kept {s' : System} (hok : s.OrderlyStart a) (h : ∀ k, Inv true k (s k))
    (hs : s.step a = some s') : s.Kept true a := by
  cases a with
  | start port now =>
    obtain ⟨hpending, hlive, hempty⟩ := hok
    refine ⟨hpending, hlive, fun d hd => ?_⟩
    rw [content_starts, hempty] at hd
    exact Option.some_inj.1 hd
  | create port type eid now => exact Orderly.kept (a := .create port type eid now) hok h hs
  | call port eid op now => exact Orderly.kept (a := .call port eid op now) hok h hs
  | serve k i now => trivial

/-- **Starting a client loses nothing**, if the root is empty and no call about it is under way:
then every `get` and every `getattr` returns what the file is by what clients have put since they
started. -/
theorem start_loses_nothing (h : Run step OrderlyStart (start now) as s) (eid : ℕ) :
    Journal Right (s eid).log :=
  have hinv := inv_run (fun _ _ _ hinv hok hs => hok.kept hinv hs) h eid
  hinv.told.mono fun _ _ => Told.right

/-- A directory file with one entry, `a` for inode 2. -/
def entryA : Bytes := 97 :: List.replicate 79 0 ++ [2, 0, 0, 0]

/-- Client 7 starts, then client 8, and 7 enters a file in the root. -/
def twice : List Action := [.start 7 0, .serve 1 0 0, .serve 1 0 0, .start 8 0, .serve 1 0 0,
  .serve 1 0 0, .serve 1 0 0, .serve 1 0 0, .create 7 2 2 0, .serve 2 0 0,
  .call 7 1 (.put entryA) 0, .serve 1 0 0, .serve 1 0 0, .serve 1 0 0, .serve 1 0 0,
  .call 8 1 .get 0, .serve 1 0 0, .serve 1 0 0, .serve 1 0 0, .serve 1 0 0]

theorem start_loses_nothing_twice : ∃ s, Run step OrderlyStart (start 0) twice s ∧
    (s 1).log = [.created 1, .put 7 [] true, .put 8 [] true, .put 7 entryA false, .got 8 entryA] ∧
      Journal Right (s 1).log := by
  obtain ⟨s, hs⟩ : ∃ s, execute (guarded step OrderlyStart) (start 0) twice = some s :=
    Option.isSome_iff_exists.1 (by decide +kernel)
  have hlog : (execute (guarded step OrderlyStart) (start 0) twice).map (fun s => (s 1).log) =
      some [.created 1, .put 7 [] true, .put 8 [] true, .put 7 entryA false, .got 8 entryA] := by
    decide +kernel
  rw [hs, Option.map_some, Option.some_inj] at hlog
  have hrun : Run step OrderlyStart (start 0) twice s := .of_guarded hs
  exact ⟨s, hrun, hlog, start_loses_nothing hrun 1⟩

/-- Client 7 starts and enters a file in the root; client 8 starts, and 7 finds the root empty. -/
theorem not_start_loses_nothing : ¬ ∀ (as : List Action) (s : System) (eid : ℕ),
    Run step AnyStart (start 0) as s → Journal Right (s eid).log := by
  let lost : List Action := [.start 7 0, .serve 1 0 0, .serve 1 0 0, .create 7 2 2 0, .serve 2 0 0,
    .call 7 1 (.put entryA) 0, .start 8 0, .serve 1 0 0, .serve 1 0 0, .serve 1 0 0, .serve 1 0 0,
    .call 7 1 .get 0, .serve 1 0 0, .serve 1 0 0, .serve 1 0 0, .serve 1 0 0]
  intro h
  obtain ⟨s, hs⟩ : ∃ s, execute (guarded step AnyStart) (start 0) lost = some s :=
    Option.isSome_iff_exists.1 (by decide +kernel)
  have hlog : (execute (guarded step AnyStart) (start 0) lost).map (fun s => (s 1).log) =
      some [.created 1, .put 7 [] true, .put 7 entryA false, .put 8 [] true, .got 7 []] := by
    decide +kernel
  rw [hs, Option.map_some, Option.some_inj] at hlog
  have hright := h lost s 1 (.of_guarded hs)
    [.created 1, .put 7 [] true, .put 7 entryA false, .put 8 [] true] (.got 7 []) [] hlog
  exact absurd hright (show content true _ ≠ some [] by decide)

end System

end Extent
end CseLab
