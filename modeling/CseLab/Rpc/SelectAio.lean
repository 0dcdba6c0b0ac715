import CseLab.Lib.Loop
import Mathlib.Logic.Function.Basic

/-!
# The descriptors that `select` waits for

`SelectAio` keeps two sets of descriptors and the highest descriptor in either.  In the sets is also
the end of a pipe: what is written to the pipe makes a `select` return that has been called before
the sets were changed.

* `SelectAio.Sound` is kept by every operation: `highfds` is watched, and nothing above it is.
* `unwatchFd` finds the highest descriptor by a scan of all up to the old one (`highest_spec`).
* `waitReady_eq` says what the scan after `select` returns: what was watched and is ready, in
  order, but for the pipe, from which one byte is read.
-/

set_option autoImplicit false

namespace CseLab
namespace Rpc

/-- `poll_flag`. -/
inductive PollFlag
  | none
  | rdonly
  | wronly
  | rdwr
  | mask
  deriving DecidableEq

/-- `SelectAio`. -/
structure SelectAio where
  rfds : ℕ → Bool
  wfds : ℕ → Bool
  highfds : ℕ
  /-- The end of the pipe that is read. -/
  pipefd : ℕ
  /-- How much has been written to the pipe and not been read. -/
  bytes : ℕ

namespace SelectAio

variable {a a' : SelectAio} {fd : ℕ} {flag : PollFlag}

/-- `SelectAio::SelectAio`, where `pipe` gives `pipefd`. -/
def new (pipefd : ℕ) : SelectAio :=
  { rfds := Function.update (fun _ => false) pipefd true, wfds := fun _ => false,
    highfds := pipefd, pipefd := pipefd, bytes := 0 }

/-- In one of the sets. -/
def Watched (a : SelectAio) (fd : ℕ) : Prop := a.rfds fd = true ∨ a.wfds fd = true

instance (a : SelectAio) (fd : ℕ) : Decidable (a.Watched fd) :=
  inferInstanceAs (Decidable (_ ∨ _))

def watchFd (a : SelectAio) (fd : ℕ) (flag : PollFlag) : SelectAio :=
  let a := { a with highfds := if a.highfds ≤ fd then fd else a.highfds }
  let a := match flag with
    | .rdonly => { a with rfds := Function.update a.rfds fd true }
    | .wronly => { a with wfds := Function.update a.wfds fd true }
    | _ => { a with rfds := Function.update a.rfds fd true,
                    wfds := Function.update a.wfds fd true }
  { a with bytes := a.bytes + 1 }

def isWatched (a : SelectAio) (fd : ℕ) : PollFlag → Bool
  | .rdonly => a.rfds fd
  | .wronly => a.wfds fd
  | _ => a.rfds fd && a.wfds fd

/-- The loop of `unwatch_fd`. -/
def highest (a : SelectAio) : ℕ :=
  loop 0 (a.highfds + 1)
    (fun i newh => if a.rfds i = true then i else if a.wfds i = true then i else newh) a.pipefd

/-- The sets without `fd`; the assertion in `unwatch_fd` is on the flag. -/
def clear (a : SelectAio) (fd : ℕ) : PollFlag → Option SelectAio
  | .rdonly => some { a with rfds := Function.update a.rfds fd false }
  | .wronly => some { a with wfds := Function.update a.wfds fd false }
  | .rdwr => some { a with wfds := Function.update a.wfds fd false,
                           rfds := Function.update a.rfds fd false }
  | _ => none

def unwatchFd (a : SelectAio) (fd : ℕ) (flag : PollFlag) : Option (SelectAio × Bool) :=
  (a.clear fd flag).map fun a =>
    let a := { a with
      highfds := if ¬ a.Watched fd ∧ fd = a.highfds then a.highest else a.highfds }
    let a := { a with bytes := if flag = .rdwr then a.bytes + 1 else a.bytes }
    (a, !a.rfds fd && !a.wfds fd)

/-- What `wait_ready` takes with it to `select`. -/
structure Sets where
  rfds : ℕ → Bool
  wfds : ℕ → Bool
  high : ℕ

def sets (a : SelectAio) : Sets := ⟨a.rfds, a.wfds, a.highfds⟩

def Sets.Has (s : Sets) (fd : ℕ) : Prop := s.rfds fd = true ∨ s.wfds fd = true

/-- Each set of `s` is contained in that of `t`. -/
structure Sets.Within (s t : Sets) : Prop where
  rfds : ∀ fd, s.rfds fd = true → t.rfds fd = true
  wfds : ∀ fd, s.wfds fd = true → t.wfds fd = true

/-- `select` where `r` can be read and `w` be written; the pipe can be read if there is something
in it. -/
def select (a : SelectAio) (s : Sets) (r w : ℕ → Bool) : Sets :=
  { s with
    rfds := fun fd => s.rfds fd && if fd = a.pipefd then decide (0 < a.bytes) else r fd
    wfds := fun fd => s.wfds fd && w fd }

/-- `select` has something to return. -/
def Sets.ready (t : Sets) : Bool := (List.range (t.high + 1)).any fun fd => t.rfds fd || t.wfds fd

/-- Once round the loop of `wait_ready`; it ends if the assertion on the pipe fails. -/
def scan (t : Sets) (fd : ℕ) :
    Option (SelectAio × List ℕ × List ℕ) → Option (SelectAio × List ℕ × List ℕ)
  | none => none
  | some (a, readable, writable) =>
    if fd = a.pipefd ∧ t.rfds fd = true then
      if a.bytes = 0 then none else some ({ a with bytes := a.bytes - 1 }, readable, writable)
    else
      some (a, if t.rfds fd = true then readable ++ [fd] else readable,
        if t.wfds fd = true then writable ++ [fd] else writable)

/-- `wait_ready` from where `select` has returned the sets `t`. -/
def waitReady (a : SelectAio) (t : Sets) : Option (SelectAio × List ℕ × List ℕ) :=
  loop 0 (t.high + 1) (scan t) (some (a, [], []))

/-! ## The sets -/

theorem Sets.Within.has {s t : Sets} (h : s.Within t) (hfd : s.Has fd) : t.Has fd :=
  Or.imp (h.rfds fd) (h.wfds fd) hfd

@[simp] theorem pipefd_watchFd (a : SelectAio) (fd : ℕ) (flag : PollFlag) :
    (a.watchFd fd flag).pipefd = a.pipefd := by
  cases flag <;> rfl

@[simp] theorem bytes_watchFd (a : SelectAio) (fd : ℕ) (flag : PollFlag) :
    (a.watchFd fd flag).bytes = a.bytes + 1 := by
  cases flag <;> rfl

theorem highfds_watchFd (a : SelectAio) (fd : ℕ) (flag : PollFlag) :
    (a.watchFd fd flag).highfds = max a.highfds fd := by
  rw [Nat.max_def]
  cases flag <;> rfl

/-- What `watch_fd` makes of the sets. -/
theorem fds_watchFd (a : SelectAio) (fd : ℕ) (flag : PollFlag) :
    (a.watchFd fd flag).rfds = (if flag = .wronly then a.rfds else Function.update a.rfds fd true) ∧
      (a.watchFd fd flag).wfds =
        if flag = .rdonly then a.wfds else Function.update a.wfds fd true := by
  cases flag <;> exact ⟨rfl, rfl⟩

theorem watched_watchFd (a : SelectAio) (fd x : ℕ) (flag : PollFlag) :
    (a.watchFd fd flag).Watched x ↔ x = fd ∨ a.Watched x := by
  obtain ⟨hr, hw⟩ := a.fds_watchFd fd flag
  rw [Watched, hr, hw]
  rcases eq_or_ne x fd with rfl | hne
  · refine iff_of_true ?_ (.inl rfl)
    cases flag with
    | wronly => exact .inr (by simp)
    | _ => exact .inl (by simp)
  · rw [or_iff_right hne, Watched]
    split <;> split <;> simp only [Function.update_of_ne hne]

theorem of_update_false {f : ℕ → Bool} {x : ℕ} (h : Function.update f fd false x = true) :
    x ≠ fd ∧ f x = true := by
  rw [Function.update_apply] at h
  split at h
  · cases h
  · exact ⟨‹_›, h⟩

/-- What `unwatch_fd` takes out of the sets. -/
theorem clear_cases (h : a.clear fd flag = some a') : a'.pipefd = a.pipefd ∧
    a'.highfds = a.highfds ∧ a'.bytes = a.bytes ∧ a'.sets.Within a.sets ∧
      (∀ x, x ≠ fd → a'.rfds x = a.rfds x ∧ a'.wfds x = a.wfds x) ∧
        (flag = .rdwr → ¬ a'.Watched fd) := by
  have hsub : ∀ (f : ℕ → Bool) x, Function.update f fd false x = true → f x = true :=
    fun f x hx => (of_update_false hx).2
  cases flag with
  | none => cases h
  | mask => cases h
  | rdonly =>
    obtain rfl := Option.some_inj.1 h
    exact ⟨rfl, rfl, rfl, ⟨hsub _, fun _ => id⟩,
      fun x hx => ⟨Function.update_of_ne hx .., rfl⟩, fun hf => PollFlag.noConfusion hf⟩
  | wronly =>
    obtain rfl := Option.some_inj.1 h
    exact ⟨rfl, rfl, rfl, ⟨fun _ => id, hsub _⟩,
      fun x hx => ⟨rfl, Function.update_of_ne hx ..⟩, fun hf => PollFlag.noConfusion hf⟩
  | rdwr =>
    obtain rfl := Option.some_inj.1 h
    refine ⟨rfl, rfl, rfl, ⟨hsub _, hsub _⟩,
      fun x hx => ⟨Function.update_of_ne hx .., Function.update_of_ne hx ..⟩, fun _ => ?_⟩
    simp [Watched]

/-! ## The highest descriptor -/

/-- The pipe is watched, and so is `highfds`, with nothing above it. -/
structure Sound (a : SelectAio) : Prop where
  pipe : a.rfds a.pipefd = true
  high : a.Watched a.highfds
  le_high : ∀ fd, a.Watched fd → fd ≤ a.highfds

theorem watched_new (pipefd fd : ℕ) : (SelectAio.new pipefd).Watched fd ↔ fd = pipefd := by
  constructor
  · rintro (hr | hw)
    · change Function.update (fun _ => false) pipefd true fd = true at hr
      by_contra hne
      rw [Function.update_of_ne hne] at hr
      cases hr
    · cases hw
  · rintro rfl
    exact .inl (by simp [SelectAio.new])

theorem Sound.new (pipefd : ℕ) : (SelectAio.new pipefd).Sound where
  pipe := by simp [SelectAio.new]
  high := (watched_new pipefd pipefd).2 rfl
  le_high := fun fd hfd => Nat.le_of_eq ((watched_new pipefd fd).1 hfd)

/-- The scan finds the highest of those that are watched. -/
theorem highest_spec (hpipe : a.Watched a.pipefd) :
    a.Watched a.highest ∧ ∀ fd ≤ a.highfds, a.Watched fd → fd ≤ a.highest := by
  have hloop := loop_induct (s := a.pipefd)
    (f := fun i newh => if a.rfds i = true then i else if a.wfds i = true then i else newh)
    (P := fun i newh => a.Watched newh ∧ ∀ fd < i, a.Watched fd → fd ≤ newh)
    (Nat.zero_le (a.highfds + 1)) ⟨hpipe, fun fd hfd => absurd hfd (Nat.not_lt_zero fd)⟩
    fun i newh _ _ hP => ?_
  · exact ⟨hloop.1, fun fd hfd => hloop.2 fd (Nat.lt_succ_of_le hfd)⟩
  · have hle : ∀ fd < i + 1, a.Watched fd → fd ≤ i := fun fd hfd _ => Nat.le_of_lt_succ hfd
    split
    next hr => exact ⟨.inl hr, hle⟩
    next hr =>
      split
      next hw => exact ⟨.inr hw, hle⟩
      next hw =>
        refine ⟨hP.1, fun fd hfd hwatched => ?_⟩
        rcases Nat.lt_succ_iff_lt_or_eq.1 hfd with hlt | rfl
        · exact hP.2 fd hlt hwatched
        · exact absurd hwatched (not_or.2 ⟨hr, hw⟩)

theorem Sound.watchFd (h : a.Sound) (fd : ℕ) (flag : PollFlag) : (a.watchFd fd flag).Sound := by
  refine ⟨?_, ?_, fun x hx => ?_⟩
  · rw [(a.fds_watchFd fd flag).1, pipefd_watchFd]
    split
    · exact h.pipe
    · rw [Function.update_apply]
      split
      · rfl
      · exact h.pipe
  · rw [watched_watchFd, highfds_watchFd]
    rcases Nat.le_total a.highfds fd with hle | hle
    · exact .inl (Nat.max_eq_right hle)
    · exact .inr ((Nat.max_eq_left hle).symm ▸ h.high)
  · rw [highfds_watchFd]
    rcases (a.watched_watchFd fd x flag).1 hx with rfl | hx
    · exact Nat.le_max_right ..
    · exact Nat.le_trans (h.le_high x hx) (Nat.le_max_left ..)

/-- What `unwatch_fd` does. -/
theorem unwatchFd_spec {gone : Bool} (h : a.Sound) (hfd : fd ≠ a.pipefd)
    (hu : a.unwatchFd fd flag = some (a', gone)) : a'.Sound ∧ a'.pipefd = a.pipefd ∧
      a'.sets.Within a.sets ∧
        a'.bytes = a.bytes + (if flag = .rdwr then 1 else 0) ∧
          (gone = true ↔ ¬ a'.Watched fd) ∧ (flag = .rdwr → gone = true) := by
  obtain ⟨b, hb, heq⟩ := Option.map_eq_some_iff.1 hu
  obtain ⟨hpipefd, hhigh, hbytes, hsub, hother, hrdwr⟩ := clear_cases hb
  obtain ⟨rfl, hgone⟩ := Prod.mk.inj heq
  have hpipe : b.rfds b.pipefd = true := by
    rw [hpipefd, (hother _ hfd.symm).1]
    exact h.pipe
  have hstays : ∀ x, x ≠ fd → a.Watched x → b.Watched x := by
    intro x hx hwatched
    rwa [Watched, (hother x hx).1, (hother x hx).2]
  refine ⟨⟨hpipe, ?_, ?_⟩, hpipefd, ⟨hsub.rfds, hsub.wfds⟩, ?_, ?_, fun hf => ?_⟩
  · show b.Watched (if ¬ b.Watched fd ∧ fd = b.highfds then b.highest else b.highfds)
    split
    next => exact (highest_spec (.inl hpipe)).1
    next hcond =>
      rcases eq_or_ne b.highfds fd with heq | hne
      · exact heq ▸ by_contra fun hnot => hcond ⟨hnot, heq.symm⟩
      · exact hstays _ hne (hhigh ▸ h.high)
  · intro x hx
    have hle : x ≤ b.highfds := hhigh ▸ h.le_high x (hsub.has hx)
    show x ≤ if ¬ b.Watched fd ∧ fd = b.highfds then b.highest else b.highfds
    split
    next => exact (highest_spec (.inl hpipe)).2 x hle hx
    next => exact hle
  · show (if flag = .rdwr then b.bytes + 1 else b.bytes) = _
    rw [hbytes]
    split <;> rfl
  · show gone = true ↔ ¬ (b.rfds fd = true ∨ b.wfds fd = true)
    rw [← hgone]
    simp
  · have hnot := not_or.1 (hrdwr hf)
    rw [← hgone, Bool.eq_false_iff.2 hnot.1, Bool.eq_false_iff.2 hnot.2]
    rfl

/-! ## The scan after `select` -/

/-- What is in the sets and not the pipe, in order; and one byte has been read from the pipe if it
is in the set. -/
theorem waitReady_eq {t : Sets} (hbytes : t.rfds a.pipefd = true → 0 < a.bytes) :
    a.waitReady t = some
      ({ a with bytes := a.bytes - if a.pipefd ≤ t.high ∧ t.rfds a.pipefd = true then 1 else 0 },
        (List.range (t.high + 1)).filter fun fd => t.rfds fd && fd ≠ a.pipefd,
        (List.range (t.high + 1)).filter fun fd =>
          t.wfds fd && !(fd = a.pipefd && t.rfds fd)) := by
  have hloop := loop_induct (f := scan t) (s := some (a, [], []))
    (P := fun i r => r = some
      ({ a with bytes := a.bytes - if a.pipefd < i ∧ t.rfds a.pipefd = true then 1 else 0 },
        (List.range i).filter fun fd => t.rfds fd && fd ≠ a.pipefd,
        (List.range i).filter fun fd => t.wfds fd && !(fd = a.pipefd && t.rfds fd)))
    (Nat.zero_le (t.high + 1)) rfl fun i r _ _ hr => ?_
  · simp only [Nat.lt_succ_iff] at hloop
    exact hloop
  · rw [hr, scan, List.range_succ, List.filter_append, List.filter_append]
    dsimp only
    by_cases hpipe : i = a.pipefd ∧ t.rfds i = true
    · obtain ⟨rfl, hpipe⟩ := hpipe
      have hpos := hbytes hpipe
      simp [hpipe, Nat.ne_of_gt hpos]
    · rw [if_neg hpipe]
      have hcount : (a.pipefd < i + 1 ∧ t.rfds a.pipefd = true) ↔
          a.pipefd < i ∧ t.rfds a.pipefd = true := by
        refine ⟨fun h => ⟨Nat.lt_of_le_of_ne (Nat.le_of_lt_succ h.1) ?_, h.2⟩,
          fun h => ⟨Nat.lt_succ_of_lt h.1, h.2⟩⟩
        rintro rfl
        exact hpipe ⟨rfl, h.2⟩
      have hread : (t.rfds i && decide (i ≠ a.pipefd)) = t.rfds i := by
        rw [not_and] at hpipe
        cases hr : t.rfds i with
        | false => rfl
        | true => simpa using fun heq => hpipe heq hr
      have hwrite : (t.wfds i && !(decide (i = a.pipefd) && t.rfds i)) = t.wfds i := by
        have hfalse : (decide (i = a.pipefd) && t.rfds i) = false := by simpa using hpipe
        rw [hfalse, Bool.not_false, Bool.and_true]
      rw [List.filter_singleton, List.filter_singleton, hread, hwrite]
      simp only [hcount]
      cases t.rfds i <;> cases t.wfds i <;> simp

end SelectAio

end Rpc
end CseLab
