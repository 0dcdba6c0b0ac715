import Mathlib.Algebra.Group.Int.Defs

/-!
# Deadlines

`rpcc::call1` waits for a reply until one deadline after another: each is twice as far away as the
one before, and the last is when the time of the call is up.  The clock is read before each wait and
may say anything.

`pthread_cond_timedwait` wants the nanoseconds of a deadline to be less than a second.  The loop of
`add_timespec` stops one nanosecond early for that: `deadlines_valid_iff` says for which times it
matters, and that for a call this is a matter of the time at which it begins.
-/

set_option autoImplicit false

namespace CseLab
namespace Rpc

/-- `struct timespec`; the seconds are taken not to overflow. -/
structure Timespec where
  tv_sec : ℤ
  tv_nsec : ℤ
  deriving DecidableEq

namespace Timespec

/-- The loop of `add_timespec`. -/
def carry (result : Timespec) : Timespec :=
  if 1000000000 < result.tv_nsec then carry ⟨result.tv_sec + 1, result.tv_nsec - 1000000000⟩
  else result
termination_by result.tv_nsec.toNat

/-- What `pthread_cond_timedwait` takes. -/
def Normal (t : Timespec) : Prop := 0 ≤ t.tv_nsec ∧ t.tv_nsec < 1000000000

instance (t : Timespec) : Decidable t.Normal := inferInstanceAs (Decidable (_ ∧ _))

/-- The time in nanoseconds. -/
def nanos (t : Timespec) : ℤ := t.tv_sec * 1000000000 + t.tv_nsec

variable {t : Timespec}

/-- The time stays the same, and more than a second of nanoseconds is not left. -/
theorem carry_spec (h : 0 ≤ t.tv_nsec) : t.carry.nanos = t.nanos ∧ 0 ≤ t.carry.tv_nsec ∧
    (t.carry.Normal ↔ ¬ (0 < t.tv_nsec ∧ t.tv_nsec % 1000000000 = 0)) := by
  induction t using carry.induct with
  | case1 t hlt ih =>
    obtain ⟨hnanos, hpos, hiff⟩ := ih (by dsimp only; omega)
    rw [carry, if_pos hlt]
    refine ⟨hnanos.trans ?_, hpos, hiff.trans ?_⟩
    · simp only [nanos]
      omega
    · dsimp only
      omega
  | case2 t hle =>
    rw [carry, if_neg hle]
    refine ⟨rfl, h, ?_⟩
    rw [Normal]
    omega

end Timespec

/-- `add_timespec`; `none` where its `VERIFY` fails. -/
def addTimespec (a : Timespec) (b : ℤ) : Option Timespec :=
  let result : Timespec := ⟨a.tv_sec + b.tdiv 1000, a.tv_nsec + b.tmod 1000 * 1000000⟩
  if 0 ≤ result.tv_nsec then some result.carry else none

/-- `cmp_timespec`. -/
def cmpTimespec (a b : Timespec) : ℤ :=
  if a.tv_sec > b.tv_sec then 1
  else if a.tv_sec < b.tv_sec then -1
  else if a.tv_nsec > b.tv_nsec then 1
  else if a.tv_nsec < b.tv_nsec then -1
  else 0

/-- What is to come out of it: `b` milliseconds later, in normal form. -/
def AddsExactly (a : Timespec) (b : ℤ) : Prop :=
  ∃ result, addTimespec a b = some result ∧ result.Normal ∧ result.nanos = a.nanos + b * 1000000

/-- The milliseconds that are not whole seconds end the second in which the time is. -/
def EndsSecond (a : Timespec) (b : ℤ) : Prop := a.tv_nsec + b % 1000 * 1000000 = 1000000000

instance (a : Timespec) (b : ℤ) : Decidable (EndsSecond a b) := inferInstanceAs (Decidable (_ = _))

variable {a now : Timespec} {b timeout : ℤ}

theorem addTimespec_spec (ha : a.Normal) (hb : 0 ≤ b) : ∃ result, addTimespec a b = some result ∧
    result.nanos = a.nanos + b * 1000000 ∧ (result.Normal ↔ ¬ EndsSecond a b) := by
  obtain ⟨hnonneg, hlt⟩ := ha
  have hmod : 0 ≤ b % 1000 ∧ b % 1000 < 1000 := ⟨by omega, by omega⟩
  have hsum : 0 ≤ a.tv_nsec + b % 1000 * 1000000 := by omega
  obtain ⟨hnanos, -, hiff⟩ := Timespec.carry_spec
    (t := ⟨a.tv_sec + b / 1000, a.tv_nsec + b % 1000 * 1000000⟩) hsum
  refine ⟨_, ?_, hnanos.trans ?_, hiff.trans (not_congr ?_)⟩
  · rw [addTimespec, Int.tdiv_eq_ediv_of_nonneg hb, Int.tmod_eq_emod_of_nonneg hb]
    exact if_pos hsum
  · simp only [Timespec.nanos]
    omega
  · simp only [EndsSecond]
    omega

/-! ## `rpcc::call1` -/

/-- `rpcc::to_min`, in milliseconds. -/
def toMin : ℤ := 1000

/-- `curr_to` and `finaldeadline`. -/
structure Wait where
  curr_to : ℤ
  finaldeadline : Timespec

namespace Wait

/-- One round of the loop: the deadline until which `call1` waits, and with what it goes on if no
reply comes.  What `<<=` makes of an `int` that is too large for it is not defined; unless the clock
is set back there is no such round. -/
def round (w : Wait) (now : Timespec) : Option (Timespec × Wait) :=
  if w.finaldeadline.tv_sec = 0 ∨ 2 ^ 31 ≤ w.curr_to then none
  else
    (addTimespec now w.curr_to).map fun nextdeadline =>
      if cmpTimespec nextdeadline w.finaldeadline > 0 then
        (w.finaldeadline, ⟨w.curr_to * 2, { w.finaldeadline with tv_sec := 0 }⟩)
      else (nextdeadline, ⟨w.curr_to * 2, w.finaldeadline⟩)

/-- The deadlines until which it waits if the clock shows one of `nows` after the other. -/
def deadlines : Wait → List Timespec → List Timespec
  | _, [] => []
  | w, now :: nows =>
    match w.round now with
    | none => []
    | some (nextdeadline, w) => nextdeadline :: w.deadlines nows

/-- Whole seconds are waited for, up to a deadline in normal form. -/
structure Inv (w : Wait) : Prop where
  nonneg : 0 ≤ w.curr_to
  whole : w.curr_to % 1000 = 0
  final : w.finaldeadline.Normal

variable {w w' : Wait} {nows : List Timespec} {nextdeadline : Timespec}

theorem Inv.start {final : Timespec} (h : final.Normal) : Inv ⟨toMin, final⟩ where
  nonneg := show (0 : ℤ) ≤ toMin by decide
  whole := show toMin % 1000 = 0 by decide
  final := h

theorem Inv.round (h : w.Inv) (hnow : now.Normal) (hr : w.round now = some (nextdeadline, w')) :
    nextdeadline.Normal ∧ w'.Inv := by
  obtain ⟨hnonneg, hwhole, hfinal⟩ := h
  obtain ⟨next, hnext, -, hiff⟩ := addTimespec_spec hnow hnonneg
  have hnormal : next.Normal := by
    refine hiff.2 fun hends => ?_
    rw [EndsSecond, hwhole] at hends
    have hlt := hnow.2
    omega
  have hnonneg' : 0 ≤ w.curr_to * 2 := by omega
  have hwhole' : w.curr_to * 2 % 1000 = 0 := by omega
  rw [Wait.round, hnext] at hr
  split at hr
  · cases hr
  · rw [Option.map_some, Option.some_inj] at hr
    split at hr
    · obtain ⟨rfl, rfl⟩ := Prod.mk.inj hr
      exact ⟨hfinal, hnonneg', hwhole', hfinal⟩
    · obtain ⟨rfl, rfl⟩ := Prod.mk.inj hr
      exact ⟨hnormal, hnonneg', hwhole', hfinal⟩

theorem Inv.deadlines (h : w.Inv) (hnows : ∀ t ∈ nows, t.Normal) :
    ∀ d ∈ w.deadlines nows, d.Normal := by
  induction nows generalizing w with
  | nil => exact fun d hd => absurd hd List.not_mem_nil
  | cons now nows ih =>
    rw [Wait.deadlines]
    cases hr : w.round now with
    | none => exact fun d hd => absurd hd List.not_mem_nil
    | some p =>
      obtain ⟨nextdeadline, w'⟩ := p
      obtain ⟨hnormal, hinv⟩ := h.round (hnows now List.mem_cons_self) hr
      intro d hd
      rcases List.mem_cons.1 hd with rfl | hd
      · exact hnormal
      · exact ih hinv (fun t ht => hnows t (List.mem_cons_of_mem _ ht)) d hd

end Wait

/-- The deadlines that a call with this timeout hands to `pthread_cond_timedwait`, if the clock
shows `now` when it begins and then one of `nows` after the other. -/
def call1Deadlines (now : Timespec) (timeout : ℤ) (nows : List Timespec) : List Timespec :=
  match addTimespec now timeout with
  | none => []
  | some finaldeadline => Wait.deadlines ⟨toMin, finaldeadline⟩ nows

/-- A call that begins at such a time waits until that deadline once the clock has come past it. -/
theorem exists_not_normal (hsec : 0 < now.tv_sec) (hto : 0 ≤ timeout)
    (h : EndsSecond now timeout) :
    ∃ nows, (∀ t ∈ nows, t.Normal) ∧ ∃ d ∈ call1Deadlines now timeout nows, ¬ d.Normal := by
  let final : Timespec := ⟨now.tv_sec + timeout / 1000, 1000000000⟩
  let late : Timespec := ⟨final.tv_sec + 1, 0⟩
  have hpos : 0 < final.tv_sec := by
    have hdiv : 0 ≤ timeout / 1000 := by omega
    exact Int.add_pos_of_pos_of_nonneg hsec hdiv
  have hfinal : addTimespec now timeout = some final := by
    rw [EndsSecond] at h
    rw [addTimespec, Int.tdiv_eq_ediv_of_nonneg hto, Int.tmod_eq_emod_of_nonneg hto, h,
      Timespec.carry]
    rfl
  have hnext : addTimespec late toMin = some ⟨final.tv_sec + 2, 0⟩ := by
    rw [addTimespec, Timespec.carry]
    change some (⟨final.tv_sec + 1 + 1, 0⟩ : Timespec) = _
    rw [Int.add_assoc]
    rfl
  have hcmp : cmpTimespec ⟨final.tv_sec + 2, 0⟩ final > 0 := by
    rw [cmpTimespec, if_pos (by dsimp only; omega)]
    decide
  refine ⟨[late], ?_, final, ?_, ?_⟩
  · rintro t ht
    obtain rfl := List.mem_singleton.1 ht
    exact ⟨Int.le_refl 0, show (0 : ℤ) < 1000000000 by decide⟩
  · have hopen : ¬ (final.tv_sec = 0 ∨ (2 : ℤ) ^ 31 ≤ toMin) := by
      rintro (hzero | hle)
      · omega
      · exact absurd hle (by decide)
    rw [call1Deadlines, hfinal]
    dsimp only
    rw [Wait.deadlines, Wait.round, if_neg hopen, hnext, Option.map_some, if_pos hcmp]
    exact List.mem_cons_self
  · exact fun hnormal => Int.lt_irrefl _ hnormal.2

/-- **Deadline arithmetic** is right of all times but those that the milliseconds take to the very
end of a second, and whoever calls when the clock shows one of these may wait for a deadline that is
none. -/
theorem deadlines_valid_iff (hnow : now.Normal) (hto : 0 ≤ timeout) :
    (AddsExactly now timeout ↔ ¬ EndsSecond now timeout) ∧
      (0 < now.tv_sec →
        ((∀ nows, (∀ t ∈ nows, t.Normal) → ∀ d ∈ call1Deadlines now timeout nows, d.Normal) ↔
          ¬ EndsSecond now timeout)) := by
  obtain ⟨final, hfinal, hnanos, hiff⟩ := addTimespec_spec hnow hto
  refine ⟨⟨?_, fun hends => ⟨final, hfinal, hiff.2 hends, hnanos⟩⟩,
    fun hsec => ⟨fun hall hends => ?_, fun hends nows hnows => ?_⟩⟩
  · rintro ⟨final', hfinal', hnormal, -⟩
    obtain rfl := Option.some_inj.1 (hfinal.symm.trans hfinal')
    exact hiff.1 hnormal
  · obtain ⟨nows, hnows, d, hd, hnot⟩ := exists_not_normal hsec hto hends
    exact hnot (hall nows hnows d hd)
  · rw [call1Deadlines, hfinal]
    exact (Wait.Inv.start (hiff.2 hends)).deadlines hnows

/-- The milliseconds carry over into the next second; the call waits once for a second and then
until its time is up. -/
theorem deadlines_valid_carry : AddsExactly ⟨1, 600000000⟩ 2700 ∧
    call1Deadlines ⟨1, 600000000⟩ 2700 [⟨1, 600000001⟩, ⟨2, 600000002⟩, ⟨4, 300000003⟩] =
      [⟨2, 600000001⟩, ⟨4, 300000000⟩] ∧
    ∀ d ∈ call1Deadlines ⟨1, 600000000⟩ 2700 [⟨1, 600000001⟩, ⟨2, 600000002⟩, ⟨4, 300000003⟩],
      d.Normal := by
  have hnow : Timespec.Normal ⟨1, 600000000⟩ := by decide
  have hends : ¬ EndsSecond ⟨1, 600000000⟩ 2700 := by decide
  obtain ⟨hadds, hcalls⟩ := deadlines_valid_iff hnow (show (0 : ℤ) ≤ 2700 by decide)
  refine ⟨hadds.2 hends, ?_, (hcalls (by decide)).2 hends _ (by decide)⟩
  simp [call1Deadlines, Wait.deadlines, Wait.round, addTimespec, Timespec.carry, toMin,
    cmpTimespec]

/-- One millisecond from the last millisecond of a second. -/
theorem not_adds_exactly : ¬ ∀ a b, Timespec.Normal a → 0 ≤ b → AddsExactly a b := by
  intro hall
  obtain ⟨result, hadd, ⟨-, hlt⟩, -⟩ := hall ⟨1, 999000000⟩ 1 ⟨by decide, by decide⟩ (by decide)
  have heq : addTimespec ⟨1, 999000000⟩ 1 = some ⟨1, 1000000000⟩ := by
    rw [addTimespec, Timespec.carry]
    rfl
  obtain rfl := Option.some_inj.1 (heq.symm.trans hadd)
  exact absurd hlt (by decide)

end Rpc
end CseLab
