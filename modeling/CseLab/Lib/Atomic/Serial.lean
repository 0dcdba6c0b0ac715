import CseLab.Lib.Atomic.Machine
import Mathlib.Data.List.Nodup

/-!
# Operations that are as good as atomic

An operation that gets the locks of the objects it reads, decides by what it reads and then changes
what it has locked (`Reading`, then `Writing`) might as well happen at one moment: at its first
change, or if it changes nothing, when it gives up its first lock.  From then on it is certain what
it is still going to do.

Two things can go wrong, both with the numbers that the store hands out.  An object that is not
there may be created at any moment and by anybody, whoever has its lock; and an object that an
operation has just created and is still going to change is not locked yet.  `Sound` says that locks
are not got of such objects, and `one_at_a_time` that then the clients' operations return what they
would have returned one at a time, in an order in which each client's are as it made them, and leave
the same store.
-/

set_option autoImplicit false

namespace CseLab
namespace Atomic

variable {ι Ω τ ρ κ θ : Type*}

namespace Proc

/-! ## Programs and clients -/

/-- What the program is going to change, if there is nothing it has to know before. -/
def modifies : Proc ι Ω ρ → List ι
  | acquire _ p | release _ p => modifies p
  | put i _ p => i :: modifies p
  | _ => []

/-- What it is going to return. -/
def outcome : Proc ι Ω ρ → Option ρ
  | ret r => some r
  | acquire _ p | release _ p | put _ _ p => outcome p
  | _ => none

/-- On the store `s`, getting locks and reading leads from `p₀` to `p`, with the locks `held`. -/
inductive Leads (s : ι → Ω) (p₀ : Proc ι Ω ρ) : Proc ι Ω ρ → List ι → Prop
  | refl : Leads s p₀ p₀ []
  | acquire {i : ι} {p : Proc ι Ω ρ} {held : List ι} (h : Leads s p₀ (.acquire i p) held)
      (hi : i ∉ held) : Leads s p₀ p (i :: held)
  | get {i : ι} {k : Ω → Proc ι Ω ρ} {held : List ι} (h : Leads s p₀ (.get i k) held)
      (hi : i ∈ held) : Leads s p₀ (k (s i)) held

variable {p p₀ : Proc ι Ω ρ} {held : List ι} {s s' : ι → Ω}

/-- What has been read is locked. -/
theorem Leads.congr (h : Leads s p₀ p held) (heq : ∀ i ∈ held, s' i = s i) :
    Leads s' p₀ p held := by
  induction h with
  | refl => exact .refl
  | acquire _ hi ih => exact .acquire (ih fun j hj => heq j (List.mem_cons_of_mem _ hj)) hi
  | get _ hi ih => rw [← heq _ hi]; exact .get (ih heq) hi

end Proc

/-- A client has not decided yet, or it has, and is going to return `r`. -/
inductive Phase (θ ι Ω ρ : Type*)
  | idle
  | reading (t : Thread θ ι Ω ρ)
  | writing (t : Thread θ ι Ω ρ) (r : ρ)

namespace Phase

def thread : Phase θ ι Ω ρ → Option (Thread θ ι Ω ρ)
  | idle => none
  | reading t | writing t _ => some t

/-- The locks it has. -/
def held : Phase θ ι Ω ρ → List ι
  | idle => []
  | reading t | writing t _ => t.held

/-- What nobody else may change. -/
def claims : Phase θ ι Ω ρ → List ι
  | idle => []
  | reading t => t.held
  | writing t _ => t.prog.modifies

/-- What is in the log already and has not been returned. -/
def log (c : κ) : Phase θ ι Ω ρ → List (κ × θ × ρ)
  | idle | reading _ => []
  | writing t r => [(c, t.op, r)]

end Phase

variable [DecidableEq ι]

namespace Proc

/-! ## Programs that only write, and those that only read -/

/-- What it is going to make of an object. -/
def pend : Proc ι Ω ρ → ι → Ω → Ω
  | acquire _ p, j, o | release _ p, j, o => pend p j o
  | put i f p, j, o => pend p j (if j = i then f o else o)
  | _, _, o => o

/-- With the locks `held`, the program changes locked objects and no object's kind, gets only locks
of what it is going to change, and gives up its locks when it is done with them. -/
def Writing (H : Heap ι Ω τ) : List ι → Proc ι Ω ρ → Prop
  | held, ret _ => held = []
  | held, acquire i p => i ∉ held ∧ i ∈ p.modifies ∧ Writing H (i :: held) p
  | held, release i p => i ∈ held ∧ i ∉ p.modifies ∧ Writing H (held.erase i) p
  | held, put i f p => i ∈ held ∧ (∀ o, H.kind (f o) = H.kind o) ∧ Writing H held p
  | _, _ => False

/-- With the locks `held`, the program gets more of them and reads what it has locked; from its
first change on it only writes, and only what it has locked by then or has created. -/
def Reading (H : Heap ι Ω τ) : List ι → Proc ι Ω ρ → Prop
  | _, ret _ => False
  | _, fail => True
  | held, acquire i p => i ∈ held ∨ Reading H (i :: held) p
  | held, get i k => i ∈ held ∧ ∀ o, Reading H held (k o)
  | held, release i p => i ∈ held ∧ p.modifies = [] ∧ Writing H (held.erase i) p
  | held, put i f p =>
    i ∈ held ∧ (∀ o, H.kind (f o) = H.kind o) ∧ (∀ j ∈ p.modifies, j ∈ held) ∧ Writing H held p
  | held, remove i p => i ∈ held ∧ (∀ j ∈ p.modifies, j ∈ held ∧ j ≠ i) ∧ Writing H held p
  | held, create o k =>
    H.Live o ∧ ∀ i ∉ held, (∀ j ∈ (k i).modifies, j ∈ held ∨ j = i) ∧ Writing H held (k i)

variable {H : Heap ι Ω τ} {held : List ι} {p p₀ : Proc ι Ω ρ} {i : ι} {o : Ω} {r : ρ}
  {s s' : ι → Ω}

theorem pend_of_notMem (h : i ∉ p.modifies) : p.pend i o = o := by
  induction p generalizing o with
  | acquire _ p ih | release _ p ih => exact ih h
  | put j f p ih =>
    rw [modifies, List.mem_cons, not_or] at h
    rw [pend, if_neg h.1, ih h.2]
  | _ => rfl

theorem Writing.kind_pend (h : Writing H held p) : H.kind (p.pend i o) = H.kind o := by
  induction p generalizing held o with
  | acquire _ p ih | release _ p ih => exact ih h.2.2
  | put j f p ih =>
    rw [pend, ih h.2.2]
    split
    · exact h.2.1 o
    · rfl
  | _ => rfl

/-- Alone, it does what it was going to do. -/
theorem Writing.alone (h : Writing H held p) (hr : p.outcome = some r) :
    p.alone H held s = some (r, fun i => p.pend i (s i)) := by
  induction p generalizing held s with
  | ret r' =>
    rw [outcome, Option.some_inj] at hr
    rw [Proc.alone, hr]
    rfl
  | acquire i p ih => rw [Proc.alone, if_neg h.1, ih h.2.2 hr]; rfl
  | release i p ih => rw [Proc.alone, ih h.2.2 hr]; rfl
  | put i f p ih =>
    rw [Proc.alone, ih h.2.2 hr]
    refine congrArg (fun f => some (r, f)) (funext fun j => ?_)
    rw [pend, Function.update_apply]
    split
    next hj => rw [hj]
    next => rfl
  | _ => exact h.elim

theorem Writing.exists_outcome (h : Writing H held p) : ∃ r, p.outcome = some r := by
  induction p generalizing held with
  | ret r => exact ⟨r, rfl⟩
  | acquire _ p ih | release _ p ih | put _ _ p ih => exact ih h.2.2
  | _ => exact h.elim

theorem Leads.alone_eq (h : Leads s p₀ p held) : p₀.alone H [] s = p.alone H held s := by
  induction h with
  | refl => rfl
  | acquire _ hi ih => rw [ih, alone, if_neg hi]
  | get _ _ ih => rw [ih, alone]

end Proc

namespace Phase

/-- What it is certainly going to make of an object. -/
def pend : Phase θ ι Ω ρ → ι → Ω → Ω
  | idle | reading _ => fun _ o => o
  | writing t _ => t.prog.pend

/-- All is well with it, if the store is as good as `a`. -/
def Good (H : Heap ι Ω τ) (code : θ → Proc ι Ω ρ) (a : ι → Ω) : Phase θ ι Ω ρ → Prop
  | idle => True
  | reading t => Proc.Leads a (code t.op) t.prog t.held ∧ t.prog.Reading H t.held ∧
      ∀ i ∈ t.held, H.Live (a i)
  | writing t r => t.prog.outcome = some r ∧ t.prog.Writing H t.held ∧
      ∀ i ∈ t.prog.modifies, H.Live (a i) ∧ (i ∈ t.held ∨ i ∈ t.made)

variable {H : Heap ι Ω τ} {code : θ → Proc ι Ω ρ} {a a' : ι → Ω} {φ : Phase θ ι Ω ρ} {i : ι} {o : Ω}

theorem Good.congr (h : φ.Good H code a) (heq : ∀ i ∈ φ.claims, a' i = a i) :
    φ.Good H code a' := by
  cases φ with
  | idle => trivial
  | reading t =>
    obtain ⟨hleads, hreading, hlive⟩ := h
    exact ⟨hleads.congr heq, hreading, fun i hi => heq i hi ▸ hlive i hi⟩
  | writing t r =>
    obtain ⟨hr, hwriting, hlive⟩ := h
    exact ⟨hr, hwriting, fun i hi => heq i hi ▸ hlive i hi⟩

theorem Good.live (h : φ.Good H code a) (hi : i ∈ φ.claims) : H.Live (a i) := by
  cases φ with
  | idle => exact absurd hi List.not_mem_nil
  | reading t => exact h.2.2 i hi
  | writing t r => exact (h.2.2 i hi).1

theorem Good.kind_pend (h : φ.Good H code a) : H.kind (φ.pend i o) = H.kind o := by
  cases φ with
  | idle | reading t => rfl
  | writing t r => exact h.2.1.kind_pend

end Phase

/-! ## The simulation -/

section

variable [DecidableEq κ] (H : Heap ι Ω τ) (code : θ → Proc ι Ω ρ)

/-- The operations of a log that client `c` asked for. -/
def ofClient (c : κ) (log : List (κ × θ × ρ)) : List (κ × θ × ρ) := log.filter fun e => e.1 = c

/-- The system `s` is as good as the store `a`, which the operations in `log` have made of `s₀`, one
at a time; what has been returned so far is `seen`. -/
structure Sim (s₀ : ι → Ω) (seen : List (κ × θ × ρ)) (s : System κ θ ι Ω ρ) (a : ι → Ω)
    (log : List (κ × θ × ρ)) (φ : κ → Phase θ ι Ω ρ) : Prop where
  serial : OneAtATime H code s₀ log a
  thread : ∀ c, s.thread c = (φ c).thread
  lock : ∀ c i, s.lock i = some c ↔ i ∈ (φ c).held
  nodup : ∀ c, (φ c).held.Nodup
  good : ∀ c, (φ c).Good H code a
  apart : ∀ c d, c ≠ d → ∀ i ∈ (φ c).claims, i ∉ (φ d).claims
  /-- What a client claims, it is going to turn into what is in `a`. -/
  claimed : ∀ c, ∀ i ∈ (φ c).claims, a i = (φ c).pend i (s.store i)
  unclaimed : ∀ i, (∀ c, i ∉ (φ c).claims) → a i = s.store i
  told : ∀ c, ofClient c log = ofClient c seen ++ (φ c).log c

/-- A lock is got of an object that is there, and that no other client has created and is still to
change. -/
def Sound (s : System κ θ ι Ω ρ) : Act κ θ → Prop
  | .call _ _ => True
  | .go c => ∀ t i p, s.thread c = some t → t.prog = .acquire i p → H.Live (s.store i) ∧
      ∀ d u, d ≠ c → s.thread d = some u → i ∈ u.made → i ∉ u.prog.modifies

variable {H code} {s₀ a b : ι → Ω} {seen seen' log log' : List (κ × θ × ρ)}
  {s s' : System κ θ ι Ω ρ} {φ : κ → Phase θ ι Ω ρ} {c d : κ} {t : Thread θ ι Ω ρ} {i : ι} {r : ρ}

namespace Sim

theorem start (s₀ : ι → Ω) : Sim H code s₀ ([] : List (κ × θ × ρ)) (System.start s₀) s₀ []
    fun _ => .idle where
  serial := .nil
  thread _ := rfl
  lock c i := by simp [System.start, Phase.held]
  nodup _ := List.nodup_nil
  good _ := trivial
  apart _ _ _ _ hi := absurd hi List.not_mem_nil
  claimed _ _ hi := absurd hi List.not_mem_nil
  unclaimed _ _ := rfl
  told _ := rfl

/-- The kinds are what they are as good as. -/
theorem kind (h : Sim H code s₀ seen s a log φ) (i : ι) : H.kind (a i) = H.kind (s.store i) := by
  by_cases hc : ∃ c, i ∈ (φ c).claims
  · obtain ⟨c, hi⟩ := hc
    rw [h.claimed c i hi, (h.good c).kind_pend]
  · rw [h.unclaimed i fun c hi => hc ⟨c, hi⟩]

/-- One client moves, and what the others claim is left alone. -/
theorem move (h : Sim H code s₀ seen s a log φ) (ψ : Phase θ ι Ω ρ)
    (hserial : OneAtATime H code s₀ log' b)
    (hthread : s'.thread = Function.update s.thread c ψ.thread)
    (hlock : ∀ i, s'.lock i = some c ↔ i ∈ ψ.held)
    (hlocks : ∀ d i, d ≠ c → (s'.lock i = some d ↔ s.lock i = some d))
    (hnodup : ψ.held.Nodup) (hgood : ψ.Good H code b)
    (hothers : ∀ d, d ≠ c → ∀ i ∈ (φ d).claims, b i = a i ∧ s'.store i = s.store i ∧ i ∉ ψ.claims)
    (hclaimed : ∀ i ∈ ψ.claims, b i = ψ.pend i (s'.store i))
    (hunclaimed : ∀ i, i ∉ ψ.claims → (∀ d, d ≠ c → i ∉ (φ d).claims) → b i = s'.store i)
    (htold : ofClient c log' = ofClient c seen' ++ ψ.log c)
    (htolds : ∀ d, d ≠ c → ofClient d log' = ofClient d log ∧ ofClient d seen' = ofClient d seen) :
    Sim H code s₀ seen' s' b log' (Function.update φ c ψ) where
  serial := hserial
  thread d := by
    rw [hthread]
    by_cases hd : d = c
    · subst hd
      rw [Function.update_self, Function.update_self]
    · rw [Function.update_of_ne hd, Function.update_of_ne hd, h.thread d]
  lock d i := by
    by_cases hd : d = c
    · subst hd
      rw [Function.update_self, hlock]
    · rw [Function.update_of_ne hd, hlocks d i hd, h.lock d i]
  nodup d := by
    by_cases hd : d = c
    · subst hd
      rwa [Function.update_self]
    · rw [Function.update_of_ne hd]
      exact h.nodup d
  good d := by
    by_cases hd : d = c
    · subst hd
      rwa [Function.update_self]
    · rw [Function.update_of_ne hd]
      exact (h.good d).congr fun i hi => (hothers d hd i hi).1
  apart d e hde i := by
    by_cases hd : d = c
    · subst hd
      rw [Function.update_self, Function.update_of_ne (Ne.symm hde)]
      exact fun hi hi' => (hothers e (Ne.symm hde) i hi').2.2 hi
    · rw [Function.update_of_ne hd]
      by_cases he : e = c
      · subst he
        rw [Function.update_self]
        exact fun hi => (hothers d hd i hi).2.2
      · rw [Function.update_of_ne he]
        exact h.apart d e hde i
  claimed d i := by
    by_cases hd : d = c
    · subst hd
      rw [Function.update_self]
      exact hclaimed i
    · rw [Function.update_of_ne hd]
      intro hi
      obtain ⟨hb, hs, -⟩ := hothers d hd i hi
      rw [hb, hs, h.claimed d i hi]
  unclaimed i hi := by
    refine hunclaimed i ?_ fun d hd => ?_
    · have hc := hi c
      rwa [Function.update_self] at hc
    · have hd' := hi d
      rwa [Function.update_of_ne hd] at hd'
  told d := by
    by_cases hd : d = c
    · subst hd
      rw [Function.update_self, htold]
    · rw [Function.update_of_ne hd, (htolds d hd).1, (htolds d hd).2, h.told d]

/-! ## One step -/

theorem phase_none (h : Sim H code s₀ seen s a log φ) (ht : s.thread c = none) : φ c = .idle := by
  rw [h.thread c] at ht
  cases hc : φ c with
  | idle => rfl
  | reading t | writing t r => simp [hc, Phase.thread] at ht

theorem phase_some (h : Sim H code s₀ seen s a log φ) (ht : s.thread c = some t) :
    φ c = .reading t ∨ ∃ r, φ c = .writing t r := by
  rw [h.thread c] at ht
  cases hc : φ c with
  | idle => simp [hc, Phase.thread] at ht
  | reading t' =>
    rw [hc, Phase.thread, Option.some_inj] at ht
    exact .inl (ht ▸ rfl)
  | writing t' r =>
    rw [hc, Phase.thread, Option.some_inj] at ht
    exact .inr ⟨r, ht ▸ rfl⟩

/-- A client that is reading sees what the store is as good as. -/
theorem reading_eq (h : Sim H code s₀ seen s a log φ) (hc : φ c = .reading t) (hi : i ∈ t.held) :
    a i = s.store i := by
  have := h.claimed c i (by rw [hc]; exact hi)
  rwa [hc] at this

theorem notMem_held (h : Sim H code s₀ seen s a log φ) (hfree : s.lock i = none) (d : κ) :
    i ∉ (φ d).held := by
  rw [← h.lock, hfree]
  exact nofun

/-- What is not locked is claimed only by a client that has created it and has still to change
it. -/
theorem claims_of_unlocked (h : Sim H code s₀ seen s a log φ) (hfree : s.lock i = none)
    (hi : i ∈ (φ d).claims) : ∃ u r, φ d = .writing u r ∧ i ∈ u.made ∧ i ∈ u.prog.modifies := by
  have hnot := h.notMem_held hfree d
  cases hd : φ d with
  | idle =>
    rw [hd] at hi
    exact absurd hi List.not_mem_nil
  | reading u =>
    rw [hd] at hi hnot
    exact absurd hi hnot
  | writing u r =>
    rw [hd] at hi hnot
    have hgood := h.good d
    rw [hd] at hgood
    rcases (hgood.2.2 i hi).2 with hheld | hmade
    · exact absurd hheld hnot
    · exact ⟨u, r, rfl, hmade, hi⟩

theorem lock_iff (h : Sim H code s₀ seen s a log φ) (ht : s.thread c = some t) :
    s.lock i = some c ↔ i ∈ t.held := by
  rw [h.lock]
  rcases h.phase_some ht with hc | ⟨r, hc⟩ <;> rw [hc] <;> rfl

theorem nodup_held (h : Sim H code s₀ seen s a log φ) (ht : s.thread c = some t) :
    t.held.Nodup := by
  have := h.nodup c
  rcases h.phase_some ht with hc | ⟨r, hc⟩ <;> rwa [hc] at this

/-- A lock is got. -/
theorem lock_acquire (h : Sim H code s₀ seen s a log φ) (ht : s.thread c = some t)
    (hfree : s.lock i = none) (j : ι) :
    (Function.update s.lock i (some c) j = some c ↔ j ∈ i :: t.held) ∧
      ∀ d, d ≠ c → (Function.update s.lock i (some c) j = some d ↔ s.lock j = some d) := by
  rw [List.mem_cons]
  by_cases hji : j = i
  · subst hji
    rw [Function.update_self, hfree]
    exact ⟨by simp, fun d hd => by simp [Ne.symm hd]⟩
  · rw [Function.update_of_ne hji, h.lock_iff ht]
    exact ⟨(or_iff_right hji).symm, fun d _ => Iff.rfl⟩

/-- A lock is given up. -/
theorem lock_release (h : Sim H code s₀ seen s a log φ) (ht : s.thread c = some t)
    (hi : i ∈ t.held) (j : ι) :
    (Function.update s.lock i none j = some c ↔ j ∈ t.held.erase i) ∧
      ∀ d, d ≠ c → (Function.update s.lock i none j = some d ↔ s.lock j = some d) := by
  rw [(h.nodup_held ht).mem_erase_iff]
  by_cases hji : j = i
  · subst hji
    rw [Function.update_self, (h.lock_iff ht).2 hi]
    exact ⟨by simp, fun d hd => by simp [Ne.symm hd]⟩
  · rw [Function.update_of_ne hji, h.lock_iff ht]
    exact ⟨(and_iff_right hji).symm, fun d _ => Iff.rfl⟩

theorem call (h : Sim H code s₀ seen s a log φ) (hcode : ∀ op, (code op).Reading H [])
    (ht : s.thread c = none) (op : θ) :
    Sim H code s₀ seen (s.goto c ⟨op, code op, [], []⟩) a log
      (Function.update φ c (.reading ⟨op, code op, [], []⟩)) := by
  have hc := h.phase_none ht
  refine h.move _ h.serial rfl (fun i => ?_) (fun d i _ => Iff.rfl) List.nodup_nil ?_
    (fun d _ i _ => ⟨rfl, rfl, List.not_mem_nil⟩) (fun i hi => absurd hi List.not_mem_nil)
    (fun i _ hi => h.unclaimed i fun d => ?_) ?_ (fun d _ => ⟨rfl, rfl⟩)
  · have := h.lock c i
    rwa [hc] at this
  · exact ⟨.refl, hcode op, fun i hi => absurd hi List.not_mem_nil⟩
  · by_cases hd : d = c
    · rw [hd, hc]
      exact List.not_mem_nil
    · exact hi d hd
  · rw [h.told c, hc]
    rfl

/-! ### Reading -/

theorem reading_acquire {p : Proc ι Ω ρ} (h : Sim H code s₀ seen s a log φ)
    (ht : s.thread c = some t) (hc : φ c = .reading t) (hp : t.prog = .acquire i p)
    (hfree : s.lock i = none) (hlive : H.Live (s.store i))
    (hmade : ∀ d u, d ≠ c → s.thread d = some u → i ∈ u.made → i ∉ u.prog.modifies) :
    Sim H code s₀ seen
      ({ s with lock := Function.update s.lock i (some c) }.goto c
        { t with prog := p, held := i :: t.held }) a log
      (Function.update φ c (.reading { t with prog := p, held := i :: t.held })) := by
  have hheld := h.notMem_held hfree
  have hclaims : ∀ d, i ∉ (φ d).claims := by
    intro d hi
    obtain ⟨u, r, hd, hu, hmod⟩ := h.claims_of_unlocked hfree hi
    have hne : d ≠ c := by
      rintro rfl
      rw [hc] at hd
      cases hd
    exact hmade d u hne (by rw [h.thread d, hd]; rfl) hu hmod
  have ha : a i = s.store i := h.unclaimed i hclaims
  have hgood := h.good c
  have hheldc := hheld c
  rw [hc] at hgood hheldc
  obtain ⟨hleads, hreading, hlives⟩ := hgood
  rw [hp] at hleads hreading
  have hlock := h.lock_acquire ht hfree
  refine h.move _ h.serial rfl (fun j => (hlock j).1) (fun d j hd => (hlock j).2 d hd)
    (List.nodup_cons.2 ⟨hheldc, h.nodup_held ht⟩)
    ⟨hleads.acquire hheldc, hreading.resolve_left hheldc, ?_⟩ (fun d hd j hj => ⟨rfl, rfl, ?_⟩)
    (fun j hj => ?_) (fun j hj hothers => ?_) ?_ (fun d _ => ⟨rfl, rfl⟩)
  · intro j hj
    rcases List.mem_cons.1 hj with rfl | hj
    · rw [ha]
      exact hlive
    · exact hlives j hj
  · intro hj'
    rcases List.mem_cons.1 hj' with rfl | hj'
    · exact hclaims d hj
    · exact h.apart d c hd j hj (by rw [hc]; exact hj')
  · rcases List.mem_cons.1 hj with rfl | hj
    · exact ha
    · exact h.reading_eq hc hj
  · refine h.unclaimed j fun d => ?_
    by_cases hd : d = c
    · rw [hd, hc]
      exact fun hj' => hj (List.mem_cons_of_mem _ hj')
    · exact hothers d hd
  · have := h.told c
    rwa [hc] at this

theorem reading_get {k : Ω → Proc ι Ω ρ} (h : Sim H code s₀ seen s a log φ) (hc : φ c = .reading t)
    (hp : t.prog = .get i k) :
    Sim H code s₀ seen (s.goto c { t with prog := k (s.store i) }) a log
      (Function.update φ c (.reading { t with prog := k (s.store i) })) := by
  have hgood := h.good c
  rw [hc] at hgood
  obtain ⟨hleads, hreading, hlives⟩ := hgood
  rw [hp] at hleads hreading
  refine h.move _ h.serial rfl (fun j => ?_) (fun d j _ => Iff.rfl) ?_
    ⟨?_, hreading.2 _, hlives⟩ (fun d hd j hj => ⟨rfl, rfl, ?_⟩) (fun j hj => h.reading_eq hc hj)
    (fun j hj hothers => h.unclaimed j fun d => ?_) ?_ (fun d _ => ⟨rfl, rfl⟩)
  · have := h.lock c j
    rwa [hc] at this
  · have := h.nodup c
    rwa [hc] at this
  · rw [← h.reading_eq hc hreading.1]
    exact hleads.get hreading.1
  · have := h.apart d c hd j hj
    rwa [hc] at this
  · by_cases hd : d = c
    · rw [hd, hc]
      exact hj
    · exact hothers d hd
  · have := h.told c
    rwa [hc] at this

/-! ### Deciding -/

/-- A client that has read makes its first change, after which it is at `t'`, the store is as good
as `b` but for what `t'` is still going to do, and nothing has changed of what others claim. -/
theorem decide (h : Sim H code s₀ seen s a log φ) (hc : φ c = .reading t) {t' : Thread θ ι Ω ρ}
    (hop : t'.op = t.op)
    (halone : t.prog.alone H t.held a = t'.prog.alone H t'.held b)
    (hwriting : t'.prog.Writing H t'.held)
    (hmodifies : ∀ i ∈ t'.prog.modifies,
      H.Live (b i) ∧ (i ∈ t'.held ∨ i ∈ t'.made) ∧ ∀ d, d ≠ c → i ∉ (φ d).claims)
    (hb : ∀ d, d ≠ c → ∀ i ∈ (φ d).claims, b i = a i ∧ s'.store i = s.store i)
    (hstore : ∀ i, (∀ d, d ≠ c → i ∉ (φ d).claims) → b i = s'.store i)
    (hthread : s'.thread = Function.update s.thread c (some t'))
    (hlock : ∀ i, s'.lock i = some c ↔ i ∈ t'.held)
    (hlocks : ∀ d i, d ≠ c → (s'.lock i = some d ↔ s.lock i = some d)) (hnodup : t'.held.Nodup) :
    ∃ a' r, Sim H code s₀ seen s' a' (log ++ [(c, t.op, r)])
      (Function.update φ c (.writing t' r)) := by
  obtain ⟨r, hr⟩ := hwriting.exists_outcome
  have hgood := h.good c
  rw [hc] at hgood
  have hrun : (code t.op).alone H [] a = some (r, fun i => t'.prog.pend i (b i)) := by
    rw [hgood.1.alone_eq, halone, hwriting.alone hr]
  refine ⟨_, r, h.move _ (h.serial.snoc c hrun) hthread hlock hlocks hnodup ⟨hr, hwriting, ?_⟩
    (fun d hd i hi => ?_) (fun i hi => ?_) (fun i hi hothers => ?_) ?_ (fun d hd => ⟨?_, rfl⟩)⟩
  · intro i hi
    obtain ⟨hlive, hown, -⟩ := hmodifies i hi
    refine ⟨?_, hown⟩
    rw [Heap.Live, hwriting.kind_pend]
    exact hlive
  · have hnot : i ∉ t'.prog.modifies := fun hi' => (hmodifies i hi').2.2 d hd hi
    exact ⟨(Proc.pend_of_notMem hnot).trans (hb d hd i hi).1, (hb d hd i hi).2, hnot⟩
  · exact congrArg (t'.prog.pend i) (hstore i (hmodifies i hi).2.2)
  · exact (Proc.pend_of_notMem hi).trans (hstore i hothers)
  · have htold := h.told c
    rw [hc] at htold
    rw [ofClient, List.filter_append, ← ofClient, htold, Phase.log, Phase.log, List.append_nil, hop]
    simp
  · rw [ofClient, List.filter_append, ← ofClient]
    simp [Ne.symm hd]

/-- What the others do not claim, a client that is reading finds as it should be. -/
theorem eq_of_reading (h : Sim H code s₀ seen s a log φ) (hc : φ c = .reading t)
    (hothers : ∀ d, d ≠ c → i ∉ (φ d).claims) : a i = s.store i := by
  by_cases hi : i ∈ t.held
  · exact h.reading_eq hc hi
  · refine h.unclaimed i fun d => ?_
    by_cases hd : d = c
    · rwa [hd, hc]
    · exact hothers d hd

theorem notMem_claims (h : Sim H code s₀ seen s a log φ) (hc : φ c = .reading t) (hi : i ∈ t.held)
    (hd : d ≠ c) : i ∉ (φ d).claims :=
  h.apart c d (Ne.symm hd) i (by rw [hc]; exact hi)

/-- The first change is to one object, which nobody else claims. -/
theorem decide_change {p : Proc ι Ω ρ} {made : List ι} {o : Ω} (h : Sim H code s₀ seen s a log φ)
    (ht : s.thread c = some t) (hc : φ c = .reading t)
    (halone : t.prog.alone H t.held a = p.alone H t.held (Function.update a i o))
    (hwriting : p.Writing H t.held) (hi : ∀ d, d ≠ c → i ∉ (φ d).claims)
    (hmodifies : ∀ j ∈ p.modifies,
      j ≠ i ∧ j ∈ t.held ∨ j = i ∧ H.Live o ∧ (i ∈ t.held ∨ i ∈ made)) :
    ∃ a' r, Sim H code s₀ seen
      ({ s with store := Function.update s.store i o }.goto c { t with prog := p, made := made })
      a' (log ++ [(c, t.op, r)])
      (Function.update φ c (.writing { t with prog := p, made := made } r)) := by
  have hgood := h.good c
  rw [hc] at hgood
  have hlock : ∀ j, s.lock j = some c ↔ j ∈ t.held := fun j => h.lock_iff ht
  have hnodup : t.held.Nodup := h.nodup_held ht
  refine h.decide hc rfl halone hwriting (fun j hj => ?_) (fun d hd j hj => ?_)
    (fun j hothers => ?_) rfl hlock (fun d j _ => Iff.rfl) hnodup
  · rcases hmodifies j hj with ⟨hne, hheld⟩ | ⟨rfl, hlive, hown⟩
    · rw [Function.update_of_ne hne]
      exact ⟨hgood.2.2 j hheld, .inl hheld, fun d hd => h.notMem_claims hc hheld hd⟩
    · rw [Function.update_self]
      exact ⟨hlive, hown, hi⟩
  · have hne : j ≠ i := by
      rintro rfl
      exact hi d hd hj
    exact ⟨Function.update_of_ne hne .., Function.update_of_ne hne ..⟩
  · show Function.update a i o j = Function.update s.store i o j
    by_cases hji : j = i
    · rw [hji, Function.update_self, Function.update_self]
    · rw [Function.update_of_ne hji, Function.update_of_ne hji, h.eq_of_reading hc hothers]

theorem reading_release {p : Proc ι Ω ρ} (h : Sim H code s₀ seen s a log φ)
    (ht : s.thread c = some t) (hc : φ c = .reading t) (hp : t.prog = .release i p) :
    ∃ a' r, Sim H code s₀ seen
      ({ s with lock := Function.update s.lock i none }.goto c
        { t with prog := p, held := t.held.erase i }) a' (log ++ [(c, t.op, r)])
      (Function.update φ c (.writing { t with prog := p, held := t.held.erase i } r)) := by
  have hgood := h.good c
  rw [hc] at hgood
  obtain ⟨-, hreading, -⟩ := hgood
  rw [hp] at hreading
  obtain ⟨hi, hmodifies, hwriting⟩ := hreading
  have hlock := h.lock_release ht hi
  refine h.decide hc rfl (by rw [hp, Proc.alone]) hwriting
    (fun j hj => ?_) (fun d _ j _ => ⟨rfl, rfl⟩) (fun j hothers => h.eq_of_reading hc hothers) rfl
    (fun j => (hlock j).1) (fun d j hd => (hlock j).2 d hd) ((h.nodup_held ht).erase i)
  rw [hmodifies] at hj
  exact absurd hj List.not_mem_nil

theorem reading_put {f : Ω → Ω} {p : Proc ι Ω ρ} (h : Sim H code s₀ seen s a log φ)
    (ht : s.thread c = some t) (hc : φ c = .reading t) (hp : t.prog = .put i f p) :
    ∃ a' r, Sim H code s₀ seen
      ({ s with store := Function.update s.store i (f (s.store i)) }.goto c { t with prog := p })
      a' (log ++ [(c, t.op, r)]) (Function.update φ c (.writing { t with prog := p } r)) := by
  have hgood := h.good c
  rw [hc] at hgood
  obtain ⟨-, hreading, hlives⟩ := hgood
  rw [hp] at hreading
  obtain ⟨hi, hkind, hmodifies, hwriting⟩ := hreading
  refine h.decide_change ht hc ?_ hwriting (fun d hd => h.notMem_claims hc hi hd) fun j hj => ?_
  · rw [hp, Proc.alone, h.reading_eq hc hi]
  · by_cases hji : j = i
    · refine .inr ⟨hji, ?_, .inl hi⟩
      rw [Heap.Live, hkind, ← h.reading_eq hc hi]
      exact hlives i hi
    · exact .inl ⟨hji, hmodifies j hj⟩

theorem reading_remove {p : Proc ι Ω ρ} (h : Sim H code s₀ seen s a log φ)
    (ht : s.thread c = some t) (hc : φ c = .reading t) (hp : t.prog = .remove i p) :
    ∃ a' r, Sim H code s₀ seen
      ({ s with store := Function.update s.store i H.gone }.goto c { t with prog := p })
      a' (log ++ [(c, t.op, r)]) (Function.update φ c (.writing { t with prog := p } r)) := by
  have hgood := h.good c
  rw [hc] at hgood
  obtain ⟨-, hreading, -⟩ := hgood
  rw [hp] at hreading
  obtain ⟨hi, hmodifies, hwriting⟩ := hreading
  refine h.decide_change ht hc ?_ hwriting (fun d hd => h.notMem_claims hc hi hd) fun j hj =>
    .inl ⟨(hmodifies j hj).2, (hmodifies j hj).1⟩
  rw [hp, Proc.alone]

theorem reading_create {k : ι → Proc ι Ω ρ} {o : Ω} (h : Sim H code s₀ seen s a log φ)
    (ht : s.thread c = some t) (hc : φ c = .reading t) (hp : t.prog = .create o k)
    (hi : (H.next fun i => H.kind (s.store i)) = some i) :
    ∃ a' r, Sim H code s₀ seen
      ({ s with store := Function.update s.store i o }.goto c
        { t with prog := k i, made := i :: t.made })
      a' (log ++ [(c, t.op, r)])
      (Function.update φ c (.writing { t with prog := k i, made := i :: t.made } r)) := by
  have hgood := h.good c
  rw [hc] at hgood
  obtain ⟨-, hreading, hlives⟩ := hgood
  rw [hp] at hreading
  have hgone := H.next_gone _ _ hi
  have hdead : ∀ j, H.Live (a j) → j ≠ i := by
    rintro j hlive rfl
    exact hlive ((h.kind j).trans hgone)
  have hnot : i ∉ t.held := fun hheld => hdead i (hlives i hheld) rfl
  obtain ⟨hmodifies, hwriting⟩ := hreading.2 i hnot
  refine h.decide_change ht hc ?_ hwriting (fun d _ hd => hdead i ((h.good d).live hd) rfl)
    fun j hj => ?_
  · have hkind : (fun j => H.kind (a j)) = fun j => H.kind (s.store j) := funext h.kind
    rw [hp, Proc.alone, hkind, hi, Option.bind_some]
  · rcases hmodifies j hj with hheld | rfl
    · exact .inl ⟨hdead j (hlives j hheld), hheld⟩
    · exact .inr ⟨rfl, hreading.1, .inr List.mem_cons_self⟩

/-! ### Writing -/

/-- A client that has decided goes on as it must; what it is to return and what is in the log stay
as they are. -/
theorem writing_move {t' : Thread θ ι Ω ρ} (h : Sim H code s₀ seen s a log φ)
    (hc : φ c = .writing t r) (hop : t'.op = t.op) (hmade : t'.made = t.made)
    (houtcome : t'.prog.outcome = some r) (hwriting : t'.prog.Writing H t'.held)
    (hheld : ∀ i ∈ t'.prog.modifies, i ∈ t.held → i ∈ t'.held)
    (hmodifies : ∀ i ∈ t'.prog.modifies, i ∈ t.prog.modifies)
    (hpend : ∀ i, t'.prog.pend i (s'.store i) = t.prog.pend i (s.store i))
    (hstore : ∀ i, i ∉ t.prog.modifies → s'.store i = s.store i)
    (hthread : s'.thread = Function.update s.thread c (some t'))
    (hlock : ∀ i, s'.lock i = some c ↔ i ∈ t'.held)
    (hlocks : ∀ d i, d ≠ c → (s'.lock i = some d ↔ s.lock i = some d)) (hnodup : t'.held.Nodup) :
    Sim H code s₀ seen s' a log (Function.update φ c (.writing t' r)) := by
  have hgood := h.good c
  have hapart : ∀ d, d ≠ c → ∀ i ∈ (φ d).claims, i ∉ t.prog.modifies := by
    intro d hd i hi
    have := h.apart d c hd i hi
    rwa [hc] at this
  have hclaimed : ∀ i ∈ t.prog.modifies, a i = t'.prog.pend i (s'.store i) := by
    intro i hi
    have := h.claimed c i (by rw [hc]; exact hi)
    rw [this, hc, hpend]
    rfl
  rw [hc] at hgood
  obtain ⟨-, -, hlives⟩ := hgood
  refine h.move _ h.serial hthread hlock hlocks hnodup
    ⟨houtcome, hwriting, fun i hi => ⟨(hlives i (hmodifies i hi)).1, ?_⟩⟩
    (fun d hd i hi => ⟨rfl, hstore i (hapart d hd i hi),
      fun hi' => hapart d hd i hi (hmodifies i hi')⟩)
    (fun i hi => hclaimed i (hmodifies i hi)) (fun i hi hothers => ?_) ?_ (fun d _ => ⟨rfl, rfl⟩)
  · rw [hmade]
    exact (hlives i (hmodifies i hi)).2.imp_left (hheld i hi)
  · by_cases hit : i ∈ t.prog.modifies
    · rw [hclaimed i hit, Proc.pend_of_notMem hi]
    · rw [hstore i hit]
      refine h.unclaimed i fun d => ?_
      by_cases hd : d = c
      · rwa [hd, hc]
      · exact hothers d hd
  · have htold := h.told c
    rw [hc] at htold
    rw [htold, Phase.log, Phase.log, hop]

theorem writing_ret {r' : ρ} (h : Sim H code s₀ seen s a log φ) (ht : s.thread c = some t)
    (hc : φ c = .writing t r) (hp : t.prog = .ret r') :
    Sim H code s₀ (seen ++ [(c, t.op, r')])
      { s with thread := Function.update s.thread c none } a log (Function.update φ c .idle) := by
  have hgood := h.good c
  rw [hc] at hgood
  obtain ⟨houtcome, hheld, -⟩ := hgood
  rw [hp] at houtcome hheld
  refine h.move _ h.serial rfl (fun i => ?_) (fun d i _ => Iff.rfl) List.nodup_nil trivial
    (fun d _ i _ => ⟨rfl, rfl, List.not_mem_nil⟩) (fun i hi => absurd hi List.not_mem_nil)
    (fun i _ hothers => h.unclaimed i fun d => ?_) ?_ (fun d hd => ⟨rfl, ?_⟩)
  · rw [h.lock_iff ht, show t.held = [] from hheld]
    rfl
  · by_cases hd : d = c
    · rw [hd, hc, Phase.claims, hp]
      exact List.not_mem_nil
    · exact hothers d hd
  · have htold := h.told c
    rw [hc] at htold
    rw [htold, ofClient, ofClient, List.filter_append, Phase.log, Phase.log, List.append_nil,
      ← Option.some_inj.1 houtcome]
    simp
  · rw [ofClient, List.filter_append, ← ofClient]
    simp [Ne.symm hd]

theorem writing_acquire {p : Proc ι Ω ρ} (h : Sim H code s₀ seen s a log φ)
    (ht : s.thread c = some t) (hc : φ c = .writing t r) (hp : t.prog = .acquire i p)
    (hfree : s.lock i = none) :
    Sim H code s₀ seen
      ({ s with lock := Function.update s.lock i (some c) }.goto c
        { t with prog := p, held := i :: t.held }) a log
      (Function.update φ c (.writing { t with prog := p, held := i :: t.held } r)) := by
  have hgood := h.good c
  rw [hc] at hgood
  obtain ⟨houtcome, hwriting, -⟩ := hgood
  rw [hp] at houtcome hwriting
  obtain ⟨hnot, -, hwriting⟩ := hwriting
  have hlock := h.lock_acquire ht hfree
  refine h.writing_move hc rfl rfl houtcome hwriting (fun j _ hj => List.mem_cons_of_mem _ hj)
    (fun j hj => ?_) (fun j => ?_) (fun j _ => rfl) rfl (fun j => (hlock j).1)
    (fun d j hd => (hlock j).2 d hd) (List.nodup_cons.2 ⟨hnot, h.nodup_held ht⟩)
  · rw [hp]
    exact hj
  · rw [hp]
    rfl

theorem writing_release {p : Proc ι Ω ρ} (h : Sim H code s₀ seen s a log φ)
    (ht : s.thread c = some t) (hc : φ c = .writing t r) (hp : t.prog = .release i p) :
    Sim H code s₀ seen
      ({ s with lock := Function.update s.lock i none }.goto c
        { t with prog := p, held := t.held.erase i }) a log
      (Function.update φ c (.writing { t with prog := p, held := t.held.erase i } r)) := by
  have hgood := h.good c
  rw [hc] at hgood
  obtain ⟨houtcome, hwriting, -⟩ := hgood
  rw [hp] at houtcome hwriting
  obtain ⟨hi, hnot, hwriting⟩ := hwriting
  have hlock := h.lock_release ht hi
  refine h.writing_move hc rfl rfl houtcome hwriting (fun j hmod hj => ?_)
    (fun j hj => ?_) (fun j => ?_) (fun j _ => rfl) rfl (fun j => (hlock j).1)
    (fun d j hd => (hlock j).2 d hd) ((h.nodup_held ht).erase i)
  · have hne : j ≠ i := by
      rintro rfl
      exact hnot hmod
    exact (List.mem_erase_of_ne hne).2 hj
  · rw [hp]
    exact hj
  · rw [hp]
    rfl

theorem writing_put {f : Ω → Ω} {p : Proc ι Ω ρ} (h : Sim H code s₀ seen s a log φ)
    (ht : s.thread c = some t) (hc : φ c = .writing t r) (hp : t.prog = .put i f p) :
    Sim H code s₀ seen
      ({ s with store := Function.update s.store i (f (s.store i)) }.goto c { t with prog := p })
      a log (Function.update φ c (.writing { t with prog := p } r)) := by
  have hgood := h.good c
  rw [hc] at hgood
  obtain ⟨houtcome, hwriting, -⟩ := hgood
  rw [hp] at houtcome hwriting
  have hlock : ∀ j, s.lock j = some c ↔ j ∈ t.held := fun j => h.lock_iff ht
  have hnodup : t.held.Nodup := h.nodup_held ht
  refine h.writing_move hc rfl rfl houtcome hwriting.2.2 (fun j _ hj => hj) (fun j hj => ?_)
    (fun j => ?_) (fun j hj => ?_) rfl hlock (fun d j _ => Iff.rfl) hnodup
  · rw [hp]
    exact List.mem_cons_of_mem _ hj
  · show p.pend j (Function.update s.store i (f (s.store i)) j) = _
    rw [hp, Proc.pend, Function.update_apply]
    split
    next hji => rw [hji]
    next => rfl
  · rw [hp, Proc.modifies, List.mem_cons, not_or] at hj
    exact Function.update_of_ne hj.1 ..

/-! ### Every step -/

theorem go (h : Sim H code s₀ seen s a log φ) (ht : s.thread c = some t)
    (hsound : Sound H s (.go c : Act κ θ)) (hs : s.go H c t = some s') :
    ∃ a' log' φ', Sim H code s₀ (seen ++ System.returned s (.go c) s') s' a' log' φ' := by
  have hquiet := @System.returned_eq_nil _ _ _ _ _ s s' c t ht
  rcases h.phase_some ht with hc | ⟨r, hc⟩
  · have hgood := h.good c
    rw [hc] at hgood
    obtain ⟨-, hreading, -⟩ := hgood
    cases hp : t.prog with
    | ret r =>
      rw [hp] at hreading
      exact hreading.elim
    | fail =>
      rw [System.go, hp] at hs
      cases hs
    | acquire i p =>
      rw [System.go, hp] at hs
      obtain ⟨hfree, hs⟩ := Option.ite_none_right_eq_some.1 hs
      obtain ⟨hlive, hmade⟩ := hsound t i p ht hp
      obtain rfl := Option.some_inj.1 hs
      rw [hquiet (by simp [hp]), List.append_nil]
      exact ⟨_, _, _, h.reading_acquire ht hc hp hfree hlive hmade⟩
    | release i p =>
      rw [System.go, hp] at hs
      obtain ⟨a', r, hsim⟩ := h.reading_release ht hc hp
      obtain rfl := Option.some_inj.1 hs
      rw [hquiet (by simp [hp]), List.append_nil]
      exact ⟨_, _, _, hsim⟩
    | get i k =>
      rw [System.go, hp] at hs
      obtain rfl := Option.some_inj.1 hs
      rw [hquiet (by simp [hp]), List.append_nil]
      exact ⟨_, _, _, h.reading_get hc hp⟩
    | put i f p =>
      rw [System.go, hp] at hs
      obtain ⟨a', r, hsim⟩ := h.reading_put ht hc hp
      obtain rfl := Option.some_inj.1 hs
      rw [hquiet (by simp [hp]), List.append_nil]
      exact ⟨_, _, _, hsim⟩
    | remove i p =>
      rw [System.go, hp] at hs
      obtain ⟨a', r, hsim⟩ := h.reading_remove ht hc hp
      obtain rfl := Option.some_inj.1 hs
      rw [hquiet (by simp [hp]), List.append_nil]
      exact ⟨_, _, _, hsim⟩
    | create o k =>
      rw [System.go, hp] at hs
      obtain ⟨i, hi, rfl⟩ := Option.map_eq_some_iff.1 hs
      obtain ⟨a', r, hsim⟩ := h.reading_create ht hc hp hi
      rw [hquiet (by simp [hp]), List.append_nil]
      exact ⟨_, _, _, hsim⟩
  · have hgood := h.good c
    rw [hc] at hgood
    obtain ⟨-, hwriting, -⟩ := hgood
    cases hp : t.prog with
    | ret r' =>
      rw [System.go, hp] at hs
      obtain rfl := Option.some_inj.1 hs
      rw [System.returned_ret ht hp]
      exact ⟨_, _, _, h.writing_ret ht hc hp⟩
    | acquire i p =>
      rw [System.go, hp] at hs
      obtain ⟨hfree, hs⟩ := Option.ite_none_right_eq_some.1 hs
      obtain rfl := Option.some_inj.1 hs
      rw [hquiet (by simp [hp]), List.append_nil]
      exact ⟨_, _, _, h.writing_acquire ht hc hp hfree⟩
    | release i p =>
      rw [System.go, hp] at hs
      obtain rfl := Option.some_inj.1 hs
      rw [hquiet (by simp [hp]), List.append_nil]
      exact ⟨_, _, _, h.writing_release ht hc hp⟩
    | put i f p =>
      rw [System.go, hp] at hs
      obtain rfl := Option.some_inj.1 hs
      rw [hquiet (by simp [hp]), List.append_nil]
      exact ⟨_, _, _, h.writing_put ht hc hp⟩
    | fail | get | remove | create =>
      rw [hp] at hwriting
      exact hwriting.elim

theorem step (h : Sim H code s₀ seen s a log φ) (hcode : ∀ op, (code op).Reading H [])
    {act : Act κ θ} (hsound : Sound H s act) (hs : s.step H code act = some s') :
    ∃ a' log' φ', Sim H code s₀ (seen ++ System.returned s act s') s' a' log' φ' := by
  cases act with
  | call c op =>
    rw [System.step] at hs
    split at hs
    next ht =>
      rw [← Option.some_inj.1 hs, System.returned, List.append_nil]
      exact ⟨_, _, _, h.call hcode ht op⟩
    next => cases hs
  | go c =>
    rw [System.step] at hs
    split at hs
    next => cases hs
    next t ht => exact h.go ht hsound hs

end Sim

theorem sim_of_run (hcode : ∀ op, (code op).Reading H []) {as : List (Act κ θ)}
    (hrun : Run (System.step H code) (Sound H) (System.start s₀) as s) :
    ∃ a log φ, Sim H code s₀ (observe (System.step H code) System.returned (System.start s₀) as) s a
      log φ := by
  induction hrun with
  | nil => exact ⟨_, _, _, .start s₀⟩
  | snoc hrun hsound hs ih =>
    obtain ⟨a, log, φ, hsim⟩ := ih
    rw [hrun.observe_snoc hs]
    exact hsim.step hcode hsound hs

/-- **Operations that read before they write might as well be atomic.** -/
theorem one_at_a_time (hcode : ∀ op, (code op).Reading H []) {as : List (Act κ θ)}
    (hrun : Run (System.step H code) (Sound H) (System.start s₀) as s)
    (hidle : ∀ c, s.thread c = none) :
    ∃ log, OneAtATime H code s₀ log s.store ∧ ∀ c, ofClient c log =
      ofClient c (observe (System.step H code) System.returned (System.start s₀) as) := by
  obtain ⟨a, log, φ, hsim⟩ := sim_of_run hcode hrun
  have hphase : ∀ c, φ c = .idle := fun c => hsim.phase_none (hidle c)
  have ha : a = s.store := funext fun i => hsim.unclaimed i fun c => by
    rw [hphase c]
    exact List.not_mem_nil
  refine ⟨log, ha ▸ hsim.serial, fun c => ?_⟩
  rw [hsim.told c, hphase c, Phase.log, List.append_nil]

/-- Logs that are the same for each client have the same operations in them. -/
theorem perm_of_ofClient (h : ∀ c, ofClient c log = ofClient c log') : log.Perm log' := by
  classical
  refine List.perm_iff_count.2 fun e => ?_
  have hcount : ∀ l : List (κ × θ × ρ), (ofClient e.1 l).count e = l.count e := fun l =>
    List.count_filter (by simp)
  rw [← hcount log, ← hcount log', h e.1]

end

end Atomic
end CseLab
