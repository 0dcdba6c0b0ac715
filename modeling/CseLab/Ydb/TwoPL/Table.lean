import CseLab.Ydb.TwoPL.Data

/-!
# The lock table and the lock that protects it

`lockInfos` says who owns each extent's lock and who waits for it, and `lockInfosLockId` protects
it. A transaction records itself as owner, or as follower of the owner, before it asks for the
extent's lock; at the end it clears the owner and, if there are followers, leaves `lockInfosLockId`
to the one that gets the extent's lock next.

`Table` is that protocol by itself.  `Table.Step` has it with one restriction: a follower gets a
lock only when nobody is recorded as its owner.  With the restriction, `Table.Inv` holds in every
run: the table's lock is held on behalf of the one transaction that is inside, owners own, and the
graph of who waits for whom has no cycle.  Without it the hand-over goes wrong — the follower
behaves as if the table's lock had been left to it.
-/

set_option autoImplicit false

namespace CseLab
namespace Ydb
namespace TwoPL

open Relation

/-! ## The protocol -/

/-- Where a transaction stands with the table. -/
inductive Mode
  | outside
  /-- With the table's lock. -/
  | inside
  /-- Recorded as the owner of a lock, with the table's lock. -/
  | claiming (lid : LockId)
  /-- Recorded as the owner of a lock it has still to acquire. -/
  | onWay (lid : LockId)
  /-- Recorded as a follower, with the table's lock. -/
  | joining (lid : LockId)
  /-- Waiting as a follower. -/
  | following (lid : LockId)
  /-- A follower that has acquired the lock, with the table's lock. -/
  | taking (lid : LockId)
  /-- No longer the owner of a lock nobody follows, with the table's lock. -/
  | cleared (lid : LockId)
  /-- No longer the owner of a lock it is about to give back. -/
  | releasing (lid : LockId)
  deriving DecidableEq

namespace Mode

/-- The transaction is in the section that the table's lock protects. -/
def Inside : Mode → Prop
  | .inside | .claiming _ | .joining _ | .taking _ | .cleared _ => True
  | .outside | .onWay _ | .following _ | .releasing _ => False

/-- The lock it follows. -/
def follows : Mode → Option LockId
  | .joining lid | .following lid | .taking lid => some lid
  | _ => none

/-- The lock it is recorded as owner of and does not have yet. -/
def comes : Mode → Option LockId
  | .claiming lid | .onWay lid => some lid
  | _ => none

/-- The lock it has and is no longer recorded as owner of. -/
def goes : Mode → Option LockId
  | .cleared lid | .releasing lid => some lid
  | _ => none

/-- The transaction gives the table's lock back next. -/
def Leaves : Mode → Prop
  | .inside | .claiming _ | .joining _ | .cleared _ => True
  | _ => False

/-- Where it stands then. -/
def left : Mode → Mode
  | .claiming lid => .onWay lid
  | .joining lid => .following lid
  | .cleared lid => .releasing lid
  | _ => .outside

variable {m : Mode}

theorem Leaves.inside (h : m.Leaves) : m.Inside := by
  cases m <;> simp_all [Leaves, Inside]

theorem Leaves.left_outside (h : m.Leaves) : ¬ m.left.Inside := by
  cases m <;> simp_all [Leaves, Inside, left]

theorem Leaves.left_follows (h : m.Leaves) : m.left.follows = m.follows := by
  cases m <;> first | rfl | exact h.elim

theorem Leaves.left_comes (h : m.Leaves) : m.left.comes = m.comes := by
  cases m <;> first | rfl | exact h.elim

theorem Leaves.left_goes (h : m.Leaves) : m.left.goes = m.goes := by
  cases m <;> first | rfl | exact h.elim

theorem Leaves.ne_taking (h : m.Leaves) (lid : LockId) : m ≠ .taking lid := by
  rintro rfl
  exact h.elim

theorem Leaves.left_ne_taking (h : m.Leaves) (lid : LockId) : m.left ≠ .taking lid := by
  cases m <;> simp_all [Leaves, left]

end Mode

/-- The lock table, the two kinds of locks, and where the transactions stand. -/
@[ext] structure Table where
  owner : LockId → Option TransactionId
  followers : LockId → List TransactionId
  info : Option Holder
  locks : LockId → Option TransactionId
  /-- The locks a transaction should be recorded as owner of. -/
  owns : TransactionId → LockId → Prop
  mode : TransactionId → Mode

namespace Table

/-- `u` waits for a lock that `t` owns. -/
def Blocks (t : Table) (a b : TransactionId) : Prop :=
  ∃ lid, t.owner lid = some a ∧ b ∈ t.followers lid

/-- One step of the protocol. -/
inductive Step (t : Table) : Table → Prop
  | enter {id : TransactionId} (hm : t.mode id = .outside) (hi : t.info = none) :
      Step t { t with
        info := some (.thread id)
        mode := Function.update t.mode id .inside }
  | claim {id : TransactionId} {lid : LockId} (hm : t.mode id = .inside)
      (ho : t.owner lid = none) (hl : t.locks lid ≠ some id) :
      Step t { t with
        owner := Function.update t.owner lid (some id)
        owns := fun u l => t.owns u l ∨ u = id ∧ l = lid
        mode := Function.update t.mode id (.claiming lid) }
  | follow {id o : TransactionId} {lid : LockId} (hm : t.mode id = .inside)
      (ho : t.owner lid = some o) (hpath : ¬ ReflTransGen t.Blocks id o) :
      Step t { t with
        followers := Function.update t.followers lid (id :: t.followers lid)
        mode := Function.update t.mode id (.joining lid) }
  | leave {id : TransactionId} (hm : (t.mode id).Leaves) :
      Step t { t with
        info := none
        mode := Function.update t.mode id (t.mode id).left }
  | lockOwner {id : TransactionId} {lid : LockId} (hm : t.mode id = .onWay lid)
      (hfree : t.locks lid = none) :
      Step t { t with
        locks := Function.update t.locks lid (some id)
        mode := Function.update t.mode id .outside }
  | lockFollower {id : TransactionId} {lid : LockId} (hm : t.mode id = .following lid)
      (hfree : t.locks lid = none) (hno : t.owner lid = none) :
      Step t { t with
        info := if t.info = some (.heir lid) then some (.thread id) else t.info
        locks := Function.update t.locks lid (some id)
        mode := Function.update t.mode id (.taking lid) }
  | become {id : TransactionId} {lid : LockId} (hm : t.mode id = .taking lid) :
      Step t { t with
        owner := Function.update t.owner lid (some id)
        followers := Function.update t.followers lid ((t.followers lid).erase id)
        owns := fun u l => t.owns u l ∨ u = id ∧ l = lid
        mode := Function.update t.mode id .inside }
  | clearLast {id : TransactionId} {lid : LockId} (hm : t.mode id = .inside)
      (ho : t.owns id lid) (hf : t.followers lid = []) :
      Step t { t with
        owner := Function.update t.owner lid none
        owns := fun u l => t.owns u l ∧ ¬ (u = id ∧ l = lid)
        mode := Function.update t.mode id (.cleared lid) }
  | clear {id : TransactionId} {lid : LockId} (hm : t.mode id = .inside)
      (ho : t.owns id lid) (hf : t.followers lid ≠ []) :
      Step t { t with
        owner := Function.update t.owner lid none
        info := some (.heir lid)
        owns := fun u l => t.owns u l ∧ ¬ (u = id ∧ l = lid)
        mode := Function.update t.mode id (.releasing lid) }
  | unlock {id : TransactionId} {lid : LockId} (hm : t.mode id = .releasing lid) :
      Step t { t with
        locks := Function.update t.locks lid none
        mode := Function.update t.mode id .outside }

/-! ## The invariant -/

/-- What holds in every run of the protocol. -/
structure Inv (t : Table) : Prop where
  /-- The table's lock is held on behalf of the one transaction that is inside. -/
  inside : ∀ id, t.info = some (.thread id) ↔ (t.mode id).Inside
  /-- It is left only to somebody who is there and whose lock is or will be free. -/
  heir : ∀ lid, t.info = some (.heir lid) →
    t.owner lid = none ∧ t.followers lid ≠ [] ∧
      (t.locks lid = none ∨ ∃ id, t.mode id = .releasing lid)
  owner : ∀ lid id, t.owner lid = some id ↔ t.owns id lid
  follower : ∀ lid id, id ∈ t.followers lid ↔ (t.mode id).follows = some lid
  nodup : ∀ lid, (t.followers lid).Nodup
  /-- Followers are never left without an owner, save in a hand-over. -/
  waiting : ∀ lid, t.followers lid ≠ [] →
    (∃ id, t.owner lid = some id) ∨ t.info = some (.heir lid) ∨ ∃ id, t.mode id = .taking lid
  taking : ∀ id lid, t.mode id = .taking lid → t.owner lid = none ∧ t.locks lid = some id
  comes : ∀ id lid, (t.mode id).comes = some lid → t.owns id lid ∧ t.locks lid ≠ some id
  goes : ∀ id lid, (t.mode id).goes = some lid → t.locks lid = some id ∧ ¬ t.owns id lid
  holds : ∀ id lid, t.owns id lid → t.locks lid = some id ∨ (t.mode id).comes = some lid
  held : ∀ id lid, t.locks lid = some id →
    t.owns id lid ∨ t.mode id = .taking lid ∨ (t.mode id).goes = some lid
  acyclic : Acyclic t.Blocks

attribute [grind] Mode.Inside Mode.follows Mode.comes Mode.goes

variable {t t' : Table} {id : TransactionId} {lid : LockId}

/-- Whoever stood somewhere else than `id` does so after a step of `id`. -/
theorem exists_update {f : TransactionId → Mode} {x : Mode} (h : ∃ u, f u = x) (hne : f id ≠ x)
    (y : Mode) : ∃ u, Function.update f id y u = x := by
  obtain ⟨u, hu⟩ := h
  have hui : u ≠ id := by rintro rfl; exact hne hu
  exact ⟨u, by rw [Function.update_of_ne hui, hu]⟩

theorem Inv.info (h : t.Inv) (hm : (t.mode id).Inside) : t.info = some (.thread id) :=
  (h.inside id).2 hm

/-- **Only one transaction is inside.** -/
theorem Inv.only (h : t.Inv) (hm : (t.mode id).Inside) {u : TransactionId}
    (hu : (t.mode u).Inside) : u = id := by
  have h₁ := h.info hm
  rw [h.info hu, Option.some_inj, Holder.thread.injEq] at h₁
  exact h₁

theorem Inv.enter (h : t.Inv) (hm : t.mode id = .outside) (hi : t.info = none) :
    Inv { t with
      info := some (.thread id)
      mode := Function.update t.mode id .inside } := by
  have hnot : ∀ u, ¬ (t.mode u).Inside := fun u hu => by
    rw [← h.inside u, hi] at hu
    exact absurd hu (by simp)
  exact {
    inside u := by have := hnot u; grind [Function.update_apply]
    heir l hl := by have := h.heir l; grind [Function.update_apply]
    owner := h.owner
    follower l u := by have := h.follower l u; grind [Function.update_apply]
    nodup := h.nodup
    waiting l hl := by have := h.waiting l; grind [Function.update_apply]
    taking u l hu := by have := h.taking u l; grind [Function.update_apply]
    comes u l hu := by have := h.comes u l; grind [Function.update_apply]
    goes u l hu := by have := h.goes u l; grind [Function.update_apply]
    holds u l hu := by have := h.holds u l; grind [Function.update_apply]
    held u l hu := by have := h.held u l; grind [Function.update_apply]
    acyclic := h.acyclic
  }

theorem Inv.claim (h : t.Inv) (hm : t.mode id = .inside)
    (ho : t.owner lid = none) (hl : t.locks lid ≠ some id) :
    Inv { t with
      owner := Function.update t.owner lid (some id)
      owns := fun u l => t.owns u l ∨ u = id ∧ l = lid
      mode := Function.update t.mode id (.claiming lid) } := by
  have hinfo : t.info = some (.thread id) := h.info (by simp [hm, Mode.Inside])
  have honly : ∀ u, (t.mode u).Inside → u = id := fun u => h.only (by simp [hm, Mode.Inside])
  have hempty : t.followers lid = [] := by
    by_contra hne
    rcases h.waiting lid hne with ⟨o, hown⟩ | hheir | ⟨u, hu⟩
    · grind
    · grind
    · have := honly u (by simp [hu, Mode.Inside]); grind
  exact {
    inside u := by have := h.inside u; grind [Function.update_apply]
    heir l hl := by have := h.heir l; grind [Function.update_apply]
    owner l u := by have := h.owner l u; grind [Function.update_apply]
    follower l u := by have := h.follower l u; grind [Function.update_apply]
    nodup := h.nodup
    waiting l hl := by have := h.waiting l; grind [Function.update_apply]
    taking u l hu := by have := h.taking u l; grind [Function.update_apply]
    comes u l hu := by have := h.comes u l; grind [Function.update_apply]
    goes u l hu := by have := h.goes u l; grind [Function.update_apply]
    holds u l hu := by have := h.holds u l; grind [Function.update_apply]
    held u l hu := by have := h.held u l; grind [Function.update_apply]
    acyclic := by
      refine h.acyclic.mono fun a b ⟨l, hl, hb⟩ => ⟨l, ?_, hb⟩
      by_cases hll : l = lid
      · subst hll
        rw [show _ = [] from hempty] at hb
        exact absurd hb (by simp)
      · simpa only [Function.update_of_ne hll] using hl
  }

theorem Inv.follow (h : t.Inv) {o : TransactionId} (hm : t.mode id = .inside)
    (ho : t.owner lid = some o) (hpath : ¬ ReflTransGen t.Blocks id o) :
    Inv { t with
      followers := Function.update t.followers lid (id :: t.followers lid)
      mode := Function.update t.mode id (.joining lid) } := by
  have hinfo : t.info = some (.thread id) := h.info (by simp [hm, Mode.Inside])
  have honly : ∀ u, (t.mode u).Inside → u = id := fun u => h.only (by simp [hm, Mode.Inside])
  exact {
    inside u := by have := h.inside u; grind [Function.update_apply]
    heir l hl := by have := h.heir l; grind [Function.update_apply]
    owner := h.owner
    follower l u := by have := h.follower l u; grind [Function.update_apply]
    nodup l := by
      have hnot : id ∉ t.followers l := by
        rw [h.follower l id, hm]
        simp [Mode.follows]
      have := h.nodup l
      grind [Function.update_apply]
    waiting l hl := by have := h.waiting l; grind [Function.update_apply]
    taking u l hu := by have := h.taking u l; grind [Function.update_apply]
    comes u l hu := by have := h.comes u l; grind [Function.update_apply]
    goes u l hu := by have := h.goes u l; grind [Function.update_apply]
    holds u l hu := by have := h.holds u l; grind [Function.update_apply]
    held u l hu := by have := h.held u l; grind [Function.update_apply]
    acyclic := by
      refine h.acyclic.link hpath fun a b ⟨l, hl, hb⟩ => ?_
      by_cases hll : l = lid
      · subst hll
        simp only [Function.update_self, List.mem_cons] at hb
        have hl : t.owner l = some a := hl
        rcases hb with rfl | hb
        · rw [ho, Option.some_inj] at hl
          exact .inr ⟨hl.symm, rfl⟩
        · exact .inl ⟨l, hl, hb⟩
      · simp only [Function.update_of_ne hll] at hb
        exact .inl ⟨l, hl, hb⟩
  }

theorem Inv.leave (h : t.Inv) (hm : (t.mode id).Leaves) :
    Inv { t with
      info := none
      mode := Function.update t.mode id (t.mode id).left } := by
  have hin : (t.mode id).Inside := hm.inside
  have honly : ∀ u, (t.mode u).Inside → u = id := fun u => h.only hin
  have hinfo := h.info hin
  exact {
    inside u := by have := hm.left_outside; grind [Function.update_apply]
    heir l hl := by grind
    owner := h.owner
    follower l u := by
      have := h.follower l u
      have := hm.left_follows
      grind [Function.update_apply]
    nodup := h.nodup
    waiting l hl := by
      rcases h.waiting l hl with hown | hheir | hu
      · exact .inl hown
      · grind
      · exact .inr (.inr (exists_update hu (hm.ne_taking l) _))
    taking u l hu := by
      have := h.taking u l
      have := hm.left_ne_taking l
      grind [Function.update_apply]
    comes u l hu := by
      have := h.comes u l
      have := hm.left_comes
      grind [Function.update_apply]
    goes u l hu := by
      have := h.goes u l
      have := hm.left_goes
      grind [Function.update_apply]
    holds u l hu := by
      have := h.holds u l hu
      have := hm.left_comes
      grind [Function.update_apply]
    held u l hu := by
      have := h.held u l hu
      have := hm.left_goes
      have := hm.ne_taking l
      grind [Function.update_apply]
    acyclic := h.acyclic
  }

theorem Inv.lockOwner (h : t.Inv) (hm : t.mode id = .onWay lid) (hfree : t.locks lid = none) :
    Inv { t with
      locks := Function.update t.locks lid (some id)
      mode := Function.update t.mode id .outside } := by
  have howns : t.owns id lid := (h.comes id lid (by rw [hm]; rfl)).1
  have hown : t.owner lid = some id := (h.owner lid id).2 howns
  exact {
    inside u := by have := h.inside u; grind [Function.update_apply]
    heir l hl := by
      obtain ⟨h₁, h₂, h₃⟩ := h.heir l hl
      have hne : l ≠ lid := by grind
      exact ⟨h₁, h₂, h₃.imp (fun h => by simpa [hne] using h)
        fun h => exists_update h (by simp [hm]) _⟩
    owner := h.owner
    follower l u := by have := h.follower l u; grind [Function.update_apply]
    nodup := h.nodup
    waiting l hl :=
      (h.waiting l hl).imp_right fun h => h.imp_right fun h => exists_update h (by simp [hm]) _
    taking u l hu := by have := h.taking u l; grind [Function.update_apply]
    comes u l hu := by have := h.comes u l; grind [Function.update_apply]
    goes u l hu := by have := h.goes u l; grind [Function.update_apply]
    holds u l hu := by have := h.holds u l; grind [Function.update_apply]
    held u l hu := by have := h.held u l; grind [Function.update_apply]
    acyclic := h.acyclic
  }

theorem Inv.lockFollower (h : t.Inv) (hm : t.mode id = .following lid)
    (hfree : t.locks lid = none) (hno : t.owner lid = none) :
    Inv { t with
      info := if t.info = some (.heir lid) then some (.thread id) else t.info
      locks := Function.update t.locks lid (some id)
      mode := Function.update t.mode id (.taking lid) } := by
  have hmem : id ∈ t.followers lid := (h.follower lid id).2 (by rw [hm]; rfl)
  have hheir : t.info = some (.heir lid) := by
    rcases h.waiting lid (List.ne_nil_of_mem hmem) with ⟨o, ho⟩ | hheir | ⟨u, hu⟩
    · exact absurd (hno.symm.trans ho) (by simp)
    · exact hheir
    · have := h.taking u lid hu; grind
  have hnot : ∀ u, ¬ (t.mode u).Inside := fun u hu => by
    have := h.info hu; grind
  exact {
    inside u := by have := hnot u; grind [Function.update_apply]
    heir l hl := by have := h.heir l; grind [Function.update_apply]
    owner := h.owner
    follower l u := by have := h.follower l u; grind [Function.update_apply]
    nodup := h.nodup
    waiting l hl := by
      rcases h.waiting l hl with hown | hheir' | ⟨u, hu⟩
      · exact .inl hown
      · have hll : l = lid := by grind
        exact .inr (.inr ⟨id, by simp [hll]⟩)
      · exact absurd (by simp [hu, Mode.Inside]) (hnot u)
    taking u l hu := by have := h.taking u l; grind [Function.update_apply]
    comes u l hu := by have := h.comes u l; grind [Function.update_apply]
    goes u l hu := by have := h.goes u l; grind [Function.update_apply]
    holds u l hu := by have := h.holds u l; grind [Function.update_apply]
    held u l hu := by have := h.held u l; grind [Function.update_apply]
    acyclic := h.acyclic
  }

theorem Inv.become (h : t.Inv) (hm : t.mode id = .taking lid) :
    Inv { t with
      owner := Function.update t.owner lid (some id)
      followers := Function.update t.followers lid ((t.followers lid).erase id)
      owns := fun u l => t.owns u l ∨ u = id ∧ l = lid
      mode := Function.update t.mode id .inside } := by
  have hinfo : t.info = some (.thread id) := h.info (by simp [hm, Mode.Inside])
  have honly : ∀ u, (t.mode u).Inside → u = id := fun u => h.only (by simp [hm, Mode.Inside])
  obtain ⟨hown, hlock⟩ := h.taking id lid hm
  exact {
    inside u := by have := h.inside u; grind [Function.update_apply]
    heir l hl := by have := h.heir l; grind [Function.update_apply]
    owner l u := by have := h.owner l u; grind [Function.update_apply]
    follower l u := by
      have := h.follower l u
      have := h.nodup l
      grind [Function.update_apply, List.Nodup.mem_erase_iff]
    nodup l := by
      have := (h.nodup lid).erase id
      have := h.nodup l
      grind [Function.update_apply]
    waiting l hl := by have := h.waiting l; grind [Function.update_apply]
    taking u l hu := by have := h.taking u l; grind [Function.update_apply]
    comes u l hu := by have := h.comes u l; grind [Function.update_apply]
    goes u l hu := by have := h.goes u l; grind [Function.update_apply]
    holds u l hu := by have := h.holds u l; grind [Function.update_apply]
    held u l hu := by have := h.held u l; grind [Function.update_apply]
    acyclic := by
      have hid : ∀ l, id ∈ t.followers l → l = lid := by
        intro l hl
        rw [h.follower l id, hm] at hl
        exact (Option.some_inj.1 hl).symm
      refine h.acyclic.source (t := id) (fun a ⟨l, hl, hb⟩ => ?_) fun a b ⟨l, hl, hb⟩ => ?_
      · have := h.nodup lid
        have := hid l
        grind [Function.update_apply, List.Nodup.mem_erase_iff]
      · by_cases hll : l = lid
        · simp only [hll, Function.update_self, Option.some_inj] at hl
          exact .inr hl.symm
        · simp only [Function.update_of_ne hll] at hl hb
          exact .inl ⟨l, hl, hb⟩
  }

theorem Inv.clearLast (h : t.Inv) (hm : t.mode id = .inside) (ho : t.owns id lid)
    (hf : t.followers lid = []) :
    Inv { t with
      owner := Function.update t.owner lid none
      owns := fun u l => t.owns u l ∧ ¬ (u = id ∧ l = lid)
      mode := Function.update t.mode id (.cleared lid) } := by
  have hinfo : t.info = some (.thread id) := h.info (by simp [hm, Mode.Inside])
  have honly : ∀ u, (t.mode u).Inside → u = id := fun u => h.only (by simp [hm, Mode.Inside])
  have hown := (h.owner lid id).2 ho
  have hlock := h.holds id lid ho
  exact {
    inside u := by have := h.inside u; grind [Function.update_apply]
    heir l hl := by have := h.heir l; grind [Function.update_apply]
    owner l u := by have := h.owner l u; grind [Function.update_apply]
    follower l u := by have := h.follower l u; grind [Function.update_apply]
    nodup := h.nodup
    waiting l hl := by have := h.waiting l; grind [Function.update_apply]
    taking u l hu := by have := h.taking u l; grind [Function.update_apply]
    comes u l hu := by have := h.comes u l; grind [Function.update_apply]
    goes u l hu := by have := h.goes u l; grind [Function.update_apply]
    holds u l hu := by have := h.holds u l; grind [Function.update_apply]
    held u l hu := by have := h.held u l; grind [Function.update_apply]
    acyclic := by
      refine h.acyclic.mono fun a b ⟨l, hl, hb⟩ => ⟨l, ?_, hb⟩
      by_cases hll : l = lid
      · simp [hll] at hl
      · simpa only [Function.update_of_ne hll] using hl
  }

theorem Inv.clear (h : t.Inv) (hm : t.mode id = .inside) (ho : t.owns id lid)
    (hf : t.followers lid ≠ []) :
    Inv { t with
      owner := Function.update t.owner lid none
      info := some (.heir lid)
      owns := fun u l => t.owns u l ∧ ¬ (u = id ∧ l = lid)
      mode := Function.update t.mode id (.releasing lid) } := by
  have hinfo : t.info = some (.thread id) := h.info (by simp [hm, Mode.Inside])
  have honly : ∀ u, (t.mode u).Inside → u = id := fun u => h.only (by simp [hm, Mode.Inside])
  have hown := (h.owner lid id).2 ho
  have hlock := h.holds id lid ho
  exact {
    inside u := by have := h.inside u; grind [Function.update_apply]
    heir l hl := by
      rw [Option.some_inj, Holder.heir.injEq] at hl
      subst hl
      exact ⟨by simp, hf, .inr ⟨id, by simp⟩⟩
    owner l u := by have := h.owner l u; grind [Function.update_apply]
    follower l u := by have := h.follower l u; grind [Function.update_apply]
    nodup := h.nodup
    waiting l hl := by have := h.waiting l; grind [Function.update_apply]
    taking u l hu := by have := h.taking u l; grind [Function.update_apply]
    comes u l hu := by have := h.comes u l; grind [Function.update_apply]
    goes u l hu := by have := h.goes u l; grind [Function.update_apply]
    holds u l hu := by have := h.holds u l; grind [Function.update_apply]
    held u l hu := by have := h.held u l; grind [Function.update_apply]
    acyclic := by
      refine h.acyclic.mono fun a b ⟨l, hl, hb⟩ => ⟨l, ?_, hb⟩
      by_cases hll : l = lid
      · simp [hll] at hl
      · simpa only [Function.update_of_ne hll] using hl
  }

theorem Inv.unlock (h : t.Inv) (hm : t.mode id = .releasing lid) :
    Inv { t with
      locks := Function.update t.locks lid none
      mode := Function.update t.mode id .outside } := by
  obtain ⟨hlock, hnot⟩ := h.goes id lid (by rw [hm]; rfl)
  exact {
    inside u := by have := h.inside u; grind [Function.update_apply]
    heir l hl := by
      obtain ⟨h₁, h₂, h₃⟩ := h.heir l hl
      refine ⟨h₁, h₂, ?_⟩
      by_cases hll : l = lid
      · exact .inl (by simp [hll])
      · exact h₃.imp (fun h => by simpa [hll] using h)
          fun h => exists_update h (by simp [hm, Ne.symm hll]) _
    owner := h.owner
    follower l u := by have := h.follower l u; grind [Function.update_apply]
    nodup := h.nodup
    waiting l hl :=
      (h.waiting l hl).imp_right fun h => h.imp_right fun h => exists_update h (by simp [hm]) _
    taking u l hu := by have := h.taking u l; grind [Function.update_apply]
    comes u l hu := by have := h.comes u l; grind [Function.update_apply]
    goes u l hu := by have := h.goes u l; grind [Function.update_apply]
    holds u l hu := by have := h.holds u l; grind [Function.update_apply]
    held u l hu := by have := h.held u l; grind [Function.update_apply]
    acyclic := h.acyclic
  }

/-- **The invariant is kept by every step.** -/
theorem Inv.step (h : t.Inv) (hs : Step t t') : t'.Inv := by
  cases hs with
  | enter hm hi => exact h.enter hm hi
  | claim hm ho hl => exact h.claim hm ho hl
  | follow hm ho hpath => exact h.follow hm ho hpath
  | leave hm => exact h.leave hm
  | lockOwner hm hfree => exact h.lockOwner hm hfree
  | lockFollower hm hfree hno => exact h.lockFollower hm hfree hno
  | become hm => exact h.become hm
  | clearLast hm ho hf => exact h.clearLast hm ho hf
  | clear hm ho hf => exact h.clear hm ho hf
  | unlock hm => exact h.unlock hm

end Table

end TwoPL
end Ydb
end CseLab
