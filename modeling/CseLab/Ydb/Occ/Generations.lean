import CseLab.Ydb.Occ.Serial

/-!
# Generations as version numbers

A commit installs a value under the generation its transaction remembers plus one, whatever the
stored generation has become since; only what the transaction has read is compared with the store.
A value that is deleted takes its generation with it, and the extent is back at generation 0.  The
design has it that a generation only increases, "even when the value is deleted".

`versions` lists what the commits of a run have done to the generations, `OnlyGrow` says that every
one of them has made a generation larger, so that no number comes twice, and `generations_grow_iff`
says in which runs that is so: those in which every commit `WritesOnTop`.
-/

set_option autoImplicit false

namespace CseLab
namespace Ydb
namespace Occ

/-- One committed `set` or `del`: the extent's generation before and after. -/
structure Version where
  eid : ExtentId
  before : Int32
  after : Int32
  deriving DecidableEq

/-- What the commit of a map does to the generations of the extents it has written. -/
def VMap.versions (m : VMap) (store store' : IdealStore) : List Version :=
  (m.entries.filter fun p => p.2.written).map fun p =>
    ⟨p.1, getGeneration (store p.1), getGeneration (store' p.1)⟩

/-- What a step does to generations: only a commit that validates does anything. -/
def committed (s : State) (a : Action) (s' : State) : List Version :=
  match a with
  | .resume id =>
    match s.calls id, s.tMap id with
    | some .commit, some m => if validates s.store m then m.versions s.store s'.store else []
    | _, _ => []
  | _ => []

/-- The committed versions of a run, in the order of the commits. -/
def versions (n₀ : TransactionId) (as : List Action) : List Version :=
  observe step committed (State.start n₀) as

/-- Every version has a larger generation than the one it replaces, and no two of an extent have the
same. -/
structure OnlyGrow (vs : List Version) : Prop where
  grow : ∀ v ∈ vs, v.before < v.after
  distinct : vs.Pairwise fun v w => v.eid = w.eid → v.after ≠ w.after

instance (vs : List Version) : Decidable (OnlyGrow vs) :=
  decidable_of_iff
    ((∀ v ∈ vs, v.before < v.after) ∧ vs.Pairwise fun v w => v.eid = w.eid → v.after ≠ w.after)
    ⟨fun h => ⟨h.1, h.2⟩, fun h => ⟨h.grow, h.distinct⟩⟩

/-! ## Commits -/

/-- The step is the commit of a transaction with the map `m`. -/
def Commits (s : State) (a : Action) (m : VMap) : Prop :=
  ∃ id, a = .resume id ∧ s.calls id = some .commit ∧ s.tMap id = some m ∧
    validates s.store m = true

/-- A commit deletes nothing, what it writes without having read it is still at the generation it
remembers, and there is a next generation. -/
def WritesOnTop (s : State) (a : Action) : Prop :=
  ∀ m, Commits s a m → ∀ eid e, m.find eid = some e → e.written = true →
    e.value ≠ [] ∧ (e.readen = true ∨ getGeneration (s.store eid) ≤ e.generation) ∧
      e.generation < 2147483647

theorem Commits.committed {s s' : State} {a : Action} {m : VMap} (h : Commits s a m) :
    committed s a s' = m.versions s.store s'.store := by
  obtain ⟨id, rfl, hcall, hid, hval⟩ := h
  simp only [Occ.committed, hcall, hid, hval, if_true]

theorem Commits.unique {s : State} {a : Action} {m m' : VMap} (h : Commits s a m)
    (h' : Commits s a m') : m = m' := by
  obtain ⟨id, rfl, -, hid, -⟩ := h
  obtain ⟨id', ha, -, hid', -⟩ := h'
  obtain rfl := Action.resume.inj ha
  exact Option.some_inj.1 (hid.symm.trans hid')

/-- The store is touched by commits alone. -/
theorem store_step {s s' : State} {a : Action} (hs : step s a = some s') :
    (∃ m, Commits s a m ∧ s'.store = installAll s.store m) ∨
      ((∀ m, ¬ Commits s a m) ∧ s'.store = s.store ∧ committed s a s' = []) := by
  cases step_cases hs with
  | commit hid hcall hval => exact .inl ⟨_, ⟨_, rfl, hcall, hid, hval⟩, rfl⟩
  | refuse hid hcall hval =>
    refine .inr ⟨?_, rfl, by simp [committed, hid, hcall, hval]⟩
    rintro m ⟨id, ha, -, hid', hval'⟩
    obtain rfl := Action.resume.inj ha
    rw [hid, Option.some_inj] at hid'
    exact absurd (hid' ▸ hval') (by simp [hval])
  | read hid hcall | readInsert hid hcall | sample hid hcall | sampleInsert hid hcall
  | erase hid hcall =>
    refine .inr ⟨?_, rfl, by simp [committed, hid, hcall]⟩
    rintro m ⟨id, ha, hcall', -⟩
    obtain rfl := Action.resume.inj ha
    exact absurd (hcall.symm.trans hcall') (by simp)
  | _ =>
    refine .inr ⟨?_, rfl, rfl⟩
    rintro m ⟨id, ha, -⟩
    exact Action.noConfusion ha

/-- The generation of an extent after a commit. -/
theorem getGeneration_installAll (store : IdealStore) (m : VMap) (eid : ExtentId) :
    getGeneration (installAll store m eid) =
      match m.find eid with
      | some e => if e.written = true then newGeneration e else getGeneration (store eid)
      | none => getGeneration (store eid) := by
  rw [installAll_apply]
  cases m.find eid with
  | none => rfl
  | some e =>
    simp only
    split
    · exact getGeneration_newString e
    · rfl

theorem mem_versions {m : VMap} {store : IdealStore} {v : Version} :
    v ∈ m.versions store (installAll store m) ↔ ∃ e, m.find v.eid = some e ∧ e.written = true ∧
      v.before = getGeneration (store v.eid) ∧ v.after = newGeneration e := by
  rw [VMap.versions, List.mem_map]
  refine ⟨?_, fun ⟨e, he, hw, hbefore, hafter⟩ => ⟨(v.eid, e), ?_, ?_⟩⟩
  · rintro ⟨⟨eid, e⟩, hmem, rfl⟩
    obtain ⟨hmem, hw⟩ := List.mem_filter.1 hmem
    have he := OrdMap.mem_entries.1 hmem
    refine ⟨e, he, hw, rfl, ?_⟩
    simp only [getGeneration_installAll, he]
    exact if_pos hw
  · exact List.mem_filter.2 ⟨OrdMap.mem_entries.2 he, hw⟩
  · obtain ⟨eid, before, after⟩ := v
    simp only at he hbefore hafter
    simp only [getGeneration_installAll, he, hw, if_true, hbefore, hafter]

/-- A commit makes one version of an extent. -/
theorem pairwise_versions (m : VMap) (store store' : IdealStore) :
    (m.versions store store').Pairwise fun v w => v.eid ≠ w.eid := by
  rw [VMap.versions, List.pairwise_map]
  exact (m.sorted.filter _).imp fun h => ne_of_lt h

/-! ## Larger generations -/

theorem lt_add_one_iff (g g' : Int32) : g < g' + 1 ↔ g' < 2147483647 ∧ g ≤ g' := by
  have h₁ := Int32.toInt_lt g
  have h₂ := Int32.le_toInt g
  have h₃ := Int32.toInt_lt g'
  have h₄ := Int32.le_toInt g'
  simp only [Int32.lt_iff_toInt_lt, Int32.le_iff_toInt_le, Int32.toInt_add, Int.bmod_def,
    Int32.toInt_one, Int32.reduceToInt]
  omega

/-- When a written entry is above a generation that has only grown. -/
theorem lt_newGeneration_iff {g : Int32} (hg : 0 ≤ g) (e : TValue) :
    g < newGeneration e ↔ e.value ≠ [] ∧ g ≤ e.generation ∧ e.generation < 2147483647 := by
  rw [newGeneration]
  split
  next hlen =>
    refine iff_of_false (Int32.not_lt.2 hg) fun h => h.1 (List.length_eq_zero_iff.1 hlen)
  next hlen =>
    rw [lt_add_one_iff, and_comm, and_iff_right (a := e.value ≠ [])]
    rintro hv
    exact hlen (List.length_eq_zero_iff.2 hv)

theorem OnlyGrow.of_append {vs ws : List Version} (h : OnlyGrow (vs ++ ws)) : OnlyGrow vs :=
  ⟨fun v hv => h.grow v (List.mem_append_left ws hv), (List.pairwise_append.1 h.distinct).1⟩

/-- What holds of the stored generations as long as commits write on top. -/
structure Grown (vs : List Version) (store : IdealStore) : Prop where
  nonneg : ∀ eid, 0 ≤ getGeneration (store eid)
  only : OnlyGrow vs
  /-- The stored generation is the largest the extent has had. -/
  top : ∀ v ∈ vs, v.after ≤ getGeneration (store v.eid)

/-- A commit makes a version of each extent it has written larger if and only if it writes on
top. -/
theorem versions_grow_iff {s : State} {a : Action} {m : VMap} (hc : Commits s a m)
    (hnonneg : ∀ eid, 0 ≤ getGeneration (s.store eid)) :
    (∀ v ∈ m.versions s.store (installAll s.store m), v.before < v.after) ↔ WritesOnTop s a := by
  have hval := hc
  obtain ⟨-, -, -, -, hval⟩ := hval
  rw [validates_iff] at hval
  refine ⟨fun h m' hc' eid e he hw => ?_, fun h v hv => ?_⟩
  · obtain rfl := hc.unique hc'
    have hlt := h ⟨eid, getGeneration (s.store eid), newGeneration e⟩
      (mem_versions.2 ⟨e, he, hw, rfl, rfl⟩)
    obtain ⟨hv, hle, hmax⟩ := (lt_newGeneration_iff (hnonneg eid) e).1 hlt
    exact ⟨hv, .inr hle, hmax⟩
  · obtain ⟨e, he, hw, hbefore, hafter⟩ := mem_versions.1 hv
    obtain ⟨hne, hle, hmax⟩ := h m hc v.eid e he hw
    rw [hbefore, hafter]
    refine (lt_newGeneration_iff (hnonneg v.eid) e).2 ⟨hne, ?_, hmax⟩
    rcases hle with hr | hle
    · exact Int32.not_lt.1 (hval v.eid e he hr)
    · exact hle

/-- A commit that writes on top keeps generations growing. -/
theorem Grown.commit {vs : List Version} {s : State} {a : Action} {m : VMap}
    (h : Grown vs s.store) (hc : Commits s a m) (hok : WritesOnTop s a) :
    Grown (vs ++ m.versions s.store (installAll s.store m)) (installAll s.store m) := by
  have hgrow := (versions_grow_iff hc h.nonneg).2 hok
  -- no generation has become smaller
  have hle : ∀ eid, getGeneration (s.store eid) ≤ getGeneration (installAll s.store m eid) := by
    intro eid
    rw [getGeneration_installAll]
    cases he : m.find eid with
    | none => exact Int32.le_refl _
    | some e =>
      simp only
      split
      next hw =>
        exact Int32.le_of_lt (hgrow ⟨eid, _, _⟩ (mem_versions.2 ⟨e, he, hw, rfl, rfl⟩))
      next => exact Int32.le_refl _
  have hafter : ∀ v ∈ m.versions s.store (installAll s.store m),
      v.before = getGeneration (s.store v.eid) ∧
        v.after = getGeneration (installAll s.store m v.eid) := by
    intro v hv
    obtain ⟨e, he, hw, hbefore, hafter⟩ := mem_versions.1 hv
    refine ⟨hbefore, ?_⟩
    simp only [hafter, getGeneration_installAll, he, hw, if_true]
  refine ⟨fun eid => Int32.le_trans (h.nonneg eid) (hle eid), ⟨fun v hv => ?_, ?_⟩, fun v hv => ?_⟩
  · exact (List.mem_append.1 hv).elim (h.only.grow v) (hgrow v)
  · refine List.pairwise_append.2 ⟨h.only.distinct,
      (pairwise_versions m _ _).imp fun hne heq => absurd heq hne, fun v hv w hw heid => ?_⟩
    have hvw : v.after ≤ w.before := by
      rw [(hafter w hw).1, ← heid]
      exact h.top v hv
    have hlt := Int32.lt_of_le_of_lt hvw (hgrow w hw)
    exact fun heq => Int32.lt_irrefl (heq ▸ hlt)
  · rcases List.mem_append.1 hv with hv | hv
    · exact Int32.le_trans (h.top v hv) (hle v.eid)
    · exact (hafter v hv).2 ▸ Int32.le_refl _

section run

variable {ok : State → Action → Prop} {n₀ : TransactionId} {as : List Action} {s s' : State}

theorem versions_snoc {a : Action} (h : Run Occ.step ok (State.start n₀) as s)
    (hs : step s a = some s') : versions n₀ (as ++ [a]) = versions n₀ as ++ committed s a s' :=
  h.observe_snoc hs

theorem Grown.of_run (h : Run Occ.step WritesOnTop (State.start n₀) as s) :
    Grown (versions n₀ as) s.store := by
  induction h with
  | nil =>
    exact ⟨fun _ => by simp [State.start, IdealStore.fresh], ⟨by simp [versions, observe], .nil⟩,
      by simp [versions, observe]⟩
  | snoc h hok hs ih =>
    rw [versions_snoc h hs]
    rcases store_step hs with ⟨m, hc, hstore⟩ | ⟨-, hstore, hnone⟩
    · rw [hc.committed, hstore]
      exact ih.commit hc hok
    · rw [hnone, hstore, List.append_nil]
      exact ih

/-- **Generations only grow exactly in the runs in which every commit writes on top**: it deletes
nothing, and every extent that it writes without having read it is still at the generation it
had when the transaction first touched it. -/
theorem generations_grow_iff (h : Run Occ.step anyStep (State.start n₀) as s) :
    OnlyGrow (versions n₀ as) ↔ Run Occ.step WritesOnTop (State.start n₀) as s := by
  refine ⟨fun hgrow => ?_, fun h => (Grown.of_run h).only⟩
  induction h with
  | nil => exact .nil
  | @snoc as s s' a h _ hs ih =>
    rw [versions_snoc h hs] at hgrow
    have hrun := ih hgrow.of_append
    refine .snoc hrun ?_ hs
    rcases store_step hs with ⟨m, hc, hstore⟩ | ⟨hno, -⟩
    · rw [hc.committed, hstore] at hgrow
      refine (versions_grow_iff hc (Grown.of_run hrun).nonneg).1 fun v hv => ?_
      exact hgrow.grow v (List.mem_append_right _ hv)
    · exact fun m hc => absurd hc (hno m)

end run

/-- A transaction writes an extent, and another one after it; then a third deletes it. -/
def writeWriteDelete : List Action :=
  [.begin, .call 0 (.set [107] [118]), .resume 0, .resume 0, .call 0 .transactionCommit, .resume 0,
    .begin, .call 1 (.set [107] [119]), .resume 1, .resume 1, .call 1 .transactionCommit, .resume 1,
    .begin, .call 2 (.del [107]), .resume 2, .resume 2, .call 2 .transactionCommit, .resume 2]

/-- Before the deletion generations have grown, and so every commit has written on top. -/
theorem generations_grow_writeWrite : ∃ s,
    Run Occ.step anyStep (State.start 0) (writeWriteDelete.take 12) s ∧
      Run Occ.step WritesOnTop (State.start 0) (writeWriteDelete.take 12) s := by
  have hsome : (execute step (State.start 0) (writeWriteDelete.take 12)).isSome := by
    decide +kernel
  obtain ⟨s, hs⟩ := Option.isSome_iff_exists.1 hsome
  have hgrow : OnlyGrow (versions 0 (writeWriteDelete.take 12)) := by decide +kernel
  exact ⟨s, .of_execute hs, (generations_grow_iff (.of_execute hs)).1 hgrow⟩

/-- **A deletion starts an extent's generations again.** -/
theorem not_generations_grow :
    ¬ ∀ n₀ as s, Run Occ.step anyStep (State.start n₀) as s → OnlyGrow (versions n₀ as) := by
  intro h
  have hsome : (execute step (State.start 0) writeWriteDelete).isSome := by decide +kernel
  obtain ⟨s, hs⟩ := Option.isSome_iff_exists.1 hsome
  exact absurd (h 0 writeWriteDelete s (.of_execute hs)) (by decide +kernel)

end Occ
end Ydb
end CseLab
