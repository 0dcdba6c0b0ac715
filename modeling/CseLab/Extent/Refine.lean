import CseLab.Extent.Reuse

/-!
# The disk is the store that is taken for it

Where clients hold an extent's lock while they are at it and keep to extents that are there, and no
more is asked for than there is, a run of `OnDisk` is a run of `System`, whose files are the ones on
the disk (`OnDisk.refines`).  So what holds of such runs of a `System` holds on the disk; for one,
every client is told what the file is (`OnDisk.coherent_on_disk`).

Of an inode that is free, the file is not on the disk, and a `System` may have any.
-/

set_option autoImplicit false

namespace CseLab
namespace Extent

open Inode (BlockManager Junk blockSize inodeNum inodeOf_of_lt maxFile)
open Inode.BlockManager (mem_taken)

namespace OnDisk

/-- What is asked of a file that is there. -/
def HasRoom (m : BlockManager) (k : ℕ) : Demand → Prop
  | .writeBack _ buf | .write buf _ => buf.length ≤ maxFile * blockSize ∧ m.Fits k buf
  | _ => True

/-- Clients keep to locks and live extents, and ask for no more inodes and blocks than there are. -/
def Careful (s : OnDisk) : Action → Prop
  | .create .. => s.im.freedInode.Nonempty
  | .call _ eid _ _ => typeOf (s.cells eid).log ≠ none ∧ (s.cells eid).pending = []
  | .serve k i _ _ => ∀ call, (s.cells k).pending[i]? = some call →
      HasRoom s.im k ((s.cells k).demand call.pc)

/-- A file that is there is read. -/
theorem fileOf_readFile {m : BlockManager} {k : ℕ} (h : m.Orderly) (hk : k ∈ m.taken)
    (now : UInt32) : fileOf (m.readFile k now).2 k = (fileOf m k).read now := by
  obtain ⟨-, -, -, -, hattr, hcontent, -⟩ := h.readFile (mem_taken.1 hk).1 (h.onDisk hk) now
  rw [fileOf, hcontent hk, hattr]
  rfl

/-- `t` has all that concerns the inodes as `s` has it, and the files that are there as they are on
the disk. -/
structure Shows (s : OnDisk) (t : System) : Prop where
  orderly : s.im.Orderly
  cell : ∀ k, ∃ f, t k = s.view k f ∧ (k ∈ s.im.taken → f = fileOf s.im k)

variable {s s' s₀ : OnDisk} {t : System} {as : List Action} {a : Action} {k i : ℕ} {f : File}
  {c : Cell} {im : BlockManager} {call : Call} {junk : Junk} {now : UInt32}

theorem fileOf_elsewhere {m m' : BlockManager} {j : ℕ} (h : m.Elsewhere m' k) (hjk : j ≠ k)
    (hj : j ∈ m'.taken) : j ∈ m.taken ∧ fileOf m' j = fileOf m j := by
  obtain ⟨hlt, hfree⟩ := mem_taken.1 hj
  have hj' : j ∈ m.taken := mem_taken.2 ⟨hlt, mt (h.free j hjk).2 hfree⟩
  exact ⟨hj', by rw [fileOf, h.content j hj' hjk, h.inode j hlt hjk, fileOf]⟩

namespace Shows

/-- Both take a step that changes one inode. -/
theorem setCell (h : Shows s t) (hm : im.Orderly) (helse : s.im.Elsewhere im k)
    (hf : k ∈ im.taken → f = fileOf im k) :
    Shows ({ s with im := im }.setCell k c)
      (Function.update t k (c.on (decide (k ∈ im.freedInode)) f)) where
  orderly := hm
  cell j := by
    by_cases hj : j = k
    · subst hj
      exact ⟨f, by rw [Function.update_self, view, cells_setCell_self]; rfl, hf⟩
    · obtain ⟨f', hf', hfile⟩ := h.cell j
      refine ⟨f', ?_, fun hj' => ?_⟩
      · rw [Function.update_of_ne hj, hf', view, view, cells_setCell_of_ne hj]
        exact congrArg (fun b => (s.cells j).on b f') (decide_eq_decide.2 (helse.free j hj).symm)
      · obtain ⟨hmem, heq⟩ := fileOf_elsewhere helse hj hj'
        exact (hfile hmem).trans heq.symm

/-- A call under way is about a file that is there. -/
theorem taken_of_call (h : Shows s t) (hinv : Extent.Inv true k (t k))
    (hcall : (s.cells k).pending[i]? = some call) : k ∈ s.im.taken := by
  obtain ⟨f, hk, -⟩ := h.cell k
  rw [hk] at hinv
  obtain ⟨-, hlt, hlive, -⟩ := hinv.of_getElem? hcall
  exact mem_taken.2 ⟨hlt, fun hfree => hlive rfl (hinv.freed rfl (decide_eq_true hfree))⟩

/-- A call under way takes its next step. -/
theorem serve (h : Shows s t) (hinv : Extent.Inv true k (t k))
    (hcall : (s.cells k).pending[i]? = some call)
    (hok : HasRoom s.im k ((s.cells k).demand call.pc)) : Shows (s.serve k i call junk now)
      (Function.update t k ((t k).serve k i call now)) := by
  have hmem := h.taken_of_call hinv hcall
  have hk := (mem_taken.1 hmem).1
  obtain ⟨f, hcell, hfile⟩ := h.cell k
  obtain rfl := hfile hmem
  have hmeet : ∀ d, (s.cells k).demand call.pc = d → d ≠ .nothing →
      (s.view k (fileOf s.im k)).serve k i call now =
        (s.view k (fileOf s.im k)).meet i call now d := by
    rintro d rfl hd
    exact Cell.serve_of_demand (c := s.view k (fileOf s.im k)) hd k i now
  rw [hcell]
  cases hdemand : (s.cells k).demand call.pc with
  | nothing =>
    rw [serve_nothing hdemand, view, Cell.serve_on hdemand]
    exact h.setCell h.orderly (.refl ..) fun _ => rfl
  | read attr is_share =>
    have hdisk := h.orderly.onDisk hmem
    obtain ⟨-, -, -, hfree, -, -, helse, hm⟩ := h.orderly.readFile hk hdisk now
    have hset := fun c => h.setCell (c := c) hm helse fun _ =>
      (fileOf_readFile h.orderly hmem now).symm
    rw [hmeet _ hdemand (by simp), serve_read hdemand, serveGet_eq h.orderly hk hdisk]
    rw [hfree] at hset
    exact hset _
  | writeBack attr buf =>
    rw [hdemand] at hok
    obtain ⟨hlen, hfits⟩ := hok
    obtain ⟨t', im, hw⟩ := s.im.exists_writeFile k hlen junk now
    obtain ⟨-, hfree, -, -, helse, hm⟩ := h.orderly.writeFile hmem hfits hw
    have hmem' : k ∈ im.taken := BlockManager.taken_of_eq hfree ▸ hmem
    have hdisk := hm.onDisk hmem'
    have hfile := fileOf_writeFile h.orderly hmem hfits hw
    obtain ⟨-, -, -, hfree', -, -, helse', hm'⟩ := hm.readFile hk hdisk now
    have hset := fun c => h.setCell (c := c) hm' (helse.trans helse') fun _ =>
      (fileOf_readFile hm hmem' now).symm
    rw [hmeet _ hdemand (by simp), serve_writeBack hdemand hw,
      serveGet_eq (s := { s with im := im }) hm hk hdisk]
    rw [hfree', hfree, hfile] at hset
    rw [hfile]
    exact hset _
  | write buf starts =>
    rw [hdemand] at hok
    obtain ⟨hlen, hfits⟩ := hok
    obtain ⟨t', im, hw⟩ := s.im.exists_writeFile k hlen junk now
    obtain ⟨ht, hfree, -, -, helse, hm⟩ := h.orderly.writeFile hmem hfits hw
    have hset := fun c => h.setCell (c := c) hm helse fun _ =>
      (fileOf_writeFile h.orderly hmem hfits hw).symm
    rw [hmeet _ hdemand (by simp), serve_write hdemand hw, ht]
    rw [hfree] at hset
    exact hset _
  | remove =>
    obtain ⟨hfree, helse, hm⟩ := h.orderly.removeFile hmem
    have hself := Finset.mem_insert_self k s.im.freedInode
    have hset := fun c => h.setCell (c := c) (f := (fileOf s.im k).remove) hm helse fun hmem' =>
      absurd (hfree ▸ hself) (mem_taken.1 hmem').2
    rw [hmeet _ hdemand (by simp), serve_remove hdemand]
    rw [hfree, decide_eq_true hself] at hset
    exact hset _

end Shows

/-- **Every step is one that a `System` can take.** -/
theorem Shows.step (h : Shows s t) (hinv : ∀ k, Extent.Inv true k (t k)) (hok : s.Careful a)
    (hs : s.step a = some s') : ∃ b t', t.step b = some t' ∧ t.Orderly b ∧ Shows s' t' := by
  cases a with
  | create port type now =>
    obtain ⟨i, im, hc, hi, hmem, hleast, hfree, hcontent, hattr, helse, hm⟩ :=
      h.orderly.createFile hok type now
    rw [OnDisk.step, hc] at hs
    obtain ⟨hcrashed, hs⟩ := Option.ite_none_left_eq_some.1 hs
    obtain rfl := Option.some_inj.1 hs
    have hnotfree : i ∉ im.freedInode := by
      rw [hfree]
      exact Finset.notMem_erase i _
    have hfile : fileOf im i = .create type now := by
      rw [fileOf, hcontent, hattr]
      rfl
    have hall : ∀ k, (t k).free = decide (k ∈ s.im.freedInode) := fun k => by
      obtain ⟨f, hk, -⟩ := h.cell k
      rw [hk]
      rfl
    obtain ⟨f, hcell, -⟩ := h.cell i
    refine ⟨.create port type i now, Function.update t i ((t i).create port i type now), ?_,
      trivial, ?_⟩
    · refine if_pos ⟨by rw [hall]; exact decide_eq_true hmem, ?_, fun k hk => ?_⟩
      · rw [hcell]
        rwa [inodeOf_of_lt hi] at hcrashed
      · rw [hall, decide_eq_true_iff]
        exact fun hkmem => absurd (hleast k hkmem) (not_le.2 hk)
    · have hset := fun c => h.setCell (c := c) hm helse fun _ => hfile.symm
      rw [create_eq hi, hcell]
      rw [decide_eq_false hnotfree] at hset
      exact hset _
  | call port eid op now =>
    obtain ⟨hlive, hpending⟩ := hok
    obtain ⟨f, hcell, hfile⟩ := h.cell eid
    have hlog : (t eid).log = (s.cells eid).log := by
      rw [hcell]
      rfl
    have hpending' : (t eid).pending = [] := by
      rw [hcell]
      exact hpending
    have heid : eid < inodeNum := (hinv eid).range (hlog ▸ hlive)
    rw [OnDisk.step, inodeOf_of_lt heid] at hs
    obtain ⟨hcrashed, hs⟩ := Option.ite_none_left_eq_some.1 hs
    obtain rfl := Option.some_inj.1 hs
    refine ⟨.call port eid op now, Function.update t eid ((t eid).call port eid op now), ?_,
      ⟨hlog ▸ hlive, hpending'⟩, ?_⟩
    · rw [System.step, inodeOf_of_lt heid, hcell]
      exact if_neg hcrashed
    · rw [hcell, view, Cell.call_on]
      exact h.setCell h.orderly (.refl ..) hfile
  | serve k i junk now =>
    obtain ⟨hcrashed, hs⟩ := Option.ite_none_left_eq_some.1 hs
    obtain ⟨call, hcall, rfl⟩ := Option.map_eq_some_iff.1 hs
    obtain ⟨f, hcell, -⟩ := h.cell k
    refine ⟨.serve k i now, Function.update t k ((t k).serve k i call now), ?_, trivial,
      h.serve (hinv k) hcall (hok call hcall)⟩
    have hcall' : (t k).pending[i]? = some call := by
      rw [hcell]
      exact hcall
    have hcrashed' : ¬ (t k).crashed := by
      rw [hcell]
      exact hcrashed
    rw [System.step, if_neg hcrashed', hcall', Option.map_some]

theorem Shows.of_start (h0 : start now = some s₀) : Shows s₀ (System.start now) := by
  obtain ⟨s, hs, rfl⟩ := Option.map_eq_some_iff.1 h0
  have hempty := Inode.System.empty_start hs
  have hstarted := (Inode.System.Started.of_start hs).1
  have hinodes := hstarted.inv.inodes
  rw [hstarted.live] at hinodes
  refine ⟨hempty.orderly, fun k => ⟨(System.start now k).file, ?_, fun hk => ?_⟩⟩
  · have hfree : decide (2 ≤ k ∧ k < inodeNum) = decide (k ∈ s.m.freedInode) := by
      refine decide_eq_decide.2 ⟨fun ⟨hle, hlt⟩ => ?_, fun hmem => ?_⟩
      · rcases (hinodes.all k).1 hlt with rfl | hone | hmem
        · exact absurd hle (by decide)
        · rw [Finset.mem_singleton.1 hone] at hle
          exact absurd hle (by decide)
        · exact hmem
      · have hne0 : k ≠ 0 := fun h0 => hinodes.zero.2 (h0 ▸ hmem)
        have hne1 : k ≠ 1 := fun h1 => Finset.disjoint_left.1 hinodes.apart
          (Finset.mem_singleton_self 1) (h1 ▸ hmem)
        exact ⟨by omega, hinodes.lt_of_free k hmem⟩
    rw [view, ← hfree]
    rfl
  · have hlt := (mem_taken.1 hk).1
    have hcontent : s.m.content k = [] :=
      List.length_eq_zero_iff.1 (BlockManager.length_content.trans (hempty.size k hlt))
    rw [fileOf, hcontent, Inode.System.attr_start hs hlt]
    by_cases h1 : k = 1
    · simp only [System.start, h1, if_true]
      rfl
    · simp only [System.start, h1, if_false]

/-- **A run on the disk is a run of a `System`** whose files are the ones on the disk. -/
theorem refines (h0 : start now = some s₀) (h : Run step Careful s₀ as s) : ∃ bs t,
    Run System.step System.Orderly (System.start now) bs t ∧ Shows s t :=
  h.invariant (P := fun s => ∃ bs t,
      Run System.step System.Orderly (System.start now) bs t ∧ Shows s t)
    ⟨[], _, .nil, .of_start h0⟩ fun _ _ _ ⟨bs, _, hrun, hshows⟩ hok hs =>
      let ⟨b, t', ht, hok', hshows'⟩ := hshows.step (System.inv_of_orderly hrun) hok hs
      ⟨bs ++ [b], t', hrun.snoc hok' ht, hshows'⟩

end OnDisk

end Extent
end CseLab
