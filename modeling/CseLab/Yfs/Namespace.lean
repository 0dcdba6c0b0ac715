import CseLab.Lib.Run
import CseLab.Lib.Tree
import CseLab.Yfs.Ops

/-!
# The tree of directories

An inode is where the directories' entries say it is.  `Tree` is what a file system should look
like: every inode but the root has one entry in all directories together, the entries lead to it
from the root, and no entry has a number that is not in use.

`create`, `mkdir` and `mklink` keep it so, and `unlink` does too if the name is a file's or a
link's.  If it is a directory's, `fuse.cc` says that it is not to be unlinked; but neither it nor
`yfs_client::unlink` asks.  `tree_iff` says that the runs in which the tree stays one and no
directory is unlinked are just those in which nobody tries.
-/

set_option autoImplicit false

namespace CseLab
namespace Yfs

open Relation (ReflTransGen)
open Inode (tDir)

/-! ## Entries -/

/-- The `i`-th entry of the directory `dir` has the number `ino`. -/
def EntryAt (s : Store) (dir i ino : ℕ) : Prop :=
  (s dir).type = tDir ∧ i < fileN (s dir).data ∧ (entryInum (s dir).data i).toNat = ino

/-- Some entry has. -/
def Names (s : Store) (dir ino : ℕ) : Prop := ∃ i, EntryAt s dir i ino

/-- The inodes are a tree, which the entries lead through. -/
structure Tree (s : Store) : Prop where
  named : ∀ ino, ino ≠ 1 → (s ino).type ≠ 0 → ∃! e : ℕ × ℕ, EntryAt s e.1 e.2 ino
  reachable : ∀ ino, (s ino).type ≠ 0 → ReflTransGen (Names s) 1 ino
  allocated : ∀ dir i ino, EntryAt s dir i ino → (s ino).type ≠ 0

namespace Op

/-- The request is to change a directory. -/
def OnDirectory (s : Store) : Op → Prop
  | create parent .. | mkdir parent .. | mklink parent .. | unlink parent _ =>
    (s parent).type = tDir
  | _ => False

instance decidableOnDirectory (s : Store) : (op : Op) → Decidable (op.OnDirectory s)
  | create parent .. | mkdir parent .. | mklink parent .. | unlink parent _ =>
    inferInstanceAs (Decidable ((s parent).type = tDir))
  | lookup .. | readdir _ | read .. | write .. | setattr .. => .isFalse id

/-- It is to unlink a directory. -/
def UnlinksDirectory (s : Store) : Op → Prop
  | unlink parent name => ∃ i, findEntry (s parent).data name = some i ∧
      (s (entryInum (s parent).data i).toNat).type = tDir
  | _ => False

/-- If it is, it is refused, and nothing changes. -/
def Refused (S : Server) (s : Store) (op : Op) : Prop :=
  op.UnlinksDirectory s → ∀ r s', op.code.alone S.heap [] s = some (r, s') →
    r ≠ .status .ok ∧ s' = s

end Op

/-- One request is carried out. -/
def carryOut (S : Server) (s : Store) (op : Op) : Option Store :=
  (op.code.alone S.heap [] s).map Prod.snd

/-! ## The tree of the entries -/

/-- The numbers that the entries of a directory have. -/
def children (s : Store) (dir : ℕ) : List ℕ :=
  if (s dir).type = tDir then (dirents (s dir).data).map Dirent.inum else []

/-- There is an inode. -/
def Live (s : Store) (ino : ℕ) : Prop := (s ino).type ≠ 0

variable {S : Server} {s s' : Store} {dir i ino parent : ℕ} {name content : Bytes} {t : UInt32}
  {mem : ℕ → UInt8} {op : Op} {r : Reply}

theorem children_of_ne (h : (s dir).type ≠ tDir) : children s dir = [] := if_neg h

theorem getElem?_children : (children s dir)[i]? = some ino ↔ EntryAt s dir i ino := by
  rw [children, EntryAt]
  split
  next hdir =>
    rw [dirents, List.map_map, List.getElem?_map, Option.map_eq_some_iff]
    simp only [List.getElem?_eq_some_iff, List.getElem_range, List.length_range]
    constructor
    · rintro ⟨j, ⟨hi, rfl⟩, heq⟩
      exact ⟨hdir, hi, heq⟩
    · rintro ⟨-, hi, heq⟩
      exact ⟨i, ⟨hi, rfl⟩, heq⟩
  next hdir => simp [hdir]

theorem mem_children : ino ∈ children s dir ↔ Names s dir ino := by
  rw [List.mem_iff_getElem?]
  exact exists_congr fun i => getElem?_children

theorem live_withEntry (hne : ino ≠ parent) (ht : t ≠ 0) :
    Live (withEntry s parent name mem ino ⟨t, content⟩) = fun y => Live s y ∨ y = ino := by
  funext y
  rw [Live, withEntry]
  by_cases hyp : y = parent
  · subst hyp
    simp [Live, Extent.put, Ne.symm hne]
  · by_cases hyi : y = ino
    · subst hyi
      simp [hyp, ht]
    · simp [hyp, hyi, Live]

theorem live_withoutEntry (hino : (entryInum (s parent).data i).toNat = ino)
    (hne : parent ≠ ino) : Live (withoutEntry s parent i) = fun y => Live s y ∧ y ≠ ino := by
  funext y
  rw [Live, withoutEntry, hino]
  by_cases hyp : y = parent
  · subst hyp
    simp [Live, Extent.put, hne]
  · by_cases hyi : y = ino
    · subst hyi
      simp [hyp, Extent.gone]
    · simp [hyp, hyi, Live]

theorem children_withEntry {es : List Entry} (hdir : (s parent).type = tDir)
    (hes : (s parent).data = dirFile es) (hfree : (s ino).type = 0) (hlt : ino < 4294967296)
    (hcontent : t = tDir → content = []) :
    children (withEntry s parent name mem ino ⟨t, content⟩) =
      Function.update (children s) parent (children s parent ++ [ino]) := by
  rw [withEntry]
  funext y
  by_cases hyp : y = parent
  · subst hyp
    rw [children, Function.update_self, Function.update_self, children, if_pos hdir]
    show (if (s y).type = tDir then _ else _) = _
    rw [if_pos hdir]
    show (dirents ((s y).data ++ (newEntry mem name ino).bytes)).map Dirent.inum = _
    have htoNat : (newEntry mem name ino).inum.toNat = ino := UInt32.toNat_ofNat_of_lt' hlt
    rw [hes, append_dirFile, inums_dirFile, inums_dirFile, List.map_append, List.map_singleton,
      htoNat]
  · rw [Function.update_of_ne hyp, children, Function.update_of_ne hyp]
    by_cases hyi : y = ino
    · subst hyi
      have hnot : (s y).type ≠ tDir := by
        rw [hfree]
        decide
      rw [Function.update_self, children_of_ne hnot]
      split
      next htd =>
        show (dirents content).map Dirent.inum = []
        rw [hcontent htd]
        rfl
      next => rfl
    · rw [Function.update_of_ne hyi]
      rfl

theorem children_withoutEntry {es : List Entry} (hdir : (s parent).type = tDir)
    (hes : (s parent).data = dirFile es) (hino : (entryInum (s parent).data i).toNat = ino)
    (hfile : (s ino).type ≠ tDir) :
    children (withoutEntry s parent i) =
      Function.update (children s) parent ((children s parent).eraseIdx i) := by
  rw [withoutEntry, hino]
  funext y
  by_cases hyp : y = parent
  · subst hyp
    rw [children, Function.update_self, Function.update_self, children, if_pos hdir]
    show (if (s y).type = tDir then _ else _) = _
    rw [if_pos hdir]
    show (dirents ((s y).data.take (entrySize * i) ++
      (s y).data.drop (entrySize * (i + 1)))).map Dirent.inum = _
    rw [hes, splice_dirFile, inums_dirFile, inums_dirFile, List.eraseIdx_map]
  · rw [Function.update_of_ne hyp, children, Function.update_of_ne hyp]
    by_cases hyi : y = ino
    · subst hyi
      rw [Function.update_self, children_of_ne hfile]
      rfl
    · rw [Function.update_of_ne hyi]
      rfl

theorem tree_of_isTree (h : IsTree 1 (Live s) (children s)) : Tree s where
  named ino hroot hlive := by
    simpa only [getElem?_children] using h.unique ino hlive hroot
  reachable ino hlive := by
    simpa only [mem_children] using h.reachable ino hlive
  allocated dir i ino he := (h.child dir ino (mem_children.2 ⟨i, he⟩)).1

/-- The inodes are a tree, and directories are directory files. -/
structure WellFormed (s : Store) : Prop where
  tree : IsTree 1 (Live s) (children s)
  file : ∀ dir, (s dir).type = tDir → ∃ es, (s dir).data = dirFile es

namespace WellFormed

/-- The root and nothing else. -/
theorem emptyRoot : WellFormed emptyRoot where
  tree := by
    have hlive : Live Yfs.emptyRoot = (· = 1) := by
      funext ino
      by_cases h : ino = 1 <;>
        simp [Live, Yfs.emptyRoot, Function.update_apply, h, tDir, Extent.gone]
    have hchildren : children Yfs.emptyRoot = fun _ => [] := by
      funext dir
      rw [children]
      split
      next hdir =>
        by_cases h : dir = 1
        · subst h
          rfl
        · rw [Yfs.emptyRoot, Function.update_of_ne h] at hdir
          exact absurd hdir (by decide)
      next => rfl
    rw [hlive, hchildren]
    exact .single 1
  file dir hdir := by
    refine ⟨[], ?_⟩
    by_cases h : dir = 1
    · subst h
      rfl
    · rw [Yfs.emptyRoot, Function.update_of_ne h]
      rfl

/-- A new inode, with an entry at the end of a directory. -/
theorem graft (h : WellFormed s) (hdir : (s parent).type = tDir) (hfree : (s ino).type = 0)
    (hlt : ino < 4294967296) (ht : t ≠ 0) (hcontent : t = tDir → content = []) :
    WellFormed (withEntry s parent name mem ino ⟨t, content⟩) := by
  obtain ⟨es, hes⟩ := h.file parent hdir
  have hne : ino ≠ parent := by
    rintro rfl
    rw [hdir] at hfree
    exact absurd hfree (by decide)
  refine ⟨?_, fun dir hd => ?_⟩
  · rw [live_withEntry hne ht, children_withEntry hdir hes hfree hlt hcontent]
    refine h.tree.graft ?_ (not_not.2 hfree)
    rw [Live, hdir]
    decide
  · rw [withEntry] at hd ⊢
    by_cases hdp : dir = parent
    · subst hdp
      exact ⟨es ++ [newEntry mem name ino], by
        rw [Function.update_self, hes, append_dirFile]; rfl⟩
    · rw [Function.update_of_ne hdp] at hd ⊢
      by_cases hdi : dir = ino
      · subst hdi
        rw [Function.update_self] at hd ⊢
        exact ⟨[], hcontent hd⟩
      · rw [Function.update_of_ne hdi] at hd ⊢
        exact h.file dir hd

/-- An inode that is no directory goes, and its entry with it. -/
theorem prune (h : WellFormed s) (hdir : (s parent).type = tDir)
    (hfind : findEntry (s parent).data name = some i)
    (hfile : (s (entryInum (s parent).data i).toNat).type ≠ tDir) :
    WellFormed (withoutEntry s parent i) := by
  obtain ⟨es, hes⟩ := h.file parent hdir
  have hi : i < fileN (s parent).data := by
    rw [findEntry, List.find?_range_eq_some] at hfind
    exact List.mem_range.1 hfind.2.1
  obtain ⟨ino, hino⟩ : ∃ ino, (entryInum (s parent).data i).toNat = ino := ⟨_, rfl⟩
  rw [hino] at hfile
  have hentry : (children s parent)[i]? = some ino := getElem?_children.2 ⟨hdir, hi, hino⟩
  have hne : parent ≠ ino := by
    rintro rfl
    exact hfile hdir
  refine ⟨?_, fun dir hd => ?_⟩
  · rw [live_withoutEntry hino hne, children_withoutEntry hdir hes hino hfile]
    exact h.tree.prune hentry (children_of_ne hfile)
  · rw [withoutEntry, hino] at hd ⊢
    by_cases hdp : dir = parent
    · subst hdp
      exact ⟨es.eraseIdx i, by rw [Function.update_self, hes, splice_dirFile]; rfl⟩
    · rw [Function.update_of_ne hdp] at hd ⊢
      by_cases hdi : dir = ino
      · subst hdi
        rw [Function.update_self] at hd
        exact absurd hd (by decide)
      · rw [Function.update_of_ne hdi] at hd ⊢
        exact h.file dir hd

theorem kreated (h : WellFormed s) (hdir : (s parent).type = tDir) (ht : t ≠ 0)
    (hcontent : t = tDir → content = [])
    (hs : kreated S s parent name t content mem = some (r, s')) : WellFormed s' := by
  rw [Yfs.kreated] at hs
  obtain ⟨-, hs⟩ := Option.ite_none_left_eq_some.1 hs
  split at hs
  next =>
    obtain ⟨-, rfl⟩ := Prod.mk.inj (Option.some_inj.1 hs)
    exact h
  next =>
    obtain ⟨-, hs⟩ := Option.ite_none_left_eq_some.1 hs
    obtain ⟨ino, hino, hs⟩ := Option.map_eq_some_iff.1 hs
    obtain ⟨-, rfl⟩ := Prod.mk.inj hs
    exact h.graft hdir (S.next_free _ _ hino) (S.next_lt _ _ hino) ht hcontent

theorem unlinked (h : WellFormed s) (hdir : (s parent).type = tDir)
    (hfile : ¬ (Op.unlink parent name).UnlinksDirectory s)
    (hs : unlinked s parent name = some (r, s')) : WellFormed s' := by
  rw [Yfs.unlinked] at hs
  obtain ⟨-, hs⟩ := Option.ite_none_left_eq_some.1 hs
  split at hs
  next =>
    obtain ⟨-, rfl⟩ := Prod.mk.inj (Option.some_inj.1 hs)
    exact h
  next i hfind =>
    obtain ⟨-, hs⟩ := Option.ite_none_left_eq_some.1 hs
    obtain ⟨-, rfl⟩ := Prod.mk.inj (Option.some_inj.1 hs)
    exact h.prune hdir hfind fun htd => hfile ⟨i, hfind, htd⟩

/-- One request that does not unlink a directory. -/
theorem step (h : WellFormed s) (hop : op.OnDirectory s) (hfile : ¬ op.UnlinksDirectory s)
    (hs : op.code.alone S.heap [] s = some (r, s')) : WellFormed s' := by
  have hlive : ∀ parent, (s parent).type = tDir → (s parent).type ≠ 0 := fun parent hdir => by
    rw [hdir]
    decide
  cases op with
  | create parent name mem =>
    rw [alone_create (hlive parent hop)] at hs
    exact h.kreated hop (by decide) (fun _ => rfl) hs
  | mkdir parent name mem =>
    rw [alone_mkdir (hlive parent hop)] at hs
    exact h.kreated hop (by decide) (fun _ => rfl) hs
  | mklink parent name link mem =>
    rw [alone_mklink (hlive parent hop)] at hs
    exact h.kreated hop (by decide) (fun htd => absurd htd (by decide)) hs
  | unlink parent name =>
    rw [alone_unlink] at hs
    exact h.unlinked hop hfile hs
  | _ => exact hop.elim

end WellFormed

/-! ## Runs -/

/-- Whoever is asked to unlink a directory, does it. -/
theorem not_refused (hdir : op.UnlinksDirectory s)
    (hs : op.code.alone S.heap [] s = some (r, s')) : r = .status .ok := by
  cases op with
  | unlink parent name =>
    obtain ⟨i, hfind, -⟩ := hdir
    rw [alone_unlink, Yfs.unlinked, hfind] at hs
    obtain ⟨-, hs⟩ := Option.ite_none_left_eq_some.1 hs
    obtain ⟨-, hs⟩ := Option.ite_none_left_eq_some.1 hs
    exact (Prod.mk.inj (Option.some_inj.1 hs)).1.symm
  | _ => exact hdir.elim

variable {ops : List Op}

theorem wellFormed_of_run (hrun : Run (carryOut S)
    (fun s op => op.OnDirectory s ∧ ¬ op.UnlinksDirectory s) emptyRoot ops s) : WellFormed s := by
  refine hrun.invariant .emptyRoot fun s op s' h hok hs => ?_
  obtain ⟨⟨r, _⟩, halone, rfl⟩ := Option.map_eq_some_iff.1 hs
  exact h.step hok.1 hok.2 halone

/-- **The tree stays a tree, and no directory is unlinked, if and only if nobody tries to.** -/
theorem tree_iff (S : Server) (ops : List Op) (s : Store) :
    Run (carryOut S) (fun s op => op.OnDirectory s ∧ Tree s ∧ op.Refused S s) emptyRoot ops s ∧
        Tree s ↔
      Run (carryOut S) (fun s op => op.OnDirectory s ∧ ¬ op.UnlinksDirectory s) emptyRoot ops s := by
  constructor
  · rintro ⟨hrun, -⟩
    induction hrun with
    | nil => exact .nil
    | snoc _ hok hs ih =>
      obtain ⟨hop, -, hrefused⟩ := hok
      refine .snoc ih ⟨hop, fun hdir => ?_⟩ hs
      obtain ⟨⟨r, s'⟩, hs, -⟩ := Option.map_eq_some_iff.1 hs
      exact (hrefused hdir r s' hs).1 (not_refused hdir hs)
  · intro hrun
    refine ⟨?_, tree_of_isTree (wellFormed_of_run hrun).tree⟩
    induction hrun with
    | nil => exact .nil
    | snoc hrun hok hs ih =>
      exact .snoc ih ⟨hok.1, tree_of_isTree (wellFormed_of_run hrun).tree,
        fun hdir => absurd hdir hok.2⟩ hs

/-- A directory `d` with a file `f` in it, which is inode 3. -/
def fileInDirectory : Store :=
  withEntry (withEntry emptyRoot 1 [100] (fun _ => 0) 2 ⟨tDir, []⟩) 2 [102] (fun _ => 0) 3
    ⟨tFile, []⟩

/-- **A directory is unlinked with what is in it.**  If it has been made and a file has been made in
it, then after that the file's inode is still in use, and no directory has an entry for it. -/
theorem not_tree : ¬ ∀ (S : Server) ops s,
    Run (carryOut S) (fun s op => op.OnDirectory s) emptyRoot ops s →
      Tree s ∧ ∀ op : Op, op.OnDirectory s → op.Refused S s := by
  intro h
  have hrun : Run (carryOut .lowest) (fun s op => op.OnDirectory s) emptyRoot
      [.mkdir 1 [100] fun _ => 0, .create 2 [102] fun _ => 0, .unlink 1 [100]]
      (withoutEntry fileInDirectory 1 0) :=
    .of_guarded rfl
  obtain ⟨⟨dir, i⟩, ⟨hdir, hi, -⟩, -⟩ := (h _ _ _ hrun).1.named 3 (by decide) (by decide)
  have hroot : ∀ dir, (withoutEntry fileInDirectory 1 0 dir).type = tDir → dir = 1 := by
    intro dir hdir
    have hino : (entryInum (fileInDirectory 1).data 0).toNat = 2 := by decide
    by_contra h1
    rw [withoutEntry, hino, Function.update_of_ne h1] at hdir
    by_cases h2 : dir = 2
    · subst h2
      exact absurd hdir (by decide)
    · rw [Function.update_of_ne h2, fileInDirectory, withEntry, Function.update_of_ne h2] at hdir
      by_cases h3 : dir = 3
      · subst h3
        exact absurd hdir (by decide)
      · rw [Function.update_of_ne h3, withEntry, Function.update_of_ne h1, Function.update_of_ne h2,
          emptyRoot, Function.update_of_ne h1] at hdir
        exact absurd hdir (by decide)
  have hnone : fileN (withoutEntry fileInDirectory 1 0 1).data = 0 := by decide
  rw [hroot dir hdir, hnone] at hi
  exact absurd hi (Nat.not_lt_zero i)

end Yfs
end CseLab
