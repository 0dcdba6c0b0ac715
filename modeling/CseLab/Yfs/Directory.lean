import CseLab.Yfs.Ops

/-!
# A directory is a finite map

What `create`, `mkdir`, `mklink` and `unlink` return says which names a directory ought to have, and
with which inode numbers: `listing`.  The directory is a file of packed records, in which names are
found by comparing them one after another, new ones are put at the end and old ones are cut out;
`readdir` reads all of it and `lookup` stops at the first name that fits.

`directory_is_map` says that the file is never anything but the records of that list, that no name
is in it twice, and that all operations agree on it.
-/

set_option autoImplicit false

namespace CseLab
namespace Yfs

open Atomic (OneAtATime Proc)
open Inode (tDir)

/-! ## What there should be -/

namespace Op

/-- The name that the request wants to be new. -/
def creates : Op → Option Bytes
  | create _ name _ | mkdir _ name _ | mklink _ name _ _ => some name
  | _ => none

/-- The request is to change the directory `d`, and the name is a C string that is shorter than its
field. -/
def Changes (d : ℕ) : Op → Prop
  | create parent name _ | mkdir parent name _ | mklink parent name _ _ | unlink parent name =>
    parent = d ∧ name.length < nameSize ∧ 0 ∉ name
  | _ => False

end Op

/-- The names there should be after a request that was answered so, if before there were `l`. -/
def note (l : List Dirent) : Op → Reply → List Dirent
  | .create _ name _, .inode ino | .mkdir _ name _, .inode ino | .mklink _ name _ _, .inode ino =>
    l ++ [⟨name, ino⟩]
  | .unlink _ name, .status .ok => l.filter fun x => x.name ≠ name
  | _, _ => l

variable {κ : Type*}

/-- The names created and not since unlinked, with what creating them returned, in that order. -/
def listing (log : List (κ × Op × Reply)) : List Dirent :=
  log.foldl (fun l e => note l e.2.1 e.2.2) []

/-- The directory `d` is the map `l`, to all who ask. -/
structure IsMap (S : Server) (d : ℕ) (l : List Dirent) (s : Store) : Prop where
  multiple : (s d).data.length % entrySize = 0
  nodup : ((dirents (s d).data).map Dirent.name).Nodup
  readdir : (Op.readdir d).code.alone S.heap [] s = some (.list l, s)
  lookup : ∀ name, (Op.lookup d name).code.alone S.heap [] s =
    some (.found ((l.find? fun x => x.name = name).map Dirent.inum), s)
  /-- Creating a name that is there changes nothing. -/
  exist : ∀ (op : Op) name, op.Changes d → op.creates = some name → name ∈ l.map Dirent.name →
    op.code.alone S.heap [] s = some (.status .exist, s)
  /-- Neither does unlinking one that is not. -/
  noent : ∀ name, name ∉ l.map Dirent.name →
    (Op.unlink d name).code.alone S.heap [] s = some (.status .noent, s)
  /-- Nothing fails, unless there is no inode left. -/
  goes : ∀ op : Op, op.Changes d → op.code.alone S.heap [] s = none →
    (S.next fun id => (s id).type) = none ∧
      ∃ name, op.creates = some name ∧ name ∉ l.map Dirent.name

/-! ## The four requests -/

/-- The request `op` makes `name` in `d`: an inode of type `t`, with `content` in it. -/
structure Makes (d : ℕ) (op : Op) (name : Bytes) (t : UInt32) (content : Bytes)
    (mem : ℕ → UInt8) : Prop where
  creates : op.creates = some name
  short : name.length < nameSize
  noNul : 0 ∉ name
  alone : ∀ (S : Server) (s : Store), (s d).type ≠ 0 →
    op.code.alone S.heap [] s = kreated S s d name t content mem
  note_inode : ∀ l ino, note l op (.inode ino) = l ++ [⟨name, ino⟩]
  note_exist : ∀ l, note l op (.status .exist) = l

theorem Op.Changes.cases {d : ℕ} {op : Op} (h : op.Changes d) :
    (∃ name, op = .unlink d name ∧ name.length < nameSize ∧ 0 ∉ name) ∨
      ∃ name t content mem, Makes d op name t content mem := by
  cases op with
  | create parent name mem =>
    obtain ⟨rfl, hshort, hnul⟩ := h
    exact .inr ⟨name, tFile, [], mem, rfl, hshort, hnul, fun _ _ => alone_create, fun _ _ => rfl,
      fun _ => rfl⟩
  | mkdir parent name mem =>
    obtain ⟨rfl, hshort, hnul⟩ := h
    exact .inr ⟨name, tDir, [], mem, rfl, hshort, hnul, fun _ _ => alone_mkdir, fun _ _ => rfl,
      fun _ => rfl⟩
  | mklink parent name link mem =>
    obtain ⟨rfl, hshort, hnul⟩ := h
    exact .inr ⟨name, tSymlink, link, mem, rfl, hshort, hnul, fun _ _ => alone_mklink,
      fun _ _ => rfl, fun _ => rfl⟩
  | unlink parent name =>
    obtain ⟨rfl, hshort, hnul⟩ := h
    exact .inl ⟨name, rfl, hshort, hnul⟩
  | _ => exact h.elim

/-! ## Lists without repetition -/

section

variable {α β : Type*} [DecidableEq β] {f : α → β} {l : List α} {x : α} {i : ℕ}

theorem eraseIdx_eq_filter (hl : (l.map f).Nodup) (hx : l[i]? = some x) :
    l.eraseIdx i = l.filter fun y => f y ≠ f x := by
  induction l generalizing i with
  | nil => simp at hx
  | cons y l ih =>
    rw [List.map_cons, List.nodup_cons] at hl
    cases i with
    | zero =>
      rw [List.getElem?_cons_zero, Option.some_inj] at hx
      subst hx
      have hall : ∀ z ∈ l, decide (f z ≠ f y) = true := fun z hz =>
        decide_eq_true fun heq => hl.1 (heq ▸ List.mem_map_of_mem hz)
      rw [List.eraseIdx_cons_zero, List.filter_cons_of_neg (by simp), List.filter_eq_self.2 hall]
    | succ i =>
      rw [List.getElem?_cons_succ] at hx
      have hne : f y ≠ f x := fun heq =>
        hl.1 (heq ▸ List.mem_map_of_mem (List.mem_of_getElem? hx))
      rw [List.eraseIdx_cons_succ, ih hl.2 hx, List.filter_cons_of_pos (by simpa using hne)]

theorem find?_eq_some_of_nodup (hl : (l.map f).Nodup) (hx : x ∈ l) :
    l.find? (fun y => f y = f x) = some x := by
  obtain ⟨y, hy⟩ := Option.isSome_iff_exists.1
    (List.find?_isSome.2 ⟨x, hx, decide_eq_true rfl⟩ : (l.find? fun y => f y = f x).isSome)
  have heq : f y = f x := by simpa using List.find?_some hy
  rw [hy, List.inj_on_of_nodup_map hl (List.mem_of_find?_eq_some hy) hx heq]

end

/-! ## The file -/

/-- The file of the directory `d` is the records of `l`. -/
structure Holds (d : ℕ) (l : List Dirent) (s : Store) : Prop where
  type : (s d).type = tDir
  file : ∃ es, (s d).data = dirFile es ∧ (∀ e ∈ es, e.Terminated) ∧ es.map Entry.dirent = l
  nodup : (l.map Dirent.name).Nodup
  /-- The directory is not in itself. -/
  other : ∀ x ∈ l, x.inum ≠ d

namespace Holds

variable {S : Server} {d : ℕ} {l : List Dirent} {s s' : Store} {name : Bytes} {i : ℕ} {op : Op}
  {r : Reply}

theorem live (h : Holds d l s) : (s d).type ≠ 0 := by
  rw [h.type]
  decide

theorem multiple (h : Holds d l s) : (s d).data.length % entrySize = 0 := by
  obtain ⟨es, hfile, -, -⟩ := h.file
  rw [hfile, length_dirFile, Nat.mul_mod_right]

theorem dirents_eq (h : Holds d l s) : dirents (s d).data = l := by
  obtain ⟨es, hfile, hterm, hl⟩ := h.file
  rw [hfile, dirents_dirFile hterm, hl]

theorem find_none (h : Holds d l s) :
    findEntry (s d).data name = none ↔ name ∉ l.map Dirent.name := by
  obtain ⟨es, hfile, hterm, hl⟩ := h.file
  rw [hfile, findEntry_dirFile_none hterm, ← hl, List.map_map, List.mem_map]
  exact ⟨fun hne ⟨e, he, heq⟩ => hne e he heq, fun hno e he heq => hno ⟨e, he, heq⟩⟩

theorem find_some (h : Holds d l s) (hi : findEntry (s d).data name = some i) :
    ∃ x, l[i]? = some x ∧ x.name = name ∧ (entryInum (s d).data i).toNat = x.inum := by
  obtain ⟨es, hfile, hterm, hl⟩ := h.file
  rw [hfile] at hi ⊢
  obtain ⟨e, he, hname⟩ := findEntry_dirFile_some hterm hi
  refine ⟨e.dirent, ?_, hname, ?_⟩
  · rw [← hl, List.getElem?_map, he]
    rfl
  · rw [entryInum_dirFile he]
    rfl

/-- A new record at the end. -/
theorem snoc (h : Holds d l s) (hlen : name.length < nameSize) (hnul : 0 ∉ name)
    (hnew : name ∉ l.map Dirent.name) (mem : ℕ → UInt8) {ino : ℕ} (hino : ino < 4294967296)
    (hne : d ≠ ino) (e : Extent) :
    Holds d (l ++ [⟨name, ino⟩]) (withEntry s d name mem ino e) where
  type := by
    rw [withEntry, Function.update_self]
    exact h.type
  file := by
    obtain ⟨es, hfile, hterm, hl⟩ := h.file
    refine ⟨es ++ [newEntry mem name ino], ?_, ?_, ?_⟩
    · rw [withEntry, Function.update_self, hfile, append_dirFile]
      rfl
    · intro e he
      rcases List.mem_append.1 he with he | he
      · exact hterm e he
      · rw [List.mem_singleton.1 he]
        exact newEntry_terminated mem ino hlen
    · rw [List.map_append, hl, List.map_singleton, Entry.dirent, newEntry_name mem ino hlen hnul]
      have htoNat : (newEntry mem name ino).inum.toNat = ino := UInt32.toNat_ofNat_of_lt' hino
      rw [htoNat]
  nodup := by
    rw [List.map_append, List.map_singleton, List.nodup_append]
    refine ⟨h.nodup, List.nodup_singleton _, fun a ha b hb heq => ?_⟩
    rw [heq, List.mem_singleton.1 hb] at ha
    exact hnew ha
  other x hx := by
    rcases List.mem_append.1 hx with hx | hx
    · exact h.other x hx
    · rw [List.mem_singleton.1 hx]
      exact Ne.symm hne

/-- A record less. -/
theorem erase (h : Holds d l s) (hi : findEntry (s d).data name = some i) :
    Holds d (l.filter fun x => x.name ≠ name) (withoutEntry s d i) where
  type := by
    rw [withoutEntry, Function.update_self]
    exact h.type
  file := by
    obtain ⟨x, hx, rfl, -⟩ := h.find_some hi
    obtain ⟨es, hfile, hterm, hl⟩ := h.file
    refine ⟨es.eraseIdx i, ?_, fun e he => hterm e (List.mem_of_mem_eraseIdx he), ?_⟩
    · rw [withoutEntry, Function.update_self, hfile, splice_dirFile]
      rfl
    · rw [← List.eraseIdx_map, hl, eraseIdx_eq_filter h.nodup hx]
  nodup := h.nodup.sublist (List.filter_sublist.map Dirent.name)
  other x hx := h.other x (List.mem_of_mem_filter hx)

/-! ## Requests -/

/-- What `kreate` comes to on such a directory. -/
theorem kreated_eq (h : Holds d l s) (hlen : name.length < nameSize) (fileType : UInt32)
    (content : Bytes) (mem : ℕ → UInt8) :
    kreated S s d name fileType content mem =
      if name ∈ l.map Dirent.name then some (.status .exist, s)
      else
        (S.next fun id => (s id).type).map fun ino =>
          (.inode ino, withEntry s d name mem ino ⟨fileType, content⟩) := by
  have hshort : ¬ entrySize ≤ name.length := Nat.not_le.2 (Nat.lt_trans hlen (by decide))
  rw [kreated, if_neg (not_not.2 h.multiple)]
  cases hfind : findEntry (s d).data name with
  | none => rw [if_neg (h.find_none.1 hfind), if_neg hshort]
  | some i =>
    have hin : name ∈ l.map Dirent.name := by
      by_contra hno
      rw [h.find_none.2 hno] at hfind
      cases hfind
    rw [if_pos hin]

/-- What `unlink` comes to. -/
theorem unlinked_eq (h : Holds d l s) :
    unlinked s d name = match findEntry (s d).data name with
      | none => some (.status .noent, s)
      | some i => some (.status .ok, withoutEntry s d i) := by
  rw [unlinked, if_neg (not_not.2 h.multiple)]
  cases hfind : findEntry (s d).data name with
  | none => rfl
  | some i =>
    obtain ⟨x, hx, -, hinum⟩ := h.find_some hfind
    have hne : (entryInum (s d).data i).toNat ≠ d := hinum ▸ h.other x (List.mem_of_getElem? hx)
    simp only
    rw [if_neg hne]

/-- One request that is carried out. -/
theorem step (h : Holds d l s) (hop : op.Changes d)
    (hs : op.code.alone S.heap [] s = some (r, s')) : Holds d (note l op r) s' := by
  rcases hop.cases with ⟨name, rfl, -⟩ | ⟨name, t, content, mem, hmake⟩
  · rw [alone_unlink, h.unlinked_eq] at hs
    cases hfind : findEntry (s d).data name with
    | none =>
      rw [hfind] at hs
      obtain ⟨rfl, rfl⟩ := Prod.mk.inj (Option.some_inj.1 hs)
      exact h
    | some i =>
      rw [hfind] at hs
      obtain ⟨rfl, rfl⟩ := Prod.mk.inj (Option.some_inj.1 hs)
      exact h.erase hfind
  · rw [hmake.alone S s h.live, h.kreated_eq hmake.short] at hs
    split at hs
    next =>
      obtain ⟨rfl, rfl⟩ := Prod.mk.inj (Option.some_inj.1 hs)
      rwa [hmake.note_exist]
    next hnew =>
      obtain ⟨ino, hino, hs⟩ := Option.map_eq_some_iff.1 hs
      obtain ⟨rfl, rfl⟩ := Prod.mk.inj hs
      rw [hmake.note_inode]
      exact h.snoc hmake.short hmake.noNul hnew mem (S.next_lt _ _ hino) (S.next_ne h.live hino) _

/-- **Everybody sees the same map.** -/
theorem isMap (h : Holds d l s) : IsMap S d l s where
  multiple := h.multiple
  nodup := by
    rw [h.dirents_eq]
    exact h.nodup
  readdir := by
    rw [alone_readdir, if_neg (not_not.2 h.multiple), h.dirents_eq]
  lookup name := by
    rw [alone_lookup, if_neg (not_not.2 h.type), if_neg (not_not.2 h.multiple)]
    cases hfind : findEntry (s d).data name with
    | none =>
      have hno : l.find? (fun x => x.name = name) = none := by
        rw [List.find?_eq_none]
        intro x hx hname
        exact h.find_none.1 hfind (of_decide_eq_true hname ▸ List.mem_map_of_mem hx)
      rw [hno]
      rfl
    | some i =>
      obtain ⟨x, hx, rfl, hinum⟩ := h.find_some hfind
      rw [find?_eq_some_of_nodup h.nodup (List.mem_of_getElem? hx), Option.map_some,
        Option.map_some, hinum]
  exist op name hop hname hin := by
    rcases hop.cases with ⟨name, rfl, -⟩ | ⟨name', t, content, mem, hmake⟩
    · cases hname
    · rw [hmake.creates, Option.some_inj] at hname
      rw [hmake.alone S s h.live, h.kreated_eq hmake.short, hname, if_pos hin]
  noent name hno := by
    rw [alone_unlink, h.unlinked_eq, h.find_none.2 hno]
  goes op hop hnone := by
    rcases hop.cases with ⟨name, rfl, -⟩ | ⟨name, t, content, mem, hmake⟩
    · rw [alone_unlink, h.unlinked_eq] at hnone
      split at hnone <;> cases hnone
    · rw [hmake.alone S s h.live, h.kreated_eq hmake.short] at hnone
      split at hnone
      next => cases hnone
      next hnew => exact ⟨Option.map_eq_none_iff.1 hnone, name, hmake.creates, hnew⟩

end Holds

section

variable {S : Server} {d : ℕ} {s₀ s : Store} {log : List (κ × Op × Reply)}

theorem holds_of_log (h₀ : s₀ d = ⟨tDir, []⟩) (hlog : ∀ e ∈ log, e.2.1.Changes d)
    (hrun : OneAtATime S.heap Op.code s₀ log s) : Holds d (listing log) s := by
  induction hrun with
  | nil =>
    exact ⟨by rw [h₀], ⟨[], by rw [h₀]; rfl, by simp, rfl⟩, List.nodup_nil, by simp [listing]⟩
  | snoc c _ hop ih =>
    rw [listing, List.foldl_append]
    exact (ih fun e he => hlog e (List.mem_append_left _ he)).step
      (hlog _ (List.mem_append_right _ List.mem_cons_self)) hop

/-- **A directory is a finite map**, after any number of requests from anybody, if it was empty
before them. -/
theorem directory_is_map (h₀ : s₀ d = ⟨tDir, []⟩) (hlog : ∀ e ∈ log, e.2.1.Changes d)
    (hrun : OneAtATime S.heap Op.code s₀ log s) : IsMap S d (listing log) s :=
  (holds_of_log h₀ hlog hrun).isMap

end

/-- A directory `d`, and an attempt to unlink `e`. -/
theorem directory_is_map_mkdir_unlink :
    ∃ s, OneAtATime Server.lowest.heap Op.code emptyRoot
      [((), .mkdir 1 [100] fun _ => 0, .inode 2), ((), .unlink 1 [101], .status .noent)] s ∧
      IsMap .lowest 1 [⟨[100], 2⟩] s := by
  have hrun : OneAtATime Server.lowest.heap Op.code emptyRoot
      [((), .mkdir 1 [100] fun _ => 0, .inode 2), ((), .unlink 1 [101], .status .noent)] _ :=
    .snoc () (.snoc () .nil rfl) rfl
  exact ⟨_, hrun, directory_is_map rfl (by simp [Op.Changes, nameSize]) hrun⟩

end Yfs
end CseLab
