import CseLab.Lib.Atomic.Serial
import CseLab.Yfs.Ops
import Mathlib.Data.List.Permutation

/-!
# Many clients at once

The clients share the extent server and the lock server.  Every operation locks the inode it is
about, and `unlink` and `mklink` also the one that the name stands for, and each of them reads
before it writes.  So if locks are got only of inodes that are there, the operations are as good as
atomic: `operations_atomic`.

But when a client waits for the lock of an inode, another may be unlinking it; and when it has got
the lock, nothing but `lookup` looks whether the inode is still there.  It is then free for the next
`create`, which does not ask for its lock: `not_operations_atomic` is a run in which two files get
mixed up so.
-/

set_option autoImplicit false

namespace CseLab
namespace Yfs

open Atomic (Act OneAtATime Proc Sound System ofClient)
open Inode (tDir)

/-! ## Every operation reads before it writes -/

section

variable {S : Server} {parent ino : ℕ} {name buf : Bytes} {t : UInt32} {mem : ℕ → UInt8}

theorem live_new (ht : t ≠ 0) (data : Bytes) : S.heap.Live ⟨t, data⟩ := ht

theorem kind_put (buf : Bytes) (e : Extent) : S.heap.kind (e.put buf) = S.heap.kind e := rfl

/-- The only lock is given up, and that is that. -/
theorem writing_release (r : Reply) :
    Proc.Writing S.heap [ino] (.release ino (.ret r)) := by
  refine ⟨List.mem_singleton_self _, List.not_mem_nil, ?_⟩
  rw [List.erase_cons_head]
  rfl

theorem reading_release (r : Reply) :
    Proc.Reading S.heap [ino] (.release ino (.ret r)) := by
  refine ⟨List.mem_singleton_self _, rfl, ?_⟩
  rw [List.erase_cons_head]
  rfl

theorem reading_put_release (buf : Bytes) (r : Reply) :
    Proc.Reading S.heap [ino] (.put ino (·.put buf) (.release ino (.ret r))) :=
  ⟨List.mem_singleton_self _, kind_put buf, fun _ hj => absurd hj List.not_mem_nil,
    writing_release r⟩

theorem reading_kreate {k : Option ℕ → Code} (ht : t ≠ 0)
    (hnone : Proc.Reading S.heap [parent] (k none))
    (hsome : ∀ ino, ino ≠ parent → (∀ j ∈ (k (some ino)).modifies, j = ino) ∧
      Proc.Writing S.heap [parent] (k (some ino))) :
    Proc.Reading S.heap [parent] (Client.kreate parent name t mem k) := by
  refine ⟨List.mem_singleton_self _, fun e => ?_⟩
  simp only
  split
  next => trivial
  next =>
    split
    next => exact hnone
    next =>
      split
      next => trivial
      next =>
        refine ⟨live_new ht [], fun ino hino => ?_⟩
        obtain ⟨hmodifies, hwriting⟩ := hsome ino fun heq => hino (List.mem_singleton.2 heq)
        refine ⟨fun j hj => ?_, List.mem_singleton_self _, kind_put _, hwriting⟩
        rcases List.mem_cons.1 hj with rfl | hj
        · exact .inl (List.mem_singleton_self _)
        · exact .inr (hmodifies j hj)

theorem reading_kreate_release (ht : t ≠ 0) :
    Proc.Reading S.heap [parent] (Client.kreate parent name t mem fun ino =>
      .release parent (.ret (Client.kreateReply ino))) :=
  reading_kreate ht (reading_release _) fun _ _ =>
    ⟨fun _ hj => absurd hj List.not_mem_nil, writing_release _⟩

theorem reading_mklink {link : Bytes} :
    Proc.Reading S.heap [] (Client.mklink parent name link mem) := by
  refine .inr (reading_kreate (by decide) (reading_release _) fun ino hino => ⟨?_, ?_⟩)
  · intro j hj
    rcases List.mem_cons.1 hj with rfl | hj
    · rfl
    · exact absurd hj List.not_mem_nil
  · refine ⟨fun hmem => hino (List.mem_singleton.1 hmem), List.mem_cons_self, List.mem_cons_self,
      kind_put link, List.mem_cons_self, List.not_mem_nil, ?_⟩
    rw [List.erase_cons_head]
    exact writing_release _

theorem reading_unlink : Proc.Reading S.heap [] (Client.unlink parent name) := by
  refine .inr ⟨List.mem_singleton_self _, fun e => ?_⟩
  simp only
  split
  next => trivial
  next =>
    split
    next => exact reading_release _
    next i _ =>
      by_cases hself : (entryInum e.data i).toNat = parent
      · exact .inl (List.mem_singleton.2 hself)
      · refine .inr ⟨List.mem_cons_self, fun j hj => ?_, List.mem_cons_self, ?_, ?_⟩
        · rcases List.mem_cons.1 hj with rfl | hj
          · exact ⟨List.mem_cons_of_mem _ (List.mem_singleton_self _), Ne.symm hself⟩
          · exact absurd hj List.not_mem_nil
        · intro hmem
          rcases List.mem_cons.1 hmem with heq | hmem
          · exact hself heq
          · exact absurd hmem List.not_mem_nil
        · rw [List.erase_cons_head]
          exact ⟨List.mem_singleton_self _, kind_put _, writing_release _⟩

theorem reading_lookup : Proc.Reading S.heap [] (Client.lookup parent name) := by
  refine .inr ⟨List.mem_singleton_self _, fun a => ?_⟩
  simp only
  split
  next => exact reading_release _
  next =>
    refine ⟨List.mem_singleton_self _, fun e => ?_⟩
    simp only
    split
    next => trivial
    next => exact reading_release _

end

theorem Op.reading (S : Server) (op : Op) : op.code.Reading S.heap [] := by
  cases op with
  | create parent name mem => exact .inr (reading_kreate_release (by decide))
  | mkdir parent name mem => exact .inr (reading_kreate_release (by decide))
  | mklink parent name link mem => exact reading_mklink
  | unlink parent name => exact reading_unlink
  | lookup parent name => exact reading_lookup
  | readdir dir =>
    refine .inr ⟨List.mem_singleton_self _, fun e => ?_⟩
    simp only
    split
    next => trivial
    next => exact reading_release _
  | read ino size off =>
    refine .inr ⟨List.mem_singleton_self _, fun e => ?_⟩
    simp only
    split
    next => trivial
    next => exact reading_release _
  | write ino data off =>
    refine .inr ⟨List.mem_singleton_self _, fun e => ?_⟩
    simp only
    split
    next => trivial
    next => exact reading_put_release _ _
  | setattr ino size =>
    exact .inr ⟨List.mem_singleton_self _, fun e => reading_put_release _ _⟩

/-! ## As good as atomic -/

/-- **The operations are atomic** in every run in which a client that gets a lock, gets that of an
inode that is there and is not a link that another client has made and not yet written. -/
theorem operations_atomic {κ : Type*} [DecidableEq κ] {S : Server} {s₀ : Store}
    {as : List (Act κ Op)} {s : System κ Op ℕ Extent Reply}
    (hrun : Run (System.step S.heap Op.code) (Sound S.heap) (System.start s₀) as s)
    (hidle : ∀ c, s.thread c = none) :
    ∃ log, OneAtATime S.heap Op.code s₀ log s.store ∧ ∀ c, ofClient c log =
      ofClient c (observe (System.step S.heap Op.code) System.returned (System.start s₀) as) :=
  Atomic.one_at_a_time (Op.reading S) hrun hidle

/-- Whether a step is sound, computed. -/
def sound {n : ℕ} (s : System (Fin n) Op ℕ Extent Reply) : Act (Fin n) Op → Bool
  | .call _ _ => true
  | .go c =>
    match s.thread c with
    | some ⟨_, .acquire i _, _, _⟩ =>
      decide ((s.store i).type ≠ 0) && (List.finRange n).all fun d =>
        d = c || (s.thread d).all fun u => !u.made.contains i || !u.prog.modifies.contains i
    | _ => true

theorem sound_of_eq_true {n : ℕ} {S : Server} {s : System (Fin n) Op ℕ Extent Reply}
    {a : Act (Fin n) Op} (h : sound s a = true) : Sound S.heap s a := by
  cases a with
  | call c op => trivial
  | go c =>
    intro t i p ht hp
    obtain ⟨op, prog, held, made⟩ := t
    obtain rfl : prog = .acquire i p := hp
    simp only [sound, ht, Bool.and_eq_true, decide_eq_true_eq] at h
    refine ⟨h.1, fun d u hd hu hmade hmod => ?_⟩
    have hall := List.all_eq_true.1 h.2 d (List.mem_finRange d)
    simp [hd, hu, hmade, hmod] at hall

/-- Two clients create `f`, client 1 as soon as client 0 gives up the lock of the directory. -/
def twoCreates : List (Act (Fin 2) Op) :=
  [.call 0 (.create 1 [102] fun _ => 0), .call 1 (.create 1 [102] fun _ => 0)] ++
    List.replicate 5 (.go 0) ++ List.replicate 2 (.go 1) ++ [.go 0, .go 1, .go 1]

theorem operations_atomic_twoCreates : ∃ s log,
    execute (System.step Server.lowest.heap Op.code) (System.start emptyRoot) twoCreates = some s ∧
    OneAtATime Server.lowest.heap Op.code emptyRoot log s.store ∧ ∀ c, ofClient c log =
      ofClient c (observe (System.step Server.lowest.heap Op.code) System.returned
        (System.start emptyRoot) twoCreates) := by
  have hend : (execute (guarded (System.step Server.lowest.heap Op.code) fun s a => sound s a = true)
      (System.start emptyRoot) twoCreates).map
      (fun s => (List.finRange 2).all fun c => (s.thread c).isNone) = some true := by
    decide +kernel
  obtain ⟨s, hs, hidle⟩ := Option.map_eq_some_iff.1 hend
  have hrun : Run (System.step Server.lowest.heap Op.code) (Sound Server.lowest.heap)
      (System.start emptyRoot) twoCreates s :=
    (Run.of_guarded hs).mono fun _ _ h => sound_of_eq_true h
  obtain ⟨log, hserial, hclients⟩ := operations_atomic hrun fun c =>
    Option.isNone_iff_eq_none.1 (List.all_eq_true.1 hidle c (List.mem_finRange c))
  exact ⟨s, log, hrun.execute_eq, hserial, hclients⟩

/-! ## Where they are not -/

/-- The inode whose unlink is issued, or carried out. -/
def unlinks {κ : Type*} (s : System κ Op ℕ Extent Reply) (a : Act κ Op)
    (_ : System κ Op ℕ Extent Reply) : List ℕ :=
  match a with
  | .call _ (.unlink parent name) =>
    ((findEntry (s.store parent).data name).map fun i =>
      (entryInum (s.store parent).data i).toNat).toList
  | .call _ _ => []
  | .go c =>
    match s.thread c with
    | some ⟨_, .remove inum _, _, _⟩ => [inum]
    | _ => []

/-- No operation is issued on an inode after an unlink of it was issued. -/
def NoneAfterUnlink {κ : Type*} [DecidableEq κ] (S : Server) (s₀ : Store) (as : List (Act κ Op)) :
    Prop :=
  ∀ n c op, as[n]? = some (.call c op) →
    op.inode ∉ observe (System.step S.heap Op.code) unlinks (System.start s₀) (as.take n)

/-- The same, computed. -/
def noneAfterUnlink {κ : Type*} [DecidableEq κ] (S : Server) (s₀ : Store)
    (as : List (Act κ Op)) : Bool :=
  (List.range as.length).all fun n =>
    match as[n]? with
    | some (.call _ op) =>
      !(observe (System.step S.heap Op.code) unlinks (System.start s₀) (as.take n)).contains op.inode
    | _ => true

theorem noneAfterUnlink_of_eq_true {κ : Type*} [DecidableEq κ] {S : Server} {s₀ : Store}
    {as : List (Act κ Op)} (h : noneAfterUnlink S s₀ as = true) : NoneAfterUnlink S s₀ as := by
  intro n c op hn
  have hlt : n < as.length := (List.getElem?_eq_some_iff.1 hn).1
  have hall := List.all_eq_true.1 h n (List.mem_range.2 hlt)
  simpa [hn] using hall

/-- Carry out the operations of a log one at a time, as long as they return what the log says. -/
def replay {κ : Type*} (S : Server) : Store → List (κ × Op × Reply) → Option Store
  | s, [] => some s
  | s, (_, op, r) :: log =>
    match op.code.alone S.heap [] s with
    | none => none
    | some (r', s') => if r' = r then replay S s' log else none

theorem replay_append {κ : Type*} {S : Server} {s s' : Store} {log log' : List (κ × Op × Reply)}
    (h : replay S s log = some s') : replay S s (log ++ log') = replay S s' log' := by
  induction log generalizing s with
  | nil =>
    rw [replay, Option.some_inj] at h
    rw [List.nil_append, h]
  | cons e log ih =>
    obtain ⟨c, op, r⟩ := e
    rw [replay] at h
    rw [List.cons_append, replay]
    split at h
    next => cases h
    next r₁ s₁ halone =>
      obtain ⟨hr, h⟩ := Option.ite_none_right_eq_some.1 h
      simp only [if_pos hr]
      exact ih h

theorem replay_of_oneAtATime {κ : Type*} {S : Server} {s₀ s : Store} {log : List (κ × Op × Reply)}
    (h : OneAtATime S.heap Op.code s₀ log s) : replay S s₀ log = some s := by
  induction h with
  | nil => rfl
  | snoc c _ hop ih =>
    rw [replay_append ih, replay, hop]
    simp only [if_pos, replay]

/-- A root directory with a file `f`, which is inode 2. -/
def oneFile : Store := withEntry emptyRoot 1 [102] (fun _ => 0) 2 ⟨tFile, []⟩

/-- Client 0 writes `xx` into the file `f`, client 1 writes `y`, and client 2 unlinks it; client 2
gets the lock first.  Client 0 writes, and looks for `g`, which is not there.  Client 1 reads what
client 0 has written, client 3 creates `g`, which is inode 2 now, and client 1 writes. -/
def mixUp : List (Act (Fin 4) Op) :=
  [.call 0 (.write 2 [120, 120] 0), .call 1 (.write 2 [121] 0), .call 2 (.unlink 1 [102])] ++
    List.replicate 8 (.go 2) ++ List.replicate 5 (.go 0) ++ [.call 0 (.lookup 1 [103])] ++
    List.replicate 5 (.go 0) ++ List.replicate 2 (.go 1) ++ [.call 3 (.create 1 [103] fun _ => 0)] ++
    List.replicate 6 (.go 3) ++ List.replicate 3 (.go 1)

/-- What has been returned. -/
def mixedUp : List (Fin 4 × Op × Reply) :=
  observe (System.step Server.lowest.heap Op.code) System.returned (System.start oneFile) mixUp

/-- **Files get mixed up.**  There is no order of the operations in `mixUp`, with what they have
returned, after which `yx` is in the new file: of `yx`, `x` was written before client 0 looked for
`g`, and the file was made after that. -/
theorem not_operations_atomic : ¬ ∀ (n : ℕ) (S : Server) (s₀ : Store) (as : List (Act (Fin n) Op))
    (s : System (Fin n) Op ℕ Extent Reply),
    Run (System.step S.heap Op.code) anyStep (System.start s₀) as s → NoneAfterUnlink S s₀ as →
    (∀ c, s.thread c = none) →
    ∃ log, OneAtATime S.heap Op.code s₀ log s.store ∧ ∀ c, ofClient c log =
      ofClient c (observe (System.step S.heap Op.code) System.returned (System.start s₀) as) := by
  intro h
  have hend : (execute (System.step Server.lowest.heap Op.code) (System.start oneFile) mixUp).map
      (fun s => ((s.store 2).data, (List.finRange 4).all fun c => (s.thread c).isNone)) =
      some ([121, 120], true) := by
    decide +kernel
  obtain ⟨s, hs, hend⟩ := Option.map_eq_some_iff.1 hend
  obtain ⟨hdata, hidle⟩ := Prod.mk.inj hend
  have hidle : ∀ c, s.thread c = none := fun c =>
    Option.isNone_iff_eq_none.1 (List.all_eq_true.1 hidle c (List.mem_finRange c))
  obtain ⟨log, hserial, hclients⟩ := h 4 .lowest oneFile mixUp s (.of_execute hs)
    (noneAfterUnlink_of_eq_true (by decide +kernel)) hidle
  have hno : mixedUp.permutations'.all (fun l =>
      decide ((ofClient 0 l).map (fun e => e.2.2) ≠ (ofClient 0 mixedUp).map fun e => e.2.2) ||
        (replay .lowest oneFile l).all fun s => (s 2).data ≠ [121, 120]) = true := by
    decide +kernel
  have hlog := List.all_eq_true.1 hno log
    (List.mem_permutations'.2 (Atomic.perm_of_ofClient hclients))
  rw [replay_of_oneAtATime hserial, hclients 0] at hlog
  simp [mixedUp, hdata] at hlog

end Yfs
end CseLab
