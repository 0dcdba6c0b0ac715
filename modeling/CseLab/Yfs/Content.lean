import CseLab.Yfs.Limit

/-!
# Files through the whole stack

A user's `write` or `setattr` is a `get` of the whole file, some work on strings and a `put` of the
whole file, and the `put` spreads it over blocks.  As long as there is room, the file is then what
`Posix` says (`content_eq_model`), through any number of requests, whatever else the server is asked
about other files in between, and whether the file grows or shrinks on the way.
-/

set_option autoImplicit false

namespace CseLab
namespace Yfs

open Inode (BlockManager System inodeOf inodeOf_of_lt maxFile blockSize)
open Ydb.Plain (extentGet extentPut)

/-- What a request is meant to make of its file. -/
def Request.result (old : Bytes) : Request → Bytes
  | .setattr _ size => Posix.truncate old size
  | .write _ data off => Posix.write old data off
  | .set _ value => value

theorem Request.length_result (old : Bytes) (r : Request) :
    (r.result old).length = r.resultSize old := by
  cases r with
  | setattr ino size => exact Posix.length_truncate old size
  | write ino data off =>
    rw [Request.result, Request.resultSize, Posix.length_write]
    omega
  | set key value => rfl

/-! ## The machine -/

/-- What the server is asked: a user's request, or one call of `inode_manager`. -/
inductive Action
  | call (c : Inode.Action)
  | request (r : Request) (a : Ambient)

/-- A request is taken up for a live file, and must be answered. -/
def step (s : System) : Action → Option System
  | .call c => s.step c
  | .request r a =>
    if r.eid ∈ s.live then
      match serve s.m a r with
      | .answered _ m => some ⟨m, s.live⟩
      | _ => none
    else none

/-- There is room for what is written, in a file and on the disk. -/
def HasRoom (s : System) : Action → Prop
  | .call (.write i buf _ _) => s.m.Fits i buf
  | .call _ => True
  | .request r a => FitsFile s.m r a ∧ s.m.Fits r.eid (r.result (before s.m r a))

/-- File `i` is not removed, and is written by requests only. -/
def Spares (i : ℕ) : Action → Prop
  | .call (.write j _ _ _) => j ≠ i
  | .call (.remove j) => j ≠ i
  | _ => True

/-- What an action is meant to make of file `i`. -/
def Action.apply (i : ℕ) (c : Bytes) : Action → Bytes
  | .call _ => c
  | .request r _ => if r.eid = i then r.result c else c

/-! ## One request -/

variable {s s' s₀ s₁ s₂ : System} {as bs : List Action} {a : Ambient} {r : Request} {i j : ℕ}
  {m : BlockManager} {now : UInt32}

theorem inodeOf_live (h : s.Inv) (hi : i ∈ s.live) : inodeOf i = i :=
  inodeOf_of_lt (h.sound.inums i hi)

/-- A `get` of a live file returns its contents. -/
theorem extentGet_live (h : s.Inv) (hi : i ∈ s.live) (now : UInt32) :
    extentGet s.m i now = (s.m.content i, (s.m.readFile i now).2) := by
  obtain ⟨hsize, hcontent, -⟩ := BlockManager.readFile_spec h.sound hi now
  rw [extentGet, inodeOf_live h hi]
  refine Prod.ext ?_ rfl
  dsimp only
  split
  next hzero =>
    have hlen := BlockManager.length_content (m := s.m) (i := i)
    rw [← hsize, hzero] at hlen
    exact (List.length_eq_zero_iff.1 hlen).symm
  next => exact hcontent

/-- The server as it is, with the live files as they were. -/
structure Alike (s : System) (m : BlockManager) : Prop where
  inv : System.Inv ⟨m, s.live⟩
  files : ∀ j ∈ s.live, m.fileSize j = s.m.fileSize j ∧ m.content j = s.m.content j
  freedData : m.freedData = s.m.freedData

theorem Alike.refl (h : s.Inv) : Alike s s.m := ⟨h, fun _ _ => ⟨rfl, rfl⟩, rfl⟩

/-- After a `get` all files are as they were. -/
theorem Alike.get (h : s.Inv) (hi : i ∈ s.live) (now : UInt32) :
    Alike s (s.m.readFile i now).2 := by
  obtain ⟨-, -, -, hsame, -⟩ := BlockManager.readFile_spec h.sound hi now
  have hstep : s.step (.read i now) = some ⟨(s.m.readFile i now).2, s.live⟩ := if_pos hi
  refine ⟨h.step (fun _ _ _ _ h => Inode.Action.noConfusion h) hstep, fun j hj => ?_,
    hsame.freedData.trans (BlockManager.writeInode_freedData _)⟩
  obtain ⟨hsize, -, hcontent⟩ := h.sound.stamp (h.sound.inums i hi) hsame hj
  exact ⟨hsize, hcontent⟩

theorem Alike.fits {buf : Bytes} (h : Alike s m) (hi : i ∈ s.live) (hfits : s.m.Fits i buf) :
    m.Fits i buf := by
  rw [BlockManager.Fits, BlockManager.inUse, BlockManager.needs] at hfits ⊢
  rwa [h.freedData, (h.files i hi).1]

/-- A file's contents are no longer than a file can be. -/
theorem length_content_le (h : s.Inv) (hi : i ∈ s.live) :
    (s.m.content i).length ≤ 116736 := by
  have hsmall := h.sound.small i hi
  rwa [Inode.maxFile_eq, Inode.blockSize_eq, ← BlockManager.length_content] at hsmall

/-- The `get` of a request is answered. -/
theorem get_live (h : s.Inv) (hi : i ∈ s.live) (a : Ambient) :
    get s.m i a = some (s.m.content i, (s.m.readFile i a.getTime).2) := by
  have hlen := length_content_le h hi
  simp only [get, extentGet_live h hi]
  rw [if_neg (by rw [maxPdu, rpcHeaderSz]; omega)]

/-- A request whose file fits puts what it is meant to. -/
theorem serve_live (h : s.Inv) (hi : r.eid ∈ s.live) (hfits : FitsFile s.m r a) :
    ∃ m, Alike s m ∧ serve s.m a r = put m r.eid (r.result (s.m.content r.eid)) a := by
  cases r with
  | setattr ino size =>
    have hino : ino ∈ s.live := hi
    have hlen : (s.m.content ino).length < 2147483648 :=
      Nat.lt_of_le_of_lt (length_content_le h hino) (by decide)
    refine ⟨_, .get h hino a.getTime, ?_⟩
    rw [serve, get_live h hino]
    simp only [setattrFile_eq hlen]
    rfl
  | write ino data off =>
    have hino : ino ∈ s.live := hi
    have hlen : (s.m.content ino).length < 2147483648 :=
      Nat.lt_of_le_of_lt (length_content_le h hino) (by decide)
    refine ⟨_, .get h hino a.getTime, ?_⟩
    have hoff : off < 2147483648 := by
      rw [FitsFile, Request.resultSize, Inode.maxFile_eq, Inode.blockSize_eq] at hfits
      omega
    rw [serve, get_live h hino]
    simp only [writeFile_eq hlen hoff]
    rfl
  | set key value => exact ⟨s.m, .refl h, rfl⟩

/-- **One request**: it is answered `OK`, its file is what it is meant to be, and the others are as
they were. -/
theorem request_spec (h : s.Inv) (hi : r.eid ∈ s.live) (hroom : HasRoom s (.request r a)) :
    ∃ m, serve s.m a r = .answered ok m ∧ System.Inv ⟨m, s.live⟩ ∧
      m.content r.eid = r.result (s.m.content r.eid) ∧
      ∀ j ∈ s.live, j ≠ r.eid → m.content j = s.m.content j := by
  obtain ⟨hfile, hdisk⟩ := hroom
  obtain ⟨m₁, halike, hserve⟩ := serve_live h hi hfile
  have hbefore : before s.m r a = s.m.content r.eid := congrArg Prod.fst (extentGet_live h hi _)
  rw [FitsFile, hbefore, ← Request.length_result] at hfile
  rw [hbefore] at hdisk
  obtain ⟨t, m, hw, hstep⟩ := Inode.System.write_step (s := ⟨m₁, s.live⟩) hi hfile a.junk a.putTime
  have hroomy : m.Roomy := BlockManager.roomy_of_fits (halike.fits hi hdisk) hw
  obtain ⟨-, hwritten⟩ := BlockManager.writeFile_spec halike.inv.sound hi hw hroomy
  refine ⟨m, ?_, ?_, hwritten.content, fun j hj hji => ?_⟩
  · rw [Inode.maxFile_eq, Inode.blockSize_eq] at hfile
    rw [hserve, put, if_neg (by rw [maxPdu, rpcHeaderSz]; omega), extentPut, inodeOf_live h hi, hw]
    rfl
  · exact halike.inv.step (fun _ _ _ _ _ => hroomy) hstep
  · rw [(hwritten.other halike.inv.sound hi hj hji).2.2, (halike.files j hj).2]

/-! ## Runs -/

/-- A request that there is room for is answered. -/
theorem step_request (h : s.Inv) (hi : r.eid ∈ s.live) (hroom : HasRoom s (.request r a)) :
    ∃ m, step s (.request r a) = some ⟨m, s.live⟩ ∧ System.Inv ⟨m, s.live⟩ ∧
      ∀ j ∈ s.live, m.content j = (Action.request r a).apply j (s.m.content j) := by
  obtain ⟨m, hserve, hinv, hcontent, hother⟩ := request_spec h hi hroom
  refine ⟨m, ?_, hinv, fun j hj => ?_⟩
  · rw [step, if_pos hi, hserve]
  · rw [Action.apply]
    split
    next heq => exact heq ▸ hcontent
    next hne => exact hother j hj (Ne.symm hne)

theorem inv_step {b : Action} (h : s.Inv) (hroom : HasRoom s b) (hs : step s b = some s') :
    s'.Inv := by
  cases b with
  | call c =>
    refine h.step (fun i buf junk now heq => ?_) hs
    subst heq
    obtain ⟨-, -, -, t, hw⟩ := Inode.System.step_write hs
    exact BlockManager.roomy_of_fits hroom hw
  | request r a =>
    have hi : r.eid ∈ s.live := (Option.ite_none_right_eq_some.1 hs).1
    obtain ⟨m, hs', hinv, -⟩ := step_request h hi hroom
    exact Option.some_inj.1 (hs'.symm.trans hs) ▸ hinv

theorem inv_run {ok : System → Action → Prop} (hok : ∀ s b, ok s b → HasRoom s b) (h : s₁.Inv)
    (hrun : Run step ok s₁ bs s) : s.Inv :=
  hrun.invariant (P := System.Inv) h fun s b _ hinv hb hs => inv_step hinv (hok s b hb) hs

/-- What a call of the server does to a file that it spares. -/
theorem call_spares {c : Inode.Action} (h : s.Inv) (hi : i ∈ s.live) (hroom : HasRoom s (.call c))
    (hspares : Spares i (.call c)) (hs : s.step c = some s') :
    i ∈ s'.live ∧ s'.m.content i = s.m.content i := by
  cases c with
  | create type now =>
    rcases Inode.System.create_cases h type now with
      ⟨n, m', hcreated, -, hnew, heq⟩ | ⟨-, m', hrefused, heq⟩
    · obtain rfl := Option.some_inj.1 (heq.symm.trans hs)
      have hne : i ≠ n := fun heq => hnew (heq ▸ hi)
      exact ⟨Finset.mem_insert_of_mem hi, (hcreated.other h.sound hi hne).2.2⟩
    · obtain rfl := Option.some_inj.1 (heq.symm.trans hs)
      exact ⟨hi, (hrefused.other h.sound hi).2.2⟩
  | write n buf junk now =>
    obtain ⟨hn, hlive, -, t, hw⟩ := Inode.System.step_write hs
    obtain ⟨-, hwritten⟩ := BlockManager.writeFile_spec h.sound hn hw
      (BlockManager.roomy_of_fits hroom hw)
    exact ⟨hlive ▸ hi, (hwritten.other h.sound hn hi (Ne.symm hspares)).2.2⟩
  | remove n =>
    obtain ⟨hn, hs⟩ := Option.ite_none_right_eq_some.1 hs
    obtain rfl := Option.some_inj.1 hs
    have hremoved := BlockManager.removeFile_spec (m := s.m) (h.sound.inums n hn)
    exact ⟨Finset.mem_erase.2 ⟨Ne.symm hspares, hi⟩,
      (hremoved.other h.sound hi (Ne.symm hspares)).2.2⟩
  | read n now =>
    obtain ⟨hn, hs⟩ := Option.ite_none_right_eq_some.1 hs
    obtain rfl := Option.some_inj.1 hs
    exact ⟨hi, ((Alike.get h hn now).files i hi).2⟩
  | getattr n now =>
    obtain ⟨hn, hs⟩ := Option.ite_none_right_eq_some.1 hs
    obtain rfl := Option.some_inj.1 hs
    obtain ⟨-, hsame, -⟩ := BlockManager.getattr_spec (m := s.m) n now
    exact ⟨hi, (h.sound.stamp (h.sound.inums n hn) hsame hi).2.2⟩

/-- One step, and what it makes of a file. -/
theorem content_step {b : Action} (h : s.Inv) (hi : i ∈ s.live) (hroom : HasRoom s b)
    (hspares : Spares i b) (hs : step s b = some s') :
    i ∈ s'.live ∧ s'.m.content i = b.apply i (s.m.content i) := by
  cases b with
  | call c => exact call_spares h hi hroom hspares hs
  | request r a =>
    have hr : r.eid ∈ s.live := (Option.ite_none_right_eq_some.1 hs).1
    obtain ⟨m, hs', -, hcontent⟩ := step_request h hr hroom
    obtain rfl := Option.some_inj.1 (hs'.symm.trans hs)
    exact ⟨hi, hcontent i hi⟩

theorem content_run (h : s₁.Inv) (hi : i ∈ s₁.live)
    (hrun : Run step (fun s b => HasRoom s b ∧ Spares i b) s₁ bs s₂) :
    i ∈ s₂.live ∧ s₂.m.content i = bs.foldl (Action.apply i) (s₁.m.content i) := by
  induction hrun with
  | nil => exact ⟨hi, rfl⟩
  | snoc hrun hok hs ih =>
    obtain ⟨hlive, hcontent⟩ := ih
    have hinv := inv_run (fun _ _ hb => hb.1) h hrun
    obtain ⟨hlive', hcontent'⟩ := content_step hinv hlive hok.1 hok.2 hs
    exact ⟨hlive', by rw [hcontent', hcontent, List.foldl_append]; rfl⟩

/-- **A file is an array of bytes.**  From any state that can be reached, and through any requests
that there is room for, a live file's contents are what its requests make of them one after another;
and a request that there is room for is answered. -/
theorem content_eq_model (h0 : System.start now = some s₀) (h₁ : Run step HasRoom s₀ as s₁)
    (hi : i ∈ s₁.live) (h₂ : Run step (fun s b => HasRoom s b ∧ Spares i b) s₁ bs s₂) :
    (∀ t t', (extentGet s₂.m i t).1 = bs.foldl (Action.apply i) (extentGet s₁.m i t').1) ∧
      ∀ r a, r.eid ∈ s₂.live → HasRoom s₂ (.request r a) →
        ∃ m, serve s₂.m a r = .answered ok m ∧ step s₂ (.request r a) = some ⟨m, s₂.live⟩ := by
  have hinv₁ := inv_run (fun _ _ => id) (Inode.System.Started.of_start h0).1.inv h₁
  have hinv₂ := inv_run (fun _ _ hb => hb.1) hinv₁ h₂
  obtain ⟨hi₂, hcontent⟩ := content_run hinv₁ hi h₂
  refine ⟨fun t t' => ?_, fun r a hr hroom => ?_⟩
  · rw [extentGet_live hinv₂ hi₂, extentGet_live hinv₁ hi]
    exact hcontent
  · obtain ⟨m, hserve, -⟩ := request_spec hinv₂ hr hroom
    exact ⟨m, hserve, by rw [step, if_pos hr, hserve]⟩

/-- One byte written two behind the end of an empty file. -/
theorem content_eq_model_gap : ∃ s₀ s, System.start 0 = some s₀ ∧
    Run step (fun s b => HasRoom s b ∧ Spares 1 b) s₀
      [.request (.write 1 [7] 2) ⟨0, ⟨.zero, .zero, fun _ => 0⟩, 0⟩] s ∧
    (extentGet s.m 1 0).1 = [0, 0, 7] := by
  obtain ⟨s₀, h0, hs₀, -⟩ := Inode.System.start_spec 0
  have hroot : 1 ∈ s₀.live := by simp [hs₀.live]
  have hempty : s₀.m.content 1 = [] :=
    List.length_eq_zero_iff.1 (BlockManager.length_content.trans hs₀.empty)
  have hbefore : ∀ t, (extentGet s₀.m 1 t).1 = [] := fun t =>
    (congrArg Prod.fst (extentGet_live hs₀.inv hroot t)).trans hempty
  have hroom : HasRoom s₀ (.request (.write 1 [7] 2) ⟨0, ⟨.zero, .zero, fun _ => 0⟩, 0⟩) := by
    refine ⟨?_, (Inode.System.empty_start h0).fits 1 ?_⟩
    · rw [FitsFile, before, Request.eid, hbefore, Inode.maxFile_eq, Inode.blockSize_eq]
      decide
    · rw [before, Request.eid, hbefore, Inode.blockSize_eq]
      decide
  obtain ⟨m, hs, -⟩ := step_request hs₀.inv
    (show (Request.write 1 [7] 2).eid ∈ s₀.live from hroot) hroom
  have hrun : Run step (fun s b => HasRoom s b ∧ Spares 1 b) s₀ _ _ :=
    .snoc .nil ⟨hroom, trivial⟩ hs
  refine ⟨s₀, _, h0, hrun, ?_⟩
  rw [(content_eq_model h0 .nil hroot hrun).1 0 0, hbefore]
  decide

end Yfs
end CseLab
