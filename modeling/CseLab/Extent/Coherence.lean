import CseLab.Extent.Copies
import CseLab.Lib.Run

/-!
# Coherence of the extent caches

`Inv` is what holds of an inode at any time, as long as the calls about it come one after another.
Each step of a call keeps it, and with that two things follow for clients that hold an extent's lock
while they are at it and keep to extents that are there.

* `System.coherent`: whoever asks is told what was last `put`.
* `System.owners_agree`: between two calls, the owner list and the copies agree, and a callback
  only ever reaches a client that has a copy.
-/

set_option autoImplicit false

namespace CseLab
namespace Extent

open Inode (Attr inodeNum inodeOf_of_lt tDir)

/-! ## The invariant -/

/-- Between two calls. -/
structure Quiet (fresh : Bool) (k : ℕ) (c : Cell) : Prop where
  agree : Agree k c.cache (known fresh c.log) (c.owners.getD [])
  backed : Backed k c.cache (known fresh c.log) c.file.data

/-- The `put` that is about to be put on record will leave `buf` as the contents. -/
def Puts (fresh : Bool) (c : Cell) (port : ℕ) (buf : Bytes) (starts : Bool) : Prop :=
  ∀ d ∈ content fresh (c.log ++ [.put port buf starts]), buf = d

/-- While the client at `port` has a call under way, which has got to the given place. -/
def Phase (fresh : Bool) (k : ℕ) (c : Cell) (port : ℕ) : Pc → Prop
  | .get _ => c.cache port k = none ∧ Quiet fresh k c
  | .sharing _ owner => c.cache port k = none ∧ Quiet fresh k c ∧ c.owners = some [owner]
  | .shared _ r => c.cache port k = none ∧ ∃ owner, c.owners = some [owner] ∧
      Agree k c.cache (known fresh c.log) [owner] ∧
      (∀ p e, c.cache p k = some e → e.status = .shared) ∧
      ∀ d ∈ (known fresh c.log).data, (if r.update then r.data else c.file.data) = d
  | .pulled _ r => c.cache port k = none ∧ ∃ owners, c.owners = some (owners ++ [port]) ∧
      Agree k c.cache (known fresh c.log) owners ∧
      (∀ p e, c.cache p k = some e → e.status = .shared) ∧
      (r.is_share = false → owners = []) ∧
      (∀ d ∈ (known fresh c.log).data, c.file.data = d) ∧
      (known fresh c.log).Fits r.data r.attr
  | .put buf starts => (c.cache port k).isSome ∧
      Others k c.cache port ((c.owners.getD []).filter (· ≠ port)) ∧ Puts fresh c port buf starts
  | .putting buf starts todo => (c.cache port k).isSome ∧ c.owners ≠ none ∧
      Others k c.cache port todo ∧ Puts fresh c port buf starts
  | .putDone buf starts type => (c.cache port k).isSome ∧ c.owners = some [port] ∧
      Others k c.cache port [] ∧ Puts fresh c port buf starts ∧ c.file.data = buf ∧
      ∀ t ∈ (known fresh c.log).type, type = t
  | .remove => c.cache port k = none ∧
      Others k c.cache port ((c.owners.getD []).filter (· ≠ port))
  | .removing todo => c.cache port k = none ∧ c.owners ≠ none ∧ Others k c.cache port todo
  | .created type => c.owners = some [port] ∧ Others k c.cache port [] ∧
      (∀ e, c.cache port k = some e → (known fresh c.log).Fits e.data e.attr) ∧
      (∀ d ∈ (known fresh c.log).data, [] = d) ∧ c.file.data = [] ∧
      ∀ t ∈ (known fresh c.log).type, type = t

/-- What a client is told is as known; with `fresh`, the extent is there. -/
def Told (fresh : Bool) (before : List Event) : Event → Prop
  | .got _ buf => (∃ a, (known fresh before).Fits buf a) ∧ (fresh → typeOf before ≠ none)
  | .attr _ a => (∃ buf, (known fresh before).Fits buf a) ∧ (fresh → typeOf before ≠ none)
  | _ => True

/-- The part of the invariant that calls hardly touch. -/
structure Base (fresh : Bool) (k : ℕ) (c : Cell) : Prop where
  crashed : c.crashed = false
  free : c.free → k < inodeNum
  range : typeOf c.log ≠ none → k < inodeNum
  size : c.file.attr.size = UInt32.ofNat c.file.data.length
  type : ∀ t ∈ (known fresh c.log).type, c.file.attr.type = t
  freed : fresh → c.free → typeOf c.log = none
  told : Journal (Told fresh) c.log

/-- What holds of inode `k` at any time.  With `fresh`, an extent that is not there has no owners,
and there are no calls about it. -/
structure Inv (fresh : Bool) (k : ℕ) (c : Cell) : Prop extends Base fresh k c where
  dead : fresh → typeOf c.log = none → c.pending = [] ∧ c.owners = none
  phase : (c.pending = [] ∧ Quiet fresh k c) ∨
    k < inodeNum ∧ ∃ port pc, c.pending = [⟨port, k, pc⟩] ∧ Phase fresh k c port pc

section Steps

variable {fresh : Bool} {k i p q : ℕ} {c c' : Cell} {pc pc' : Pc} {e : ExtentT}
  {now : UInt32}

theorem Base.of_eq (h : Base fresh k c) (hcrashed : c'.crashed = c.crashed)
    (hfree : c'.free = c.free) (hfile : c'.file = c.file) (hlog : c'.log = c.log) :
    Base fresh k c' :=
  ⟨hcrashed ▸ h.crashed, hfree ▸ h.free, hlog ▸ h.range, hfile ▸ h.size, hfile ▸ hlog ▸ h.type,
    hfree ▸ hlog ▸ h.freed, hlog ▸ h.told⟩

/-- With a call under way. -/
theorem Inv.busy (hk : k < inodeNum) (hbase : Base fresh k c)
    (hlive : fresh → typeOf c.log ≠ none) (hpending : c.pending = [⟨p, k, pc⟩])
    (hphase : Phase fresh k c p pc) : Inv fresh k c where
  toBase := hbase
  dead hfresh hnone := absurd hnone (hlive hfresh)
  phase := .inr ⟨hk, p, pc, hpending, hphase⟩

/-- With none. -/
theorem Inv.quiet (hbase : Base fresh k c)
    (hdead : fresh → typeOf c.log = none → c.owners = none) (hpending : c.pending = [])
    (hquiet : Quiet fresh k c) : Inv fresh k c where
  toBase := hbase
  dead hfresh hnone := ⟨hpending, hdead hfresh hnone⟩
  phase := .inl ⟨hpending, hquiet⟩

namespace Inv

theorem of_nil (h : Inv fresh k c) (hpending : c.pending = []) : Quiet fresh k c := by
  rcases h.phase with ⟨-, hquiet⟩ | ⟨-, port, pc, hcons, -⟩
  · exact hquiet
  · exact absurd (hpending.symm.trans hcons) nofun

/-- There is one call that can go on. -/
theorem of_getElem? {call : Call} (h : Inv fresh k c) (hcall : c.pending[i]? = some call) :
    i = 0 ∧ k < inodeNum ∧ (fresh → typeOf c.log ≠ none) ∧ ∃ p pc, call = ⟨p, k, pc⟩ ∧
      c.pending = [⟨p, k, pc⟩] ∧ Phase fresh k c p pc := by
  rcases h.phase with ⟨hnil, -⟩ | ⟨hk, p, pc, hpending, hphase⟩
  · rw [hnil, List.getElem?_nil] at hcall
    exact absurd hcall nofun
  · have hlive : fresh → typeOf c.log ≠ none := fun hfresh hnone => by
      rw [(h.dead hfresh hnone).1] at hpending
      exact absurd hpending nofun
    rw [hpending] at hcall
    cases i with
    | zero => exact ⟨rfl, hk, hlive, p, pc, (Option.some_inj.1 hcall).symm, hpending, hphase⟩
    | succ i => exact absurd hcall (by simp)

theorem of_pending (h : Inv fresh k c) (hpending : c.pending = [⟨p, k, pc⟩]) :
    (fresh → typeOf c.log ≠ none) ∧ Phase fresh k c p pc := by
  have hcall : c.pending[0]? = some ⟨p, k, pc⟩ := by rw [hpending]; rfl
  obtain ⟨-, -, hlive, q, pc', heq, -, hphase⟩ := h.of_getElem? hcall
  obtain ⟨rfl, -, rfl⟩ := Call.mk.inj heq
  exact ⟨hlive, hphase⟩

end Inv

/-! ## The beginning of a call -/

@[simp] theorem known_answer (c : Cell) (p : ℕ) (attr : Bool) (e : ExtentT) :
    known fresh (c.answer p attr e).log = known fresh c.log := by
  cases attr
  · exact known_got
  · exact known_attr

@[simp] theorem typeOf_answer (c : Cell) (p : ℕ) (attr : Bool) (e : ExtentT) :
    typeOf (c.answer p attr e).log = typeOf c.log := by
  cases attr
  · exact typeOf_got
  · exact typeOf_attr

/-- A client may be told what is as known. -/
theorem Base.answer (h : Base fresh k c) (hlive : fresh → typeOf c.log ≠ none)
    (hfits : (known fresh c.log).Fits e.data e.attr) (p : ℕ) (attr : Bool) :
    Base fresh k (c.answer p attr e) where
  crashed := h.crashed
  free := h.free
  range := by rw [typeOf_answer]; exact h.range
  size := h.size
  type := by rw [known_answer]; exact h.type
  freed := by rw [typeOf_answer]; exact h.freed
  told := h.told.snoc <| by
    cases attr
    · exact ⟨⟨e.attr, hfits⟩, hlive⟩
    · exact ⟨⟨e.data, hfits⟩, hlive⟩

/-- A `put` is put on record. -/
theorem Base.put (h : Base fresh k c) (p : ℕ) (buf : Bytes) (starts : Bool) :
    Base fresh k (c.note (.put p buf starts)) where
  crashed := h.crashed
  free := h.free
  range hne := h.range (typeOf_put ▸ hne)
  size := h.size
  type t ht := h.type t (type_known_put ▸ ht)
  freed hfresh hfree := typeOf_put.trans (h.freed hfresh hfree)
  told := h.told.snoc trivial

namespace Inv

variable (h : Inv fresh k c) (hk : k < inodeNum) (hpending : c.pending = [])
  (hlive : fresh → typeOf c.log ≠ none)
include h hk hpending hlive

theorem callGet (p : ℕ) (attr : Bool) (now : UInt32) : Inv fresh k (c.callGet p k attr now) := by
  have hquiet := h.of_nil hpending
  cases hp : c.cache p k with
  | none =>
    rw [Cell.callGet_of_none hp]
    exact .busy hk (h.toBase.of_eq rfl rfl rfl rfl) hlive (congrArg (· ++ _) hpending)
      ⟨hp, hquiet.agree, hquiet.backed⟩
  | some e =>
    rw [Cell.callGet_of_some hp]
    have hfits : (known fresh c.log).Fits (e.touch now).data (e.touch now).attr :=
      let hfits := hquiet.agree.fits p e hp
      ⟨hfits.data, hfits.size, hfits.type⟩
    have hbase : Base fresh k (c.setCache p k (some (e.touch now))) :=
      h.toBase.of_eq rfl rfl rfl rfl
    refine .quiet (hbase.answer hlive hfits p attr) (fun hfresh hnone => ?_) hpending ⟨?_, ?_⟩
    · rw [typeOf_answer] at hnone
      exact absurd hnone (hlive hfresh)
    · rw [known_answer]
      exact hquiet.agree.replace hp hfits (hquiet.agree.alone p e hp)
    · rw [known_answer]
      exact hquiet.backed.replace hp id

theorem callPut (p : ℕ) {buf : Bytes} {starts : Bool} (hputs : Puts fresh c p buf starts)
    (now : UInt32) : Inv fresh k (c.callPut p k buf starts now) := by
  have hquiet := h.of_nil hpending
  cases hp : c.cache p k with
  | none =>
    rw [Cell.callPut_of_none hp]
    exact .busy hk (h.toBase.of_eq rfl rfl rfl rfl) hlive (congrArg (· ++ _) hpending)
      ⟨by simp [Cell.wait], (hquiet.agree.others p).set_self _, hputs⟩
  | some e =>
    by_cases hst : e.status = .shared
    · rw [Cell.callPut_of_shared hp hst]
      exact .busy hk (h.toBase.of_eq rfl rfl rfl rfl) hlive (congrArg (· ++ _) hpending)
        ⟨Option.isSome_iff_exists.2 ⟨e, hp⟩, hquiet.agree.others p, hputs⟩
    · rw [Cell.callPut_of_ne hp hst]
      have hown : c.owners.getD [] = [p] := hquiet.agree.alone p e hp hst
      have hothers : Others k c.cache p [] :=
        Agree.others_of_singleton (w := known fresh c.log) (hown ▸ hquiet.agree)
      have hbase : Base fresh k (c.setCache p k (some (e.put buf now))) :=
        h.toBase.of_eq rfl rfl rfl rfl
      have hself := c.cache_setCache_self p k (some (e.put buf now))
      refine .quiet (hbase.put p buf starts) (fun hfresh hnone => ?_) hpending ⟨?_, ?_⟩
      · exact absurd (typeOf_put.symm.trans hnone) (hlive hfresh)
      · refine Eq.mpr (congrArg (Agree k _ _) hown) ((hothers.set_self _).agree hself ?_)
        exact .written hputs fun t ht => (hquiet.agree.fits p e hp).type t (type_known_put ▸ ht)
      · exact .of_modified hself rfl

theorem callRemove (p : ℕ) : Inv fresh k (c.callRemove p k) :=
  have hquiet := h.of_nil hpending
  .busy hk (h.toBase.of_eq rfl rfl rfl rfl) hlive (congrArg (· ++ _) hpending)
    ⟨c.cache_setCache_self p k none, (hquiet.agree.others p).set_self none⟩

theorem call (p : ℕ) (op : Op) (now : UInt32) : Inv fresh k (c.call p k op now) := by
  cases op with
  | get => exact h.callGet hk hpending hlive p false now
  | getattr => exact h.callGet hk hpending hlive p true now
  | put buf => exact h.callPut hk hpending hlive p (fun d hd => by simpa using hd) now
  | remove => exact h.callRemove hk hpending hlive p

end Inv

/-- An inode that is free may be created, if its entry in `owner_map` is for no one or for the
creator alone. -/
theorem Inv.create (h : Inv fresh k c) (hpending : c.pending = []) (hfree : c.free)
    (hown : c.owners = none ∨ c.owners = some [p]) (type now : UInt32) :
    Inv fresh k (c.create p k type now) := by
  have hquiet := h.of_nil hpending
  have hothers : Others k c.cache p [] := by
    rcases hown with hown | hown
    · have hagree := hquiet.agree
      rw [hown] at hagree
      exact .of_none (fun q _ => hagree.uncached List.not_mem_nil) hagree.foreign
    · exact Agree.others_of_singleton (w := known fresh c.log) (by simpa [hown] using hquiet.agree)
  have hknown : known fresh (c.create p k type now).log =
      ⟨if fresh then some [] else none, if fresh then some type else none⟩ := known_created
  have huncached : fresh → c.cache p k = none := fun hfresh => by
    have hnone := (h.dead hfresh (h.freed hfresh hfree)).2
    exact hquiet.agree.uncached (by rw [hnone]; exact List.not_mem_nil)
  have hdata : ∀ d ∈ (known fresh (c.create p k type now).log).data, [] = d := by
    rw [hknown]
    cases fresh
    · exact nofun
    · exact fun d hd => Option.some_inj.1 hd
  have htype : ∀ t ∈ (known fresh (c.create p k type now).log).type, type = t := by
    rw [hknown]
    cases fresh
    · exact nofun
    · exact fun t ht => Option.some_inj.1 ht
  refine .busy (h.free hfree) ⟨h.crashed, nofun, fun _ => h.free hfree, rfl, htype, nofun,
    h.told.snoc trivial⟩ (fun _ => typeOf_created.trans_ne nofun) (congrArg (· ++ _) hpending)
    ⟨?_, hothers, fun e he => ?_, hdata, rfl, htype⟩
  · rcases hown with hown | hown
    · exact congrArg (some <| ·.getD [p]) hown
    · exact congrArg (some <| ·.getD [p]) hown
  · rw [hknown]
    cases fresh
    · exact ⟨nofun, (hquiet.agree.fits p e he).size, nofun⟩
    · exact absurd ((huncached rfl).symm.trans he) nofun

/-! ## The steps of a call -/

theorem pending_goto (hpending : c.pending = [⟨p, k, pc⟩]) (pc' : Pc) :
    (c.goto 0 ⟨p, k, pc⟩ pc').pending = [⟨p, k, pc'⟩] := by
  rw [Cell.goto, hpending]
  rfl

theorem pending_done (hpending : c.pending = [⟨p, k, pc⟩]) : (c.done 0).pending = [] := by
  rw [Cell.done, hpending]
  rfl

section Serve

variable (hk : k < inodeNum) (hbase : Base fresh k c) (hlive : fresh → typeOf c.log ≠ none)
include hk hbase hlive

namespace Inv

theorem goto (hpending : c.pending = [⟨p, k, pc⟩])
    (hphase : Phase fresh k (c.goto 0 ⟨p, k, pc⟩ pc') p pc') :
    Inv fresh k (c.goto 0 ⟨p, k, pc⟩ pc') :=
  .busy hk (hbase.of_eq rfl rfl rfl rfl) hlive (pending_goto hpending pc') hphase

/-- The server enters the client as an owner and reads the file. -/
theorem serveGet {is_share : Bool} (hpending : c.pending = [⟨p, k, pc⟩])
    (hp : c.cache p k = none) (hagree : Agree k c.cache (known fresh c.log) (c.owners.getD []))
    (hshared : ∀ q e, c.cache q k = some e → e.status = .shared)
    (hshare : is_share = false → c.owners.getD [] = [])
    (hdata : ∀ d ∈ (known fresh c.log).data, c.file.data = d) (attr : Bool) (now : UInt32) :
    Inv fresh k (c.serveGet 0 ⟨p, k, pc⟩ attr is_share now) :=
  goto (c := { c with owners := some (c.owners.getD [] ++ [p]), file := c.file.read now }) hk
    ⟨hbase.crashed, hbase.free, hbase.range, hbase.size, hbase.type, hbase.freed, hbase.told⟩ hlive
    hpending
    ⟨hp, c.owners.getD [], rfl, hagree, hshared, hshare, hdata, ⟨hdata, hbase.size, hbase.type⟩⟩

/-- The server makes the client the only owner and writes the file. -/
theorem servePut {buf : Bytes} {starts : Bool} (hpending : c.pending = [⟨p, k, pc⟩])
    (hp : (c.cache p k).isSome) (hothers : Others k c.cache p [])
    (hputs : Puts fresh c p buf starts) (now : UInt32) :
    Inv fresh k (c.servePut 0 ⟨p, k, pc⟩ buf starts now) :=
  goto (c := { c with owners := some [p], file := c.file.write buf now }) hk
    ⟨hbase.crashed, hbase.free, hbase.range, rfl, hbase.type, hbase.freed, hbase.told⟩ hlive
    hpending ⟨hp, rfl, hothers, hputs, rfl, hbase.type⟩

omit hlive in
/-- The server forgets the owners and removes the file. -/
theorem serveRemove (hpending : c.pending = [⟨p, k, pc⟩]) (hp : c.cache p k = none)
    (hothers : Others k c.cache p []) : Inv fresh k (c.serveRemove 0 ⟨p, k, pc⟩) := by
  have hknown : known fresh (c.serveRemove 0 ⟨p, k, pc⟩).log = ⟨none, none⟩ := known_removed
  have huncached : ∀ q, c.cache q k = none := fun q =>
    if hq : q = p then hq ▸ hp else hothers.none_of_nil hq
  refine .quiet ⟨hbase.crashed, fun _ => hk, fun _ => hk, hbase.size, ?_,
    fun _ _ => typeOf_removed, hbase.told.snoc trivial⟩ (fun _ _ => rfl) (pending_done hpending)
    ⟨Agree.of_none huncached hothers.foreign, fun _ d hd => ?_⟩
  · rw [hknown]
    exact nofun
  · rw [hknown] at hd
    exact absurd hd nofun

theorem serve_get {attr : Bool} (hpending : c.pending = [⟨p, k, .get attr⟩])
    (hphase : Phase fresh k c p (.get attr)) (now : UInt32) :
    Inv fresh k (c.serve k 0 ⟨p, k, .get attr⟩ now) := by
  obtain ⟨hp, hquiet⟩ := hphase
  have hagree := hquiet.agree
  by_cases hone : ∃ q, c.owners = some [q]
  · obtain ⟨q, hown⟩ := hone
    have hserve : c.serve k 0 ⟨p, k, .get attr⟩ now =
        c.goto 0 ⟨p, k, .get attr⟩ (.sharing attr q) := by
      simp only [Cell.serve, hown]
    rw [hserve]
    exact goto hk hbase hlive hpending ⟨hp, ⟨hagree, hquiet.backed⟩, hown⟩
  · have hshared : ∀ q e, c.cache q k = some e → e.status = .shared := by
      intro q e hq
      by_contra hst
      have hown := hagree.alone q e hq hst
      cases hsome : c.owners with
      | none => simp [hsome] at hown
      | some l => exact hone ⟨q, by simpa [hsome] using hown⟩
    have hdata := hquiet.backed fun q e hq => by simp [hshared q e hq]
    cases hown : c.owners with
    | none =>
      have hserve : c.serve k 0 ⟨p, k, .get attr⟩ now =
          c.serveGet 0 ⟨p, k, .get attr⟩ attr false now := by
        simp only [Cell.serve, hown]
      rw [hserve]
      exact serveGet hk hbase hlive hpending hp hagree hshared (fun _ => by rw [hown]; rfl) hdata
        attr now
    | some l =>
      have hserve : c.serve k 0 ⟨p, k, .get attr⟩ now =
          c.serveGet 0 ⟨p, k, .get attr⟩ attr true now := by
        rcases l with _ | ⟨q, _ | ⟨r, l⟩⟩
        · simp only [Cell.serve, hown]
        · exact absurd ⟨q, hown⟩ hone
        · simp only [Cell.serve, hown]
      rw [hserve]
      exact serveGet hk hbase hlive hpending hp hagree hshared (by simp) hdata attr now

theorem serve_sharing {attr : Bool} {owner : ℕ}
    (hpending : c.pending = [⟨p, k, .sharing attr owner⟩])
    (hphase : Phase fresh k c p (.sharing attr owner)) (now : UInt32) :
    Inv fresh k (c.serve k 0 ⟨p, k, .sharing attr owner⟩ now) := by
  obtain ⟨hp, hquiet, hown⟩ := hphase
  have hagree : Agree k c.cache (known fresh c.log) [owner] := by
    simpa [hown] using hquiet.agree
  have honly := hagree.roster.of_singleton
  obtain ⟨e, he⟩ := Option.isSome_iff_exists.1 ((honly owner).2 rfl)
  have hne : p ≠ owner := fun heq => by simp [← heq, hp] at he
  have hserve : c.serve k 0 ⟨p, k, .sharing attr owner⟩ now =
      (c.setCache owner k (some e.share.2)).goto 0 ⟨p, k, .sharing attr owner⟩
        (.shared attr e.share.1) := by
    simp only [Cell.serve, he]
  have hfits := hagree.fits owner e he
  have hdata : ∀ d ∈ (known fresh c.log).data,
      (if e.share.1.update then e.share.1.data else c.file.data) = d := by
    by_cases hmod : e.status = .modified
    · simpa [ExtentT.share, hmod] using hfits.data
    · have hdata := hquiet.backed fun q x hq => by
        obtain rfl := (honly q).1 (hq ▸ rfl)
        exact Option.some_inj.1 (he.symm.trans hq) ▸ hmod
      simpa [ExtentT.share, hmod] using hdata
  rw [hserve]
  refine goto hk (c := c.setCache owner k (some e.share.2)) (hbase.of_eq rfl rfl rfl rfl) hlive
    hpending ⟨(c.cache_setCache_of_ne hne k k _).trans hp, owner, hown,
      hagree.replace he ⟨hfits.data, hfits.size, hfits.type⟩ (absurd rfl), fun q x hq => ?_, hdata⟩
  by_cases hqo : q = owner
  · subst hqo
    obtain rfl := Option.some_inj.1 ((c.cache_setCache_self q k _).symm.trans hq)
    rfl
  · have hx := (c.cache_setCache_of_ne hqo k k _).symm.trans hq
    exact absurd ((honly q).1 (hx ▸ rfl)) hqo

theorem serve_shared {attr : Bool} {r : ShareResult}
    (hpending : c.pending = [⟨p, k, .shared attr r⟩])
    (hphase : Phase fresh k c p (.shared attr r)) (now : UInt32) :
    Inv fresh k (c.serve k 0 ⟨p, k, .shared attr r⟩ now) := by
  obtain ⟨hp, owner, hown, hagree, hshared, hdata⟩ := hphase
  have hserve : c.serve k 0 ⟨p, k, .shared attr r⟩ now =
      { c with file := if r.update then c.file.write r.data now else c.file }.serveGet 0
        ⟨p, k, .shared attr r⟩ attr true now := by
    simp only [Cell.serve, hown]
  rw [hserve]
  refine serveGet (c := { c with file := if r.update then c.file.write r.data now else c.file }) hk
    ⟨hbase.crashed, hbase.free, hbase.range, ?_, ?_, hbase.freed, hbase.told⟩ hlive hpending hp
    (by simpa [hown] using hagree) hshared (by simp) ?_ attr now
  · dsimp only
    split
    · rfl
    · exact hbase.size
  · dsimp only
    split
    · exact hbase.type
    · exact hbase.type
  · dsimp only
    split
    next hupdate => exact fun d hd => (if_pos hupdate).symm.trans (hdata d hd)
    next hupdate => exact fun d hd => (if_neg hupdate).symm.trans (hdata d hd)

omit hk in
theorem serve_pulled {attr : Bool} {r : GetResult}
    (hpending : c.pending = [⟨p, k, .pulled attr r⟩])
    (hphase : Phase fresh k c p (.pulled attr r)) (now : UInt32) :
    Inv fresh k (c.serve k 0 ⟨p, k, .pulled attr r⟩ now) := by
  obtain ⟨hp, owners, hown, hagree, hshared, hshare, hdata, hfits⟩ := hphase
  have hserve : c.serve k 0 ⟨p, k, .pulled attr r⟩ now =
      ((c.setCache p k (some r.extent)).answer p attr r.extent).done 0 := by
    simp only [Cell.serve, hp, Option.getD_none]
  rw [hserve]
  have hset : Base fresh k (c.setCache p k (some r.extent)) := hbase.of_eq rfl rfl rfl rfl
  have hanswer : Base fresh k ((c.setCache p k (some r.extent)).answer p attr r.extent) :=
    hset.answer (e := r.extent) hlive hfits p attr
  have hknown : known fresh (((c.setCache p k (some r.extent)).answer p attr r.extent).done 0).log =
      known fresh c.log := known_answer ..
  refine .quiet (hanswer.of_eq rfl rfl rfl rfl) (fun hfresh hnone => ?_) (pending_done hpending)
    ⟨?_, fun _ => ?_⟩
  · exact absurd ((typeOf_answer ..).symm.trans hnone) (hlive hfresh)
  · rw [hknown]
    refine Eq.mpr (congrArg (Agree k _ _) (congrArg (·.getD []) hown)) ?_
    refine hagree.concat hp hfits hshared fun hst => hshare ?_
    by_contra hshare
    exact hst (if_pos (Bool.eq_true_of_not_eq_false hshare))
  · rw [hknown]
    exact hdata

theorem serve_put {buf : Bytes} {starts : Bool} (hpending : c.pending = [⟨p, k, .put buf starts⟩])
    (hphase : Phase fresh k c p (.put buf starts)) (now : UInt32) :
    Inv fresh k (c.serve k 0 ⟨p, k, .put buf starts⟩ now) := by
  obtain ⟨hp, hothers, hputs⟩ := hphase
  cases hown : c.owners with
  | none =>
    have hserve : c.serve k 0 ⟨p, k, .put buf starts⟩ now =
        c.servePut 0 ⟨p, k, .put buf starts⟩ buf starts now := by
      simp only [Cell.serve, hown]
    rw [hserve]
    exact servePut hk hbase hlive hpending hp (by simpa [hown] using hothers) hputs now
  | some owners =>
    have hserve : c.serve k 0 ⟨p, k, .put buf starts⟩ now =
        c.goto 0 ⟨p, k, .put buf starts⟩
          (.putting buf starts (owners.filter (· ≠ p))) := by
      simp only [Cell.serve, hown]
    have hsome : c.owners ≠ none := by simp [hown]
    rw [hown] at hothers
    rw [hserve]
    exact goto hk hbase hlive hpending ⟨hp, hsome, hothers, hputs⟩

theorem serve_putting {buf : Bytes} {starts : Bool} {todo : List ℕ}
    (hpending : c.pending = [⟨p, k, .putting buf starts todo⟩])
    (hphase : Phase fresh k c p (.putting buf starts todo)) (now : UInt32) :
    Inv fresh k (c.serve k 0 ⟨p, k, .putting buf starts todo⟩ now) := by
  obtain ⟨hp, hown, hothers, hputs⟩ := hphase
  cases todo with
  | nil =>
    obtain ⟨owners, howners⟩ := Option.ne_none_iff_exists'.1 hown
    have hserve : c.serve k 0 ⟨p, k, .putting buf starts []⟩ now =
        c.servePut 0 ⟨p, k, .putting buf starts []⟩ buf starts now := by
      simp only [Cell.serve, howners]
    rw [hserve]
    exact servePut hk hbase hlive hpending hp hothers hputs now
  | cons q todo =>
    obtain ⟨hne, hq⟩ := hothers.roster.of_cons
    have hserve : c.serve k 0 ⟨p, k, .putting buf starts (q :: todo)⟩ now =
        (c.setCache q k none).goto 0 ⟨p, k, .putting buf starts (q :: todo)⟩
          (.putting buf starts todo) := Cell.invalidate_of_isSome hq ..
    rw [hserve]
    refine goto hk (c := c.setCache q k none) (hbase.of_eq rfl rfl rfl rfl) hlive hpending
      ⟨?_, hown, hothers.invalidate, hputs⟩
    exact (congrArg Option.isSome (c.cache_setCache_of_ne hne.symm k k none)).trans hp

omit hk in
theorem serve_putDone {buf : Bytes} {starts : Bool} {type : UInt32}
    (hpending : c.pending = [⟨p, k, .putDone buf starts type⟩])
    (hphase : Phase fresh k c p (.putDone buf starts type)) (now : UInt32) :
    Inv fresh k (c.serve k 0 ⟨p, k, .putDone buf starts type⟩ now) := by
  obtain ⟨hp, hown, hothers, hputs, hdata, htype⟩ := hphase
  obtain ⟨e, he⟩ := Option.isSome_iff_exists.1 hp
  have hserve : c.serve k 0 ⟨p, k, .putDone buf starts type⟩ now =
      ((c.setCache p k (some (e.putDone buf type now))).note (.put p buf starts)).done 0 := by
    simp only [Cell.serve, he]
  have hset : Base fresh k (c.setCache p k (some (e.putDone buf type now))) :=
    hbase.of_eq rfl rfl rfl rfl
  rw [hserve]
  refine .quiet ((hset.put p buf starts).of_eq rfl rfl rfl rfl) (fun hfresh hnone => ?_)
    (pending_done hpending) ⟨?_, fun _ d hd => ?_⟩
  · exact absurd (typeOf_put.symm.trans hnone) (hlive hfresh)
  · refine Eq.mpr (congrArg (Agree k _ _) (congrArg (·.getD []) hown)) ?_
    refine (hothers.set_self _).agree (c.cache_setCache_self p k _) ⟨hputs, rfl, fun t ht => ?_⟩
    exact htype t (type_known_put ▸ ht)
  · exact hdata.trans (hputs d hd)

theorem serve_remove (hpending : c.pending = [⟨p, k, .remove⟩])
    (hphase : Phase fresh k c p .remove) (now : UInt32) :
    Inv fresh k (c.serve k 0 ⟨p, k, .remove⟩ now) := by
  obtain ⟨hp, hothers⟩ := hphase
  cases hown : c.owners with
  | none =>
    have hserve : c.serve k 0 ⟨p, k, .remove⟩ now = c.serveRemove 0 ⟨p, k, .remove⟩ := by
      simp only [Cell.serve, hown]
    rw [hserve]
    exact serveRemove hk hbase hpending hp (by simpa [hown] using hothers)
  | some owners =>
    have hserve : c.serve k 0 ⟨p, k, .remove⟩ now =
        c.goto 0 ⟨p, k, .remove⟩ (.removing (owners.filter (· ≠ p))) := by
      simp only [Cell.serve, hown]
    have hsome : c.owners ≠ none := by simp [hown]
    rw [hown] at hothers
    rw [hserve]
    exact goto hk hbase hlive hpending ⟨hp, hsome, hothers⟩

theorem serve_removing {todo : List ℕ} (hpending : c.pending = [⟨p, k, .removing todo⟩])
    (hphase : Phase fresh k c p (.removing todo)) (now : UInt32) :
    Inv fresh k (c.serve k 0 ⟨p, k, .removing todo⟩ now) := by
  obtain ⟨hp, hown, hothers⟩ := hphase
  cases todo with
  | nil =>
    obtain ⟨owners, howners⟩ := Option.ne_none_iff_exists'.1 hown
    have hserve : c.serve k 0 ⟨p, k, .removing []⟩ now = c.serveRemove 0 ⟨p, k, .removing []⟩ := by
      simp only [Cell.serve, howners]
    rw [hserve]
    exact serveRemove hk hbase hpending hp hothers
  | cons q todo =>
    obtain ⟨hne, hq⟩ := hothers.roster.of_cons
    have hserve : c.serve k 0 ⟨p, k, .removing (q :: todo)⟩ now =
        (c.setCache q k none).goto 0 ⟨p, k, .removing (q :: todo)⟩ (.removing todo) :=
      Cell.invalidate_of_isSome hq ..
    rw [hserve]
    exact goto hk (c := c.setCache q k none) (hbase.of_eq rfl rfl rfl rfl) hlive hpending
      ⟨(c.cache_setCache_of_ne hne.symm k k none).trans hp, hown, hothers.invalidate⟩

omit hk in
theorem serve_created {type : UInt32} (hpending : c.pending = [⟨p, k, .created type⟩])
    (hphase : Phase fresh k c p (.created type)) (now : UInt32) :
    Inv fresh k (c.serve k 0 ⟨p, k, .created type⟩ now) := by
  obtain ⟨hown, hothers, hfits, hnil, hdata, htype⟩ := hphase
  have hnew : (known fresh c.log).Fits ((c.cache p k).getD (.created type now)).data
      ((c.cache p k).getD (.created type now)).attr := by
    cases hp : c.cache p k with
    | none => exact ⟨hnil, rfl, htype⟩
    | some e => exact hfits e hp
  refine .quiet (hbase.of_eq rfl rfl rfl rfl) (fun hfresh hnone => absurd hnone (hlive hfresh))
    (pending_done hpending) ⟨?_, fun _ d hd => hdata.trans (hnil d hd)⟩
  refine Eq.mpr (congrArg (Agree k _ _) (congrArg (·.getD []) hown)) ?_
  exact (hothers.set_self _).agree (c.cache_setCache_self p k _) hnew

end Inv
end Serve

/-- **Each step keeps the invariant.** -/
theorem Inv.serve {call : Call} (h : Inv fresh k c) (hcall : c.pending[i]? = some call)
    (now : UInt32) : Inv fresh k (c.serve k i call now) := by
  obtain ⟨rfl, hk, hlive, p, pc, rfl, hpending, hphase⟩ := h.of_getElem? hcall
  cases pc with
  | get attr => exact serve_get hk h.toBase hlive hpending hphase now
  | sharing attr owner => exact serve_sharing hk h.toBase hlive hpending hphase now
  | shared attr r => exact serve_shared hk h.toBase hlive hpending hphase now
  | pulled attr r => exact serve_pulled h.toBase hlive hpending hphase now
  | put buf starts => exact serve_put hk h.toBase hlive hpending hphase now
  | putting buf starts todo => exact serve_putting hk h.toBase hlive hpending hphase now
  | putDone buf starts type => exact serve_putDone h.toBase hlive hpending hphase now
  | remove => exact serve_remove hk h.toBase hlive hpending hphase now
  | removing todo => exact serve_removing hk h.toBase hlive hpending hphase now
  | created type => exact serve_created h.toBase hlive hpending hphase now

/-- A callback reaches a client that has a copy. -/
theorem Inv.callee {call : Call} (h : Inv fresh k c)
    (hcall : call ∈ c.pending) (hq : q ∈ call.pc.callee) : (c.cache q k).isSome := by
  obtain ⟨i, hi⟩ := List.getElem?_of_mem hcall
  obtain ⟨-, -, -, p, pc, rfl, hpending, hphase⟩ := h.of_getElem? hi
  cases pc with
  | sharing attr owner =>
    obtain ⟨hp, hquiet, hown⟩ := hphase
    obtain rfl := Option.some_inj.1 hq
    have hroster := hquiet.agree.roster
    rw [hown] at hroster
    exact hroster.of_cons
  | putting buf starts todo =>
    obtain ⟨todo, rfl⟩ := List.head?_eq_some_iff.1 hq
    exact hphase.2.2.1.roster.of_cons.2
  | removing todo =>
    obtain ⟨todo, rfl⟩ := List.head?_eq_some_iff.1 hq
    exact hphase.2.2.roster.of_cons.2
  | _ => exact absurd hq nofun

/-- How many steps a call at `pc` still takes at most, with so many owners. -/
def Pc.togo (owners : ℕ) : Pc → ℕ
  | .get _ => 4
  | .sharing .. => 3
  | .shared .. => 2
  | .pulled .. => 1
  | .put .. => owners + 3
  | .putting _ _ todo => todo.length + 2
  | .putDone .. => 1
  | .remove => owners + 2
  | .removing todo => todo.length + 1
  | .created _ => 1

/-- A step brings a call nearer to its end. -/
theorem Inv.serve_togo {call : Call} (h : Inv fresh k c) (hcall : c.pending[i]? = some call)
    (now : UInt32) : (c.serve k i call now).pending = [] ∨
      ∃ call', (c.serve k i call now).pending = [call'] ∧
        call'.pc.togo ((c.serve k i call now).owners.getD []).length <
          call.pc.togo (c.owners.getD []).length := by
  obtain ⟨rfl, -, -, p, pc, rfl, hpending, hphase⟩ := h.of_getElem? hcall
  cases pc with
  | get attr =>
    rcases hown : c.owners with _ | _ | ⟨q, _ | ⟨r, l⟩⟩ <;>
      simp [Cell.serve, hown, Cell.serveGet, Cell.goto, hpending, Pc.togo]
  | sharing attr owner =>
    have hcached := h.callee (hpending ▸ List.mem_singleton_self _) rfl
    obtain ⟨e, he⟩ := Option.isSome_iff_exists.1 hcached
    simp [Cell.serve, he, Cell.goto, Cell.setCache, hpending, Pc.togo]
  | shared attr r =>
    obtain ⟨-, owner, hown, -⟩ := hphase
    simp [Cell.serve, hown, Cell.serveGet, Cell.goto, hpending, Pc.togo]
  | pulled attr r =>
    exact .inl (by simp [Cell.serve, Cell.done, Cell.answer, Cell.note, Cell.setCache, hpending])
  | put buf starts =>
    cases hown : c.owners with
    | none => simp [Cell.serve, hown, Cell.servePut, Cell.goto, hpending, Pc.togo]
    | some owners =>
      have hle := owners.length_filter_le (· ≠ p)
      refine .inr ⟨⟨p, k, .putting buf starts (owners.filter (· ≠ p))⟩, ?_, ?_⟩
      · simp [Cell.serve, hown, Cell.goto, hpending]
      · simp only [Pc.togo, Option.getD_some]
        omega
  | putting buf starts todo =>
    obtain ⟨-, hown, hothers, -⟩ := hphase
    obtain ⟨owners, hown⟩ := Option.ne_none_iff_exists'.1 hown
    cases todo with
    | nil => simp [Cell.serve, hown, Cell.servePut, Cell.goto, hpending, Pc.togo]
    | cons q todo =>
      have hserve : c.serve k 0 ⟨p, k, .putting buf starts (q :: todo)⟩ now = _ :=
        Cell.invalidate_of_isSome hothers.roster.of_cons.2 ..
      rw [hserve]
      simp [Cell.goto, Cell.setCache, hpending, Pc.togo]
  | putDone buf starts type =>
    obtain ⟨e, he⟩ := Option.isSome_iff_exists.1 hphase.1
    exact .inl (by simp [Cell.serve, he, Cell.done, Cell.note, Cell.setCache, hpending])
  | remove =>
    cases hown : c.owners with
    | none => simp [Cell.serve, hown, Cell.serveRemove, Cell.done, Cell.note, hpending]
    | some owners =>
      have hle := owners.length_filter_le (· ≠ p)
      refine .inr ⟨⟨p, k, .removing (owners.filter (· ≠ p))⟩, ?_, ?_⟩
      · simp [Cell.serve, hown, Cell.goto, hpending]
      · simp only [Pc.togo, Option.getD_some]
        omega
  | removing todo =>
    obtain ⟨-, hown, hothers⟩ := hphase
    obtain ⟨owners, hown⟩ := Option.ne_none_iff_exists'.1 hown
    cases todo with
    | nil => simp [Cell.serve, hown, Cell.serveRemove, Cell.done, Cell.note, hpending]
    | cons q todo =>
      have hserve : c.serve k 0 ⟨p, k, .removing (q :: todo)⟩ now = _ :=
        Cell.invalidate_of_isSome hothers.roster.of_cons.2 ..
      rw [hserve]
      simp [Cell.goto, Cell.setCache, hpending, Pc.togo]
  | created type =>
    exact .inl (by simp [Cell.serve, Cell.done, Cell.insert, Cell.setCache, hpending])

end Steps

/-! ## All inodes -/

namespace System

/-- What a step asks for if `Inv` is to be kept. -/
def Kept (fresh : Bool) (s : System) : Action → Prop
  | .create port _ eid _ =>
    (s eid).pending = [] ∧ ((s eid).owners = none ∨ (s eid).owners = some [port])
  | .call _ eid _ _ => eid < inodeNum ∧ (s eid).pending = [] ∧ (fresh → typeOf (s eid).log ≠ none)
  | .start port _ =>
    (s 1).pending = [] ∧ typeOf (s 1).log ≠ none ∧ Puts fresh (s 1) port [] true
  | .serve .. => True

variable {fresh : Bool} {s s' : System} {as : List Action} {a : Action} {now : UInt32} {k : ℕ}

/-- One inode takes a step, and the others stay as they are. -/
theorem inv_update {c : Cell} (h : ∀ k, Inv fresh k (s k)) (hc : Inv fresh k c) (j : ℕ) :
    Inv fresh j (Function.update s k c j) := by
  by_cases hj : j = k
  · subst hj
    rwa [Function.update_self]
  · rw [Function.update_of_ne hj]
    exact h j

theorem inv_step (h : ∀ k, Inv fresh k (s k)) (hok : s.Kept fresh a) (hs : s.step a = some s') :
    ∀ k, Inv fresh k (s' k) := by
  cases a with
  | create port type eid now =>
    obtain ⟨⟨hfree, -⟩, hs⟩ := Option.ite_none_right_eq_some.1 hs
    obtain rfl := Option.some_inj.1 hs
    exact inv_update h ((h eid).create hok.1 hfree hok.2 type now)
  | call port eid op now =>
    obtain ⟨hk, hpending, hlive⟩ := hok
    rw [step, inodeOf_of_lt hk] at hs
    obtain ⟨-, hs⟩ := Option.ite_none_left_eq_some.1 hs
    obtain rfl := Option.some_inj.1 hs
    exact inv_update h ((h eid).call hk hpending hlive port op now)
  | start port now =>
    obtain ⟨hpending, hlive, hputs⟩ := hok
    obtain ⟨-, hs⟩ := Option.ite_none_left_eq_some.1 hs
    obtain rfl := Option.some_inj.1 hs
    exact inv_update h ((h 1).callPut ((h 1).range hlive) hpending (fun _ => hlive) port hputs now)
  | serve k i now =>
    obtain ⟨-, hs⟩ := Option.ite_none_left_eq_some.1 hs
    obtain ⟨call, hcall, rfl⟩ := Option.map_eq_some_iff.1 hs
    exact inv_update h ((h k).serve hcall now)

theorem inv_start (fresh : Bool) (now : UInt32) (k : ℕ) : Inv fresh k (start now k) := by
  have hagree : ∀ w, Agree k (start now k).cache w [] := fun w =>
    .of_none (fun _ => rfl) fun _ _ _ => rfl
  by_cases hk : k = 1
  · subst hk
    have hnotfree : ¬ (start now 1).free := by simp [start]
    refine .quiet ⟨rfl, (absurd · hnotfree), fun _ => by decide, rfl, fun t ht => ?_,
      fun _ => (absurd · hnotfree), ?_⟩ (fun _ _ => rfl) rfl ⟨hagree _, fun _ d hd => ?_⟩
    · cases fresh
      · cases ht
      · exact Option.some_inj.1 ht
    · exact show Journal (Told fresh) ([] ++ [.created tDir]) from Journal.nil.snoc trivial
    · cases fresh
      · cases hd
      · exact Option.some_inj.1 hd
  · have hlog : (start now k).log = [] := if_neg hk
    have hfile : (start now k).file = ⟨[], ⟨0, 0, 0, 0, 0⟩⟩ := if_neg hk
    have htype : typeOf (start now k).log = none := by rw [hlog]; rfl
    refine .quiet ⟨rfl, fun hfree => (of_decide_eq_true hfree).2, (absurd htype ·), ?_,
      fun t ht => ?_, fun _ _ => htype, ?_⟩ (fun _ _ => rfl) rfl ⟨hagree _, fun _ d hd => ?_⟩
    · rw [hfile]
      rfl
    · rw [known, htype, ite_self] at ht
      cases ht
    · rw [hlog]
      exact Journal.nil
    · rw [hlog] at hd
      cases hd

/-- `Inv` holds throughout a run, if what is asked of its steps implies `Kept`. -/
theorem inv_run {ok : System → Action → Prop} (hkept : ∀ s a s', (∀ k, Inv fresh k (s k)) →
      ok s a → step s a = some s' → s.Kept fresh a)
    (h : Run step ok (start now) as s) (k : ℕ) : Inv fresh k (s k) :=
  h.invariant (P := fun s => ∀ k, Inv fresh k (s k)) (inv_start fresh now)
    (fun s a s' hinv hok hs => @inv_step fresh s s' a hinv (hkept s a s' hinv hok hs) hs) k

/-! ## Clients that keep to locks and live extents -/

/-- A client begins a call about an extent that is there, and while no other call about it is under
way; no client starts. -/
def Orderly (s : System) : Action → Prop
  | .create .. => True
  | .call _ eid _ _ => typeOf (s eid).log ≠ none ∧ (s eid).pending = []
  | .start .. => False
  | .serve .. => True

theorem Orderly.kept (hok : s.Orderly a) (h : ∀ k, Inv true k (s k)) (hs : s.step a = some s') :
    s.Kept true a := by
  cases a with
  | create port type eid now =>
    obtain ⟨⟨hfree, -⟩, -⟩ := Option.ite_none_right_eq_some.1 hs
    obtain ⟨hpending, hown⟩ := (h eid).dead rfl ((h eid).freed rfl hfree)
    exact ⟨hpending, .inl hown⟩
  | call port eid op now => exact ⟨(h eid).range hok.1, hok.2, fun _ => hok.1⟩
  | start port now => exact hok.elim
  | serve k i now => trivial

theorem inv_of_orderly (h : Run step Orderly (start now) as s) (k : ℕ) : Inv true k (s k) :=
  inv_run (fun _ _ _ hinv hok hs => hok.kept hinv hs) h k

end System

/-- What a client is told is what the file is: the contents as last `put`, or `""` if there has been
none since the `create`; and the type that was given to `create`, with the size of the contents. -/
def Right (before : List Event) : Event → Prop
  | .got _ buf => content true before = some buf
  | .attr _ a => ∃ buf type, content true before = some buf ∧ typeOf before = some type ∧
      a.size = UInt32.ofNat buf.length ∧ a.type = type
  | _ => True

theorem Told.right {before : List Event} {e : Event} (h : Told true before e) : Right before e := by
  cases e with
  | got port buf =>
    obtain ⟨⟨a, hfits⟩, hlive⟩ := h
    obtain ⟨d, hd⟩ := exists_content (hlive rfl)
    rw [Right, hd, hfits.data d hd]
  | attr port a =>
    obtain ⟨⟨buf, hfits⟩, hlive⟩ := h
    obtain ⟨d, hd⟩ := exists_content (hlive rfl)
    obtain ⟨type, htype⟩ := Option.ne_none_iff_exists'.1 (hlive rfl)
    obtain rfl := hfits.data d hd
    exact ⟨buf, type, hd, htype, hfits.size, hfits.type type htype⟩
  | created type => trivial
  | put port buf starts => trivial
  | removed port => trivial

/-- The owner list and the copies agree: who has a copy is listed once and no one else is, a copy
that is not `SHARED` is the only one, and one that is not `MODIFIED` is the server's file. -/
structure Cell.Agrees (k : ℕ) (c : Cell) : Prop where
  listed : ∀ p, (c.owners.getD []).count p = if (c.cache p k).isSome then 1 else 0
  alone : ∀ p e, c.cache p k = some e → e.status ≠ .shared → c.owners = some [p]
  equal : ∀ p e, c.cache p k = some e → e.status ≠ .modified →
    e.data = c.file.data ∧ e.attr.size = c.file.attr.size ∧ e.attr.type = c.file.attr.type

theorem Inv.agrees {k : ℕ} {c : Cell} (h : Inv true k c) (hpending : c.pending = []) :
    c.Agrees k := by
  obtain ⟨hagree, hbacked⟩ := h.of_nil hpending
  refine ⟨hagree.roster.count, fun p e hp hst => ?_, fun p e hp hst => ?_⟩
  · have hown := hagree.alone p e hp hst
    cases hsome : c.owners with
    | none => simp [hsome] at hown
    | some owners => rw [← hown, hsome, Option.getD_some]
  · have hmem := hagree.mem hp
    have hlive : typeOf c.log ≠ none := fun hnone => by
      rw [(h.dead rfl hnone).2] at hmem
      exact absurd hmem List.not_mem_nil
    obtain ⟨d, hd⟩ := exists_content hlive
    obtain ⟨type, htype⟩ := Option.ne_none_iff_exists'.1 hlive
    have hfits := hagree.fits p e hp
    have hdata : c.file.data = d := hbacked (fun q x hq hmod => by
      have hown := hagree.alone q x hq (by simp [hmod])
      rw [hown] at hmem
      obtain rfl := List.mem_singleton.1 hmem
      exact hst (Option.some_inj.1 (hp.symm.trans hq) ▸ hmod)) d hd
    have heq : e.data = c.file.data := (hfits.data d hd).trans hdata.symm
    exact ⟨heq, by rw [hfits.size, h.size, heq],
      (hfits.type type htype).trans (h.type type htype).symm⟩

namespace System

variable {s : System} {as : List Action} {now : UInt32}

/-- A call under way comes to its end. -/
theorem returns (h : Run step Orderly (start now) as s) (eid : ℕ) :
    ∃ bs s', Run step Orderly s bs s' ∧ (s' eid).pending = [] := by
  generalize hn : ((s eid).pending.map fun call =>
    call.pc.togo ((s eid).owners.getD []).length).sum = n
  induction n using Nat.strong_induction_on generalizing as s with
  | _ n ih =>
    rcases hpending : (s eid).pending with _ | ⟨call, pending⟩
    · exact ⟨[], s, .nil, hpending⟩
    · have hinv := inv_of_orderly h eid
      have hcall : (s eid).pending[0]? = some call := by rw [hpending]; rfl
      have hok : s.Orderly (.serve eid 0 0) := trivial
      have hs : s.step (.serve eid 0 0) =
          some (Function.update s eid ((s eid).serve eid 0 call 0)) := by
        simp [step, hinv.crashed, hcall]
      have hself := Function.update_self eid ((s eid).serve eid 0 call 0) s
      rcases hinv.serve_togo hcall 0 with hnil | ⟨call', hpending', hlt⟩
      · exact ⟨[.serve eid 0 0], _, Run.nil.snoc hok hs, (congrArg Cell.pending hself).trans hnil⟩
      · have hle : call.pc.togo ((s eid).owners.getD []).length ≤ n := by
          rw [← hn, hpending, List.map_cons, List.sum_cons]
          exact Nat.le_add_right ..
        obtain ⟨bs, s', hrun, hend⟩ := ih _ (hlt.trans_le hle) (h.snoc hok hs) <| by
          rw [hself, hpending', List.map_singleton, List.sum_singleton]
        exact ⟨_, s', (Run.nil.snoc hok hs).append hrun, hend⟩

/-- **Coherence.**  Every `get` and every `getattr` returns what the file is; and each does return.
-/
theorem coherent (h : Run step Orderly (start now) as s) (eid : ℕ) :
    Journal Right (s eid).log ∧ ∃ bs s', Run step Orderly s bs s' ∧ (s' eid).pending = [] :=
  ⟨(inv_of_orderly h eid).told.mono fun _ _ => Told.right, returns h eid⟩

/-- **The owner list and the copies agree** whenever no call about the extent is under way; and at
any time, a callback reaches a client that has a copy, and no assertion has failed. -/
theorem owners_agree (h : Run step Orderly (start now) as s) (eid : ℕ) :
    ((s eid).pending = [] → (s eid).Agrees eid) ∧
      (∀ call ∈ (s eid).pending, ∀ q ∈ call.pc.callee, ((s eid).cache q eid).isSome) ∧
      (s eid).crashed = false :=
  have hinv := inv_of_orderly h eid
  ⟨hinv.agrees, fun _ hcall _ => hinv.callee hcall, hinv.crashed⟩

/-! A client creates an extent and writes to it, and another reads what it wrote. -/

instance (s : System) (a : Action) : Decidable (s.Orderly a) := by
  cases a <;> unfold Orderly <;> infer_instance

/-- Client 7 creates extent 2 and puts `"x"`; client 8 gets it, for which 7's copy is shared. -/
def relay : List Action :=
  [.create 7 2 2 0, .serve 2 0 0, .call 7 2 (.put [120]) 0, .call 8 2 .get 0, .serve 2 0 0,
    .serve 2 0 0, .serve 2 0 0, .serve 2 0 0]

theorem exists_relay : ∃ s, Run step Orderly (start 0) relay s ∧
    (s 2).log = [.created 2, .put 7 [120] false, .got 8 [120]] ∧
    (s 2).pending = [] ∧ (s 2).owners = some [7, 8] := by
  obtain ⟨s, hs⟩ : ∃ s, execute (guarded step Orderly) (start 0) relay = some s :=
    Option.isSome_iff_exists.1 (by decide +kernel)
  have hlog : (execute (guarded step Orderly) (start 0) relay).map
      (fun s => ((s 2).log, (s 2).pending, (s 2).owners)) =
        some ([.created 2, .put 7 [120] false, .got 8 [120]], [], some [7, 8]) := by
    decide +kernel
  rw [hs, Option.map_some, Option.some_inj, Prod.mk.injEq, Prod.mk.injEq] at hlog
  exact ⟨s, .of_guarded hs, hlog⟩

theorem coherent_relay : ∃ s, Run step Orderly (start 0) relay s ∧
    (s 2).log = [.created 2, .put 7 [120] false, .got 8 [120]] ∧ Journal Right (s 2).log ∧
      ∃ bs s', Run step Orderly s bs s' ∧ (s' 2).pending = [] :=
  let ⟨s, hrun, hlog, _⟩ := exists_relay
  ⟨s, hrun, hlog, coherent hrun 2⟩

theorem owners_agree_relay : ∃ s, Run step Orderly (start 0) relay s ∧ (s 2).pending = [] ∧
    (s 2).owners = some [7, 8] ∧ (s 2).Agrees 2 ∧ (s 2).crashed = false :=
  let ⟨s, hrun, _, hpending, hown⟩ := exists_relay
  have hagree := owners_agree hrun 2
  ⟨s, hrun, hpending, hown, hagree.1 hpending, hagree.2.2⟩

end System

end Extent
end CseLab
