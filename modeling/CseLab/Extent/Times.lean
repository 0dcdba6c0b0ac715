import CseLab.Extent.Coherence

/-!
# What time a copy says

A `put` and a `create` enter the time in the client's copy when they return; the server enters the
time in its file when it writes it, which for a copy that the client has to itself is only when
another client asks for the extent.  `share_handler` hands over the data and not the times, so the
file then gets the time of that request, and the client that asked is told that time, while the
writer's copy still has the one of its `put`.

Where the two readings of the clock are the same whenever a single owner is asked to share
(`InTime`), all copies have the same attributes, and the `mtime` is that of the last `put`, or of
the `create` (`System.attributes_agree`); where they are not, the copies differ as soon as the
request has returned.
-/

set_option autoImplicit false

namespace CseLab
namespace Extent

open Inode (Attr inodeNum inodeOf_of_lt)

/-! ## When an extent was written -/

/-- The reading of the clock that a `put` of the client enters, if it goes no further than the
client's copy. -/
def Cell.stampsPut (c : Cell) (port eid : ℕ) (now : UInt32) : List UInt32 :=
  match c.cache port eid with
  | some e => if e.status = .shared then [] else [now]
  | none => []

/-- The one that a call at this place is about to enter in the client's copy, to return. -/
def Pc.stamps (now : UInt32) : Pc → List UInt32
  | .putDone .. | .created _ => [now]
  | _ => []

namespace System

/-- The time at which a step brings a `put` of inode `k`, or its `create`, to its end. -/
def stamps (k : ℕ) (s : System) (a : Action) (_ : System) : List UInt32 :=
  match a with
  | .call port eid (.put _) now =>
    if Inode.inodeOf eid = k then (s k).stampsPut port eid now else []
  | .start port now => if k = 1 then (s 1).stampsPut port 1 now else []
  | .serve j i now =>
    if j = k then ((s k).pending[i]?).elim [] fun call => call.pc.stamps now else []
  | _ => []

/-- When inode `k` was last written: the end of the last `put` or of the `create`, or the start of
the server, which makes the root. -/
def written (t₀ : UInt32) (as : List Action) (k : ℕ) : UInt32 :=
  (observe step (stamps k) (start t₀) as).getLastD t₀

end System

/-! ## The condition, and what follows -/

/-- When the single owner of an inode has been asked to share its copy, the time the server is about
to have in its file is that of the copy. -/
def Cell.InTime (k : ℕ) (c : Cell) (now : UInt32) : Pc → Prop
  | .shared _ r => ∀ owner ∈ c.owners.getD [], ∀ e ∈ c.cache owner k,
      e.attr.mtime = if r.update then now else c.file.attr.mtime
  | _ => True

instance (k : ℕ) (c : Cell) (now : UInt32) : (pc : Pc) → Decidable (c.InTime k now pc)
  | .shared _ r => inferInstanceAs (Decidable (∀ owner ∈ c.owners.getD [], ∀ e ∈ c.cache owner k,
      e.attr.mtime = if r.update then now else c.file.attr.mtime))
  | .get _ | .sharing .. | .pulled .. | .put .. | .putting .. | .putDone .. | .remove | .removing _
  | .created _ => .isTrue trivial

/-- All copies have the same type, size, `mtime` and `ctime`, and the `mtime` is `t`. -/
def Cell.SameAttrs (k : ℕ) (c : Cell) (t : UInt32) : Prop :=
  ∀ p e, c.cache p k = some e → e.attr.mtime = t ∧ ∀ q e', c.cache q k = some e' →
    e.attr.type = e'.attr.type ∧ e.attr.size = e'.attr.size ∧ e.attr.mtime = e'.attr.mtime ∧
      e.attr.ctime = e'.attr.ctime

/-! ## The invariant -/

/-- The copies were last written at `t`. -/
def Stamped (k : ℕ) (cache : ℕ → ℕ → Option ExtentT) (t : UInt32) : Prop :=
  ∀ p e, cache p k = some e → e.attr.mtime = t ∧ e.attr.ctime = t

/-- The file was last written at `t`. -/
def File.At (f : File) (t : UInt32) : Prop := f.attr.mtime = t ∧ f.attr.ctime = t

/-- Between two calls: the copies were last written at `t`, and so was the file, unless there is one
owner. -/
structure Dated (k : ℕ) (c : Cell) (t : UInt32) : Prop where
  copies : Stamped k c.cache t
  file : typeOf c.log ≠ none → (c.owners.getD []).length ≠ 1 → c.file.At t

/-- While the client at `port` has a call under way. -/
def DatedPhase (k : ℕ) (c : Cell) (t : UInt32) (port : ℕ) : Pc → Prop
  | .get _ | .sharing .. => Dated k c t
  | .shared .. => Stamped k c.cache t
  | .pulled _ r => Stamped k c.cache t ∧ c.file.At t ∧ r.attr.mtime = t ∧ r.attr.ctime = t
  | .created _ => c.cache port k = none
  | _ => True

/-- What holds of inode `k` at any time, last written at `t`. -/
structure Timed (k : ℕ) (c : Cell) (t : UInt32) : Prop where
  even : c.file.attr.ctime = c.file.attr.mtime
  quiet : c.pending = [] → Dated k c t
  phase : ∀ port pc, c.pending = [⟨port, k, pc⟩] → DatedPhase k c t port pc

section Steps

variable {k i p : ℕ} {c : Cell} {t t' now : UInt32} {e : ExtentT} {pc pc' : Pc}

namespace Stamped

/-- A copy gives way to another that was written at the same time. -/
theorem set (h : Stamped k c.cache t) (hm : e.attr.mtime = t) (hc : e.attr.ctime = t) (p : ℕ) :
    Stamped k (c.setCache p k (some e)).cache t := by
  intro q x hq
  by_cases hqp : q = p
  · subst hqp
    rw [c.cache_setCache_self, Option.some_inj] at hq
    exact hq ▸ ⟨hm, hc⟩
  · rw [c.cache_setCache_of_ne hqp] at hq
    exact h q x hq

/-- The only copy. -/
theorem alone (h : ∀ q, q ≠ p → c.cache q k = none) (hm : e.attr.mtime = t)
    (hc : e.attr.ctime = t) : Stamped k (c.setCache p k (some e)).cache t := by
  intro q x hq
  by_cases hqp : q = p
  · subst hqp
    rw [c.cache_setCache_self, Option.some_inj] at hq
    exact hq ▸ ⟨hm, hc⟩
  · rw [c.cache_setCache_of_ne hqp, h q hqp] at hq
    exact absurd hq nofun

end Stamped

namespace Timed

theorem busy (heven : c.file.attr.ctime = c.file.attr.mtime) (hpending : c.pending = [⟨p, k, pc⟩])
    (hphase : DatedPhase k c t p pc) : Timed k c t where
  even := heven
  quiet hnil := absurd (hnil.symm.trans hpending) nofun
  phase port pc' hcons := by
    rw [hpending, List.singleton_inj] at hcons
    obtain ⟨rfl, -, rfl⟩ := Call.mk.inj hcons
    exact hphase

theorem idle (heven : c.file.attr.ctime = c.file.attr.mtime) (hpending : c.pending = [])
    (hdated : Dated k c t) : Timed k c t where
  even := heven
  quiet _ := hdated
  phase _ _ hcons := absurd (hpending.symm.trans hcons) nofun

/-! ## The beginning of a call -/

theorem callGet (h : Timed k c t) (hpending : c.pending = []) (p : ℕ) (attr : Bool)
    (now : UInt32) : Timed k (c.callGet p k attr now) t := by
  have hdated := h.quiet hpending
  cases hp : c.cache p k with
  | none =>
    rw [Cell.callGet_of_none hp]
    exact busy h.even (congrArg (· ++ _) hpending) ⟨hdated.copies, hdated.file⟩
  | some e =>
    rw [Cell.callGet_of_some hp]
    obtain ⟨hm, hc⟩ := hdated.copies p e hp
    refine idle h.even hpending ⟨hdated.copies.set (e := e.touch now) hm hc p, fun hlive => ?_⟩
    rw [typeOf_answer] at hlive
    exact hdated.file hlive

theorem callPut (h : Timed k c t) (hi : Inv true k c) (hpending : c.pending = []) (p : ℕ)
    (buf : Bytes) (starts : Bool) (now : UInt32) :
    Timed k (c.callPut p k buf starts now) ((c.stampsPut p k now).getLastD t) := by
  cases hp : c.cache p k with
  | none =>
    rw [Cell.callPut_of_none hp]
    exact busy h.even (congrArg (· ++ _) hpending) trivial
  | some e =>
    by_cases hst : e.status = .shared
    · rw [Cell.callPut_of_shared hp hst]
      exact busy h.even (congrArg (· ++ _) hpending) trivial
    · rw [Cell.callPut_of_ne hp hst]
      have hstamps : (c.stampsPut p k now).getLastD t = now := by
        simp [Cell.stampsPut, hp, hst]
      have hagree := (hi.of_nil hpending).agree
      have hown : c.owners.getD [] = [p] := hagree.alone p e hp hst
      have halone : ∀ q, q ≠ p → c.cache q k = none := by
        intro q hq
        exact hagree.uncached (by simp [hown, hq])
      rw [hstamps]
      refine idle h.even hpending ⟨Stamped.alone halone rfl rfl, fun _ hone => absurd ?_ hone⟩
      exact congrArg List.length hown

theorem call (h : Timed k c t) (hi : Inv true k c) (hpending : c.pending = []) (p : ℕ) (op : Op)
    (now : UInt32) : Timed k (c.call p k op now)
      (match op with
        | .put _ => (c.stampsPut p k now).getLastD t
        | _ => t) := by
  cases op with
  | get => exact h.callGet hpending p false now
  | getattr => exact h.callGet hpending p true now
  | put buf => exact h.callPut hi hpending p buf false now
  | remove => exact busy h.even (congrArg (· ++ _) hpending) trivial

theorem create (hpending : c.pending = []) (hp : c.cache p k = none) (type now : UInt32) :
    Timed k (c.create p k type now) t :=
  busy rfl (congrArg (· ++ _) hpending) hp

/-! ## The steps of a call -/

/-- The server enters the client as an owner and reads the file. -/
theorem serveGet (hpending : c.pending = [⟨p, k, pc⟩]) (hcopies : Stamped k c.cache t)
    (hfile : c.file.At t) (attr is_share : Bool) (now : UInt32) :
    Timed k (c.serveGet 0 ⟨p, k, pc⟩ attr is_share now) t := by
  have hpending' : (c.serveGet 0 ⟨p, k, pc⟩ attr is_share now).pending =
      [⟨p, k, .pulled attr ⟨c.file.data, (c.file.read now).attr, is_share⟩⟩] :=
    pending_goto (c := { c with
      owners := some (c.owners.getD [] ++ [p]), file := c.file.read now }) hpending _
  exact busy (hfile.2.trans hfile.1.symm) hpending' ⟨hcopies, hfile, hfile.1, hfile.2⟩

theorem serve_get {attr : Bool} (h : Timed k c t) (hlive : typeOf c.log ≠ none)
    (hpending : c.pending = [⟨p, k, .get attr⟩]) (now : UInt32) :
    Timed k (c.serve k 0 ⟨p, k, .get attr⟩ now) t := by
  have hdated : Dated k c t := h.phase p _ hpending
  rcases hown : c.owners with _ | _ | ⟨q, _ | ⟨r, l⟩⟩
  · simp only [Cell.serve, hown]
    exact serveGet hpending hdated.copies (hdated.file hlive (by simp [hown])) ..
  · simp only [Cell.serve, hown]
    exact serveGet hpending hdated.copies (hdated.file hlive (by simp [hown])) ..
  · simp only [Cell.serve, hown]
    exact busy h.even (pending_goto hpending _) ⟨hdated.copies, hdated.file⟩
  · simp only [Cell.serve, hown]
    exact serveGet hpending hdated.copies (hdated.file hlive (by simp [hown])) ..

theorem serve_sharing {attr : Bool} {owner : ℕ} (h : Timed k c t) (hi : Inv true k c)
    (hpending : c.pending = [⟨p, k, .sharing attr owner⟩]) (now : UInt32) :
    Timed k (c.serve k 0 ⟨p, k, .sharing attr owner⟩ now) t := by
  have hdated : Dated k c t := h.phase p _ hpending
  have hcached := hi.callee (hpending ▸ List.mem_singleton_self _) rfl
  obtain ⟨e, he⟩ := Option.isSome_iff_exists.1 hcached
  obtain ⟨hm, hc⟩ := hdated.copies owner e he
  simp only [Cell.serve, he]
  exact busy h.even (pending_goto (c := c.setCache owner k (some e.share.2)) hpending _)
    (hdated.copies.set (e := e.share.2) hm hc owner)

/-- The server's file gets the owner's time. -/
theorem serve_shared {attr : Bool} {r : ShareResult} (h : Timed k c t) (hi : Inv true k c)
    (hpending : c.pending = [⟨p, k, .shared attr r⟩])
    (hin : c.InTime k now (.shared attr r)) :
    Timed k (c.serve k 0 ⟨p, k, .shared attr r⟩ now) t := by
  have hcopies : Stamped k c.cache t := h.phase p _ hpending
  obtain ⟨-, owner, hown, hagree, -⟩ := (hi.of_pending hpending).2
  obtain ⟨e, he⟩ := Option.isSome_iff_exists.1 ((hagree.roster.of_singleton owner).2 rfl)
  have htime : e.attr.mtime = if r.update then now else c.file.attr.mtime :=
    hin owner (by simp [hown]) e he
  rw [(hcopies owner e he).1] at htime
  have hfile : (if r.update then c.file.write r.data now else c.file).At t := by
    split
    next hupdate => exact ⟨(htime.trans (if_pos hupdate)).symm, (htime.trans (if_pos hupdate)).symm⟩
    next hupdate =>
      have hm := (htime.trans (if_neg hupdate)).symm
      exact ⟨hm, h.even.trans hm⟩
  have hserve : c.serve k 0 ⟨p, k, .shared attr r⟩ now =
      { c with file := if r.update then c.file.write r.data now else c.file }.serveGet 0
        ⟨p, k, .shared attr r⟩ attr true now := by
    simp only [Cell.serve, hown]
  rw [hserve]
  exact serveGet (c := { c with file := if r.update then c.file.write r.data now else c.file })
    hpending hcopies hfile ..

theorem serve_pulled {attr : Bool} {r : GetResult} (h : Timed k c t) (hi : Inv true k c)
    (hpending : c.pending = [⟨p, k, .pulled attr r⟩]) (now : UInt32) :
    Timed k (c.serve k 0 ⟨p, k, .pulled attr r⟩ now) t := by
  obtain ⟨hcopies, hfile, hm, hc⟩ : DatedPhase k c t p (.pulled attr r) := h.phase p _ hpending
  have hp : c.cache p k = none := (hi.of_pending hpending).2.1
  simp only [Cell.serve, hp, Option.getD_none]
  exact idle h.even (pending_done hpending) ⟨hcopies.set (e := r.extent) hm hc p, fun _ _ => hfile⟩

theorem serve_putDone {buf : Bytes} {starts : Bool} {type : UInt32} (h : Timed k c t)
    (hi : Inv true k c) (hpending : c.pending = [⟨p, k, .putDone buf starts type⟩])
    (now : UInt32) : Timed k (c.serve k 0 ⟨p, k, .putDone buf starts type⟩ now) now := by
  obtain ⟨hp, hown, hothers, -⟩ := (hi.of_pending hpending).2
  obtain ⟨e, he⟩ := Option.isSome_iff_exists.1 hp
  simp only [Cell.serve, he]
  refine idle h.even (pending_done hpending) ⟨?_, fun _ hone => absurd ?_ hone⟩
  · exact Stamped.alone (fun q hq => hothers.none_of_nil hq) rfl rfl
  · exact congrArg (fun o : Option (List ℕ) => (o.getD []).length) hown

theorem serve_created {type : UInt32} (h : Timed k c t) (hi : Inv true k c)
    (hpending : c.pending = [⟨p, k, .created type⟩]) (now : UInt32) :
    Timed k (c.serve k 0 ⟨p, k, .created type⟩ now) now := by
  have hp : c.cache p k = none := h.phase p _ hpending
  obtain ⟨hown, hothers, -⟩ := (hi.of_pending hpending).2
  simp only [Cell.serve, Cell.insert, hp, Option.getD_none]
  refine idle h.even (pending_done hpending) ⟨?_, fun _ hone => absurd ?_ hone⟩
  · exact Stamped.alone (fun q hq => hothers.none_of_nil hq) rfl rfl
  · exact congrArg (fun o : Option (List ℕ) => (o.getD []).length) hown

/-- The file of a removed extent, whose copies are gone. -/
theorem serveRemove (h : Timed k c t) (hpending : c.pending = [⟨p, k, pc⟩])
    (hp : c.cache p k = none) (hothers : Others k c.cache p []) :
    Timed k (c.serveRemove 0 ⟨p, k, pc⟩) t := by
  refine idle h.even (pending_done hpending) ⟨fun q x hq => ?_, fun hlive => ?_⟩
  · have hnone : c.cache q k = none := if hqp : q = p then hqp ▸ hp else hothers.none_of_nil hqp
    exact absurd (hnone.symm.trans hq) nofun
  · exact absurd typeOf_removed hlive

/-- The server makes the client the only owner and writes the file. -/
theorem servePut (hpending : c.pending = [⟨p, k, pc⟩]) (buf : Bytes) (starts : Bool)
    (now : UInt32) : Timed k (c.servePut 0 ⟨p, k, pc⟩ buf starts now) t := by
  have hpending' : (c.servePut 0 ⟨p, k, pc⟩ buf starts now).pending =
      [⟨p, k, .putDone buf starts c.file.attr.type⟩] :=
    pending_goto (c := { c with owners := some [p], file := c.file.write buf now }) hpending _
  exact busy rfl hpending' trivial

/-- **Each step keeps the invariant.** -/
theorem serve {call : Call} (h : Timed k c t) (hi : Inv true k c)
    (hcall : c.pending[i]? = some call) (hin : c.InTime k now call.pc) :
    Timed k (c.serve k i call now) ((call.pc.stamps now).getLastD t) := by
  obtain ⟨rfl, -, hlive, p, pc, rfl, hpending, hphase⟩ := hi.of_getElem? hcall
  cases pc with
  | get attr => exact h.serve_get (hlive rfl) hpending now
  | sharing attr owner => exact h.serve_sharing hi hpending now
  | shared attr r => exact h.serve_shared hi hpending hin
  | pulled attr r => exact h.serve_pulled hi hpending now
  | put buf starts =>
    cases hown : c.owners with
    | none =>
      simp only [Cell.serve, hown]
      exact servePut hpending buf starts now
    | some owners =>
      simp only [Cell.serve, hown]
      exact busy h.even (pending_goto hpending _) trivial
  | putting buf starts todo =>
    obtain ⟨-, hown, hothers, -⟩ := hphase
    cases todo with
    | nil =>
      obtain ⟨owners, hown⟩ := Option.ne_none_iff_exists'.1 hown
      simp only [Cell.serve, hown]
      exact servePut hpending buf starts now
    | cons q todo =>
      simp only [Cell.serve, Cell.invalidate_of_isSome hothers.roster.of_cons.2]
      exact busy h.even (pending_goto (c := c.setCache q k none) hpending _) trivial
  | putDone buf starts type => exact h.serve_putDone hi hpending now
  | remove =>
    obtain ⟨hp, hothers⟩ := hphase
    cases hown : c.owners with
    | none =>
      simp only [Cell.serve, hown]
      exact h.serveRemove hpending hp (by simpa [hown] using hothers)
    | some owners =>
      simp only [Cell.serve, hown]
      exact busy h.even (pending_goto hpending _) trivial
  | removing todo =>
    obtain ⟨hp, hown, hothers⟩ := hphase
    cases todo with
    | nil =>
      obtain ⟨owners, hown⟩ := Option.ne_none_iff_exists'.1 hown
      simp only [Cell.serve, hown]
      exact h.serveRemove hpending hp hothers
    | cons q todo =>
      simp only [Cell.serve, Cell.invalidate_of_isSome hothers.roster.of_cons.2]
      exact busy h.even (pending_goto (c := c.setCache q k none) hpending _) trivial
  | created type => exact h.serve_created hi hpending now

/-- Between two calls about an extent all its copies have the same attributes. -/
theorem sameAttrs (h : Timed k c t) (hi : Inv true k c) (hpending : c.pending = []) :
    c.SameAttrs k t := by
  intro p e hp
  have hcopies := (h.quiet hpending).copies
  have hagree := (hi.of_nil hpending).agree
  have hlive : typeOf c.log ≠ none := fun hnone => by
    have hmem := hagree.mem hp
    rw [(hi.dead rfl hnone).2] at hmem
    exact absurd hmem List.not_mem_nil
  obtain ⟨d, hd⟩ := exists_content hlive
  obtain ⟨type, htype⟩ := Option.ne_none_iff_exists'.1 hlive
  have hfits := hagree.fits p e hp
  refine ⟨(hcopies p e hp).1, fun q e' hq => ?_⟩
  have hfits' := hagree.fits q e' hq
  refine ⟨(hfits.type type htype).trans (hfits'.type type htype).symm, ?_,
    (hcopies p e hp).1.trans (hcopies q e' hq).1.symm,
    (hcopies p e hp).2.trans (hcopies q e' hq).2.symm⟩
  rw [hfits.size, hfits'.size, hfits.data d hd, hfits'.data d hd]

end Timed

end Steps

/-! ## Runs -/

/-- The reading of the clock that goes with an action. -/
def Action.now : Action → UInt32
  | .create _ _ _ now | .call _ _ _ now | .start _ now | .serve _ _ now => now

namespace System

variable {s s' : System} {as bs : List Action} {a : Action} {t t₀ : UInt32} {k : ℕ}

/-- The step, if a single owner has been asked to share, finds that the two times are the same. -/
def InTime (s : System) : Action → Prop
  | .serve k i now => ∀ call ∈ (s k).pending[i]?, (s k).InTime k now call.pc
  | _ => True

instance (s : System) : (a : Action) → Decidable (s.InTime a)
  | .serve k i now =>
    inferInstanceAs (Decidable (∀ call ∈ (s k).pending[i]?, (s k).InTime k now call.pc))
  | .create .. | .call .. | .start .. => .isTrue trivial

/-- Clients keep to locks and live extents, and the two times are the same where it matters. -/
def OrderlyInTime (s : System) (a : Action) : Prop := s.Orderly a ∧ s.InTime a

instance (s : System) (a : Action) : Decidable (s.OrderlyInTime a) :=
  inferInstanceAs (Decidable (_ ∧ _))

theorem timed_start (t₀ : UInt32) (k : ℕ) : Timed k (start t₀ k) t₀ := by
  by_cases hk : k = 1
  · subst hk
    exact .idle rfl rfl ⟨nofun, fun _ _ => ⟨rfl, rfl⟩⟩
  · have hfile : (start t₀ k).file = ⟨[], ⟨0, 0, 0, 0, 0⟩⟩ := if_neg hk
    have hlog : (start t₀ k).log = [] := if_neg hk
    refine .idle (by rw [hfile]) rfl ⟨nofun, fun hlive => ?_⟩
    rw [hlog] at hlive
    exact absurd rfl hlive

theorem timed_step (hi : ∀ k, Inv true k (s k)) (h : Timed k (s k) t) (hok : s.OrderlyInTime a)
    (hs : s.step a = some s') : Timed k (s' k) ((stamps k s a s').getLastD t) := by
  obtain ⟨hok, hin⟩ := hok
  cases a with
  | create port type eid now =>
    obtain ⟨⟨hfree, -⟩, hs⟩ := Option.ite_none_right_eq_some.1 hs
    obtain rfl := Option.some_inj.1 hs
    by_cases hk : k = eid
    · subst hk
      obtain ⟨hpending, hown⟩ := (hi k).dead rfl ((hi k).freed rfl hfree)
      have hagree := ((hi k).of_nil hpending).agree
      rw [hown] at hagree
      rw [Function.update_self]
      exact .create hpending (hagree.uncached List.not_mem_nil) type now
    · rwa [Function.update_of_ne hk]
  | call port eid op now =>
    obtain ⟨hlive, hpending⟩ := hok
    have hid := inodeOf_of_lt ((hi eid).range hlive)
    rw [step, hid] at hs
    obtain ⟨-, hs⟩ := Option.ite_none_left_eq_some.1 hs
    obtain rfl := Option.some_inj.1 hs
    by_cases hk : k = eid
    · subst hk
      rw [Function.update_self]
      have hcall := h.call (hi k) hpending port op now
      cases op with
      | put buf => simpa [stamps, hid] using hcall
      | get | getattr | remove => exact hcall
    · have hstamps : stamps k s (.call port eid op now)
          (Function.update s eid ((s eid).call port eid op now)) = [] := by
        cases op <;> simp [stamps, hid, Ne.symm hk]
      rw [Function.update_of_ne hk, hstamps]
      exact h
  | start port now => exact hok.elim
  | serve j i now =>
    obtain ⟨-, hs⟩ := Option.ite_none_left_eq_some.1 hs
    obtain ⟨call, hcall, rfl⟩ := Option.map_eq_some_iff.1 hs
    by_cases hk : k = j
    · subst hk
      rw [Function.update_self]
      simpa [stamps, hcall] using h.serve (hi k) hcall (hin call hcall)
    · rw [Function.update_of_ne hk]
      simpa [stamps, Ne.symm hk] using h

theorem getLastD_append (l l' : List UInt32) (t : UInt32) :
    (l ++ l').getLastD t = l'.getLastD (l.getLastD t) := by
  induction l' using List.reverseRecOn with
  | nil => rw [List.append_nil]; rfl
  | append_singleton l' x _ => rw [← List.append_assoc, List.getLastD_concat, List.getLastD_concat]

theorem timed_run (h : Run step OrderlyInTime (start t₀) as s) (k : ℕ) :
    Timed k (s k) (written t₀ as k) := by
  induction h with
  | nil => exact timed_start t₀ k
  | snoc h hok hs ih =>
    have hi := inv_of_orderly (h.mono fun _ _ hok => hok.1)
    rw [written, h.observe_snoc hs, getLastD_append]
    exact timed_step hi ih hok hs

/-- A step that is not in time, once the request it serves has returned, leaves two copies that
differ. -/
theorem differ_of_not_inTime (hi : ∀ k, Inv true k (s k)) {i : ℕ} {now : UInt32}
    (hin : ¬ s.InTime (.serve k i now)) (hs : s.step (.serve k i now) = some s') :
    ∃ s'', s'.step (.serve k 0 now) = some s'' ∧ (s'' k).pending = [] ∧
      ∀ t, ¬ (s'' k).SameAttrs k t := by
  obtain ⟨hcrashed, hs⟩ := Option.ite_none_left_eq_some.1 hs
  obtain ⟨call, hcall, rfl⟩ := Option.map_eq_some_iff.1 hs
  obtain ⟨rfl, -, -, p, pc, rfl, hpending, hphase⟩ := (hi k).of_getElem? hcall
  have hpc : ¬ (s k).InTime k now pc := by
    intro hpc
    refine hin fun call hmem => ?_
    obtain rfl := Option.some_inj.1 (hcall.symm.trans hmem)
    exact hpc
  cases pc with
  | shared attr r =>
    obtain ⟨hp, owner, hown, hagree, -⟩ := hphase
    simp only [Cell.InTime, hown, Option.getD_some, List.mem_singleton, forall_eq,
      not_forall] at hpc
    obtain ⟨e, he, htime⟩ := hpc
    let file := if r.update then (s k).file.write r.data now else (s k).file
    let result : GetResult := ⟨file.data, (file.read now).attr, true⟩
    let c : Cell := { s k with
      file := file.read now
      owners := some ([owner] ++ [p])
      pending := [⟨p, k, .pulled attr result⟩] }
    have hserve : (s k).serve k 0 ⟨p, k, .shared attr r⟩ now = c := by
      simp only [Cell.serve, hown, Cell.serveGet, Cell.goto, hpending]
      rfl
    have hmtime : result.attr.mtime = if r.update then now else (s k).file.attr.mtime := by
      show file.attr.mtime = _
      split
      next hupdate => simp only [file, if_pos hupdate]; rfl
      next hupdate => simp only [file, if_neg hupdate]
    let c' : Cell := ((c.setCache p k (some result.extent)).answer p attr result.extent).done 0
    have hserve' : c.serve k 0 ⟨p, k, .pulled attr result⟩ now = c' := by
      simp only [Cell.serve, show c.cache p k = none from hp, Option.getD_none]
      rfl
    have hne : owner ≠ p := by
      rintro rfl
      cases hp.symm.trans he
    refine ⟨Function.update (Function.update s k c) k c', ?_, ?_, fun t hsame => ?_⟩
    · have hcrashed' : c.crashed = false := by simpa using hcrashed
      rw [hserve, step, Function.update_self, if_neg (by simp [hcrashed'])]
      exact congrArg (fun c' => some (Function.update (Function.update s k c) k c')) hserve'
    · rw [Function.update_self]
      rfl
    · rw [Function.update_self] at hsame
      have hself : c'.cache p k = some result.extent := c.cache_setCache_self p k _
      have hother : c'.cache owner k = some e :=
        (c.cache_setCache_of_ne hne k k (some result.extent)).trans he
      have hsame := ((hsame owner e hother).2 p _ hself).2.2.1
      exact htime (hsame.trans hmtime)
  | _ => exact absurd trivial hpc

/-- **Attributes agree, where the clock does.**  As long as the server, when it has had a single
owner share its copy, is about to have the copy's own time in its file: whenever no call about an
extent is under way all copies have the same type, size, `mtime` and `ctime`, the `mtime` is the
time of the last `put` or of the `create`, and it stays so until something is `put`.  At the first
step where that is not so, the request being served leaves two copies that differ. -/
theorem attributes_agree (h : Run step OrderlyInTime (start t₀) as s) (eid : ℕ) :
    ((s eid).pending = [] → (s eid).SameAttrs eid (written t₀ as eid)) ∧
    (∀ bs s', Run step OrderlyInTime s bs s' → observe step (stamps eid) s bs = [] →
      (s' eid).pending = [] → (s' eid).SameAttrs eid (written t₀ as eid)) ∧
    ∀ i now s', ¬ s.InTime (.serve eid i now) → s.step (.serve eid i now) = some s' →
      ∃ s'', s'.step (.serve eid 0 now) = some s'' ∧ (s'' eid).pending = [] ∧
        ∀ t, ¬ (s'' eid).SameAttrs eid t := by
  have hi : ∀ {as : List Action} {s : System}, Run step OrderlyInTime (start t₀) as s →
      ∀ k, Inv true k (s k) := fun h => inv_of_orderly (h.mono fun _ _ hok => hok.1)
  refine ⟨(timed_run h eid).sameAttrs (hi h eid), fun bs s' hbs hnone hpending => ?_,
    fun i now s' => differ_of_not_inTime (hi h)⟩
  have hsame : written t₀ (as ++ bs) eid = written t₀ as eid := by
    rw [written, observe_append h.execute_eq, hnone, List.append_nil, written]
  exact hsame ▸ (timed_run (h.append hbs) eid).sameAttrs (hi (h.append hbs) eid) hpending

/-- Client 7 creates extent 2 at time 1, puts `"x"` at time 3 and client 8 gets it at `time`. -/
def relayAt (time : UInt32) : List Action :=
  [.create 7 2 2 1, .serve 2 0 1, .call 7 2 (.put [120]) 3, .call 8 2 .get time,
    .serve 2 0 time, .serve 2 0 time, .serve 2 0 time, .serve 2 0 time]

theorem attributes_agree_relayAt : ∃ s : System,
    Run step OrderlyInTime (start 0) (relayAt 3) s ∧
      written 0 (relayAt 3) 2 = 3 ∧ (s 2).pending = [] ∧ ((s 2).cache 8 2).isSome ∧
      ((s 2).pending = [] → (s 2).SameAttrs 2 (written 0 (relayAt 3) 2)) := by
  obtain ⟨s, hs⟩ : ∃ s, execute (guarded step OrderlyInTime) (start 0) (relayAt 3) = some s :=
    Option.isSome_iff_exists.1 (by decide +kernel)
  have hend : (execute (guarded step OrderlyInTime) (start 0) (relayAt 3)).map
      (fun s => ((s 2).pending, ((s 2).cache 8 2).isSome)) = some ([], true) := by
    decide +kernel
  rw [hs, Option.map_some, Option.some_inj, Prod.mk.injEq] at hend
  have hrun : Run step OrderlyInTime (start 0) (relayAt 3) s := .of_guarded hs
  exact ⟨s, hrun, by decide +kernel, hend.1, hend.2, (attributes_agree hrun 2).1⟩

/-- Time moves forward. -/
def Forward (t₀ : UInt32) (as : List Action) : Prop :=
  (t₀ :: as.map Action.now).Pairwise (· ≤ ·)

/-- Client 8 gets the extent two seconds after client 7 has put it, and is told another time than 7
has. -/
theorem not_attributes_agree : ¬ ∀ (t₀ : UInt32) (as : List Action) (s : System) (eid : ℕ),
    Run step Orderly (start t₀) as s → Forward t₀ as → (s eid).pending = [] →
      (s eid).SameAttrs eid (written t₀ as eid) := by
  intro h
  obtain ⟨s, hs⟩ : ∃ s, execute (guarded step Orderly) (start 0) (relayAt 5) = some s :=
    Option.isSome_iff_exists.1 (by decide +kernel)
  have hend : (execute (guarded step Orderly) (start 0) (relayAt 5)).map (fun s => ((s 2).pending,
      ((s 2).cache 7 2).map (·.attr.mtime), ((s 2).cache 8 2).map (·.attr.mtime))) =
        some ([], some 3, some 5) := by
    decide +kernel
  rw [hs, Option.map_some, Option.some_inj, Prod.mk.injEq, Prod.mk.injEq] at hend
  obtain ⟨hpending, h7, h8⟩ := hend
  obtain ⟨e, he, hm⟩ := Option.map_eq_some_iff.1 h7
  obtain ⟨e', he', hm'⟩ := Option.map_eq_some_iff.1 h8
  have hsame := h 0 (relayAt 5) s 2 (.of_guarded hs) (by unfold Forward; decide) hpending
  have htime := ((hsame 7 e he).2 8 e' he').2.2.1
  rw [hm, hm'] at htime
  exact absurd htime (by decide)

end System

end Extent
end CseLab
