import CseLab.Extent.Machine

/-!
# Owner list and copies agree

While calls about one inode come one after another, the server's list of owners is a roster of the
clients that have a copy (`Agree`), a copy that is not `SHARED` is the only one, and what a copy
holds is what the record says; the server's file may lag behind only if some copy is `MODIFIED`
(`Backed`). That is so between two calls (`Quiet`); `Phase` says what is left of it while a call is
under way.

How much the record says is left open (`known`).  If clients keep to ids that are live it is the
file's contents and its type, from the `create` on.  Where an id may be used after its file has been
removed, a copy of that time can outlive the next `create`, and all one can tell is what has been
`put` since.
-/

set_option autoImplicit false

namespace CseLab
namespace Extent

open Inode (Attr inodeNum tDir)

/-! ## What the record says of a file -/

/-- What is known of a file. -/
structure Known where
  data : Option Bytes
  type : Option UInt32

/-- What the record says: with `fresh`, all from the `create` on. -/
def known (fresh : Bool) (log : List Event) : Known :=
  ⟨content fresh log, if fresh then typeOf log else none⟩

/-- Data and attributes are as known. -/
structure Known.Fits (w : Known) (buf : Bytes) (attr : Attr) : Prop where
  data : ∀ d ∈ w.data, buf = d
  size : attr.size = UInt32.ofNat buf.length
  type : ∀ t ∈ w.type, attr.type = t

section Record

variable {fresh : Bool} {log : List Event} {port : ℕ} {buf : Bytes} {a : Attr} {type : UInt32}

@[simp] theorem content_created :
    content fresh (log ++ [.created type]) = if fresh then some [] else none :=
  List.foldl_concat ..

@[simp] theorem content_put : content fresh (log ++ [.put port buf false]) = some buf :=
  List.foldl_concat ..

@[simp] theorem content_starts :
    content fresh (log ++ [.put port buf true]) = content fresh log :=
  List.foldl_concat ..

@[simp] theorem content_removed : content fresh (log ++ [.removed port]) = none :=
  List.foldl_concat ..

@[simp] theorem content_got : content fresh (log ++ [.got port buf]) = content fresh log :=
  List.foldl_concat ..

@[simp] theorem content_attr : content fresh (log ++ [.attr port a]) = content fresh log :=
  List.foldl_concat ..

@[simp] theorem typeOf_created : typeOf (log ++ [.created type]) = some type :=
  List.foldl_concat ..

@[simp] theorem typeOf_put {starts : Bool} :
    typeOf (log ++ [.put port buf starts]) = typeOf log :=
  List.foldl_concat ..

@[simp] theorem typeOf_removed : typeOf (log ++ [.removed port]) = none :=
  List.foldl_concat ..

@[simp] theorem typeOf_got : typeOf (log ++ [.got port buf]) = typeOf log :=
  List.foldl_concat ..

@[simp] theorem typeOf_attr : typeOf (log ++ [.attr port a]) = typeOf log :=
  List.foldl_concat ..

/-- A file that is live has contents. -/
theorem exists_content (h : typeOf log ≠ none) : ∃ d, content true log = some d := by
  induction log using List.reverseRecOn with
  | nil => exact absurd rfl h
  | append_singleton log e ih =>
    cases e with
    | created type => exact ⟨[], content_created⟩
    | put port buf starts =>
      cases starts with
      | false => exact ⟨buf, content_put⟩
      | true => exact (ih (typeOf_put ▸ h)).imp fun d hd => content_starts.trans hd
    | removed port => exact absurd typeOf_removed h
    | got port buf => exact (ih (typeOf_got ▸ h)).imp fun d hd => content_got.trans hd
    | attr port a => exact (ih (typeOf_attr ▸ h)).imp fun d hd => content_attr.trans hd

@[simp] theorem known_created : known fresh (log ++ [.created type]) =
    ⟨if fresh then some [] else none, if fresh then some type else none⟩ := by
  rw [known, content_created, typeOf_created]

@[simp] theorem known_removed : known fresh (log ++ [.removed port]) = ⟨none, none⟩ := by
  rw [known, content_removed, typeOf_removed, ite_self]

@[simp] theorem known_got : known fresh (log ++ [.got port buf]) = known fresh log := by
  rw [known, content_got, typeOf_got, known]

@[simp] theorem known_attr : known fresh (log ++ [.attr port a]) = known fresh log := by
  rw [known, content_attr, typeOf_attr, known]

@[simp] theorem type_known_put {starts : Bool} :
    (known fresh (log ++ [.put port buf starts])).type = (known fresh log).type := by
  rw [known, typeOf_put, known]

/-- What a `put` writes is as known, if the contents are. -/
theorem Known.Fits.written {w : Known} {now : UInt32} (hdata : ∀ d ∈ w.data, buf = d)
    (htype : ∀ t ∈ w.type, a.type = t) : w.Fits buf (written a buf now) :=
  ⟨hdata, rfl, htype⟩

end Record

/-! ## Copies and their owners -/

/-- `owners` lists the clients with a copy, each copy that is not `SHARED` is the only one, and all
are as known. -/
structure Agree (k : ℕ) (cache : ℕ → ℕ → Option ExtentT) (w : Known) (owners : List ℕ) : Prop where
  roster : Roster owners fun p => (cache p k).isSome
  foreign : ∀ p eid, eid ≠ k → cache p eid = none
  alone : ∀ p e, cache p k = some e → e.status ≠ .shared → owners = [p]
  fits : ∀ p e, cache p k = some e → w.Fits e.data e.attr

/-- The clients other than `port` that have a copy are those in `todo`. -/
structure Others (k : ℕ) (cache : ℕ → ℕ → Option ExtentT) (port : ℕ) (todo : List ℕ) : Prop where
  roster : Roster todo fun p => p ≠ port ∧ (cache p k).isSome
  foreign : ∀ p eid, eid ≠ k → cache p eid = none

/-- Unless a copy is `MODIFIED`, the server has the contents. -/
def Backed (k : ℕ) (cache : ℕ → ℕ → Option ExtentT) (w : Known) (data : Bytes) : Prop :=
  (∀ p e, cache p k = some e → e.status ≠ .modified) → ∀ d ∈ w.data, data = d

section Copies

variable {k p q : ℕ} {c : Cell} {w w' : Known} {owners todo : List ℕ} {e e' : ExtentT}

@[simp] theorem Cell.cache_setCache_self (c : Cell) (p k : ℕ) (x : Option ExtentT) :
    (c.setCache p k x).cache p k = x := by
  simp [Cell.setCache]

theorem Cell.cache_setCache_of_ne (c : Cell) (h : q ≠ p) (k eid : ℕ) (x : Option ExtentT) :
    (c.setCache p k x).cache q eid = c.cache q eid := by
  simp [Cell.setCache, Function.update_of_ne h]

theorem Cell.cache_setCache_of_eid_ne (c : Cell) {k eid : ℕ} (h : eid ≠ k) (p q : ℕ)
    (x : Option ExtentT) : (c.setCache p k x).cache q eid = c.cache q eid := by
  by_cases hq : q = p
  · subst hq
    simp [Cell.setCache, Function.update_of_ne h]
  · exact c.cache_setCache_of_ne hq k eid x

theorem Cell.foreign_setCache (h : ∀ p eid, eid ≠ k → c.cache p eid = none) (p : ℕ)
    (x : Option ExtentT) (q eid : ℕ) (he : eid ≠ k) : (c.setCache p k x).cache q eid = none :=
  (c.cache_setCache_of_eid_ne he p q x).trans (h q eid he)

/-- Who has a copy after one client's has been set. -/
theorem Cell.isSome_setCache (c : Cell) (p k : ℕ) (x : Option ExtentT) (q : ℕ) :
    ((c.setCache p k x).cache q k).isSome ↔ if q = p then x.isSome else (c.cache q k).isSome := by
  split
  next hq => rw [hq, c.cache_setCache_self]
  next hq => rw [c.cache_setCache_of_ne hq]

namespace Agree

theorem uncached (h : Agree k c.cache w owners) (hp : p ∉ owners) : c.cache p k = none := by
  rw [h.roster.mem_iff, Option.not_isSome_iff_eq_none] at hp
  exact hp

theorem mem (h : Agree k c.cache w owners) (hp : c.cache p k = some e) : p ∈ owners :=
  (h.roster.mem_iff p).2 (hp ▸ rfl)

theorem of_none (h : ∀ q, c.cache q k = none)
    (hforeign : ∀ q eid, eid ≠ k → c.cache q eid = none) : Agree k c.cache w [] where
  roster := Roster.nil fun q => by simp [h q]
  foreign := hforeign
  alone q x hq := absurd ((h q).symm.trans hq) nofun
  fits q x hq := absurd ((h q).symm.trans hq) nofun

/-- A copy gives way to another that is as known, and is `SHARED` or the only one. -/
theorem replace (h : Agree k c.cache w owners) (hp : c.cache p k = some e)
    (hfits : w.Fits e'.data e'.attr) (halone : e'.status ≠ .shared → owners = [p]) :
    Agree k (c.setCache p k (some e')).cache w owners where
  roster := h.roster.congr fun q => by
    rw [c.isSome_setCache]
    split
    next hq => simp [hq, hp]
    next => rfl
  foreign := Cell.foreign_setCache h.foreign p _
  alone q x hq hst := by
    by_cases hqp : q = p
    · subst hqp
      rw [c.cache_setCache_self, Option.some_inj] at hq
      exact halone (hq ▸ hst)
    · rw [c.cache_setCache_of_ne hqp] at hq
      exact h.alone q x hq hst
  fits q x hq := by
    by_cases hqp : q = p
    · subst hqp
      rw [c.cache_setCache_self, Option.some_inj] at hq
      exact hq ▸ hfits
    · rw [c.cache_setCache_of_ne hqp] at hq
      exact h.fits q x hq

/-- A new copy, at the end of the list; it is `SHARED`, and so are the others, unless it is the only
one. -/
theorem concat (h : Agree k c.cache w owners) (hp : c.cache p k = none)
    (hfits : w.Fits e.data e.attr) (hshared : ∀ q x, c.cache q k = some x → x.status = .shared)
    (halone : e.status ≠ .shared → owners = []) :
    Agree k (c.setCache p k (some e)).cache w (owners ++ [p]) where
  roster := h.roster.concat (by simp [hp]) fun q => by
    rw [c.isSome_setCache]
    split
    next hq => simp [hq]
    next hq => simp [hq]
  foreign := Cell.foreign_setCache h.foreign p _
  alone q x hq hst := by
    by_cases hqp : q = p
    · subst hqp
      rw [c.cache_setCache_self, Option.some_inj] at hq
      rw [halone (hq ▸ hst), List.nil_append]
    · rw [c.cache_setCache_of_ne hqp] at hq
      exact absurd (hshared q x hq) hst
  fits q x hq := by
    by_cases hqp : q = p
    · subst hqp
      rw [c.cache_setCache_self, Option.some_inj] at hq
      exact hq ▸ hfits
    · rw [c.cache_setCache_of_ne hqp] at hq
      exact h.fits q x hq

theorem others (h : Agree k c.cache w owners) (p : ℕ) :
    Others k c.cache p (owners.filter (· ≠ p)) where
  roster := h.roster.filter _ fun q => by rw [and_comm, decide_eq_true_iff]
  foreign := h.foreign

theorem others_of_singleton (h : Agree k c.cache w [p]) : Others k c.cache p [] := by
  simpa using h.others p

end Agree

namespace Backed

variable {data : Bytes}

/-- A copy gives way to one that is `MODIFIED` if it was. -/
theorem replace (h : Backed k c.cache w data) (hp : c.cache p k = some e)
    (hst : e.status = .modified → e'.status = .modified) :
    Backed k (c.setCache p k (some e')).cache w data := by
  refine fun hno => h fun q x hq => ?_
  by_cases hqp : q = p
  · subst hqp
    obtain rfl := Option.some_inj.1 (hp.symm.trans hq)
    exact fun hmod => hno q e' (c.cache_setCache_self q k _) (hst hmod)
  · exact hno q x ((c.cache_setCache_of_ne hqp k k _).trans hq)

theorem of_modified (hp : c.cache p k = some e) (hst : e.status = .modified) :
    Backed k c.cache w data :=
  fun hno => absurd hst (hno p e hp)

end Backed

namespace Others

theorem none_of_nil (h : Others k c.cache p []) (hq : q ≠ p) : c.cache q k = none := by
  have hnot := h.roster.not_of_nil q
  rwa [not_and, Option.not_isSome_iff_eq_none, imp_iff_right hq] at hnot

theorem of_none (h : ∀ q ≠ p, c.cache q k = none)
    (hforeign : ∀ q eid, eid ≠ k → c.cache q eid = none) : Others k c.cache p [] where
  roster := Roster.nil fun q hq => by simp [h q hq.1] at hq
  foreign := hforeign

/-- The client's own copy does not matter. -/
theorem set_self (h : Others k c.cache p todo) (x : Option ExtentT) :
    Others k (c.setCache p k x).cache p todo where
  roster := h.roster.congr fun q => and_congr_right fun hq => by
    rw [c.isSome_setCache, if_neg hq]
  foreign := Cell.foreign_setCache h.foreign p x

/-- The first of the others drops its copy. -/
theorem invalidate (h : Others k c.cache p (q :: todo)) :
    Others k (c.setCache q k none).cache p todo where
  roster := h.roster.tail fun r => by
    rw [c.isSome_setCache]
    split
    next hr => simp [hr]
    next hr => simp [hr]
  foreign := Cell.foreign_setCache h.foreign q none

/-- No others are left, and the client's own copy is the only one. -/
theorem agree (h : Others k c.cache p []) (hp : c.cache p k = some e)
    (hfits : w.Fits e.data e.attr) : Agree k c.cache w [p] where
  roster := Roster.singleton fun q => by
    by_cases hq : q = p
    · simp [hq, hp]
    · simp [hq, h.none_of_nil hq]
  foreign := h.foreign
  alone q x hq hst := by
    by_cases hqp : q = p
    · rw [hqp]
    · rw [h.none_of_nil hqp] at hq
      exact absurd hq nofun
  fits q x hq := by
    by_cases hqp : q = p
    · rw [hqp, hp, Option.some_inj] at hq
      exact hq ▸ hfits
    · rw [h.none_of_nil hqp] at hq
      exact absurd hq nofun

end Others

end Copies

end Extent
end CseLab
