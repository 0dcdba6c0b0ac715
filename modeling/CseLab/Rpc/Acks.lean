import CseLab.Rpc.Call

/-!
# What a client acknowledges

`rpcc::update_xid_rep` once more, now with the iterator that its loop holds into the list it takes
elements from.  `Cursor.updateXidRep` stops (`none`) where the code would look at an element that is
no longer there, or its loop would not come to an end; `cursor_updateXidRep` says that neither
happens and that it does what `updateXidRep` does.

`window_exact` is about the xids that have been reported, in any order and each any number of times:
the front of the window is the last one up to which all have been.
-/

set_option autoImplicit false

namespace CseLab
namespace Rpc

/-! ## With the iterator -/

namespace Cursor

/-- `while (front() + 1 == *it) pop_front()`, with `it` at this index of the list, and where `it` is
after it.  There is no element at `it` once that has been taken away. -/
def popWhile : List ℕ → ℕ → Option (List ℕ × ℕ)
  | [], _ => none
  | front :: window, it => do
    let x ← (front :: window)[it]?
    if front + 1 = x then if it = 0 then none else popWhile window (it - 1)
    else some (front :: window, it)

/-- The loop at `compress`, for at most `n` rounds. -/
def compress : ℕ → List ℕ → ℕ → Option (List ℕ)
  | 0, _, _ => none
  | n + 1, window, it =>
    if it = window.length then some window
    else do
      let (window, it) ← popWhile window it
      compress n window (it + 1)

/-- `rpcc::update_xid_rep`. -/
def updateXidRep (n xid : ℕ) (window : List ℕ) : Option (List ℕ) := do
  let front ← window.head?
  if xid ≤ front then some window
  else compress n (window.orderedInsert (· < ·) xid) 1

/-- One call after the other, the first with the window that a new `rpcc` has. -/
def reports (n : ℕ) (xids : List ℕ) : Option (List ℕ) :=
  xids.foldlM (fun window xid => updateXidRep n xid window) Rpcc.start.xid_rep_window

/-- The loop takes nothing away at `it` or behind. -/
theorem popWhile_eq (before : List ℕ) (x : ℕ) (rest : List ℕ) :
    popWhile (before ++ x :: rest) before.length =
      some (popTo x before ++ x :: rest, (popTo x before).length) := by
  induction before with
  | nil => simp [popWhile, popTo]
  | cons front before ih =>
    rw [List.cons_append, popWhile, popTo]
    have hget : (front :: (before ++ x :: rest))[(front :: before).length]? = some x := by simp
    rw [hget, Option.bind_eq_bind, Option.bind_some]
    split
    · rw [if_neg (by simp)]
      exact ih
    · rfl

/-- Behind `it` there is a round for each element. -/
theorem compress_eq {n : ℕ} {before rest : List ℕ} (hn : rest.length < n) :
    compress n (before ++ rest) before.length = some (compressFrom before rest) := by
  induction rest generalizing n before with
  | nil =>
    obtain ⟨n, rfl⟩ : ∃ k, n = k + 1 := ⟨n - 1, by rw [List.length_nil] at hn; omega⟩
    rw [List.append_nil, compress, if_pos rfl]
    rfl
  | cons x rest ih =>
    rw [List.length_cons] at hn
    obtain ⟨n, rfl⟩ : ∃ k, n = k + 1 := ⟨n - 1, by omega⟩
    have hend : before.length ≠ (before ++ x :: rest).length := by
      rw [List.length_append, List.length_cons]
      omega
    have hnext : compress n (popTo x before ++ [x] ++ rest) (popTo x before ++ [x]).length =
        some (compressFrom (popTo x before ++ [x]) rest) := ih (by omega)
    rw [List.append_assoc, List.singleton_append, List.length_append,
      List.length_singleton] at hnext
    rw [compress, if_neg hend, popWhile_eq]
    exact hnext

theorem updateXidRep_eq {n xid : ℕ} {window : List ℕ} (hne : window ≠ [])
    (hn : window.length < n) : updateXidRep n xid window = some (Rpc.updateXidRep xid window) := by
  cases window with
  | nil => exact absurd rfl hne
  | cons front window =>
    rw [updateXidRep, Rpc.updateXidRep, List.head?_cons, Option.bind_eq_bind, Option.bind_some]
    split
    · rfl
    · have hlen := List.orderedInsert_length (· < ·) (front :: window) xid
      cases hw : (front :: window).orderedInsert (· < ·) xid with
      | nil =>
        rw [hw] at hlen
        exact absurd hlen (by simp)
      | cons front' window' =>
        rw [hw, List.length_cons, Nat.add_right_cancel_iff] at hlen
        have hloop : compress n ([front'] ++ window') [front'].length =
            some (compressFrom [front'] window') := compress_eq (hlen ▸ hn)
        exact hloop

end Cursor

/-! ## What the loop leaves -/

variable {before rest window xids : List ℕ} {it xid : ℕ}

theorem popTo_suffix (it : ℕ) (before : List ℕ) : popTo it before <:+ before := by
  induction before with
  | nil => exact List.suffix_rfl
  | cons front before ih =>
    rw [popTo]
    split
    · exact ih.trans (List.suffix_cons front before)
    · exact List.suffix_rfl

theorem compressFrom_suffix (before rest : List ℕ) :
    compressFrom before rest <:+ before ++ rest := by
  induction rest generalizing before with
  | nil =>
    rw [List.append_nil]
    exact List.suffix_rfl
  | cons it rest ih =>
    obtain ⟨gone, hgone⟩ := popTo_suffix it before
    refine (ih _).trans ⟨gone, ?_⟩
    rw [List.append_assoc, List.singleton_append, ← List.append_assoc, hgone]

theorem headD_mem {l : List ℕ} (hne : l ≠ []) : l.headD 0 ∈ l := by
  cases l with
  | nil => exact absurd rfl hne
  | cons front l => exact List.mem_cons_self

/-- Of a list in order, what is not in its end is at most what that begins with. -/
theorem le_headD_or_mem {l r : List ℕ} (horder : l.Pairwise (· ≤ ·)) (hr : r <:+ l) (hne : r ≠ [])
    {v : ℕ} (hv : v ∈ l) : v ≤ r.headD 0 ∨ v ∈ r := by
  obtain ⟨gone, rfl⟩ := hr
  rcases List.mem_append.1 hv with hgone | hmem
  · exact .inl ((List.pairwise_append.1 horder).2.2 v hgone _ (headD_mem hne))
  · exact .inr hmem

/-- What follows the front is not in the window. -/
def NoNext (window : List ℕ) : Prop := ∀ v ∈ window, v ≠ window.headD 0 + 1

/-- Of what is between `it - 1` and `it` only `it` is left. -/
theorem eq_of_mem_popTo (horder : (before ++ [it]).Pairwise (· ≤ ·))
    (h : ∀ v ∈ before, it ≤ v + 1) : ∀ v ∈ popTo it before, v = it := by
  induction before with
  | nil => exact fun v hv => absurd hv List.not_mem_nil
  | cons front before ih =>
    obtain ⟨hfront, horder'⟩ := List.pairwise_cons.1 horder
    rw [popTo]
    split
    · exact ih horder' fun v hv => h v (List.mem_cons_of_mem _ hv)
    · intro v hv
      have hit : front ≤ it := hfront it (by simp)
      have hle := h front List.mem_cons_self
      have hv' : v ≤ it :=
        (List.pairwise_append.1 horder).2.2 v hv it (List.mem_singleton_self it)
      have hge : front ≤ v := by
        rcases List.mem_cons.1 hv with rfl | hv
        · exact Nat.le_refl v
        · exact hfront v (List.mem_append_left _ hv)
      omega

theorem NoNext.popTo (horder : (before ++ [it]).Pairwise (· ≤ ·)) (h : NoNext before) :
    NoNext (Rpc.popTo it before ++ [it]) := by
  cases before with
  | nil => simp [Rpc.popTo, NoNext]
  | cons front before =>
    obtain ⟨hfront, horder'⟩ := List.pairwise_cons.1 horder
    rw [Rpc.popTo]
    split
    next hnext =>
      have hall : ∀ v ∈ Rpc.popTo it before ++ [it], v = it := by
        intro v hv
        rcases List.mem_append.1 hv with hv | hv
        · refine eq_of_mem_popTo horder' (fun u hu => ?_) v hv
          have hle := hfront u (List.mem_append_left _ hu)
          omega
        · exact List.mem_singleton.1 hv
      intro v hv
      have hhead : (Rpc.popTo it before ++ [it]).headD 0 = it := by
        cases hl : Rpc.popTo it before with
        | nil => rfl
        | cons u l => exact hall u (by simp [hl])
      rw [hhead, hall v hv]
      omega
    next hnext =>
      intro v hv
      rcases List.mem_append.1 hv with hv | hv
      · exact h v hv
      · rw [List.mem_singleton.1 hv]
        exact Ne.symm hnext

theorem NoNext.compressFrom (horder : (before ++ rest).Pairwise (· ≤ ·)) (h : NoNext before) :
    NoNext (Rpc.compressFrom before rest) := by
  induction rest generalizing before with
  | nil => exact h
  | cons it rest ih =>
    have hsplit : before ++ it :: rest = before ++ [it] ++ rest := by simp
    rw [hsplit] at horder
    refine ih (horder.sublist ?_) (h.popTo (List.pairwise_append.1 horder).1)
    exact ((popTo_suffix it before).sublist.append_right [it]).append_right rest

/-! ## What has been reported -/

/-- The window after the reports of `xids`. -/
structure Tells (xids window : List ℕ) : Prop where
  settled : Settled (fun v => v = 0 ∨ v ∈ xids) window
  kept : ∀ v ∈ xids, v ≤ window.headD 0 ∨ v ∈ window
  next : NoNext window
  length : window.length ≤ xids.length + 1

theorem Tells.start : Tells [] Rpcc.start.xid_rep_window where
  settled := by
    refine ⟨List.cons_ne_nil _ _, List.pairwise_singleton _ _, fun v hv => ?_, fun v hv => ?_⟩
    · exact .inl (List.mem_singleton.1 hv)
    · exact .inl (Nat.le_zero.1 (hv 0 (List.mem_singleton_self 0)))
  kept v hv := absurd hv List.not_mem_nil
  next := by simp [NoNext, Rpcc.start]
  length := Nat.le_refl 1

theorem Tells.report (h : Tells xids window) (xid : ℕ) :
    Tells (xids ++ [xid]) (updateXidRep xid window) := by
  have hold : Settled (fun v => v = 0 ∨ v ∈ xids ++ [xid]) window :=
    h.settled.mono fun v hv => hv.imp_right (List.mem_append_left _)
  have hxid : xid = 0 ∨ xid ∈ xids ++ [xid] := .inr (by simp)
  have hsettled := hold.updateXidRep hxid
  obtain ⟨⟨hne, horder, -, -⟩, hkept, hnext, hlength⟩ := h
  cases window with
  | nil => exact absurd rfl hne
  | cons front window =>
    rw [updateXidRep] at hsettled ⊢
    split at hsettled
    next hle =>
      rw [if_pos hle]
      refine ⟨hsettled, fun v hv => ?_, hnext, hlength.trans (by simp)⟩
      rcases List.mem_append.1 hv with hv | hv
      · exact hkept v hv
      · exact .inl ((List.mem_singleton.1 hv).trans_le hle)
    next hlt =>
      rw [if_neg hlt]
      have hinsert : (front :: window).orderedInsert (· < ·) xid =
          front :: window.orderedInsert (· < ·) xid :=
        if_neg fun hxid => hlt hxid.le
      have hsorted : (front :: window.orderedInsert (· < ·) xid).Pairwise (· ≤ ·) :=
        hinsert ▸ pairwise_orderedInsert le_trans (fun _ _ hlt => le_of_lt hlt)
          (fun _ _ hge => not_lt.1 hge) horder
      rw [hinsert] at hsettled ⊢
      have hsuffix := compressFrom_suffix [front] (window.orderedInsert (· < ·) xid)
      have hmem : ∀ {v}, v = xid ∨ v ∈ front :: window →
          v ≤ (compressFrom [front] (window.orderedInsert (· < ·) xid)).headD 0 ∨
            v ∈ compressFrom [front] (window.orderedInsert (· < ·) xid) := fun hv =>
        le_headD_or_mem hsorted hsuffix hsettled.ne (hinsert ▸ (List.mem_orderedInsert _).2 hv)
      -- the front moves only up
      have hfront : front ≤ (compressFrom [front] (window.orderedInsert (· < ·) xid)).headD 0 := by
        rcases List.mem_cons.1 (hsuffix.subset (headD_mem hsettled.ne)) with heq | hhead
        · exact heq.ge
        · exact (List.pairwise_cons.1 hsorted).1 _ hhead
      refine ⟨hsettled, fun v hv => ?_, ?_, hsuffix.length_le.trans ?_⟩
      · rcases List.mem_append.1 hv with hv | hv
        · rcases hkept v hv with hle | hv
          · exact .inl (hle.trans hfront)
          · exact hmem (.inr hv)
        · exact hmem (.inl (List.mem_singleton.1 hv))
      · exact NoNext.compressFrom hsorted (by simp [NoNext])
      · rw [List.singleton_append, List.length_cons, List.orderedInsert_length, List.length_append]
        exact Nat.add_le_add_right hlength 1

/-- Up to the front all have been reported, and the one after it has not. -/
theorem Tells.front (h : Tells xids window) (n : ℕ) :
    n ≤ window.headD 0 ↔ ∀ x, 1 ≤ x → x ≤ n → x ∈ xids := by
  refine ⟨fun hn x hx hxn => ?_, fun hall => ?_⟩
  · exact (h.settled.headD (hxn.trans hn)).resolve_left (by omega)
  · by_contra hn
    rcases h.kept _ (hall (window.headD 0 + 1) (by omega) (by omega)) with hle | hmem
    · omega
    · exact h.next _ hmem rfl

/-- **The acknowledgement window is exact.**  Whatever is reported in whatever order, each call
returns without having looked at an element that it has taken away, the window is in order and not
empty, and its front is the last xid up to which all have been reported. -/
theorem window_exact (xids : List ℕ) :
    ∃ window, (∀ n, xids.length + 1 < n → Cursor.reports n xids = some window) ∧ window ≠ [] ∧
      window.Pairwise (· ≤ ·) ∧
        ∀ n, n ≤ window.headD 0 ↔ ∀ x, 1 ≤ x → x ≤ n → x ∈ xids := by
  suffices h : ∃ window, (∀ n, xids.length + 1 < n → Cursor.reports n xids = some window) ∧
      Tells xids window by
    obtain ⟨window, hrun, htells⟩ := h
    exact ⟨window, hrun, htells.settled.ne, htells.settled.order, htells.front⟩
  induction xids using List.reverseRecOn with
  | nil => exact ⟨_, fun _ _ => rfl, .start⟩
  | append_singleton xids xid ih =>
    obtain ⟨window, hrun, htells⟩ := ih
    refine ⟨_, fun n hn => ?_, htells.report xid⟩
    rw [List.length_append, List.length_singleton] at hn
    have hlength := htells.length
    rw [Cursor.reports, List.foldlM_append, ← Cursor.reports, hrun n (by omega),
      Option.bind_eq_bind, Option.bind_some, List.foldlM_cons,
      Cursor.updateXidRep_eq htells.settled.ne (by omega)]
    rfl

example : Cursor.reports 7 [2, 4, 2, 1, 5] = some [2, 2, 4, 5] := by decide

end Rpc
end CseLab
