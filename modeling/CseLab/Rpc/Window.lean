import CseLab.Lib.Journal
import CseLab.Lib.Run
import CseLab.Lib.Sorted
import Mathlib.Logic.Function.Basic

/-!
# The reply window

`rpcs` keeps, for each client, a list of the requests it has taken in and the replies it has sent,
in the order of their xids; what the client acknowledges goes out at the front.  Whether a request
is still to be executed is told from this list alone: one that is in it has been seen, and one that
would come before all that is in it may have been.

So the first xid in the list is a low-water mark (`Past`), and at-most-once execution is that it
never falls: `Rpcs.at_most_once`.

A reply's buffer is any `β`, and an xid is a natural number, as xids are taken not to wrap.
-/

set_option autoImplicit false

namespace CseLab
namespace Rpc

variable {β : Type*}

/-! ## One client's window -/

/-- `reply_t`; `buf` is `none` where it is `NULL`. -/
structure Reply (β : Type*) where
  xid : ℕ
  cb_present : Bool
  buf : Option β
  sz : ℤ

/-- The constructor of `reply_t`. -/
def Reply.new (xid : ℕ) : Reply β := ⟨xid, false, none, 0⟩

/-- `rpcstate_t`, with what `DONE` hands back in `*b` and `*sz`. -/
inductive RpcState (β : Type*)
  | new
  | inprogress
  | done (b : Option β) (sz : ℤ)
  | forgotten
  deriving DecidableEq

/-- `rpcs::checkduplicate_and_update`, on the window of the client that asks. -/
def checkduplicateAndUpdate (window : List (Reply β)) (xid xid_rep : ℕ) :
    RpcState β × List (Reply β) :=
  match window.find? fun reply => reply.xid = xid with
  | some reply =>
    if reply.cb_present then (.done reply.buf reply.sz, window) else (.inprogress, window)
  | none =>
    if window.head?.any fun reply => xid < reply.xid then (.forgotten, window)
    else
      (.new, (window.orderedInsert (fun reply reply' => reply.xid < reply'.xid)
        (Reply.new xid)).dropWhile fun reply => reply.xid < xid_rep)

/-- `rpcs::add_reply`, on the window of the client that asked. -/
def addReply (xid : ℕ) (b : Option β) (sz : ℤ) : List (Reply β) → List (Reply β)
  | [] => []
  | reply :: window =>
    if reply.xid = xid then { reply with buf := b, sz := sz, cb_present := true } :: window
    else reply :: addReply xid b sz window

/-- In the order of the xids, none of them twice. -/
def InOrder (window : List (Reply β)) : Prop :=
  window.Pairwise fun reply reply' => reply.xid < reply'.xid

/-- `xid` is below all that is in the window, and the window is not empty. -/
def Past (window : List (Reply β)) (xid : ℕ) : Prop :=
  window ≠ [] ∧ ∀ reply ∈ window, xid < reply.xid

variable {window : List (Reply β)} {xid xid_rep : ℕ}

theorem InOrder.past_iff (h : InOrder window) :
    (window.head?.any fun reply => xid < reply.xid) = true ↔ Past window xid := by
  cases window with
  | nil => simp [Past]
  | cons reply window =>
    have hall := (List.pairwise_cons.1 h).1
    simp only [List.head?_cons, Option.any_some, decide_eq_true_eq, Past, ne_eq, reduceCtorEq,
      not_false_eq_true, true_and, List.mem_cons, forall_eq_or_imp]
    exact ⟨fun hlt => ⟨hlt, fun reply' hmem => hlt.trans (hall reply' hmem)⟩, And.left⟩

/-- What `checkduplicate_and_update` does to a window in order: an xid that is in it is answered
from its entry, one that is past is forgotten, and any other goes in. -/
theorem checkduplicateAndUpdate_cases (h : InOrder window) (xid xid_rep : ℕ) :
    (∃ reply ∈ window, reply.xid = xid ∧ checkduplicateAndUpdate window xid xid_rep =
      (if reply.cb_present then .done reply.buf reply.sz else .inprogress, window)) ∨
    (Past window xid ∧ checkduplicateAndUpdate window xid xid_rep = (.forgotten, window)) ∨
    ((∀ reply ∈ window, reply.xid ≠ xid) ∧ ¬ Past window xid ∧ ∃ window',
      checkduplicateAndUpdate window xid xid_rep = (.new, window') ∧ InOrder window' ∧
        ∀ reply, reply ∈ window' ↔
          (reply = Reply.new xid ∨ reply ∈ window) ∧ xid_rep ≤ reply.xid) := by
  rw [checkduplicateAndUpdate]
  cases hfind : window.find? fun reply => reply.xid = xid with
  | some reply =>
    have hxid : reply.xid = xid := by simpa using List.find?_some hfind
    refine .inl ⟨reply, List.mem_of_find?_eq_some hfind, hxid, ?_⟩
    dsimp only
    cases reply.cb_present <;> rfl
  | none =>
    have hne : ∀ reply ∈ window, reply.xid ≠ xid := by simpa using hfind
    by_cases hpast : Past window xid
    · exact .inr (.inl ⟨hpast, if_pos (h.past_iff.2 hpast)⟩)
    · have hinsert : InOrder (window.orderedInsert (fun reply reply' => reply.xid < reply'.xid)
          (Reply.new xid)) :=
        pairwise_orderedInsert (fun h h' => h.trans h') (fun _ _ hlt => hlt)
          (fun reply hmem hge => lt_of_le_of_ne (not_lt.1 hge) (hne reply hmem)) h
      refine .inr (.inr ⟨hne, hpast, _, if_neg (mt h.past_iff.1 hpast),
        hinsert.sublist (List.dropWhile_sublist _), fun reply => ?_⟩)
      rw [mem_dropWhile_lt (fun h => le_of_lt h) hinsert, List.mem_orderedInsert]

/-- What `add_reply` does to a window: the entry of the request, if there still is one, gets the
reply. -/
theorem mem_addReply (h : InOrder window) {b : Option β} {sz : ℤ} {reply : Reply β} :
    reply ∈ addReply xid b sz window ↔ ∃ reply' ∈ window, reply =
      if reply'.xid = xid then { reply' with buf := b, sz := sz, cb_present := true } else reply' := by
  induction window with
  | nil => simp [addReply]
  | cons reply₀ window ih =>
    obtain ⟨hall, hw⟩ := List.pairwise_cons.1 h
    rw [addReply, List.exists_mem_cons_iff]
    split
    next hxid =>
      rw [List.mem_cons]
      refine or_congr_right ⟨fun hmem => ⟨reply, hmem, ?_⟩, ?_⟩
      · have hlt := hall reply hmem
        exact (if_neg (by omega)).symm
      · rintro ⟨reply', hmem, rfl⟩
        have hlt := hall reply' hmem
        rwa [if_neg (by omega)]
    next hxid =>
      rw [List.mem_cons, ih hw]

theorem map_xid_addReply (xid : ℕ) (b : Option β) (sz : ℤ) (window : List (Reply β)) :
    (addReply xid b sz window).map Reply.xid = window.map Reply.xid := by
  induction window with
  | nil => rfl
  | cons reply window ih =>
    rw [addReply]
    split
    · rfl
    · rw [List.map_cons, List.map_cons, ih]

theorem inOrder_iff : InOrder window ↔ (window.map Reply.xid).Pairwise (· < ·) :=
  List.pairwise_map.symm

/-- A reply does not move the low-water mark. -/
theorem past_addReply {b : Option β} {sz : ℤ} {y : ℕ} :
    Past (addReply xid b sz window) y ↔ Past window y := by
  have hpast : ∀ w : List (Reply β), Past w y ↔
      w.map Reply.xid ≠ [] ∧ ∀ x ∈ w.map Reply.xid, y < x := by
    intro w
    simp [Past]
  rw [hpast, hpast, map_xid_addReply]

/-- What is in the window or past is so when a request has gone in that is not past. -/
theorem seen_take {window' : List (Reply β)} {y : ℕ} (hr : xid_rep < xid)
    (hpast : ¬ Past window xid) (hmem' : ∀ reply, reply ∈ window' ↔
      (reply = Reply.new xid ∨ reply ∈ window) ∧ xid_rep ≤ reply.xid)
    (hy : (∃ reply ∈ window, reply.xid = y) ∨ Past window y) :
    (∃ reply ∈ window', reply.xid = y) ∨ Past window' y := by
  have hnew : Reply.new xid ∈ window' := (hmem' _).2 ⟨.inl rfl, hr.le⟩
  rcases hy with ⟨reply, hreply, hxid⟩ | hy
  · by_cases hle : xid_rep ≤ reply.xid
    · exact .inl ⟨reply, (hmem' reply).2 ⟨.inr hreply, hle⟩, hxid⟩
    · refine .inr ⟨List.ne_nil_of_mem hnew, fun reply' hreply' => ?_⟩
      have hle' := ((hmem' reply').1 hreply').2
      omega
  · refine .inr ⟨List.ne_nil_of_mem hnew, fun reply' hreply' => ?_⟩
    rcases ((hmem' reply').1 hreply').1 with rfl | hold
    · -- the new request is not past, so it is above something that the old one is below
      have hlow : ∃ reply ∈ window, reply.xid ≤ xid := by
        by_contra hnone
        exact hpast ⟨hy.1, fun reply hreply => not_le.1 fun hle => hnone ⟨reply, hreply, hle⟩⟩
      obtain ⟨reply, hreply, hle⟩ := hlow
      exact (hy.2 reply hreply).trans_le hle
    · exact hy.2 reply' hold

theorem seen_addReply {b : Option β} {sz : ℤ} {y : ℕ}
    (hy : (∃ reply ∈ window, reply.xid = y) ∨ Past window y) :
    (∃ reply ∈ addReply xid b sz window, reply.xid = y) ∨ Past (addReply xid b sz window) y := by
  refine hy.imp (fun ⟨reply, hreply, hxid⟩ => ?_) past_addReply.2
  have hin : y ∈ (addReply xid b sz window).map Reply.xid :=
    map_xid_addReply xid b sz window ▸ List.mem_map.2 ⟨reply, hreply, hxid⟩
  exact List.mem_map.1 hin

/-! ## All clients -/

/-- A call of `rpcs`, with its answer. -/
inductive Event (β : Type*)
  | answered (clt_nonce xid : ℕ) (stat : RpcState β)
  | added (clt_nonce xid : ℕ) (b : Option β) (sz : ℤ)

/-- Whose call it was. -/
def Event.clt_nonce : Event β → ℕ
  | .answered clt_nonce _ _ => clt_nonce
  | .added clt_nonce _ _ _ => clt_nonce

/-- A call of `rpcs`. -/
inductive Call (β : Type*)
  | checkduplicateAndUpdate (clt_nonce xid xid_rep : ℕ)
  | addReply (clt_nonce xid : ℕ) (b : Option β) (sz : ℤ)

/-- `rpcs`: `reply_window_`, and for the record what it has been asked and has answered. -/
structure Rpcs (β : Type*) where
  reply_window : ℕ → List (Reply β)
  log : List (Event β)

/-- The last reply that was recorded for a request. -/
def lastAdded (clt_nonce xid : ℕ) : List (Event β) → Option (Option β × ℤ) :=
  List.foldl (fun last e =>
    match e with
    | .added clt_nonce' xid' b sz =>
      if clt_nonce' = clt_nonce ∧ xid' = xid then some (b, sz) else last
    | .answered .. => last) none

/-- The answer `NEW` to this request. -/
def Event.isNew (clt_nonce xid : ℕ) : Event β → Bool
  | .answered clt_nonce' xid' .new => clt_nonce' = clt_nonce ∧ xid' = xid
  | _ => false

/-- The calls before warrant an answer: `NEW` is for what was never asked, `INPROGRESS` for what was
taken in and has no reply, and `DONE` comes with the reply that was recorded. -/
def Warranted (before : List (Event β)) : Event β → Prop
  | .answered clt_nonce xid .new => ∀ stat, .answered clt_nonce xid stat ∉ before
  | .answered clt_nonce xid .inprogress =>
    .answered clt_nonce xid .new ∈ before ∧ lastAdded clt_nonce xid before = none
  | .answered clt_nonce xid (.done b sz) => lastAdded clt_nonce xid before = some (b, sz)
  | .answered _ _ .forgotten => True
  | .added .. => True

theorem lastAdded_snoc (n x : ℕ) (log : List (Event β)) (e : Event β) :
    lastAdded n x (log ++ [e]) = match e with
      | .added n' x' b sz => if n' = n ∧ x' = x then some (b, sz) else lastAdded n x log
      | .answered .. => lastAdded n x log := by
  rw [lastAdded, List.foldl_append]
  cases e <;> rfl

theorem lastAdded_eq_none {n x : ℕ} {log : List (Event β)}
    (h : ∀ b sz, .added n x b sz ∉ log) : lastAdded n x log = none := by
  induction log using List.reverseRecOn with
  | nil => rfl
  | append_singleton log e ih =>
    have hlog := ih fun b sz hmem => h b sz (List.mem_append_left _ hmem)
    rw [lastAdded_snoc]
    cases e with
    | answered => exact hlog
    | added n' x' b sz =>
      refine (if_neg ?_).trans hlog
      rintro ⟨rfl, rfl⟩
      exact h b sz (List.mem_append_right _ (List.mem_singleton_self _))

theorem Event.isNew_iff {n x : ℕ} {e : Event β} : e.isNew n x = true ↔ e = .answered n x .new := by
  cases e with
  | answered n' x' stat => cases stat <;> simp [isNew]
  | added => simp [isNew]

namespace Rpcs

def start : Rpcs β := ⟨fun _ => [], []⟩

def step (s : Rpcs β) : Call β → Option (Rpcs β)
  | .checkduplicateAndUpdate clt_nonce xid xid_rep =>
    let (stat, window) := Rpc.checkduplicateAndUpdate (s.reply_window clt_nonce) xid xid_rep
    some ⟨Function.update s.reply_window clt_nonce window, s.log ++ [.answered clt_nonce xid stat]⟩
  | .addReply clt_nonce xid b sz =>
    let window := Rpc.addReply xid b sz (s.reply_window clt_nonce)
    some ⟨Function.update s.reply_window clt_nonce window, s.log ++ [.added clt_nonce xid b sz]⟩

/-- A request acknowledges only what comes before it, and a reply is for a request that was taken
in. -/
def Proper (s : Rpcs β) : Call β → Prop
  | .checkduplicateAndUpdate _ xid xid_rep => xid_rep < xid
  | .addReply clt_nonce xid _ _ => .answered clt_nonce xid .new ∈ s.log

variable {s s' : Rpcs β} {calls : List (Call β)}

/-- What a client's window says about the calls so far. -/
structure Kept (n : ℕ) (log : List (Event β)) (window : List (Reply β)) : Prop where
  order : InOrder window
  seen : ∀ x stat, .answered n x stat ∈ log →
    (∃ reply ∈ window, reply.xid = x) ∨ Past window x
  taken : ∀ reply ∈ window, .answered n reply.xid .new ∈ log
  reply : ∀ reply ∈ window, lastAdded n reply.xid log =
    if reply.cb_present then some (reply.buf, reply.sz) else none
  added : ∀ x b sz, .added n x b sz ∈ log → .answered n x .new ∈ log

/-- What holds between two calls. -/
structure Inv (s : Rpcs β) : Prop where
  kept : ∀ n, Kept n s.log (s.reply_window n)
  once : ∀ n x, s.log.countP (·.isNew n x) ≤ 1
  warranted : ∀ before e after, s.log = before ++ e :: after → Warranted before e

theorem Kept.start (n : ℕ) : Kept n ([] : List (Event β)) [] where
  order := List.Pairwise.nil
  seen _ _ hmem := absurd hmem List.not_mem_nil
  taken _ hmem := absurd hmem List.not_mem_nil
  reply _ hmem := absurd hmem List.not_mem_nil
  added _ _ _ hmem := absurd hmem List.not_mem_nil

theorem Inv.start : (start : Rpcs β).Inv where
  kept := Kept.start
  once _ _ := Nat.zero_le 1
  warranted before e after h := by simp [Rpcs.start] at h

/-- A new answer `NEW` is the first. -/
theorem once_snoc {log : List (Event β)} {e : Event β} (he : Warranted log e)
    (h : ∀ n x, log.countP (·.isNew n x) ≤ 1) (n x : ℕ) :
    (log ++ [e]).countP (·.isNew n x) ≤ 1 := by
  rw [List.countP_append, List.countP_singleton]
  split
  next hnew =>
    obtain rfl := Event.isNew_iff.1 hnew
    have hzero : log.countP (·.isNew n x) = 0 :=
      List.countP_eq_zero.2 fun e he' hnew' => he .new (Event.isNew_iff.1 hnew' ▸ he')
    omega
  next => exact h n x

namespace Kept

variable {n x r : ℕ} {log : List (Event β)} {w w' : List (Reply β)} {e : Event β}

/-- A call of another client. -/
theorem other (h : Kept n log w) (he : e.clt_nonce ≠ n) : Kept n (log ++ [e]) w := by
  have hold : ∀ {e'}, e' ∈ log ++ [e] → e'.clt_nonce = n → e' ∈ log := fun hmem hn =>
    (List.mem_append.1 hmem).resolve_right fun hmem => he (List.mem_singleton.1 hmem ▸ hn)
  refine ⟨h.order, fun x stat hmem => h.seen x stat (hold hmem rfl),
    fun reply hmem => List.mem_append_left _ (h.taken reply hmem), fun reply hmem => ?_,
    fun x b sz hmem => List.mem_append_left _ (h.added x b sz (hold hmem rfl))⟩
  rw [lastAdded_snoc, ← h.reply reply hmem]
  cases e with
  | answered => rfl
  | added n' => exact if_neg fun hc => he hc.1

/-- An answer from the window as it is. -/
theorem answer {stat : RpcState β} (h : Kept n log w)
    (hx : (∃ reply ∈ w, reply.xid = x) ∨ Past w x) : Kept n (log ++ [.answered n x stat]) w where
  order := h.order
  seen x' stat' hmem := by
    rcases List.mem_append.1 hmem with hmem | hmem
    · exact h.seen x' stat' hmem
    · obtain ⟨-, rfl, -⟩ := Event.answered.inj (List.mem_singleton.1 hmem)
      exact hx
  taken reply hmem := List.mem_append_left _ (h.taken reply hmem)
  reply reply hmem := (lastAdded_snoc ..).trans (h.reply reply hmem)
  added x' b sz hmem := by
    rcases List.mem_append.1 hmem with hmem | hmem
    · exact List.mem_append_left _ (h.added x' b sz hmem)
    · exact absurd (List.mem_singleton.1 hmem) (by simp)

/-- A request that goes in was never answered. -/
theorem fresh (h : Kept n log w) (hne : ∀ reply ∈ w, reply.xid ≠ x) (hpast : ¬ Past w x)
    (stat : RpcState β) : .answered n x stat ∉ log := by
  intro hmem
  rcases h.seen x stat hmem with ⟨reply, hreply, hxid⟩ | hx
  · exact hne reply hreply hxid
  · exact hpast hx

/-- A new request goes in, and the low-water mark does not fall. -/
theorem take (h : Kept n log w) (hr : r < x) (hne : ∀ reply ∈ w, reply.xid ≠ x)
    (hpast : ¬ Past w x) (horder : InOrder w') (hmem' : ∀ reply, reply ∈ w' ↔
      (reply = Reply.new x ∨ reply ∈ w) ∧ r ≤ reply.xid) :
    Kept n (log ++ [.answered n x .new]) w' := by
  have hfresh := h.fresh hne hpast
  have hnew : Reply.new x ∈ w' := (hmem' _).2 ⟨.inl rfl, hr.le⟩
  refine ⟨horder, fun x' stat' hmem => ?_, fun reply hmem => ?_, fun reply hmem => ?_,
    fun x' b sz hmem => ?_⟩
  · rcases List.mem_append.1 hmem with hmem | hmem
    · exact seen_take hr hpast hmem' (h.seen x' stat' hmem)
    · obtain ⟨-, rfl, -⟩ := Event.answered.inj (List.mem_singleton.1 hmem)
      exact .inl ⟨Reply.new x', hnew, rfl⟩
  · rcases ((hmem' reply).1 hmem).1 with rfl | hold
    · exact List.mem_append_right _ (List.mem_singleton_self _)
    · exact List.mem_append_left _ (h.taken reply hold)
  · refine (lastAdded_snoc ..).trans ?_
    rcases ((hmem' reply).1 hmem).1 with rfl | hold
    · exact lastAdded_eq_none fun b sz hadded => hfresh .new (h.added _ b sz hadded)
    · exact h.reply reply hold
  · rcases List.mem_append.1 hmem with hmem | hmem
    · exact List.mem_append_left _ (h.added x' b sz hmem)
    · exact absurd (List.mem_singleton.1 hmem) (by simp)

/-- A reply is recorded. -/
theorem add {b : Option β} {sz : ℤ} (h : Kept n log w) (hx : .answered n x .new ∈ log) :
    Kept n (log ++ [.added n x b sz]) (addReply x b sz w) := by
  refine ⟨?_, fun x' stat' hmem => ?_, fun reply hmem => ?_, fun reply hmem => ?_,
    fun x' b' sz' hmem => ?_⟩
  · rw [inOrder_iff, map_xid_addReply]
    exact inOrder_iff.1 h.order
  · have hmem := (List.mem_append.1 hmem).resolve_right fun hmem =>
      absurd (List.mem_singleton.1 hmem) (by simp)
    exact seen_addReply (h.seen x' stat' hmem)
  · obtain ⟨reply', hreply', rfl⟩ := (mem_addReply h.order).1 hmem
    have htaken := List.mem_append_left [Event.added n x b sz] (h.taken reply' hreply')
    split <;> exact htaken
  · obtain ⟨reply', hreply', rfl⟩ := (mem_addReply h.order).1 hmem
    rw [lastAdded_snoc]
    by_cases hxid : reply'.xid = x
    · simp [hxid]
    · simp only [hxid, Ne.symm hxid, and_false, if_false]
      exact h.reply reply' hreply'
  · rcases List.mem_append.1 hmem with hmem | hmem
    · exact List.mem_append_left _ (h.added x' b' sz' hmem)
    · obtain ⟨-, rfl, -, -⟩ := Event.added.inj (List.mem_singleton.1 hmem)
      exact List.mem_append_left _ hx

end Kept

/-- A call concerns one client. -/
theorem Inv.call {n : ℕ} {w : List (Reply β)} {e : Event β} (h : s.Inv) (he : e.clt_nonce = n)
    (hw : Kept n (s.log ++ [e]) w) (hwarr : Warranted s.log e) :
    Inv ⟨Function.update s.reply_window n w, s.log ++ [e]⟩ := by
  refine ⟨fun n' => ?_, once_snoc hwarr h.once, Journal.snoc h.warranted hwarr⟩
  by_cases hn : n' = n
  · subst hn
    dsimp only
    rwa [Function.update_self]
  · dsimp only
    rw [Function.update_of_ne hn]
    exact (h.kept n').other (he.trans_ne (Ne.symm hn))

theorem Inv.step {a : Call β} (h : s.Inv) (hok : s.Proper a) (hs : s.step a = some s') :
    s'.Inv := by
  cases a with
  | checkduplicateAndUpdate n x r =>
    have hkept := h.kept n
    rw [Rpcs.step] at hs
    rcases checkduplicateAndUpdate_cases hkept.order x r with
      ⟨reply, hmem, hxid, heq⟩ | ⟨hpast, heq⟩ | ⟨hne, hpast, window', heq, horder, hmem⟩
    · rw [heq] at hs
      obtain rfl := Option.some_inj.1 hs
      have hreply := hkept.reply reply hmem
      refine h.call rfl (hkept.answer (.inl ⟨reply, hmem, hxid⟩)) ?_
      subst hxid
      split
      next hcb => exact hreply.trans (if_pos hcb)
      next hcb => exact ⟨hkept.taken reply hmem, hreply.trans (if_neg hcb)⟩
    · rw [heq] at hs
      obtain rfl := Option.some_inj.1 hs
      exact h.call rfl (hkept.answer (.inr hpast)) trivial
    · rw [heq] at hs
      obtain rfl := Option.some_inj.1 hs
      exact h.call rfl (hkept.take hok hne hpast horder hmem) (hkept.fresh hne hpast)
  | addReply n x b sz =>
    obtain rfl := Option.some_inj.1 hs
    exact h.call rfl ((h.kept n).add hok) trivial

/-- **At-most-once execution.**  A request is answered `NEW` once at most, and every answer is
warranted by the calls before it: `NEW` by there being no answer to the request yet, `DONE` by the
reply that it comes with. -/
theorem at_most_once (h : Run step Proper start calls s) (clt_nonce xid : ℕ) :
    s.log.countP (·.isNew clt_nonce xid) ≤ 1 ∧
      ∀ before e after, s.log = before ++ e :: after → Warranted before e :=
  have hinv : s.Inv := h.invariant (P := Inv) .start fun _ _ _ hinv hok hs => hinv.step hok hs
  ⟨hinv.once clt_nonce xid, hinv.warranted⟩

/-- A request, its reply, and the request again. -/
theorem at_most_once_repeated : ∃ s : Rpcs ℕ, s.log =
      [.answered 7 1 .new, .added 7 1 (some 5) 1, .answered 7 1 (.done (some 5) 1)] ∧
    s.log.countP (·.isNew 7 1) ≤ 1 ∧
      ∀ before e after, s.log = before ++ e :: after → Warranted before e := by
  have hask : ∀ s : Rpcs ℕ, s.Proper (.checkduplicateAndUpdate 7 1 0) := fun _ => Nat.one_pos
  have hrun : Run step Proper (start : Rpcs ℕ) [.checkduplicateAndUpdate 7 1 0]
      ⟨Function.update start.reply_window 7 [Reply.new 1], [.answered 7 1 .new]⟩ :=
    Run.nil.snoc (hask _) rfl
  have hadd := hrun.snoc (a := .addReply 7 1 (some 5) 1) (List.mem_singleton_self _) rfl
  have hagain := hadd.snoc (hask _) rfl
  exact ⟨_, rfl, at_most_once hagain 7 1⟩

end Rpcs

end Rpc
end CseLab
