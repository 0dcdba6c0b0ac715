import CseLab.Rpc.Window

/-!
# Calls

One `rpcc` and the window that one `rpcs` keeps for it.  Requests and replies in flight are lists
that nothing is taken from: what is in one may be delivered now or later, again or never.  A call
ends when a reply has come or when its time is up, which may be at any time.

The client numbers its calls and sends with each the front of `xid_rep_window_`, below which it has
finished with all (`Settled`, `updateXidRep`).  The server refuses a request as forgotten by what is
left in its own window.  The two agree where the request that a client acknowledges has reached the
server: `Net.not_forgotten`.
-/

set_option autoImplicit false

namespace CseLab
namespace Rpc

/-! ## `rpcc` -/

/-- `rpcc::caller`; `intret` is there when the call is `done`. -/
structure Caller where
  /-- Whether it is `rpcc::bind` that calls. -/
  bind : Bool
  intret : Option ℤ

/-- `rpcc`. -/
structure Rpcc where
  xid : ℕ
  bind_done : Bool
  calls : ℕ → Option Caller
  xid_rep_window : List ℕ

/-- `while (front() + 1 == *it) pop_front()`, on what is before `it`. -/
def popTo (it : ℕ) : List ℕ → List ℕ
  | [] => []
  | front :: window => if front + 1 = it then popTo it window else front :: window

/-- What the loop at `compress` makes of the window; it has come past `before`. -/
def compressFrom (before : List ℕ) : List ℕ → List ℕ
  | [] => before
  | it :: window => compressFrom (popTo it before ++ [it]) window

/-- `rpcc::update_xid_rep`. -/
def updateXidRep (xid : ℕ) : List ℕ → List ℕ
  | [] => []
  | front :: window =>
    if xid ≤ front then front :: window
    else
      match (front :: window).orderedInsert (· < ·) xid with
      | [] => []
      | front :: window => compressFrom [front] window

namespace Rpcc

/-- `xid_` starts at 1, and what has been received at 0. -/
def start : Rpcc := ⟨1, false, fun _ => none, [0]⟩

/-- `xid_rep_window_.front()`. -/
def xidRep (c : Rpcc) : ℕ := c.xid_rep_window.headD 0

/-- The beginning of `rpcc::call1`: the call gets its xid. -/
def enter (c : Rpcc) (bind : Bool) : Rpcc :=
  { c with xid := c.xid + 1, calls := Function.update c.calls c.xid (some ⟨bind, none⟩) }

/-- `rpcc::got_pdu`. -/
def gotPdu (c : Rpcc) (xid : ℕ) (ret : ℤ) : Rpcc :=
  let c := { c with xid_rep_window := updateXidRep xid c.xid_rep_window }
  match c.calls xid with
  | none => c
  | some ca =>
    if ca.intret.isSome then c
    else { c with calls := Function.update c.calls xid (some { ca with intret := some ret }) }

/-- The end of `rpcc::call1`, and of `rpcc::bind` if it is its call. -/
def leave (c : Rpcc) (xid : ℕ) (ca : Caller) : Rpcc :=
  { c with
    calls := Function.update c.calls xid none
    xid_rep_window := updateXidRep xid c.xid_rep_window
    bind_done := c.bind_done || ca.bind && ca.intret == some 0 }

/-- The call has neither got a reply nor run out of time. -/
def Waiting (c : Rpcc) (xid : ℕ) : Prop := ∃ ca, c.calls xid = some ca ∧ ca.intret = none

variable {c : Rpcc} {xid y : ℕ}

instance (c : Rpcc) (y : ℕ) : Decidable (c.Waiting y) :=
  decidable_of_iff ((c.calls y).any fun ca => ca.intret.isNone) <| by
    simp [Waiting, Option.any_eq_true]

theorem waiting_enter (c : Rpcc) (bind : Bool) (y : ℕ) :
    (c.enter bind).Waiting y ↔ y = c.xid ∨ c.Waiting y := by
  by_cases hy : y = c.xid
  · simp [Waiting, enter, hy]
  · simp [Waiting, enter, hy]

@[simp] theorem xid_gotPdu (c : Rpcc) (xid : ℕ) (ret : ℤ) : (c.gotPdu xid ret).xid = c.xid := by
  simp only [gotPdu]
  split
  · rfl
  · split <;> rfl

@[simp] theorem xid_rep_window_gotPdu (c : Rpcc) (xid : ℕ) (ret : ℤ) :
    (c.gotPdu xid ret).xid_rep_window = updateXidRep xid c.xid_rep_window := by
  simp only [gotPdu]
  split
  · rfl
  · split <;> rfl

/-- The call whose reply comes waits no longer. -/
theorem waiting_gotPdu (c : Rpcc) (xid : ℕ) (ret : ℤ) (y : ℕ) :
    (c.gotPdu xid ret).Waiting y ↔ c.Waiting y ∧ y ≠ xid := by
  by_cases hy : y = xid
  · subst hy
    simp only [ne_eq, not_true_eq_false, and_false, iff_false]
    rintro ⟨ca, hca, hnone⟩
    cases hcall : c.calls y with
    | none =>
      simp only [gotPdu, hcall] at hca
      exact absurd hca nofun
    | some ca₀ =>
      cases hret : ca₀.intret with
      | none =>
        simp only [gotPdu, hcall, hret, Option.isSome_none, Bool.false_eq_true, if_false,
          Function.update_self, Option.some_inj] at hca
        rw [← hca] at hnone
        exact absurd hnone nofun
      | some ret₀ =>
        simp only [gotPdu, hcall, hret, Option.isSome_some, if_true, Option.some_inj] at hca
        rw [← hca, hret] at hnone
        exact absurd hnone nofun
  · have hcalls : (c.gotPdu xid ret).calls y = c.calls y := by
      simp only [gotPdu]
      split
      · rfl
      · split
        · rfl
        · exact Function.update_of_ne hy ..
    simp [Waiting, hcalls, hy]

/-- A call that is over waits no longer. -/
theorem waiting_leave (c : Rpcc) (xid : ℕ) (ca : Caller) (y : ℕ) :
    (c.leave xid ca).Waiting y ↔ c.Waiting y ∧ y ≠ xid := by
  by_cases hy : y = xid
  · simp [Waiting, leave, hy]
  · simp [Waiting, leave, hy]

end Rpcc

/-! ## What the front of the window says -/

/-- A list in order whose elements have `S`, as has all that is at most its first. -/
structure Settled (S : ℕ → Prop) (window : List ℕ) : Prop where
  ne : window ≠ []
  order : window.Pairwise (· ≤ ·)
  mem : ∀ v ∈ window, S v
  below : ∀ v, (∀ w ∈ window, v ≤ w) → S v

namespace Settled

variable {S S' : ℕ → Prop} {window before rest : List ℕ} {it xid v : ℕ}

theorem mono (h : Settled S window) (himp : ∀ v, S v → S' v) : Settled S' window :=
  ⟨h.ne, h.order, fun v hv => himp v (h.mem v hv), fun v hv => himp v (h.below v hv)⟩

/-- All up to the front has `S`. -/
theorem headD (h : Settled S window) (hv : v ≤ window.headD 0) : S v := by
  obtain ⟨hne, horder, -, hbelow⟩ := h
  cases window with
  | nil => exact absurd rfl hne
  | cons front window =>
    refine hbelow v fun w hw => ?_
    rcases List.mem_cons.1 hw with rfl | hw
    · exact hv
    · exact hv.trans ((List.pairwise_cons.1 horder).1 w hw)

theorem popTo (h : Settled S (before ++ it :: rest)) :
    Settled S (Rpc.popTo it before ++ it :: rest) := by
  induction before with
  | nil => exact h
  | cons front before ih =>
    rw [Rpc.popTo]
    split
    next heq =>
      obtain ⟨hfront, horder⟩ := List.pairwise_cons.1 h.order
      refine ih ⟨by simp, horder, fun v hv => h.mem v (.tail _ hv), fun v hv => ?_⟩
      have hit : it ∈ before ++ it :: rest := by simp
      rcases Nat.lt_or_ge front v with hlt | hle
      · -- nothing is between the front and what comes after it
        have hv' : v = it := by
          have hle := hv it hit
          omega
        exact hv' ▸ h.mem it (.tail _ hit)
      · refine h.below v fun w hw => ?_
        rcases List.mem_cons.1 hw with rfl | hw
        · exact hle
        · exact hv w hw
    next => exact h

theorem compressFrom (h : Settled S (before ++ rest)) :
    Settled S (Rpc.compressFrom before rest) := by
  induction rest generalizing before with
  | nil => rwa [List.append_nil] at h
  | cons it rest ih =>
    refine ih ?_
    rw [List.append_assoc]
    exact h.popTo

theorem updateXidRep (h : Settled S window) (hxid : S xid) :
    Settled S (Rpc.updateXidRep xid window) := by
  cases window with
  | nil => exact h
  | cons front window =>
    rw [Rpc.updateXidRep]
    split
    next => exact h
    next =>
      have hinsert : Settled S ((front :: window).orderedInsert (· < ·) xid) := by
        refine ⟨fun hnil => ?_, pairwise_orderedInsert le_trans (fun _ _ hlt => le_of_lt hlt)
          (fun _ _ hge => not_lt.1 hge) h.order, fun v hv => ?_, fun v hv => ?_⟩
        · have hmem : xid ∈ (front :: window).orderedInsert (· < ·) xid :=
            (List.mem_orderedInsert _).2 (.inl rfl)
          rw [hnil] at hmem
          exact absurd hmem List.not_mem_nil
        · rcases (List.mem_orderedInsert _).1 hv with rfl | hv
          · exact hxid
          · exact h.mem v hv
        · exact h.below v fun w hw => hv w ((List.mem_orderedInsert _).2 (.inr hw))
      cases hw : (front :: window).orderedInsert (· < ·) xid with
      | nil => exact absurd hw hinsert.ne
      | cons front' window' =>
        rw [hw] at hinsert
        exact Settled.compressFrom hinsert

end Settled

/-! ## Client and server -/

/-- One client and one server, and what is between them. -/
structure Net where
  rpcc : Rpcc
  /-- `reply_window_` of `rpcs` for this client; a reply is what it returns. -/
  window : List (Reply ℤ)
  /-- The requests sent, each with its xid and `xid_rep`. -/
  requests : List (ℕ × ℕ)
  replies : List (ℕ × ℤ)
  /-- The requests whose handlers are running. -/
  running : List ℕ
  /-- For the record: the requests that have reached the server. -/
  arrived : List ℕ

inductive Step
  | call1 (bind : Bool)
  /-- A request reaches the server. -/
  | dispatch (xid xid_rep : ℕ)
  /-- A handler returns, and `dispatch` goes on. -/
  | handled (xid : ℕ) (ret sz : ℤ)
  /-- A reply reaches the client. -/
  | gotPdu (xid : ℕ) (ret : ℤ)
  /-- `call1` is done with a call, its reply there or its time up. -/
  | leave (xid : ℕ)

/-- `rpc_const::atmostonce_failure`. -/
def atmostonceFailure : ℤ := -4

namespace Net

def start : Net := ⟨.start, [], [], [], [], []⟩

/-- `rpcs::dispatch` up to the handler. -/
def dispatch (s : Net) (xid xid_rep : ℕ) : Net :=
  let (stat, window) := checkduplicateAndUpdate s.window xid xid_rep
  let s := { s with window := window, arrived := xid :: s.arrived }
  match stat with
  | .new => { s with running := xid :: s.running }
  | .inprogress => s
  | .done b _ => { s with replies := (xid, b.getD 0) :: s.replies }
  | .forgotten => { s with replies := (xid, atmostonceFailure) :: s.replies }

def step (s : Net) : Step → Option Net
  | .call1 bind =>
    if bind = s.rpcc.bind_done then none
    else some { s with
      rpcc := s.rpcc.enter bind
      requests := (s.rpcc.xid, s.rpcc.xidRep) :: s.requests }
  | .dispatch xid xid_rep =>
    if (xid, xid_rep) ∈ s.requests then some (s.dispatch xid xid_rep) else none
  | .handled xid ret sz =>
    if xid ∈ s.running ∧ 0 ≤ ret then some { s with
      window := addReply xid (some ret) sz s.window
      running := s.running.erase xid
      replies := (xid, ret) :: s.replies }
    else none
  | .gotPdu xid ret =>
    if (xid, ret) ∈ s.replies then some { s with rpcc := s.rpcc.gotPdu xid ret } else none
  | .leave xid =>
    match s.rpcc.calls xid with
    | none => none
    | some ca => some { s with rpcc := s.rpcc.leave xid ca }

variable {s s' : Net} {as : List Step} {xid xid_rep : ℕ}

/-- A request that arrives for the first time acknowledges one that has arrived, or it overtakes
none: of the calls that wait, those before it have had their requests arrive. -/
def Acknowledged (s : Net) : Step → Prop
  | .dispatch xid xid_rep => xid ∉ s.arrived →
    xid_rep ∈ s.arrived ∨ ∀ y < xid, s.rpcc.Waiting y → y ∈ s.arrived
  | _ => True

instance (s : Net) (a : Step) : Decidable (s.Acknowledged a) := by
  cases a <;> unfold Acknowledged <;> infer_instance

/-- What holds in every run. -/
structure Inv (s : Net) : Prop where
  order : InOrder s.window
  issued : ∀ reply ∈ s.window, reply.xid < s.rpcc.xid
  arrived : ∀ reply ∈ s.window, reply.xid ∈ s.arrived
  passed : ∀ x ∈ s.arrived, (∃ reply ∈ s.window, reply.xid = x) ∨ Past s.window x
  requests : ∀ x r, (x, r) ∈ s.requests →
    r < x ∧ x < s.rpcc.xid ∧ ∀ y, s.rpcc.Waiting y → r < y
  replies : ∀ x ret, (x, ret) ∈ s.replies → x < s.rpcc.xid
  running : ∀ x ∈ s.running, x < s.rpcc.xid
  calls : ∀ y ca, s.rpcc.calls y = some ca → y < s.rpcc.xid
  settled : Settled (fun v => v < s.rpcc.xid ∧ ¬ s.rpcc.Waiting v) s.rpcc.xid_rep_window

theorem Inv.start : Net.start.Inv := by
  have hnone : ∀ y, ¬ Rpcc.start.Waiting y := by
    rintro y ⟨ca, hca, -⟩
    exact absurd hca nofun
  refine ⟨List.Pairwise.nil, nofun, nofun, nofun, nofun, nofun, nofun, nofun,
    by simp [Net.start, Rpcc.start], List.pairwise_singleton _ _, fun v hv => ?_, fun v hv => ?_⟩
  · obtain rfl := List.mem_singleton.1 hv
    exact ⟨Nat.one_pos, hnone 0⟩
  · have hv0 := hv 0 (List.mem_singleton_self 0)
    exact ⟨Nat.lt_succ_of_le hv0, hnone v⟩

/-- The client's part, where it has come no further with its numbers and no call has begun to
wait. -/
theorem Inv.client {c : Rpcc} (h : s.Inv) (hxid : c.xid = s.rpcc.xid)
    (hwait : ∀ y, c.Waiting y ↔ s.rpcc.Waiting y ∧ y ≠ xid) (hlt : xid < s.rpcc.xid)
    (hwindow : c.xid_rep_window = updateXidRep xid s.rpcc.xid_rep_window)
    (hcalls : ∀ y, c.calls y ≠ none → s.rpcc.calls y ≠ none) : Inv { s with rpcc := c } where
  order := h.order
  issued reply hmem := hxid ▸ h.issued reply hmem
  arrived := h.arrived
  passed := h.passed
  requests x r hmem := by
    obtain ⟨hrx, hx, hr⟩ := h.requests x r hmem
    exact ⟨hrx, hxid ▸ hx, fun y hy => hr y ((hwait y).1 hy).1⟩
  replies x ret hmem := hxid ▸ h.replies x ret hmem
  running x hmem := hxid ▸ h.running x hmem
  calls y ca hca := by
    obtain ⟨ca', hca'⟩ := Option.ne_none_iff_exists'.1 (hcalls y (by rw [hca]; simp))
    exact hxid ▸ h.calls y ca' hca'
  settled := by
    refine hwindow ▸ Settled.updateXidRep (h.settled.mono fun v hv => ?_) ?_
    · exact ⟨hxid ▸ hv.1, fun hw => hv.2 ((hwait v).1 hw).1⟩
    · exact ⟨hxid ▸ hlt, fun hw => ((hwait xid).1 hw).2 rfl⟩

/-- A call waits for what is above all that was acknowledged. -/
theorem Inv.call1 {bind : Bool} (h : s.Inv) : Inv { s with
    rpcc := s.rpcc.enter bind
    requests := (s.rpcc.xid, s.rpcc.xidRep) :: s.requests } where
  order := h.order
  issued reply hmem := Nat.lt_succ_of_lt (h.issued reply hmem)
  arrived := h.arrived
  passed := h.passed
  requests x r hmem := by
    have hnew : ∀ r, r < s.rpcc.xid → (∀ y, s.rpcc.Waiting y → r < y) →
        ∀ y, (s.rpcc.enter bind).Waiting y → r < y := by
      intro r hr hold y hy
      rcases (Rpcc.waiting_enter ..).1 hy with rfl | hy
      · exact hr
      · exact hold y hy
    rcases List.mem_cons.1 hmem with heq | hmem
    · obtain ⟨rfl, rfl⟩ := Prod.mk.inj heq
      have hfront := (h.settled.headD le_rfl).1
      exact ⟨hfront, Nat.lt_succ_self _, hnew _ hfront fun y hy =>
        not_le.1 fun hle => (h.settled.headD hle).2 hy⟩
    · obtain ⟨hrx, hx, hr⟩ := h.requests x r hmem
      exact ⟨hrx, Nat.lt_succ_of_lt hx, hnew r (hrx.trans hx) hr⟩
  replies x ret hmem := Nat.lt_succ_of_lt (h.replies x ret hmem)
  running x hmem := Nat.lt_succ_of_lt (h.running x hmem)
  calls y ca hca := by
    by_cases hy : y = s.rpcc.xid
    · rw [hy]
      exact Nat.lt_succ_self _
    · refine Nat.lt_succ_of_lt (h.calls y ca ?_)
      exact (Function.update_of_ne hy ..).symm.trans hca
  settled := h.settled.mono fun v hv => by
    refine ⟨Nat.lt_succ_of_lt hv.1, fun hw => ?_⟩
    rcases (Rpcc.waiting_enter ..).1 hw with rfl | hw
    · exact absurd hv.1 (Nat.lt_irrefl _)
    · exact hv.2 hw

/-- What `dispatch` leaves as it is. -/
theorem dispatch_frame (s : Net) (x r : ℕ) : (s.dispatch x r).rpcc = s.rpcc ∧
    (s.dispatch x r).requests = s.requests ∧ (s.dispatch x r).arrived = x :: s.arrived ∧
    (s.dispatch x r).window = (checkduplicateAndUpdate s.window x r).2 ∧
    (∀ y ret, (y, ret) ∈ (s.dispatch x r).replies → y = x ∨ (y, ret) ∈ s.replies) ∧
    ∀ y ∈ (s.dispatch x r).running, y = x ∨ y ∈ s.running := by
  rw [dispatch]
  rcases checkduplicateAndUpdate s.window x r with ⟨stat, window⟩
  cases stat <;> simp <;> tauto

/-- A request reaches the server. -/
theorem Inv.dispatch {x r : ℕ} (h : s.Inv) (hmem : (x, r) ∈ s.requests) : (s.dispatch x r).Inv := by
  obtain ⟨hrpcc, hrequests, harrived, hwindow, hreplies, hrunning⟩ := dispatch_frame s x r
  obtain ⟨hrx, hx, -⟩ := h.requests x r hmem
  have hentries : InOrder (s.dispatch x r).window ∧
      (∀ reply ∈ (s.dispatch x r).window, reply.xid = x ∨ reply ∈ s.window) ∧
      ∀ y ∈ x :: s.arrived, (∃ reply ∈ (s.dispatch x r).window, reply.xid = y) ∨
        Past (s.dispatch x r).window y := by
    rw [hwindow]
    rcases checkduplicateAndUpdate_cases h.order x r with
      ⟨reply, hreply, hxid, heq⟩ | ⟨hpast, heq⟩ | ⟨-, hnot, window', heq, horder, hmem'⟩
    · exact heq ▸ ⟨h.order, fun reply hreply => .inr hreply,
        List.forall_mem_cons.2 ⟨.inl ⟨reply, hreply, hxid⟩, h.passed⟩⟩
    · exact heq ▸ ⟨h.order, fun reply hreply => .inr hreply,
        List.forall_mem_cons.2 ⟨.inr hpast, h.passed⟩⟩
    · refine heq ▸ ⟨horder, fun reply hreply => ?_, List.forall_mem_cons.2 ⟨.inl ?_, ?_⟩⟩
      · exact ((hmem' reply).1 hreply).1.imp_left (congrArg Reply.xid)
      · exact ⟨Reply.new x, (hmem' _).2 ⟨.inl rfl, hrx.le⟩, rfl⟩
      · exact fun y hy => seen_take hrx hnot hmem' (h.passed y hy)
  obtain ⟨horder, hold, hpassed⟩ := hentries
  exact
    { order := horder
      issued := fun reply hreply => by
        rw [hrpcc]
        exact (hold reply hreply).elim (fun heq => heq ▸ hx) (h.issued reply)
      arrived := fun reply hreply => by
        rw [harrived]
        exact (hold reply hreply).elim (fun heq => heq ▸ List.mem_cons_self)
          fun hmem => .tail _ (h.arrived reply hmem)
      passed := harrived ▸ hpassed
      requests := hrequests ▸ hrpcc ▸ h.requests
      replies := fun y ret hy => by
        rw [hrpcc]
        exact (hreplies y ret hy).elim (fun heq => heq ▸ hx) (h.replies y ret)
      running := fun y hy => by
        rw [hrpcc]
        exact (hrunning y hy).elim (fun heq => heq ▸ hx) (h.running y)
      calls := hrpcc ▸ h.calls
      settled := hrpcc ▸ h.settled }

theorem Inv.step {a : Step} (h : s.Inv) (hs : s.step a = some s') : s'.Inv := by
  cases a with
  | call1 bind =>
    obtain ⟨-, hs⟩ := Option.ite_none_left_eq_some.1 hs
    exact Option.some_inj.1 hs ▸ h.call1
  | dispatch x r =>
    obtain ⟨hmem, hs⟩ := Option.ite_none_right_eq_some.1 hs
    exact Option.some_inj.1 hs ▸ h.dispatch hmem
  | handled x ret sz =>
    obtain ⟨⟨hrun, -⟩, hs⟩ := Option.ite_none_right_eq_some.1 hs
    obtain rfl := Option.some_inj.1 hs
    have hxid : ∀ reply ∈ addReply x (some ret) sz s.window, ∃ reply' ∈ s.window,
        reply.xid = reply'.xid := by
      intro reply hreply
      obtain ⟨reply', hmem, rfl⟩ := (mem_addReply h.order).1 hreply
      exact ⟨reply', hmem, by split <;> rfl⟩
    refine ⟨?_, fun reply hreply => ?_, fun reply hreply => ?_, fun y hy => ?_, h.requests,
      fun y ret' hy => ?_, fun y hy => h.running y (List.mem_of_mem_erase hy), h.calls, h.settled⟩
    · rw [inOrder_iff, map_xid_addReply]
      exact inOrder_iff.1 h.order
    · obtain ⟨reply', hmem, heq⟩ := hxid reply hreply
      exact heq ▸ h.issued reply' hmem
    · obtain ⟨reply', hmem, heq⟩ := hxid reply hreply
      exact heq ▸ h.arrived reply' hmem
    · exact seen_addReply (h.passed y hy)
    · rcases List.mem_cons.1 hy with heq | hy
      · exact (Prod.mk.inj heq).1 ▸ h.running x hrun
      · exact h.replies y ret' hy
  | gotPdu x ret =>
    obtain ⟨hmem, hs⟩ := Option.ite_none_right_eq_some.1 hs
    obtain rfl := Option.some_inj.1 hs
    refine h.client (Rpcc.xid_gotPdu ..) (fun _ => Rpcc.waiting_gotPdu ..) (h.replies x ret hmem)
      (Rpcc.xid_rep_window_gotPdu ..) fun y hy hnone => hy ?_
    simp only [Rpcc.gotPdu]
    split
    next => exact hnone
    next ca hca =>
      split
      next => exact hnone
      next =>
        have hyx : y ≠ x := by
          rintro rfl
          rw [hnone] at hca
          exact absurd hca nofun
        exact (Function.update_of_ne hyx ..).trans hnone
  | leave x =>
    rw [Net.step] at hs
    cases hca : s.rpcc.calls x with
    | none =>
      rw [hca] at hs
      exact absurd hs nofun
    | some ca =>
      rw [hca] at hs
      obtain rfl := Option.some_inj.1 hs
      refine h.client rfl (fun _ => Rpcc.waiting_leave ..) (h.calls x ca hca) rfl
        fun y hy hnone => hy ?_
      by_cases hyx : y = x
      · subst hyx
        exact Function.update_self ..
      · exact (Function.update_of_ne hyx ..).trans hnone

theorem Inv.of_run {ok : Net → Step → Prop} (h : Run Net.step ok Net.start as s) : s.Inv :=
  h.invariant (P := Inv) .start fun _ _ _ hinv _ hs => hinv.step hs

/-- No call that waits is past. -/
def Heard (s : Net) : Prop := ∀ y, s.rpcc.Waiting y → ¬ Past s.window y

/-- What a new request leaves in the window has an entry for each call that waits, which is not
above it. -/
theorem Heard.entry (hinv : s.Inv) (h : s.Heard) (hreq : (xid, xid_rep) ∈ s.requests)
    (hok : s.Acknowledged (.dispatch xid xid_rep)) (hne : ∀ reply ∈ s.window, reply.xid ≠ xid)
    (hnot : ¬ Past s.window xid) {y : ℕ} (hy : s.rpcc.Waiting y) :
    ∃ w, (w = xid ∨ ∃ reply ∈ s.window, reply.xid = w) ∧ xid_rep ≤ w ∧ w ≤ y := by
  obtain ⟨hlt, -, hwait⟩ := hinv.requests xid xid_rep hreq
  have hnew : xid ∉ s.arrived := by
    intro hmem
    rcases hinv.passed xid hmem with ⟨reply, hreply, hxid⟩ | hpast
    · exact hne reply hreply hxid
    · exact hnot hpast
  have hry := hwait y hy
  rcases hok hnew with hacked | hbefore
  · rcases hinv.passed xid_rep hacked with hin | hpast
    · exact ⟨xid_rep, .inr hin, le_rfl, hry.le⟩
    · -- nothing goes out, and something in the window is not above the call
      obtain ⟨reply, hreply, hle⟩ : ∃ reply ∈ s.window, reply.xid ≤ y := by
        by_contra hnone
        exact h y hy ⟨hpast.1, fun reply hreply => not_le.1 fun hle => hnone ⟨reply, hreply, hle⟩⟩
      exact ⟨reply.xid, .inr ⟨reply, hreply, rfl⟩, (hpast.2 reply hreply).le, hle⟩
  · rcases Nat.lt_or_ge y xid with hyx | hle
    · have hin := (hinv.passed y (hbefore y hyx hy)).resolve_right (h y hy)
      exact ⟨y, .inr hin, hry.le, le_rfl⟩
    · exact ⟨xid, .inl rfl, hlt.le, hle⟩

theorem Heard.step {a : Step} (hinv : s.Inv) (h : s.Heard) (hok : s.Acknowledged a)
    (hs : s.step a = some s') : s'.Heard := by
  cases a with
  | call1 bind =>
    obtain ⟨-, hs⟩ := Option.ite_none_left_eq_some.1 hs
    obtain rfl := Option.some_inj.1 hs
    intro y hy hpast
    rcases (Rpcc.waiting_enter ..).1 hy with rfl | hy
    · obtain ⟨reply, hreply⟩ := List.exists_mem_of_ne_nil _ hpast.1
      exact absurd (hinv.issued reply hreply) (hpast.2 reply hreply).not_gt
    · exact h y hy hpast
  | dispatch x r =>
    obtain ⟨hmem, hs⟩ := Option.ite_none_right_eq_some.1 hs
    obtain rfl := Option.some_inj.1 hs
    obtain ⟨hrpcc, -, -, hwindow, -, -⟩ := dispatch_frame s x r
    intro y hy hpast
    rw [hrpcc] at hy
    rw [hwindow] at hpast
    rcases checkduplicateAndUpdate_cases hinv.order x r with
      ⟨reply, -, -, heq⟩ | ⟨-, heq⟩ | ⟨hne, hnot, window', heq, -, hmem'⟩
    · rw [heq] at hpast
      exact h y hy hpast
    · rw [heq] at hpast
      exact h y hy hpast
    · rw [heq] at hpast
      have hkept : ∀ reply, (reply = Reply.new x ∨ reply ∈ s.window) → r ≤ reply.xid →
          y < reply.xid := fun reply hreply hr => hpast.2 reply ((hmem' reply).2 ⟨hreply, hr⟩)
      obtain ⟨w, rfl | ⟨reply, hreply, rfl⟩, hr, hwy⟩ := h.entry hinv hmem hok hne hnot hy
      · exact absurd (hkept (Reply.new w) (.inl rfl) hr) hwy.not_gt
      · exact absurd (hkept reply (.inr hreply) hr) hwy.not_gt
  | handled x ret sz =>
    obtain ⟨-, hs⟩ := Option.ite_none_right_eq_some.1 hs
    obtain rfl := Option.some_inj.1 hs
    exact fun y hy hpast => h y hy (past_addReply.1 hpast)
  | gotPdu x ret =>
    obtain ⟨-, hs⟩ := Option.ite_none_right_eq_some.1 hs
    obtain rfl := Option.some_inj.1 hs
    exact fun y hy => h y ((Rpcc.waiting_gotPdu ..).1 hy).1
  | leave x =>
    rw [Net.step] at hs
    cases hca : s.rpcc.calls x with
    | none =>
      rw [hca] at hs
      exact absurd hs nofun
    | some ca =>
      rw [hca] at hs
      obtain rfl := Option.some_inj.1 hs
      exact fun y hy => h y ((Rpcc.waiting_leave ..).1 hy).1

/-- **A call that waits is not refused as forgotten**, in a run in which the requests that are
acknowledged have arrived, by the time that one overtakes another; and the first time that the
request of such a call arrives it is executed. -/
theorem not_forgotten (h : Run step Acknowledged start as s) (hreq : (xid, xid_rep) ∈ s.requests) :
    ((checkduplicateAndUpdate s.window xid xid_rep).1 = .forgotten →
      xid < s.rpcc.xid ∧ ¬ s.rpcc.Waiting xid) ∧
    (s.rpcc.Waiting xid → xid ∉ s.arrived →
      (checkduplicateAndUpdate s.window xid xid_rep).1 = .new) := by
  have hinv := Inv.of_run h
  have hheard : s.Heard := h.invariant_with (P := Heard) Inv.of_run
    (fun y ⟨_, hca, _⟩ => absurd hca nofun) fun _ _ _ hinv hh hok hs => hh.step hinv hok hs
  rcases checkduplicateAndUpdate_cases hinv.order xid xid_rep with
    ⟨reply, hreply, hxid, heq⟩ | ⟨hpast, heq⟩ | ⟨-, -, window', heq, -, -⟩
  · rw [heq]
    refine ⟨fun hno => ?_, fun _ harrived => absurd (hxid ▸ hinv.arrived reply hreply) harrived⟩
    dsimp only at hno
    split at hno <;> exact absurd hno nofun
  · rw [heq]
    exact ⟨fun _ => ⟨(hinv.requests xid xid_rep hreq).2.1, fun hw => hheard xid hw hpast⟩,
      fun hw => absurd hpast (hheard xid hw)⟩
  · rw [heq]
    exact ⟨fun hno => absurd hno nofun, fun _ _ => rfl⟩

/-- The bind is done, and calls 2, 3 and 4 go on together: the request of 4 overtakes the others, 2
is given up before its own arrives, and calls 5 and 6 acknowledge 2.  The request of 5 arrives after
that of 3. -/
def together : List Step :=
  [.call1 true, .dispatch 1 0, .handled 1 0 1, .gotPdu 1 0, .leave 1, .call1 false, .call1 false,
    .call1 false, .dispatch 4 1, .leave 2, .dispatch 3 1, .call1 false, .call1 false,
    .dispatch 5 2, .dispatch 3 1]

def afterTogether : Net :=
  (execute (guarded step Acknowledged) start together).get (by decide +kernel)

/-- Then the request of 2, which is over, is refused, and that of 6, which waits, is executed. -/
theorem not_forgotten_together : Run step Acknowledged start together afterTogether ∧
    ((2, 1) ∈ afterTogether.requests ∧
      (checkduplicateAndUpdate afterTogether.window 2 1).1 = .forgotten ∧
        2 < afterTogether.rpcc.xid ∧ ¬ afterTogether.rpcc.Waiting 2) ∧
    (6, 2) ∈ afterTogether.requests ∧ afterTogether.rpcc.Waiting 6 ∧ 6 ∉ afterTogether.arrived ∧
      (checkduplicateAndUpdate afterTogether.window 6 2).1 = .new := by
  have hrun : Run step Acknowledged start together afterTogether :=
    .of_guarded (Option.some_get _).symm
  have h2 : (2, 1) ∈ afterTogether.requests := by decide +kernel
  have hforgotten : (checkduplicateAndUpdate afterTogether.window 2 1).1 = .forgotten := by
    decide +kernel
  have h6 : (6, 2) ∈ afterTogether.requests := by decide +kernel
  have hwait : afterTogether.rpcc.Waiting 6 := by decide +kernel
  have hnew : 6 ∉ afterTogether.arrived := by decide +kernel
  exact ⟨hrun, ⟨h2, hforgotten, (not_forgotten hrun h2).1 hforgotten⟩, h6, hwait, hnew,
    (not_forgotten hrun h6).2 hwait hnew⟩

/-- The bind is done, call 2 is given up before its request arrives, and of calls 3 and 4, which
acknowledge it, 4 arrives first. -/
def overtaken : List Step :=
  [.call1 true, .dispatch 1 0, .handled 1 0 1, .gotPdu 1 0, .leave 1, .call1 false, .leave 2,
    .call1 false, .call1 false, .dispatch 4 2]

/-- **Call 3 waits, its request has never arrived, and it will be refused.** -/
theorem forgotten_waiting : ¬ ∀ as s xid xid_rep, Run step anyStep start as s →
    (xid, xid_rep) ∈ s.requests →
    ((checkduplicateAndUpdate s.window xid xid_rep).1 = .forgotten →
      xid < s.rpcc.xid ∧ ¬ s.rpcc.Waiting xid) ∧
    (s.rpcc.Waiting xid → xid ∉ s.arrived →
      (checkduplicateAndUpdate s.window xid xid_rep).1 = .new) := by
  intro hall
  have hsome : (execute step start overtaken).isSome = true := by decide
  obtain ⟨s, hs⟩ := Option.isSome_iff_exists.1 hsome
  have hend : (execute step start overtaken).any (fun s => decide ((3, 2) ∈ s.requests) &&
      decide ((checkduplicateAndUpdate s.window 3 2).1 = .forgotten) &&
      (s.rpcc.calls 3).any fun ca => ca.intret.isNone) = true := by decide
  rw [hs, Option.any_some, Bool.and_eq_true, Bool.and_eq_true, decide_eq_true_eq,
    decide_eq_true_eq] at hend
  obtain ⟨⟨hreq, hforgotten⟩, hcall⟩ := hend
  obtain ⟨ca, hca, hnone⟩ := (Option.any_eq_true ..).1 hcall
  exact ((hall _ s 3 2 (Run.of_execute hs) hreq).1 hforgotten).2
    ⟨ca, hca, Option.isNone_iff_eq_none.1 hnone⟩

end Net

end Rpc
end CseLab
