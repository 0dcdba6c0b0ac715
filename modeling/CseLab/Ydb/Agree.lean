import CseLab.Ydb.Occ.Alone
import CseLab.Ydb.TwoPL.Alone

/-!
# The two transactional servers, one transaction at a time

A client that begins a transaction, makes its calls one after another and then commits or aborts it
cannot tell the two servers apart, as long as nobody else is at work.  What it is told is what a map
would tell it (`Transaction.told`): a `get` returns the transaction's own last write or else the
value a commit left, every call returns `ok`, and only a commit changes the map.

Each server is compared with the map by itself.  `ydb_server_2pl` stores the values as they are, and
`ydb_server_occ` stores them behind a generation that a deletion throws away, so for the latter the
map is what `valuePart` makes of the store.  `servers_agree` puts the two together.
-/

set_option autoImplicit false

namespace CseLab
namespace Ydb

open Serial
open TwoPL (Op)

/-! ## What a client does and what it is told -/

/-- How a client ends a transaction. -/
inductive Ending
  | commit
  | abort
  deriving DecidableEq

/-- The call that does it. -/
def Ending.call : Ending → Call
  | .commit => .transactionCommit
  | .abort => .transactionAbort

/-- A transaction as a client runs it: any `get`, `set` and `del` calls, and then its end. -/
structure Transaction where
  ops : List Op
  ending : Ending

/-- The calls of a transaction, after `transaction_begin`. -/
def Transaction.calls (t : Transaction) : List Call := t.ops.map Op.call ++ [t.ending.call]

/-- What a client is told by a call: a status, and from a `get` a value. -/
structure Reply where
  call : Call
  status : Status
  value : Option Bytes
  deriving DecidableEq

/-- The reply that goes with an event of the log. -/
def Event.reply : Event → Option Reply
  | .returned _ (.get key) ret out => some ⟨.get key, ret, some out⟩
  | .returned _ c ret _ => some ⟨c, ret, none⟩
  | .committed _ => none

/-- Everything clients have been told. -/
def replies (log : List Event) : List Reply := log.filterMap Event.reply

@[simp] theorem replies_nil : replies [] = [] := rfl

@[simp] theorem replies_append (log log' : List Event) :
    replies (log ++ log') = replies log ++ replies log' :=
  List.filterMap_append

@[simp] theorem replies_committed (id : TransactionId) : replies [.committed id] = [] := rfl

@[simp] theorem replies_ending (id : TransactionId) (e : Ending) (ret : Status) (out : Bytes) :
    replies [.returned id e.call ret out] = [⟨e.call, ret, none⟩] := by
  cases e <;> rfl

/-! ## The same on a map -/

/-- What an access is told when the map is `values` and the transaction has written `w`. -/
def told (values : IdealStore) (w : ExtentId → Option Bytes) (op : Op) : Reply where
  call := op.call
  status := .ok
  value := match op.written with
    | none => some (install values w op.eid)
    | some _ => none

/-- What the transaction has written after one more access. -/
def wroteAfter (w : ExtentId → Option Bytes) (op : Op) : ExtentId → Option Bytes :=
  match op.written with
  | none => w
  | some value => Function.update w op.eid (some value)

/-- What the accesses of a transaction are told, one after another. -/
def toldAll (values : IdealStore) : (ExtentId → Option Bytes) → List Op → List Reply
  | _, [] => []
  | w, op :: ops => told values w op :: toldAll values (wroteAfter w op) ops

namespace Transaction

/-- What a whole transaction is told. -/
def told (values : IdealStore) (t : Transaction) : List Reply :=
  toldAll values (fun _ => none) t.ops ++ [⟨t.ending.call, .ok, none⟩]

/-- The map after the transaction. -/
def outcome (values : IdealStore) (t : Transaction) : IdealStore :=
  match t.ending with
  | .commit => install values (t.ops.foldl wroteAfter fun _ => none)
  | .abort => values

end Transaction

/-- What the transactions `ts` are told, run one after another. -/
def historyTold : IdealStore → List Transaction → List Reply
  | _, [] => []
  | values, t :: ts => t.told values ++ historyTold (t.outcome values) ts

theorem map_call_toldAll (values : IdealStore) (w : ExtentId → Option Bytes) (ops : List Op) :
    (toldAll values w ops).map Reply.call = ops.map Op.call := by
  induction ops generalizing w with
  | nil => rfl
  | cons op ops ih => exact congrArg (op.call :: ·) (ih _)

/-- Every call is told something, in order. -/
theorem map_call_historyTold (values : IdealStore) (ts : List Transaction) :
    (historyTold values ts).map Reply.call = ts.flatMap Transaction.calls := by
  induction ts generalizing values with
  | nil => rfl
  | cons t ts ih =>
    rw [historyTold, List.map_append, ih, List.flatMap_cons, Transaction.told, List.map_append,
      map_call_toldAll]
    rfl

theorem status_toldAll {values : IdealStore} {w : ExtentId → Option Bytes} {ops : List Op}
    {r : Reply} (h : r ∈ toldAll values w ops) : r.status = .ok := by
  induction ops generalizing w with
  | nil => exact absurd h List.not_mem_nil
  | cons op ops ih =>
    rcases List.mem_cons.1 h with rfl | h
    · rfl
    · exact ih h

/-- The map never refuses anything. -/
theorem status_historyTold {values : IdealStore} {ts : List Transaction} {r : Reply}
    (h : r ∈ historyTold values ts) : r.status = .ok := by
  induction ts generalizing values with
  | nil => exact absurd h List.not_mem_nil
  | cons t ts ih =>
    rcases List.mem_append.1 h with h | h
    · rcases List.mem_append.1 h with h | h
      · exact status_toldAll h
      · rw [List.mem_singleton.1 h]
    · exact ih h

/-! ## An access on either server -/

theorem wrote_after_done (l : Local ExtentId Bytes) (op : Op) (out : Bytes) :
    (l.after (op.done out)).wrote = wroteAfter l.wrote op := by
  rw [Op.done, wroteAfter]
  cases op.written with
  | none => exact Local.wrote_after_get _ _ _
  | some value => rfl

/-- An access that returns what the map has tells the client what the map does. -/
theorem replies_op {values : IdealStore} {w : ExtentId → Option Bytes} {op : Op} {out : Bytes}
    (h : ∀ k v, op.done out = .get k v → install values w k = v) (id : TransactionId) :
    replies [.returned id op.call .ok out] = [told values w op] := by
  cases op with
  | get key =>
    have hout : install values w (hash key) = out := h _ _ rfl
    rw [told, show (Op.get key).eid = hash key from rfl, hout]
    rfl
  | set | del => rfl

/-! ## The optimistic server -/

namespace Occ

/-- A transaction, from its `transaction_begin` to its end, with nobody else at work. -/
def runTransaction (s : State) (t : Transaction) : Option State :=
  s.begin.bind fun s' => t.calls.foldlM (serve s.nextTransactionId) s'

/-- Transactions, one after another. -/
def runHistory (s : State) (ts : List Transaction) : Option State := ts.foldlM runTransaction s

/-- What the store has for a client. -/
def State.values (s : State) : IdealStore := fun k => valuePart (s.store k)

theorem Alone.serveOps {s : State} {id : TransactionId} {m : VMap} {l : Local ExtentId Bytes}
    (h : Alone s id m l) (ops : List Op) :
    ∃ s' m' l', (ops.map Op.call).foldlM (Occ.serve id) s = some s' ∧ Alone s' id m' l' ∧
      l'.wrote = ops.foldl wroteAfter l.wrote ∧ s'.nextTransactionId = s.nextTransactionId ∧
      s'.store = s.store ∧ replies s'.log = replies s.log ++ toldAll s.values l.wrote ops := by
  induction ops generalizing s m l with
  | nil => exact ⟨s, m, l, rfl, h, rfl, rfl, rfl, (List.append_nil _).symm⟩
  | cons op ops ih =>
    let out := install s.values l.wrote op.eid
    have hget : ∀ k v, op.done out = .get k v → install s.values l.wrote k = v := by
      intro k v hd
      cases op with
      | get key =>
        injection hd with hk hv
        exact hk ▸ hv
      | set | del => exact absurd hd (by simp [Op.done, Op.written])
    obtain ⟨m₁, out', h₁, hd, hserve⟩ := h.serve (op.done_call out) hget
    have hsame : op.done out' = op.done out := Option.some_inj.1 ((op.done_call out').symm.trans hd)
    obtain ⟨s', m', l', hfold, h', hw, hnext, hstore, hlog⟩ := ih h₁
    refine ⟨s', m', l', ?_, h', ?_, hnext, hstore, ?_⟩
    · rw [List.map_cons, List.foldlM_cons, hserve]
      exact hfold
    · rw [hw, wrote_after_done]
      rfl
    · rw [hlog, State.reply_log, replies_append, replies_op (hsame ▸ hget), wrote_after_done,
        List.append_assoc]
      rfl

/-- **An abort served alone** leaves the store alone. -/
theorem serve_abort {s : State} {id : TransactionId} {m : VMap} (hid : s.tMap id = some m)
    (hcall : s.calls id = none) : serve id s .transactionAbort =
      some ((s.eraseMap id).reply id .transactionAbort .ok []) := by
  have hstart : s.call id .transactionAbort =
      some ((s.eraseMap id).reply id .transactionAbort .ok []) := by
    simp [State.call, hcall, hid, State.startKnown]
  rw [serve, hstart]
  exact finish_done (by simp)

/-- A transaction that has the server to itself is told what the map says and leaves what the map
says. -/
theorem runTransaction_ok {s : State} (hi : Inv s) (hlt : s.nextTransactionId < intMax)
    (t : Transaction) :
    ∃ s', runTransaction s t = some s' ∧ Inv s' ∧
      s'.nextTransactionId = s.nextTransactionId + 1 ∧ s'.values = t.outcome s.values ∧
      replies s'.log = replies s.log ++ t.told s.values := by
  obtain ⟨hmap, hcall, -⟩ := hi.unborn s.nextTransactionId (Int.le_refl _)
  let id := s.nextTransactionId
  let s₁ := { s with
    nextTransactionId := id + 1
    tMap := Function.update s.tMap id (some OrdMap.empty) }
  have hbegin : s.begin = some s₁ := by simp [State.begin, hlt, hmap, s₁, id]
  have h₁ : Alone s₁ id OrdMap.empty Local.start :=
    ⟨by simp [s₁], hcall, .empty, fun _ _ h => absurd h (by simp [Local.start]), .start,
      fun _ _ h => absurd h (by simp)⟩
  obtain ⟨s₂, m, l, hfold, h₂, hw, hnext, hstore, hlog⟩ := h₁.serveOps t.ops
  have hinv₂ : Inv s₂ := foldlM_serve_inv (hi.step (a := .begin) hbegin) hfold
  have hrun : ∀ s', serve id s₂ t.ending.call = some s' → runTransaction s t = some s' := by
    intro s' hs'
    rw [runTransaction, hbegin, Option.bind_some, Transaction.calls, List.foldlM_append, hfold]
    exact (bind_pure _).trans hs'
  have hend : ∃ s', serve id s₂ t.ending.call = some s' ∧ s'.nextTransactionId = id + 1 ∧
      s'.values = t.outcome s.values ∧
      replies s'.log = replies s₂.log ++ [⟨t.ending.call, .ok, none⟩] := by
    rw [Transaction.outcome]
    cases t.ending with
    | commit =>
      refine ⟨_, serve_commit h₂.known h₂.idle h₂.fresh, hnext, ?_, ?_⟩
      · funext k
        show valuePart (installAll s₂.store m k) = _
        rw [valuePart_installAll h₂.told, hstore, hw]
        rfl
      · rw [State.committed, replies_append, replies_append, replies_committed, List.append_nil]
        exact congrArg _ (replies_ending id .commit .ok [])
    | abort =>
      refine ⟨_, serve_abort h₂.known h₂.idle, hnext, ?_, ?_⟩
      · funext k
        exact congrArg (fun store : IdealStore => valuePart (store k)) hstore
      · rw [State.reply_log, replies_append]
        exact congrArg _ (replies_ending id .abort .ok [])
  obtain ⟨s', hserve, hnext', hvalues, hlog'⟩ := hend
  refine ⟨s', hrun s' hserve, serve_inv hinv₂ hserve, hnext', hvalues, ?_⟩
  rw [hlog', hlog, List.append_assoc]
  rfl

/-- A history that the server runs to its end is told what the map says. -/
theorem replies_of_runHistory {ts : List Transaction} {s s' : State} (hi : Inv s)
    (h : runHistory s ts = some s') :
    replies s'.log = replies s.log ++ historyTold s.values ts := by
  induction ts generalizing s with
  | nil =>
    rw [runHistory, List.foldlM_nil] at h
    rw [← Option.some_inj.1 h, historyTold, List.append_nil]
  | cons t ts ih =>
    rw [runHistory, List.foldlM_cons] at h
    obtain ⟨s₁, h₁, h₂⟩ := Option.bind_eq_some_iff.1 h
    have hlt : s.nextTransactionId < intMax := by
      rw [runTransaction] at h₁
      obtain ⟨s₀, h₀, -⟩ := Option.bind_eq_some_iff.1 h₁
      rw [State.begin] at h₀
      split at h₀
      · assumption
      · exact absurd h₀ (by simp)
    obtain ⟨s₁', h₁', hi₁, -, hvalues, hlog⟩ := runTransaction_ok hi hlt t
    obtain rfl : s₁ = s₁' := Option.some_inj.1 (h₁.symm.trans h₁')
    rw [ih hi₁ h₂, hlog, hvalues, List.append_assoc]
    rfl

/-- Only a want of transaction ids keeps a history from running to its end. -/
theorem runHistory_isSome {ts : List Transaction} {s : State} (hi : Inv s)
    (hroom : s.nextTransactionId + ts.length ≤ intMax) : ∃ s', runHistory s ts = some s' := by
  induction ts generalizing s with
  | nil => exact ⟨s, rfl⟩
  | cons t ts ih =>
    rw [List.length_cons] at hroom
    push_cast at hroom
    have hlt : s.nextTransactionId < intMax := by
      simp only [TransactionId] at *
      omega
    obtain ⟨s₁, h₁, hi₁, hnext, -, -⟩ := runTransaction_ok hi hlt t
    obtain ⟨s', h'⟩ := ih hi₁ (by rw [hnext]; simp only [TransactionId] at *; omega)
    refine ⟨s', ?_⟩
    rw [runHistory, List.foldlM_cons, h₁]
    exact h'

end Occ

/-! ## The locking server -/

namespace TwoPL

/-- A transaction, from its `transaction_begin` to its end, with nobody else at work. -/
def RunsTransaction (s : State) (t : Transaction) (s' : State) : Prop :=
  ∃ s₁, s.begin = some s₁ ∧ Serves s.nextTransactionId s₁ t.calls s'

/-- Transactions, one after another. -/
inductive RunsHistory : State → List Transaction → State → Prop
  | nil (s : State) : RunsHistory s [] s
  | cons {s s₁ s' : State} {t : Transaction} {ts : List Transaction} (h : RunsTransaction s t s₁)
      (hs : RunsHistory s₁ ts s') : RunsHistory s (t :: ts) s'

/-- With nobody else at work there is nothing for the scheduler to choose. -/
theorem Finishes.unique {id : TransactionId} {s s₁ s₂ : State} (h₁ : Finishes id s s₁)
    (h₂ : Finishes id s s₂) : s₁ = s₂ := by
  induction h₁ with
  | returned h =>
    cases h₂ with
    | returned => rfl
    | more hr => exact absurd hr (by rw [State.resume, h]; split <;> simp_all)
  | more hr _ ih =>
    cases h₂ with
    | returned h => exact absurd hr (by rw [State.resume, h]; split <;> simp_all)
    | more hr' hf' =>
      rw [hr, Option.some_inj] at hr'
      exact ih (hr' ▸ hf')

theorem Serves.unique {id : TransactionId} {cs : List Call} {s s₁ s₂ : State}
    (h₁ : Serves id s cs s₁) (h₂ : Serves id s cs s₂) : s₁ = s₂ := by
  induction h₁ with
  | nil =>
    cases h₂
    rfl
  | cons hc hf _ ih =>
    cases h₂ with
    | cons hc' hf' hs' =>
      rw [hc, Option.some_inj] at hc'
      exact ih (hf.unique (hc' ▸ hf') ▸ hs')

theorem RunsTransaction.unique {t : Transaction} {s s₁ s₂ : State} (h₁ : RunsTransaction s t s₁)
    (h₂ : RunsTransaction s t s₂) : s₁ = s₂ := by
  obtain ⟨s₃, hb, hs⟩ := h₁
  obtain ⟨s₄, hb', hs'⟩ := h₂
  rw [hb, Option.some_inj] at hb'
  exact hs.unique (hb' ▸ hs')

theorem Alone.serveOps {s : State} {id : TransactionId} {m : TContent} {l : Local ExtentId Bytes}
    (h : Alone s id m l) (ops : List Op) :
    ∃ s' m' l', Serves id s (ops.map Op.call) s' ∧ Alone s' id m' l' ∧
      l'.wrote = ops.foldl wroteAfter l.wrote ∧ s'.nextTransactionId = s.nextTransactionId ∧
      s'.store = s.store ∧ (∀ u, u ≠ id → s'.tMap u = s.tMap u) ∧
      replies s'.log = replies s.log ++ toldAll s.store l.wrote ops := by
  induction ops generalizing s m l with
  | nil => exact ⟨s, m, l, .nil s, h, rfl, rfl, rfl, fun _ _ => rfl, (List.append_nil _).symm⟩
  | cons op ops ih =>
    obtain ⟨s₁, s₂, m₂, out, hs₁, hf, ha, h₂, hget⟩ := h.op op
    obtain ⟨s', m', l', hserves, h', hw, hnext, hstore, hmaps, hlog⟩ := ih h₂
    refine ⟨s', m', l', .cons hs₁ hf hserves, h', ?_, hnext.trans ha.next, hstore.trans ha.store,
      fun u hu => (hmaps u hu).trans (ha.others u hu), ?_⟩
    · rw [hw, wrote_after_done]
      rfl
    · rw [hlog, ha.log, replies_append, replies_op hget, wrote_after_done, ha.store,
        List.append_assoc]
      rfl

/-- **An abort of a lone transaction** goes straight through. -/
theorem Lone.abort {s : State} {id : TransactionId} {m : TContent} (h : Lone s id m m.keys)
    (hcall : s.calls id = none) :
    ∃ s₁ s', s.call id .transactionAbort = some s₁ ∧ Finishes id s₁ s' ∧ Ended s id .abort s' := by
  obtain ⟨s', hf, he⟩ := h.finish m.keys_nodup .abort
  obtain ⟨s₁, hs₁, hf₁⟩ := h.find hcall .transactionAbort hf
  exact ⟨s₁, s', hs₁, hf₁, he⟩

/-- Nobody is at work, and ids from the next one on are new. -/
structure Quiescent (s : State) : Prop where
  dead : s.dead = false
  idle : ∀ u, s.calls u = none
  locks : ∀ l, s.locks l = none
  infos : ∀ l, s.lockInfos l = ⟨none, []⟩
  unborn : ∀ u, s.nextTransactionId ≤ u → s.tMap u = none

theorem Quiescent.start : Quiescent State.start :=
  ⟨rfl, fun _ => rfl, fun _ => rfl, fun _ => rfl, fun _ _ => rfl⟩

/-- A transaction that has the server to itself is told what the map says and leaves what the map
says. -/
theorem runsTransaction_ok {s : State} (hq : Quiescent s) (hlt : s.nextTransactionId < intMax)
    (t : Transaction) :
    ∃ s', RunsTransaction s t s' ∧ Quiescent s' ∧
      s'.nextTransactionId = s.nextTransactionId + 1 ∧ s'.store = t.outcome s.store ∧
      replies s'.log = replies s.log ++ t.told s.store := by
  let id := s.nextTransactionId
  have hmap : s.tMap id = none := hq.unborn id (Int.le_refl _)
  let s₁ : State := { s with
    nextTransactionId := id + 1
    tMap := Function.update s.tMap id (some OrdMap.empty) }
  have hbegin : s.begin = some s₁ := by
    simp [State.begin, hq.dead, hq.locks, hlt, hmap, s₁, id]
  have h₁ : Alone s₁ id OrdMap.empty Local.start :=
    ⟨⟨hq.dead, by simp [s₁], fun u _ => hq.idle u, by simp, by simpa using hq.locks,
      by simpa using hq.infos⟩, hq.idle id, .empty, fun _ _ h => absurd h (by simp [Local.start]),
      .start⟩
  obtain ⟨s₂, m, l, hserves, h₂, hw, hnext, hstore, hmaps, hlog⟩ := h₁.serveOps t.ops
  have hrun : ∀ s₃ s', s₂.call id t.ending.call = some s₃ → Finishes id s₃ s' →
      RunsTransaction s t s' :=
    fun s₃ s' hc hf => ⟨s₁, hbegin, hserves.append (.cons hc hf (.nil s'))⟩
  have hnew : ∀ s' : State, s'.tMap = Function.update s₂.tMap id none →
      ∀ u, id + 1 ≤ u → s'.tMap u = none := by
    intro s' hgone u hu
    have hui : u ≠ id := Int.ne_of_gt hu
    rw [hgone, Function.update_of_ne hui, hmaps u hui]
    exact (Function.update_of_ne hui ..).trans (hq.unborn u (Int.le_of_lt hu))
  have hend : ∃ s₃ s', s₂.call id t.ending.call = some s₃ ∧ Finishes id s₃ s' ∧ Quiescent s' ∧
      s'.nextTransactionId = id + 1 ∧ s'.store = t.outcome s.store ∧
      replies s'.log = replies s₂.log ++ [⟨t.ending.call, .ok, none⟩] := by
    rw [Transaction.outcome]
    cases t.ending with
    | commit =>
      obtain ⟨s₃, s', hc, hf, he⟩ := h₂.lone.commit h₂.idle
      have hnext' : s'.nextTransactionId = id + 1 := he.next.trans hnext
      refine ⟨s₃, s', hc, hf, ⟨he.dead, he.idle, he.locks, he.infos, ?_⟩, hnext', ?_, ?_⟩
      · rw [hnext']
        exact hnew s' he.gone
      · rw [he.store, putAll_eq_install h₂.told, hstore, hw]
        rfl
      · rw [he.log, replies_append, replies_append, replies_committed, List.append_nil]
        exact congrArg _ (replies_ending id .commit .ok [])
    | abort =>
      obtain ⟨s₃, s', hc, hf, he⟩ := h₂.lone.abort h₂.idle
      have hnext' : s'.nextTransactionId = id + 1 := he.next.trans hnext
      refine ⟨s₃, s', hc, hf, ⟨he.dead, he.idle, he.locks, he.infos, ?_⟩, hnext',
        he.store.trans hstore, ?_⟩
      · rw [hnext']
        exact hnew s' he.gone
      · rw [he.log, replies_append]
        exact congrArg _ (replies_ending id .abort .ok [])
  obtain ⟨s₃, s', hc, hf, hq', hnext', hvalues, hlog'⟩ := hend
  refine ⟨s', hrun s₃ s' hc hf, hq', hnext', hvalues, ?_⟩
  rw [hlog', hlog, List.append_assoc]
  rfl

/-- A history that the server runs to its end is told what the map says. -/
theorem RunsHistory.replies {ts : List Transaction} {s s' : State} (h : RunsHistory s ts s')
    (hq : Quiescent s) : replies s'.log = Ydb.replies s.log ++ historyTold s.store ts := by
  induction h with
  | nil => rw [historyTold, List.append_nil]
  | @cons s s₁ s' t ts h _ ih =>
    have hlt : s.nextTransactionId < intMax := by
      obtain ⟨s₀, h₀, -⟩ := h
      rw [State.begin] at h₀
      split at h₀
      · rename_i hok
        exact hok.2.2
      · exact absurd h₀ (by simp)
    obtain ⟨s₂, h₂, hq₂, -, hstore, hlog⟩ := runsTransaction_ok hq hlt t
    obtain rfl := h.unique h₂
    rw [ih hq₂, hlog, hstore, List.append_assoc]
    rfl

/-- Only a want of transaction ids keeps a history from running to its end. -/
theorem runsHistory_exists {ts : List Transaction} {s : State} (hq : Quiescent s)
    (hroom : s.nextTransactionId + ts.length ≤ intMax) : ∃ s', RunsHistory s ts s' := by
  induction ts generalizing s with
  | nil => exact ⟨s, .nil s⟩
  | cons t ts ih =>
    rw [List.length_cons] at hroom
    push_cast at hroom
    have hlt : s.nextTransactionId < intMax := by
      simp only [TransactionId] at *
      omega
    obtain ⟨s₁, h₁, hq₁, hnext, -, -⟩ := runsTransaction_ok hq hlt t
    obtain ⟨s', h'⟩ := ih hq₁ (by rw [hnext]; simp only [TransactionId] at *; omega)
    exact ⟨s', .cons h₁ h'⟩

end TwoPL

/-! ## Both -/

/-- **The two servers agree on serial histories.**  Whatever transactions a client runs one after
another on two new servers, it is told the same by both: for every call `ok`, and for every `get`
the same value.  Either server runs the history to its end unless it runs out of transaction ids. -/
theorem servers_agree (n₀ : TransactionId) (ts : List Transaction) :
    (∀ s t, Occ.runHistory (Occ.State.start n₀) ts = some s →
      TwoPL.RunsHistory TwoPL.State.start ts t →
      replies s.log = replies t.log ∧ (replies s.log).map Reply.call = ts.flatMap Transaction.calls ∧
        ∀ r ∈ replies s.log, r.status = .ok) ∧
    (n₀ + ts.length ≤ intMax → ∃ s, Occ.runHistory (Occ.State.start n₀) ts = some s) ∧
    (1 + ts.length ≤ intMax → ∃ t, TwoPL.RunsHistory TwoPL.State.start ts t) := by
  refine ⟨fun s t hs ht => ?_, Occ.runHistory_isSome (Occ.Inv.start n₀),
    TwoPL.runsHistory_exists .start⟩
  have hocc : replies s.log = historyTold IdealStore.fresh ts :=
    Occ.replies_of_runHistory (Occ.Inv.start n₀) hs
  have htpl : replies t.log = historyTold IdealStore.fresh ts := ht.replies .start
  rw [hocc, htpl]
  exact ⟨rfl, map_call_historyTold _ _, fun r hr => status_historyTold hr⟩

/-- A write that is aborted, a write that commits, and a transaction that reads, deletes and reads
again. -/
def threeTransactions : List Transaction :=
  [⟨[.set [107] [1], .get [107]], .abort⟩, ⟨[.set [107] [2]], .commit⟩,
    ⟨[.get [107], .del [107], .get [107]], .commit⟩]

theorem servers_agree_threeTransactions : ∃ s t,
    Occ.runHistory (Occ.State.start 7) threeTransactions = some s ∧
      TwoPL.RunsHistory TwoPL.State.start threeTransactions t ∧ replies s.log = replies t.log ∧
      (replies t.log).filterMap Reply.value = [[1], [2], []] := by
  obtain ⟨hagree, hocc, htpl⟩ := servers_agree 7 threeTransactions
  obtain ⟨s, hs⟩ := hocc (by decide)
  obtain ⟨t, ht⟩ := htpl (by decide)
  refine ⟨s, t, hs, ht, (hagree s t hs ht).1, ?_⟩
  rw [ht.replies .start]
  decide

end Ydb
end CseLab
