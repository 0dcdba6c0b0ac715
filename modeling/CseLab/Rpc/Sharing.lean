import CseLab.Rpc.Handle

/-!
# Who shares an `rpcc`

The counts of the `hinfo` are those of the handles, so that neither an `hinfo` nor an `rpcc` goes
while a handle has it (`handles_sound`).  Of one `hinfo`, `safebind` makes one `rpcc` at most and
always returns the same: that `rpcc`, or null (`safebind_agrees`), unless `delete_handle` comes in
between.  A handle is null only while others still hold what could not be bound
(`constructs_null_iff`).
-/

set_option autoImplicit false

namespace CseLab
namespace Rpc

variable {μ : Type*}

/-- Unless it has been deleted, it is marked only while it is held. -/
def Hinfo.Kept (h : Hinfo μ) : Prop := h.freed = false → h.del = true → 0 < h.refcnt

/-- It is not bound, nor being bound, where it is marked. -/
def Hinfo.Unbound (h : Hinfo μ) : Prop := h.del = true → h.cl = none ∧ h.cl_mutex = false

/-- `safebind` binds for it no more. -/
def Hinfo.Bound (h : Hinfo μ) : Prop := h.cl_mutex = true ∨ h.del = true ∨ h.cl ≠ none

namespace HandleMgr

/-! ## What is kept -/

/-- The `hinfo` that are held by handles. -/
def held (s : HandleMgr μ) : List ℕ := s.handles.filterMap Handle.h

/-- It binds an `rpcc` for `hi`. -/
def binds (hi : ℕ) (handle : Handle) : Bool := handle.h = some hi && handle.binding.isSome

/-- What is kept of the table and the counts. -/
structure Table (s : HandleMgr μ) : Prop where
  counts : Counts (fun hi => (s.info hi).refcnt) s.held
  freed_iff : ∀ hi, (s.info hi).freed = false ↔ ((s.info hi).m, hi) ∈ s.hmap
  named : ∀ e ∈ s.hmap, (s.info e.2).m = e.1
  keys : (s.hmap.map Prod.fst).Nodup
  lt : ∀ e ∈ s.hmap, e.2 < s.next
  held : ∀ hi ∈ s.held, (s.info hi).freed = false
  mutex : ∀ hi, s.handles.countP (binds hi) = (s.info hi).cl_mutex.toNat

/-- What is kept of the `rpcc`. -/
structure Clients (s : HandleMgr μ) : Prop where
  binding : ∀ handle ∈ s.handles, ∀ c, handle.binding = some c → ∃ hi, handle.h = some hi ∧
    s.rpccs[c]? = some hi ∧ (s.info hi).cl = none ∧ c ∉ s.deleted
  cl : ∀ hi c, (s.info hi).cl = some c →
    s.rpccs[c]? = some hi ∧ (c ∈ s.deleted ↔ (s.info hi).freed = true)
  got : ∀ handle ∈ s.handles, ∀ c ∈ handle.got, ∃ hi, handle.h = some hi ∧ (s.info hi).cl = some c
  deleted : ∀ c ∈ s.deleted, c < s.rpccs.length

/-- What is kept of the bindings. -/
structure Bindings (s : HandleMgr μ) : Prop where
  once : s.rpccs.Nodup
  lt : ∀ hi ∈ s.rpccs, hi < s.next
  bound : ∀ hi ∈ s.rpccs, (s.info hi).Bound

/-- Of the same `hinfo`, `r'` is null or the same `rpcc`. -/
def Before (r r' : ℕ × Option ℕ) : Prop := r.1 = r'.1 → r'.2 = none ∨ r'.2 = r.2

/-- What is kept of the results. -/
structure Results (s : HandleMgr μ) : Prop where
  lt : ∀ r ∈ s.results, r.1 < s.next
  refused : ∀ hi, (hi, none) ∈ s.results → (s.info hi).del = true ∧ (s.info hi).cl_mutex = false
  given : ∀ hi c, (hi, some c) ∈ s.results → (s.info hi).cl = some c
  order : s.results.Pairwise Before

structure Inv (s : HandleMgr μ) : Prop where
  table : s.Table
  clients : s.Clients
  bindings : s.Bindings
  results : s.Results
  /-- What is marked goes with the last handle. -/
  del : ∀ hi, (s.info hi).Kept
  /-- A failed binding marks what has no `rpcc` and gets none. -/
  unmarked : ∀ hi, hi ∉ s.marked → (s.info hi).Unbound

variable {s s' : HandleMgr μ} {m : μ} {hi j k c : ℕ} {h : Hinfo μ} {handle : Handle}
  {handles : List Handle} {got : List ℕ}

theorem Inv.new [Inhabited μ] : (new : HandleMgr μ).Inv where
  table :=
    { counts := fun _ => rfl
      freed_iff := fun _ => iff_of_false Bool.noConfusion List.not_mem_nil
      named := fun _ he => absurd he List.not_mem_nil
      keys := List.nodup_nil
      lt := fun _ he => absurd he List.not_mem_nil
      held := fun _ hhi => absurd hhi List.not_mem_nil
      mutex := fun _ => rfl }
  clients :=
    { binding := fun _ hmem => absurd hmem List.not_mem_nil
      cl := fun _ _ hcl => by cases hcl
      got := fun _ hmem => absurd hmem List.not_mem_nil
      deleted := fun _ hc => absurd hc List.not_mem_nil }
  bindings :=
    { once := List.nodup_nil
      lt := fun _ hhi => absurd hhi List.not_mem_nil
      bound := fun _ hhi => absurd hhi List.not_mem_nil }
  results :=
    { lt := fun _ hr => absurd hr List.not_mem_nil
      refused := fun _ hr => absurd hr List.not_mem_nil
      given := fun _ _ hr => absurd hr List.not_mem_nil
      order := List.Pairwise.nil }
  del _ hfreed := Bool.noConfusion hfreed
  unmarked _ _ hdel := Bool.noConfusion hdel

@[simp] theorem info_put (s : HandleMgr μ) (handle : Handle) : (s.put handle).info = s.info := rfl

theorem use_eq (hfreed : (s.info hi).freed = false) : s.use hi = .ok (s.info hi) := by
  rw [use, hfreed]
  rfl

theorem mem_held (hmem : handle ∈ s.handles) (hh : handle.h = some hi) : hi ∈ s.held :=
  List.mem_filterMap.2 ⟨handle, hmem, hh⟩

theorem countP_binds (hhi : hi ∉ s.held) : s.handles.countP (binds hi) = 0 := by
  refine List.countP_eq_zero.2 fun x hx hbinds => hhi (mem_held hx ?_)
  exact of_decide_eq_true (Bool.and_eq_true_iff.1 hbinds).1

theorem countP_put (binding : Option ℕ) (k : ℕ) :
    (s.put ⟨some hi, binding, got⟩).handles.countP (binds k) =
      s.handles.countP (binds k) + if hi = k ∧ binding.isSome = true then 1 else 0 := by
  show (Handle.mk (some hi) binding got :: s.handles).countP (binds k) = _
  rw [List.countP_cons]
  simp [binds]

theorem countP_put_none (k : ℕ) :
    (s.put ⟨some hi, none, got⟩).handles.countP (binds k) = s.handles.countP (binds k) :=
  (countP_put none k).trans (by simp)

theorem Table.lt_of_held (hs : s.Table) (hhi : hi ∈ s.held) : hi < s.next :=
  hs.lt _ ((hs.freed_iff hi).1 (hs.held hi hhi))

theorem Table.unfreed_of_mem (hs : s.Table) (hmem : (m, hi) ∈ s.hmap) :
    (s.info hi).freed = false := by
  have hname : (s.info hi).m = m := hs.named _ hmem
  exact (hs.freed_iff hi).2 (hname.symm ▸ hmem)

/-! ## One `hinfo` changes -/

/-- What a change to one `hinfo` leaves as it is. -/
theorem update_info {α : Sort*} (f : Hinfo μ → α) (hf : f h = f (s.info hi)) (k : ℕ) :
    f (Function.update s.info hi h k) = f (s.info k) := by
  rcases eq_or_ne k hi with rfl | hne
  · rwa [Function.update_self]
  · rw [Function.update_of_ne hne]

theorem refcnt_update : (fun k => (Function.update s.info hi h k).refcnt) =
    Function.update (fun k => (s.info k).refcnt) hi h.refcnt := by
  funext k
  rcases eq_or_ne k hi with rfl | hne
  · rw [Function.update_self, Function.update_self]
  · rw [Function.update_of_ne hne, Function.update_of_ne hne]

/-- One `hinfo` changes, which is not deleted. -/
theorem Table.set (hs : s.Table) (hinfo : s'.info = Function.update s.info hi h)
    (hhmap : s'.hmap = s.hmap) (hnext : s'.next = s.next) (hfreed : (s.info hi).freed = false)
    (hm : h.m = (s.info hi).m) (hf : h.freed = false)
    (hcounts : Counts (fun k => (s'.info k).refcnt) s'.held)
    (hheld : ∀ k ∈ s'.held, k = hi ∨ k ∈ s.held)
    (hmutex : ∀ k, s'.handles.countP (binds k) = (s'.info k).cl_mutex.toNat) :
    s'.Table := by
  have hsame : ∀ k, (s'.info k).m = (s.info k).m ∧ (s'.info k).freed = (s.info k).freed := by
    intro k
    rw [hinfo]
    exact ⟨update_info Hinfo.m hm k, update_info Hinfo.freed (hf.trans hfreed.symm) k⟩
  refine ⟨hcounts, fun k => ?_, fun e he => ?_, ?_, fun e he => ?_,
    fun k hk => ?_, hmutex⟩
  · rw [(hsame k).1, (hsame k).2, hhmap]
    exact hs.freed_iff k
  · rw [(hsame e.2).1]
    exact hs.named e (hhmap ▸ he)
  · rw [hhmap]
    exact hs.keys
  · rw [hnext]
    exact hs.lt e (hhmap ▸ he)
  · rw [(hsame k).2]
    rcases hheld k hk with rfl | hk
    · exact hfreed
    · exact hs.held k hk

/-- The same where the lock is left as it is. -/
theorem Table.recount (hs : s.Table) (hinfo : s'.info = Function.update s.info hi h)
    (hhmap : s'.hmap = s.hmap) (hnext : s'.next = s.next) (hfreed : (s.info hi).freed = false)
    (hm : h.m = (s.info hi).m) (hf : h.freed = false) (hlock : h.cl_mutex = (s.info hi).cl_mutex)
    (hcounts : Counts (fun k => (s'.info k).refcnt) s'.held)
    (hheld : ∀ k ∈ s'.held, k = hi ∨ k ∈ s.held)
    (hbinds : ∀ k, s'.handles.countP (binds k) = s.handles.countP (binds k)) : s'.Table := by
  refine hs.set hinfo hhmap hnext hfreed hm hf hcounts hheld fun k => ?_
  rw [hbinds, hs.mutex, hinfo]
  exact (congrArg Bool.toNat (update_info Hinfo.cl_mutex hlock k)).symm

/-- Only the handles change. -/
theorem Table.same (hs : s.Table) (hinfo : s'.info = s.info) (hhmap : s'.hmap = s.hmap)
    (hnext : s'.next = s.next) (hheld : s'.held.Perm s.held)
    (hbinds : ∀ k, s'.handles.countP (binds k) = s.handles.countP (binds k)) : s'.Table where
  counts := by
    rw [hinfo]
    exact hs.counts.perm hheld
  freed_iff := by
    rw [hinfo, hhmap]
    exact hs.freed_iff
  named := by
    rw [hinfo, hhmap]
    exact hs.named
  keys := hhmap ▸ hs.keys
  lt := by
    rw [hhmap, hnext]
    exact hs.lt
  held k hk := by
    rw [hinfo]
    exact hs.held k (hheld.mem_iff.1 hk)
  mutex k := by
    rw [hinfo, hbinds]
    exact hs.mutex k

/-- No `rpcc` is made, bound or deleted. -/
theorem Clients.same (hs : s.Clients) (hcl : ∀ k, (s'.info k).cl = (s.info k).cl)
    (hfreed : ∀ k, (s'.info k).freed = (s.info k).freed) (hrpccs : s'.rpccs = s.rpccs)
    (hdeleted : s'.deleted = s.deleted) (hhandles : ∀ x ∈ s'.handles, x ∈ s.handles ∨
      x.binding = none ∧ ∀ c ∈ x.got, ∃ hi, x.h = some hi ∧ (s.info hi).cl = some c) :
    s'.Clients where
  binding x hx c hc := by
    rcases hhandles x hx with hx | ⟨hnone, -⟩
    · obtain ⟨hi, hhi, hmade, hnone, hnot⟩ := hs.binding x hx c hc
      exact ⟨hi, hhi, hrpccs ▸ hmade, (hcl hi).trans hnone, hdeleted ▸ hnot⟩
    · rw [hnone] at hc
      cases hc
  cl k c hc := by
    rw [hrpccs, hdeleted, hfreed]
    exact hs.cl k c ((hcl k).symm.trans hc)
  got x hx c hc := by
    have hgot : ∃ hi, x.h = some hi ∧ (s.info hi).cl = some c := by
      rcases hhandles x hx with hx | ⟨-, hgot⟩
      · exact hs.got x hx c hc
      · exact hgot c hc
    obtain ⟨hi, hhi, hsome⟩ := hgot
    exact ⟨hi, hhi, (hcl hi).trans hsome⟩
  deleted := by
    rw [hrpccs, hdeleted]
    exact hs.deleted

/-- A handle that binds, or binds no more, has got what it had got. -/
theorem Clients.got_put {binding binding' : Option ℕ} (hs : (s.put ⟨some hi, binding, got⟩).Clients)
    {x : Handle} (hx : x ∈ Handle.mk (some hi) binding' got :: s.handles) (hc : c ∈ x.got) :
    ∃ k, x.h = some k ∧ (s.info k).cl = some c := by
  rcases List.mem_cons.1 hx with rfl | hx
  · exact hs.got _ List.mem_cons_self c hc
  · exact hs.got x (List.mem_cons_of_mem _ hx) c hc

/-- Nothing is bound, and what was bound or marked stays so. -/
theorem Bindings.mono (hs : s.Bindings) (hrpccs : s'.rpccs = s.rpccs) (hnext : s.next ≤ s'.next)
    (hbound : ∀ k < s.next, (s.info k).Bound → (s'.info k).Bound) : s'.Bindings where
  once := hrpccs ▸ hs.once
  lt k hk := Nat.lt_of_lt_of_le (hs.lt k (hrpccs ▸ hk)) hnext
  bound k hk := by
    rw [hrpccs] at hk
    exact hbound k (hs.lt k hk) (hs.bound k hk)

/-- The same where one `hinfo` changes. -/
theorem Bindings.set (hs : s.Bindings) (hinfo : s'.info = Function.update s.info hi h)
    (hrpccs : s'.rpccs = s.rpccs) (hnext : s'.next = s.next)
    (hbound : (s.info hi).Bound → h.Bound) : s'.Bindings := by
  have hall := (Function.forall_update_iff s.info fun k h => (s.info k).Bound → h.Bound).2
    ⟨hbound, fun _ _ => id⟩
  refine hs.mono hrpccs (Nat.le_of_eq hnext.symm) fun k _ => ?_
  rw [hinfo]
  exact hall k

/-- What has been returned stays right. -/
theorem Results.mono (hs : s.Results) (hresults : s'.results = s.results) (hnext : s.next ≤ s'.next)
    (hnull : ∀ k < s.next, (s.info k).del = true → (s.info k).cl_mutex = false →
      (s'.info k).del = true ∧ (s'.info k).cl_mutex = false)
    (hcl : ∀ k < s.next, ∀ c, (s.info k).cl = some c → (s'.info k).cl = some c) :
    s'.Results where
  lt r hr := by
    rw [hresults] at hr
    exact Nat.lt_of_lt_of_le (hs.lt r hr) hnext
  refused k hk := by
    rw [hresults] at hk
    obtain ⟨hdel, hmutex⟩ := hs.refused k hk
    exact hnull k (hs.lt _ hk) hdel hmutex
  given k c hk := by
    rw [hresults] at hk
    exact hcl k (hs.lt _ hk) c (hs.given k c hk)
  order := hresults ▸ hs.order

/-- The same where one `hinfo` changes. -/
theorem Results.set (hs : s.Results) (hinfo : s'.info = Function.update s.info hi h)
    (hresults : s'.results = s.results) (hnext : s'.next = s.next)
    (hnull : (s.info hi).del = true → (s.info hi).cl_mutex = false →
      h.del = true ∧ h.cl_mutex = false)
    (hcl : ∀ c, (s.info hi).cl = some c → h.cl = some c) : s'.Results := by
  have hnulls := (Function.forall_update_iff s.info fun k h => (s.info k).del = true →
    (s.info k).cl_mutex = false → h.del = true ∧ h.cl_mutex = false).2
    ⟨hnull, fun _ _ => And.intro⟩
  have hcls := (Function.forall_update_iff s.info fun k h =>
    ∀ c, (s.info k).cl = some c → h.cl = some c).2 ⟨hcl, fun _ _ _ => id⟩
  rw [← hinfo] at hnulls hcls
  exact hs.mono hresults (Nat.le_of_eq hnext.symm) (fun k _ => hnulls k) fun k _ => hcls k

/-! ## `safebind` -/

/-- `safebind` returns `cl`. -/
theorem Results.returned {cl : Option ℕ} (hs : s.Results) (hlt : hi < s.next)
    (hmutex : (s.info hi).cl_mutex = false) (hnull : cl = none → (s.info hi).del = true)
    (hsome : ∀ c, cl = some c → (s.info hi).cl = some c ∧ (hi, none) ∉ s.results) :
    (s.returned handle hi cl).Results where
  lt r hr := by
    rcases List.mem_append.1 hr with hr | hr
    · exact hs.lt r hr
    · obtain rfl := List.mem_singleton.1 hr
      exact hlt
  refused k hk := by
    rcases List.mem_append.1 hk with hk | hk
    · exact hs.refused k hk
    · obtain ⟨rfl, hnone⟩ := Prod.mk.inj (List.mem_singleton.1 hk)
      exact ⟨hnull hnone.symm, hmutex⟩
  given k c hk := by
    rcases List.mem_append.1 hk with hk | hk
    · exact hs.given k c hk
    · obtain ⟨rfl, hc⟩ := Prod.mk.inj (List.mem_singleton.1 hk)
      exact (hsome c hc.symm).1
  order := by
    refine List.pairwise_append.2
      ⟨hs.order, List.pairwise_singleton .., fun r hr r' hr' heq => ?_⟩
    obtain ⟨k, res⟩ := r
    obtain rfl := List.mem_singleton.1 hr'
    obtain rfl : k = hi := heq
    cases cl with
    | none => exact .inl rfl
    | some c =>
      obtain ⟨hcl, hnever⟩ := hsome c rfl
      cases res with
      | none => exact absurd hr hnever
      | some c' => exact .inr (hcl.symm.trans (hs.given k c' hr))

theorem Clients.returned {binding cl : Option ℕ} (hs : (s.put ⟨some hi, none, got⟩).Clients)
    (hsome : ∀ c, cl = some c → (s.info hi).cl = some c) :
    (s.returned ⟨some hi, binding, got⟩ hi cl).Clients := by
  refine hs.same (fun _ => rfl) (fun _ => rfl) rfl rfl fun x hx => ?_
  rcases List.mem_cons.1 hx with rfl | hx
  · refine .inr ⟨rfl, fun c hc => ?_⟩
    rcases List.mem_append.1 hc with hc | hc
    · exact ⟨hi, rfl, hsome c (by simpa using hc)⟩
    · exact hs.got _ List.mem_cons_self c hc
  · exact .inl (List.mem_cons_of_mem _ hx)

theorem Inv.returned {binding cl : Option ℕ} (hs : (s.put ⟨some hi, none, got⟩).Inv)
    (hmutex : (s.info hi).cl_mutex = false) (hnull : cl = none → (s.info hi).del = true)
    (hsome : ∀ c, cl = some c → (s.info hi).cl = some c ∧ (hi, none) ∉ s.results) :
    (s.returned ⟨some hi, binding, got⟩ hi cl).Inv where
  table := hs.table.same rfl rfl rfl (.refl _) fun k => (countP_put_none k).trans
    (countP_put_none k).symm
  clients := hs.clients.returned fun c hc => (hsome c hc).1
  bindings := hs.bindings.mono rfl (Nat.le_refl _) fun _ _ => id
  results := by
    have hresults : s.Results := hs.results.mono rfl (Nat.le_refl _) (fun _ _ => And.intro)
      fun _ _ _ => id
    exact hresults.returned (hs.table.lt_of_held List.mem_cons_self) hmutex hnull hsome
  del := hs.del
  unmarked := hs.unmarked

/-- `safebind` begins to bind, for `hi`. -/
def begun (s : HandleMgr μ) (hi : ℕ) : HandleMgr μ :=
  { s.setInfo hi { s.info hi with cl_mutex := true } with rpccs := s.rpccs ++ [hi] }

theorem begun_info {α : Sort*} (f : Hinfo μ → α)
    (hf : f { s.info hi with cl_mutex := true } = f (s.info hi)) (k : ℕ) :
    f ((s.begun hi).info k) = f (s.info k) := update_info f hf k

theorem begun_cl (k : ℕ) : ((s.begun hi).info k).cl = (s.info k).cl := begun_info Hinfo.cl rfl k

theorem begun_rpccs (hc : s.rpccs[c]? = some k) : (s.begun hi).rpccs[c]? = some k :=
  (List.getElem?_append_left (List.getElem?_eq_some_iff.1 hc).1).trans hc

theorem Table.begun (hs : (s.put ⟨some hi, none, got⟩).Table)
    (hmutex : (s.info hi).cl_mutex = false) :
    ((s.begun hi).put ⟨some hi, some c, got⟩).Table := by
  have hfreed : (s.info hi).freed = false := hs.held hi List.mem_cons_self
  refine hs.set rfl rfl rfl hfreed rfl hfreed (fun k => ?_) (fun k hk => .inr hk) fun k => ?_
  · exact (begun_info Hinfo.refcnt rfl k).trans (hs.counts k)
  · have hcount := hs.mutex k
    rw [countP_put] at hcount ⊢
    show s.handles.countP _ + _ = (Function.update s.info hi _ k).cl_mutex.toNat
    rcases eq_or_ne k hi with rfl | hne
    · rw [Function.update_self]
      simpa [hmutex] using hcount
    · rw [Function.update_of_ne hne]
      simpa [hne.symm] using hcount

theorem Clients.begun (hs : (s.put ⟨some hi, none, got⟩).Clients) (hcl : (s.info hi).cl = none) :
    ((s.begun hi).put ⟨some hi, some s.rpccs.length, got⟩).Clients where
  binding x hx c hc := by
    rcases List.mem_cons.1 hx with rfl | hx
    · obtain rfl := Option.some_inj.1 hc
      have hnot : s.rpccs.length ∉ s.deleted := fun hmem => Nat.lt_irrefl _ (hs.deleted _ hmem)
      exact ⟨hi, rfl, List.getElem?_concat_length, (begun_cl hi).trans hcl, hnot⟩
    · obtain ⟨k, hk, hck, hnone, hnot⟩ := hs.binding x (List.mem_cons_of_mem _ hx) c hc
      exact ⟨k, hk, begun_rpccs hck, (begun_cl k).trans hnone, hnot⟩
  cl k c hc := by
    obtain ⟨hck, hiff⟩ := hs.cl k c ((begun_cl k).symm.trans hc)
    rw [info_put, begun_info Hinfo.freed rfl]
    exact ⟨begun_rpccs hck, hiff⟩
  got x hx c hc := by
    obtain ⟨k, hk, hck⟩ := hs.got_put hx hc
    exact ⟨k, hk, (begun_cl k).trans hck⟩
  deleted c hc := by
    have hlt : c < s.rpccs.length := hs.deleted c hc
    show c < (s.rpccs ++ [hi]).length
    rw [List.length_append]
    exact Nat.lt_add_right _ hlt

theorem Bindings.begun (hs : s.Bindings) (hlt : hi < s.next) (hnot : ¬ (s.info hi).Bound) :
    (s.begun hi).Bindings where
  once := by
    refine List.nodup_append.2 ⟨hs.once, List.nodup_singleton hi, fun k hk j hj heq => ?_⟩
    obtain rfl := List.mem_singleton.1 hj
    exact hnot (hs.bound _ (heq ▸ hk))
  lt k hk := by
    rcases List.mem_append.1 hk with hk | hk
    · exact hs.lt k hk
    · exact List.mem_singleton.1 hk ▸ hlt
  bound k hk := by
    show (Function.update s.info hi _ k).Bound
    rcases eq_or_ne k hi with rfl | hne
    · rw [Function.update_self]
      exact .inl rfl
    · rw [Function.update_of_ne hne]
      rcases List.mem_append.1 hk with hk | hk
      · exact hs.bound k hk
      · exact absurd (List.mem_singleton.1 hk) hne

theorem Inv.begun (hs : (s.put ⟨some hi, none, got⟩).Inv) (hmutex : (s.info hi).cl_mutex = false)
    (hdel : (s.info hi).del = false) (hcl : (s.info hi).cl = none) :
    ((s.begun hi).put ⟨some hi, some s.rpccs.length, got⟩).Inv where
  table := hs.table.begun hmutex
  clients := hs.clients.begun hcl
  bindings := by
    have hnot : ¬ (s.info hi).Bound := by simp [Hinfo.Bound, hmutex, hdel, hcl]
    have hbindings : s.Bindings := hs.bindings.mono rfl (Nat.le_refl _) fun _ _ => id
    have hbegun := hbindings.begun (hs.table.lt_of_held List.mem_cons_self) hnot
    exact hbegun.mono rfl (Nat.le_refl _) fun _ _ => id
  results := by
    refine hs.results.set rfl rfl rfl (fun hdel' => ?_) fun _ => id
    exact absurd (hdel.symm.trans hdel') Bool.noConfusion
  del := (Function.forall_update_iff s.info fun _ => Hinfo.Kept).2
    ⟨hs.del hi, fun k _ => hs.del k⟩
  unmarked := by
    refine (Function.forall_update_iff s.info fun k h => k ∉ s.marked → h.Unbound).2
      ⟨fun _ hdel' => ?_, fun k _ => hs.unmarked k⟩
    exact absurd (hdel.symm.trans hdel') Bool.noConfusion

/-- What is known while `safebind` binds. -/
theorem Inv.binding (hs : (s.put ⟨some hi, some c, got⟩).Inv) :
    (s.info hi).freed = false ∧ (s.info hi).cl_mutex = true ∧ (s.info hi).cl = none ∧
      s.rpccs[c]? = some hi ∧ c ∉ s.deleted ∧ s.handles.countP (binds hi) = 0 := by
  obtain ⟨k, hk, hck, hcl, hnot⟩ := hs.clients.binding _ List.mem_cons_self c rfl
  obtain rfl := Option.some_inj.1 hk
  have hcount := hs.table.mutex hi
  rw [countP_put] at hcount
  have hmutex : (s.info hi).cl_mutex = true := by
    by_contra hnot
    rw [info_put, Bool.eq_false_iff.2 hnot] at hcount
    simp at hcount
  rw [info_put, hmutex] at hcount
  exact ⟨hs.table.held hi List.mem_cons_self, hmutex, hcl, hck, hnot, by simpa using hcount⟩

/-- An `hinfo` is unlocked that is being bound. -/
theorem Inv.unlock (hs : (s.put ⟨some hi, some c, got⟩).Inv) (hh : h.cl_mutex = false) (k : ℕ) :
    s.handles.countP (binds k) = (Function.update s.info hi h k).cl_mutex.toNat := by
  rcases eq_or_ne k hi with rfl | hne
  · rw [Function.update_self, hh, hs.binding.2.2.2.2.2]
    rfl
  · have hcount := hs.table.mutex k
    rw [countP_put] at hcount
    rw [Function.update_of_ne hne]
    simpa [hne.symm] using hcount

/-- Nobody else binds the same `rpcc`, nor for the same `hinfo`. -/
theorem Inv.binds_alone (hs : (s.put ⟨some hi, some c, got⟩).Inv) {x : Handle} {c' k : ℕ}
    (hx : x ∈ s.handles) (hc' : x.binding = some c') (hk : x.h = some k)
    (hmade : s.rpccs[c']? = some k) : k ≠ hi ∧ c' ≠ c := by
  obtain ⟨-, -, -, hck, -, hnone⟩ := hs.binding
  have hne : k ≠ hi := by
    rintro rfl
    exact List.countP_eq_zero.1 hnone x hx (by simp [binds, hk, hc'])
  refine ⟨hne, ?_⟩
  rintro rfl
  exact hne (Option.some_inj.1 (hmade.symm.trans hck))

/-- The binding has come to an end, and leaves `h`. -/
theorem Inv.table_ended (hs : (s.put ⟨some hi, some c, got⟩).Inv)
    (hinfo : s'.info = Function.update s.info hi h)
    (hhmap : s'.hmap = s.hmap) (hnext : s'.next = s.next) (hhandles : s'.handles = s.handles)
    (hm : h.m = (s.info hi).m) (hrefcnt : h.refcnt = (s.info hi).refcnt) (hf : h.freed = false)
    (hmutex : h.cl_mutex = false) : (s'.put ⟨some hi, none, got⟩).Table := by
  have hheld : (s'.put ⟨some hi, none, got⟩).held = (s.put ⟨some hi, some c, got⟩).held := by
    show hi :: s'.held = hi :: s.held
    rw [held, hhandles]
    rfl
  refine hs.table.set hinfo hhmap hnext hs.binding.1 hm hf (fun k => ?_)
    (fun k hk => .inr (hheld ▸ hk)) fun k => ?_
  · rw [hheld, ← hs.table.counts k, info_put, hinfo]
    exact update_info Hinfo.refcnt hrefcnt k
  · rw [countP_put_none, hhandles, info_put, hinfo]
    exact hs.unlock hmutex k

/-- The binding of `c` for `hi` has failed. -/
def failed (s : HandleMgr μ) (hi c : ℕ) : HandleMgr μ :=
  { s.setInfo hi { s.info hi with del := true, cl_mutex := false } with deleted := c :: s.deleted }

theorem failed_info {α : Sort*} (f : Hinfo μ → α)
    (hf : f { s.info hi with del := true, cl_mutex := false } = f (s.info hi)) (k : ℕ) :
    f ((s.failed hi c).info k) = f (s.info k) := update_info f hf k

theorem failed_cl (c k : ℕ) : ((s.failed hi c).info k).cl = (s.info k).cl :=
  failed_info Hinfo.cl rfl k

theorem Inv.clients_failed (hs : (s.put ⟨some hi, some c, got⟩).Inv) :
    ((s.failed hi c).put ⟨some hi, none, got⟩).Clients where
  binding x hx c' hc' := by
    rcases List.mem_cons.1 hx with rfl | hx
    · cases hc'
    · obtain ⟨k, hk, hck, hnone, hnot⟩ :=
        hs.clients.binding x (List.mem_cons_of_mem _ hx) c' hc'
      obtain ⟨-, hne⟩ := hs.binds_alone hx hc' hk hck
      have hnot : c' ∉ c :: s.deleted := List.not_mem_cons_of_ne_of_not_mem hne hnot
      exact ⟨k, hk, hck, (failed_cl c k).trans hnone, hnot⟩
  cl k c' hc' := by
    obtain ⟨-, -, hcl, hck, -, -⟩ := hs.binding
    have hkc : (s.info k).cl = some c' := (failed_cl c k).symm.trans hc'
    obtain ⟨hck', hiff⟩ := hs.clients.cl k c' hkc
    have hne : c' ≠ c := by
      rintro rfl
      obtain rfl := Option.some_inj.1 (hck'.symm.trans hck)
      cases hcl.symm.trans hkc
    rw [info_put, failed_info Hinfo.freed rfl]
    exact ⟨hck', List.mem_cons.trans ((or_iff_right hne).trans hiff)⟩
  got x hx c' hc' := by
    obtain ⟨k, hk, hck⟩ := hs.clients.got_put hx hc'
    exact ⟨k, hk, (failed_cl c k).trans hck⟩
  deleted c' hc' := by
    obtain ⟨-, -, -, hck, -, -⟩ := hs.binding
    rcases List.mem_cons.1 hc' with rfl | hc'
    · exact (List.getElem?_eq_some_iff.1 hck).1
    · exact hs.clients.deleted c' hc'

theorem Inv.failed (hs : (s.put ⟨some hi, some c, got⟩).Inv) :
    ((s.failed hi c).put ⟨some hi, none, got⟩).Inv where
  table := hs.table_ended rfl rfl rfl rfl rfl rfl hs.binding.1 rfl
  clients := hs.clients_failed
  bindings := hs.bindings.set rfl rfl rfl fun _ => .inr (.inl rfl)
  results := by
    refine hs.results.set rfl rfl rfl (fun _ hmutex => ?_) fun _ => id
    exact absurd (hs.binding.2.1.symm.trans hmutex) Bool.noConfusion
  del := by
    have hpos : 0 < (s.info hi).refcnt :=
      Nat.lt_of_lt_of_eq (List.count_pos_iff.2 List.mem_cons_self) (hs.table.counts hi).symm
    exact (Function.forall_update_iff s.info fun _ => Hinfo.Kept).2
      ⟨fun _ _ => hpos, fun k _ => hs.del k⟩
  unmarked := (Function.forall_update_iff s.info fun k h => k ∉ s.marked → h.Unbound).2
    ⟨fun _ _ => ⟨hs.binding.2.2.1, rfl⟩, fun k _ => hs.unmarked k⟩

/-- It has succeeded. -/
def succeeded (s : HandleMgr μ) (hi c : ℕ) : HandleMgr μ :=
  s.setInfo hi { s.info hi with cl := some c, cl_mutex := false }

theorem succeeded_info (hne : k ≠ hi) : (s.succeeded hi c).info k = s.info k :=
  Function.update_of_ne hne ..

theorem succeeded_self : (s.succeeded hi c).info hi =
    { s.info hi with cl := some c, cl_mutex := false } := Function.update_self ..

theorem succeeded_freed (k : ℕ) : ((s.succeeded hi c).info k).freed = (s.info k).freed := by
  refine update_info Hinfo.freed ?_ k
  rfl

theorem Inv.clients_succeeded (hs : (s.put ⟨some hi, some c, got⟩).Inv) :
    ((s.succeeded hi c).put ⟨some hi, none, got⟩).Clients where
  binding x hx c' hc' := by
    rcases List.mem_cons.1 hx with rfl | hx
    · cases hc'
    · obtain ⟨k, hk, hck, hnone, hnot⟩ :=
        hs.clients.binding x (List.mem_cons_of_mem _ hx) c' hc'
      obtain ⟨hne, -⟩ := hs.binds_alone hx hc' hk hck
      exact ⟨k, hk, hck, (congrArg Hinfo.cl (succeeded_info hne)).trans hnone, hnot⟩
  cl k c' hc' := by
    rw [info_put] at hc' ⊢
    rw [succeeded_freed]
    rcases eq_or_ne k hi with rfl | hne
    · obtain ⟨hfreed, -, -, hck, hnot, -⟩ := hs.binding
      obtain rfl := Option.some_inj.1 ((congrArg Hinfo.cl succeeded_self).symm.trans hc')
      exact ⟨hck, iff_of_false hnot (Bool.eq_false_iff.1 hfreed)⟩
    · rw [succeeded_info hne] at hc'
      exact hs.clients.cl k c' hc'
  got x hx c' hc' := by
    obtain ⟨k, hk, hck⟩ := hs.clients.got_put hx hc'
    have hne : k ≠ hi := by
      rintro rfl
      cases hs.binding.2.2.1.symm.trans hck
    exact ⟨k, hk, (congrArg Hinfo.cl (succeeded_info hne)).trans hck⟩
  deleted := hs.clients.deleted

theorem Inv.succeeded (hs : (s.put ⟨some hi, some c, got⟩).Inv) :
    ((s.succeeded hi c).put ⟨some hi, none, got⟩).Inv where
  table := hs.table_ended rfl rfl rfl rfl rfl rfl hs.binding.1 rfl
  clients := hs.clients_succeeded
  bindings := hs.bindings.set rfl rfl rfl fun _ => .inr (.inr (Option.some_ne_none c))
  results := by
    obtain ⟨-, hmutex, hcl, -, -, -⟩ := hs.binding
    refine hs.results.set rfl rfl rfl (fun _ hmutex' => ?_) fun c' hc' => ?_
    · exact absurd (hmutex.symm.trans hmutex') Bool.noConfusion
    · cases hcl.symm.trans hc'
  del := (Function.forall_update_iff s.info fun _ => Hinfo.Kept).2
    ⟨hs.del hi, fun k _ => hs.del k⟩
  unmarked := by
    refine (Function.forall_update_iff s.info fun k h => k ∉ s.marked → h.Unbound).2
      ⟨fun hnot hdel => ?_, fun k _ => hs.unmarked k⟩
    have hunlocked := (hs.unmarked hi hnot hdel).2
    exact absurd (hs.binding.2.1.symm.trans hunlocked) Bool.noConfusion

/-! ## The table -/

/-- `get_handle` makes an `hinfo`. -/
def made (s : HandleMgr μ) (m : μ) : HandleMgr μ :=
  { s with
    info := Function.update s.info s.next ⟨none, 1, false, m, false, false⟩
    next := s.next + 1
    hmap := (m, s.next) :: s.hmap }

theorem made_self : (s.made m).info s.next = ⟨none, 1, false, m, false, false⟩ :=
  Function.update_self ..

theorem made_other (hk : k ≠ s.next) : (s.made m).info k = s.info k := Function.update_of_ne hk ..

theorem Table.apart_next (hs : s.Table) (hmem : handle ∈ s.handles) (hh : handle.h = some k) :
    k ≠ s.next := Nat.ne_of_lt (hs.lt_of_held (mem_held hmem hh))

theorem Table.made (hs : s.Table) (hm : m ∉ s.hmap.map Prod.fst) :
    ((s.made m).put ⟨some s.next, none, []⟩).Table where
  counts k := by
    have hnew : s.next ∉ s.held := fun hmem => Nat.lt_irrefl _ (hs.lt_of_held hmem)
    show ((s.made m).info k).refcnt = (s.next :: s.held).count k
    rcases eq_or_ne k s.next with rfl | hne
    · rw [made_self, List.count_cons_self, List.count_eq_zero_of_not_mem hnew]
    · rw [made_other hne, List.count_cons_of_ne hne.symm]
      exact hs.counts k
  freed_iff k := by
    show ((s.made m).info k).freed = false ↔ (((s.made m).info k).m, k) ∈ (m, s.next) :: s.hmap
    rcases eq_or_ne k s.next with rfl | hne
    · rw [made_self]
      exact iff_of_true rfl List.mem_cons_self
    · rw [made_other hne, hs.freed_iff k, List.mem_cons]
      exact (or_iff_right fun heq => hne (Prod.mk.inj heq).2).symm
  named e he := by
    rw [info_put]
    rcases List.mem_cons.1 he with rfl | he
    · rw [made_self]
    · rw [made_other (Nat.ne_of_lt (hs.lt e he))]
      exact hs.named e he
  keys := List.nodup_cons.2 ⟨hm, hs.keys⟩
  lt e he := by
    rcases List.mem_cons.1 he with rfl | he
    · exact Nat.lt_succ_self _
    · exact Nat.lt_succ_of_lt (hs.lt e he)
  held k hk := by
    rw [info_put]
    rcases List.mem_cons.1 hk with rfl | hk
    · rw [made_self]
    · rw [made_other (Nat.ne_of_lt (hs.lt_of_held hk))]
      exact hs.held k hk
  mutex k := by
    rw [countP_put_none, info_put]
    show s.handles.countP (binds k) = _
    rcases eq_or_ne k s.next with rfl | hne
    · rw [made_self, countP_binds fun hmem => Nat.lt_irrefl _ (hs.lt_of_held hmem)]
      rfl
    · rw [made_other hne]
      exact hs.mutex k

theorem Clients.made (hs : s.Clients) (htable : s.Table) :
    ((s.made m).put ⟨some s.next, none, []⟩).Clients where
  binding x hx c hc := by
    rcases List.mem_cons.1 hx with rfl | hx
    · cases hc
    · obtain ⟨k, hk, hck, hnone, hnot⟩ := hs.binding x hx c hc
      have hother := made_other (m := m) (htable.apart_next hx hk)
      exact ⟨k, hk, hck, (congrArg Hinfo.cl hother).trans hnone, hnot⟩
  cl k c hc := by
    rw [info_put] at hc ⊢
    rcases eq_or_ne k s.next with rfl | hne
    · rw [made_self] at hc
      cases hc
    · rw [made_other hne] at hc ⊢
      exact hs.cl k c hc
  got x hx c hc := by
    rcases List.mem_cons.1 hx with rfl | hx
    · exact absurd hc List.not_mem_nil
    · obtain ⟨k, hk, hck⟩ := hs.got x hx c hc
      have hother := made_other (m := m) (htable.apart_next hx hk)
      exact ⟨k, hk, (congrArg Hinfo.cl hother).trans hck⟩
  deleted := hs.deleted

theorem Inv.made (hs : s.Inv) (hm : m ∉ s.hmap.map Prod.fst) :
    ((s.made m).put ⟨some s.next, none, []⟩).Inv where
  table := hs.table.made hm
  clients := hs.clients.made hs.table
  bindings := hs.bindings.mono rfl (Nat.le_succ _) fun k hk hbound =>
    (made_other (Nat.ne_of_lt hk)).symm ▸ hbound
  results := by
    refine hs.results.mono rfl (Nat.le_succ _) (fun k hk => ?_) fun k hk => ?_
    · rw [info_put, made_other (Nat.ne_of_lt hk)]
      exact And.intro
    · rw [info_put, made_other (Nat.ne_of_lt hk)]
      exact fun _ => id
  del := (Function.forall_update_iff s.info fun _ => Hinfo.Kept).2
    ⟨fun _ hdel => Bool.noConfusion hdel, fun k _ => hs.del k⟩
  unmarked := (Function.forall_update_iff s.info fun k h => k ∉ s.marked → h.Unbound).2
    ⟨fun _ hdel => Bool.noConfusion hdel, fun k _ => hs.unmarked k⟩

/-- A handle that has just been constructed has got nothing. -/
theorem Clients.constructed {handle : Option ℕ} (hs : s.Clients)
    (hcl : ∀ k, (s'.info k).cl = (s.info k).cl)
    (hfreed : ∀ k, (s'.info k).freed = (s.info k).freed) (hrpccs : s'.rpccs = s.rpccs)
    (hdeleted : s'.deleted = s.deleted) (hhandles : s'.handles = ⟨handle, none, []⟩ :: s.handles) :
    s'.Clients := by
  refine hs.same hcl hfreed hrpccs hdeleted fun x hx => ?_
  rw [hhandles] at hx
  rcases List.mem_cons.1 hx with rfl | hx
  · exact .inr ⟨rfl, fun c hc => absurd hc List.not_mem_nil⟩
  · exact .inl hx

/-- One handle more. -/
theorem Inv.counted (hs : s.Inv) (hfreed : (s.info hi).freed = false) :
    ((s.setInfo hi { s.info hi with refcnt := (s.info hi).refcnt + 1 }).put
      ⟨some hi, none, []⟩).Inv where
  table := by
    refine hs.table.recount rfl rfl rfl hfreed rfl hfreed rfl ?_ (fun k hk => List.mem_cons.1 hk)
      countP_put_none
    exact refcnt_update ▸ hs.table.counts.incref hi
  clients := hs.clients.constructed (update_info Hinfo.cl (by rfl))
    (update_info Hinfo.freed (by rfl)) rfl rfl rfl
  bindings := hs.bindings.set rfl rfl rfl id
  results := hs.results.set rfl rfl rfl And.intro fun _ => id
  del := (Function.forall_update_iff s.info fun _ => Hinfo.Kept).2
    ⟨fun _ _ => Nat.succ_pos _, fun k _ => hs.del k⟩
  unmarked := (Function.forall_update_iff s.info fun k h => k ∉ s.marked → h.Unbound).2
    ⟨hs.unmarked hi, fun k _ => hs.unmarked k⟩

/-- A handle that is null. -/
theorem Inv.null (hs : s.Inv) : (s.put ⟨none, none, []⟩).Inv where
  table := hs.table.same rfl rfl rfl (.refl _) fun k => by
    show (Handle.mk none none [] :: s.handles).countP (binds k) = _
    rw [List.countP_cons]
    simp [binds]
  clients := hs.clients.constructed (fun _ => rfl) (fun _ => rfl) rfl rfl rfl
  bindings := hs.bindings.mono rfl (Nat.le_refl _) fun _ _ => id
  results := hs.results.mono rfl (Nat.le_refl _) (fun _ _ => And.intro) fun _ _ _ => id
  del := hs.del
  unmarked := hs.unmarked

/-- A handle that is null goes out of scope. -/
theorem Inv.dropped (hs : (s.put ⟨none, none, got⟩).Inv) : s.Inv where
  table := hs.table.same rfl rfl rfl (.refl _) fun k => by
    show _ = (Handle.mk none none got :: s.handles).countP (binds k)
    rw [List.countP_cons]
    simp [binds]
  clients := hs.clients.same (fun _ => rfl) (fun _ => rfl) rfl rfl fun x hx =>
    .inl (List.mem_cons_of_mem _ hx)
  bindings := hs.bindings.mono rfl (Nat.le_refl _) fun _ _ => id
  results := hs.results.mono rfl (Nat.le_refl _) (fun _ _ => And.intro) fun _ _ _ => id
  del := hs.del
  unmarked := hs.unmarked

/-- An `hinfo` that is held is marked. -/
theorem Inv.marked (hs : s.Inv) (hfreed : (s.info hi).freed = false)
    (hpos : 0 < (s.info hi).refcnt) :
    ({ s.setInfo hi { s.info hi with del := true } with marked := hi :: s.marked }).Inv where
  table := by
    refine hs.table.recount rfl rfl rfl hfreed rfl hfreed rfl (fun k => ?_) (fun k hk => .inr hk)
      fun _ => rfl
    refine Eq.trans ?_ (hs.table.counts k)
    exact update_info Hinfo.refcnt (by rfl) k
  clients := hs.clients.same (update_info Hinfo.cl (by rfl)) (update_info Hinfo.freed (by rfl))
    rfl rfl fun x hx => .inl hx
  bindings := hs.bindings.set rfl rfl rfl fun _ => .inr (.inl rfl)
  results := hs.results.set rfl rfl rfl (fun _ hmutex => ⟨rfl, hmutex⟩) fun _ => id
  del := (Function.forall_update_iff s.info fun _ => Hinfo.Kept).2
    ⟨fun _ _ => hpos, fun k _ => hs.del k⟩
  unmarked := by
    refine (Function.forall_update_iff s.info fun k h => k ∉ hi :: s.marked → h.Unbound).2
      ⟨fun hnot => absurd List.mem_cons_self hnot, fun k _ hk => ?_⟩
    exact hs.unmarked k (List.ne_and_not_mem_of_not_mem_cons hk).2

/-- One handle less; what is left to show is that it was not the last of what is marked. -/
structure Left (s : HandleMgr μ) (hi : ℕ) : Prop where
  table : s.Table
  clients : s.Clients
  bindings : s.Bindings
  results : s.Results
  del : ∀ k, k ≠ hi → (s.info k).Kept
  unmarked : ∀ k, k ∉ s.marked → (s.info k).Unbound

theorem Left.inv (hs : s.Left hi) (hdel : (s.info hi).Kept) : s.Inv where
  table := hs.table
  clients := hs.clients
  bindings := hs.bindings
  results := hs.results
  del k := by
    rcases eq_or_ne k hi with rfl | hne
    · exact hdel
    · exact hs.del k hne
  unmarked := hs.unmarked

theorem Inv.left (hs : s.Inv) : s.Left hi where
  table := hs.table
  clients := hs.clients
  bindings := hs.bindings
  results := hs.results
  del k _ := hs.del k
  unmarked := hs.unmarked

theorem Inv.uncounted (hs : (s.put ⟨some hi, none, got⟩).Inv) :
    (s.setInfo hi { s.info hi with refcnt := (s.info hi).refcnt - 1 }).Left hi where
  table := by
    have hfreed : (s.info hi).freed = false := hs.table.held hi List.mem_cons_self
    refine hs.table.recount rfl rfl rfl hfreed rfl hfreed rfl ?_
      (fun k hk => .inr (List.mem_cons_of_mem _ hk)) fun k => (countP_put_none k).symm
    exact refcnt_update ▸ hs.table.counts.decref
  clients := hs.clients.same (update_info Hinfo.cl (by rfl)) (update_info Hinfo.freed (by rfl))
    rfl rfl fun x hx => .inl (List.mem_cons_of_mem _ hx)
  bindings := hs.bindings.set rfl rfl rfl id
  results := hs.results.set rfl rfl rfl And.intro fun _ => id
  del k hne := by
    show (Function.update s.info hi _ k).Kept
    rw [Function.update_of_ne hne]
    exact hs.del k
  unmarked := (Function.forall_update_iff s.info fun k h => k ∉ s.marked → h.Unbound).2
    ⟨hs.unmarked hi, fun k _ => hs.unmarked k⟩

section Drop

variable [DecidableEq μ]

/-- `delete_handle_wo` deletes the `hinfo` of `m`, with its `rpcc`. -/
def drop (s : HandleMgr μ) (m : μ) (hi : ℕ) : HandleMgr μ :=
  { s.setInfo hi { s.info hi with freed := true } with
    hmap := s.hmap.filter fun e => e.1 ≠ m
    deleted := (s.info hi).cl.toList ++ s.deleted }

theorem drop_self : (s.drop m hi).info hi = { s.info hi with freed := true } :=
  Function.update_self ..

theorem drop_other (hne : k ≠ hi) : (s.drop m hi).info k = s.info k := Function.update_of_ne hne ..

theorem drop_info {α : Sort*} (f : Hinfo μ → α)
    (hf : f { s.info hi with freed := true } = f (s.info hi)) (k : ℕ) :
    f ((s.drop m hi).info k) = f (s.info k) := update_info f hf k

theorem drop_cl (k : ℕ) : ((s.drop m hi).info k).cl = (s.info k).cl := drop_info Hinfo.cl rfl k

theorem drop_m (k : ℕ) : ((s.drop m hi).info k).m = (s.info k).m := drop_info Hinfo.m rfl k

theorem Table.drop (hs : s.Table) (hmem : (m, hi) ∈ s.hmap) (hheld : hi ∉ s.held) :
    (s.drop m hi).Table where
  counts k := (drop_info Hinfo.refcnt rfl k).trans (hs.counts k)
  freed_iff k := by
    show _ ↔ (((s.drop m hi).info k).m, k) ∈ s.hmap.filter _
    rw [drop_m, List.mem_filter, decide_eq_true_eq]
    rcases eq_or_ne k hi with rfl | hne
    · rw [drop_self]
      exact iff_of_false Bool.noConfusion fun h => h.2 (hs.named _ hmem)
    · rw [drop_other hne, hs.freed_iff k]
      refine (and_iff_left_of_imp fun hk heq => hne ?_).symm
      exact (Prod.mk.inj (List.inj_on_of_nodup_map hs.keys hk hmem heq)).2
  named e he := (drop_m e.2).trans (hs.named e (List.mem_of_mem_filter he))
  keys := hs.keys.sublist (List.filter_sublist.map _)
  lt e he := hs.lt e (List.mem_of_mem_filter he)
  held k hk := by
    have hne : k ≠ hi := fun heq => hheld (heq ▸ hk)
    exact (congrArg Hinfo.freed (drop_other hne)).trans (hs.held k hk)
  mutex k := (hs.mutex k).trans (congrArg _ (drop_info Hinfo.cl_mutex rfl k)).symm

theorem Clients.drop (hs : s.Clients) (hheld : hi ∉ s.held) : (s.drop m hi).Clients where
  binding x hx c hc := by
    obtain ⟨k, hk, hck, hnone, hnot⟩ := hs.binding x hx c hc
    refine ⟨k, hk, hck, (drop_cl k).trans hnone, fun hdeleted => ?_⟩
    rcases List.mem_append.1 hdeleted with hcl | hdeleted
    · obtain ⟨hck', -⟩ := hs.cl hi c (Option.mem_toList.1 hcl)
      obtain rfl := Option.some_inj.1 (hck'.symm.trans hck)
      exact hheld (mem_held hx hk)
    · exact hnot hdeleted
  cl k c hc := by
    have hkc : (s.info k).cl = some c := (drop_cl k).symm.trans hc
    obtain ⟨hck, hiff⟩ := hs.cl k c hkc
    refine ⟨hck, List.mem_append.trans ?_⟩
    rw [Option.mem_toList]
    rcases eq_or_ne k hi with rfl | hne
    · exact iff_of_true (.inl hkc) (congrArg Hinfo.freed drop_self)
    · rw [drop_other hne, ← hiff]
      refine or_iff_right fun hcl => hne ?_
      exact Option.some_inj.1 (hck.symm.trans (hs.cl hi c hcl).1)
  got x hx c hc := by
    obtain ⟨k, hk, hck⟩ := hs.got x hx c hc
    exact ⟨k, hk, (drop_cl k).trans hck⟩
  deleted c hc := by
    rcases List.mem_append.1 hc with hcl | hc
    · exact (List.getElem?_eq_some_iff.1 (hs.cl hi c (Option.mem_toList.1 hcl)).1).1
    · exact hs.deleted c hc

theorem Left.drop (hs : s.Left hi) (hmem : (m, hi) ∈ s.hmap) (hheld : hi ∉ s.held) :
    (s.drop m hi).Inv where
  table := hs.table.drop hmem hheld
  clients := hs.clients.drop hheld
  bindings := hs.bindings.set rfl rfl rfl id
  results := hs.results.set rfl rfl rfl And.intro fun _ => id
  del := (Function.forall_update_iff s.info fun _ => Hinfo.Kept).2
    ⟨fun hfreed => Bool.noConfusion hfreed, hs.del⟩
  unmarked := (Function.forall_update_iff s.info fun k h => k ∉ s.marked → h.Unbound).2
    ⟨hs.unmarked hi, fun k _ => hs.unmarked k⟩

end Drop

/-! ## How an operation ends -/

/-- How an operation ends: with all well, and never with a fault. -/
def Fine (s : HandleMgr μ) (r : Except HandleFault (HandleMgr μ)) : Prop :=
  ∃ s', r = .ok s' ∧ s'.Inv ∧ s'.fault = s.fault

theorem safebind_fine {h : Option ℕ} (hs : (s.put ⟨h, none, got⟩).Inv)
    {r : Except HandleFault (HandleMgr μ)} (hr : s.safebind ⟨h, none, got⟩ = some r) :
    s.Fine r := by
  cases h with
  | none =>
    obtain rfl := Option.some_inj.1 hr
    exact ⟨_, rfl, hs, rfl⟩
  | some hi =>
    have hfreed : (s.info hi).freed = false := hs.table.held hi List.mem_cons_self
    rw [safebind] at hr
    dsimp only at hr
    rw [use_eq hfreed] at hr
    dsimp only at hr
    split at hr
    next => cases hr
    next hmutex =>
      rw [Bool.not_eq_true] at hmutex
      split at hr
      next hdel =>
        obtain rfl := Option.some_inj.1 hr
        exact ⟨_, rfl, hs.returned hmutex (fun _ => hdel) fun c hc => (by cases hc), rfl⟩
      next hdel =>
        split at hr
        next c hcl =>
          obtain rfl := Option.some_inj.1 hr
          refine ⟨_, rfl, hs.returned hmutex (fun hnone => by cases hnone) fun c' hc' => ?_,
            rfl⟩
          exact ⟨hcl.trans hc', fun hmem => hdel (hs.results.refused hi hmem).1⟩
        next hcl =>
          obtain rfl := Option.some_inj.1 hr
          exact ⟨_, rfl, hs.begun hmutex (Bool.eq_false_iff.2 hdel) hcl, rfl⟩

theorem bound_fine (hs : (s.put ⟨some hi, some c, got⟩).Inv) (ret : ℤ) :
    s.Fine (s.bound ⟨some hi, some c, got⟩ hi c ret) := by
  obtain ⟨hfreed, hmutex, hcl, -, -, -⟩ := hs.binding
  have hself : ∀ h : Hinfo μ, (s.setInfo hi h).info hi = h := fun h => Function.update_self ..
  rw [bound, use_eq hfreed]
  simp only [bind, Except.bind]
  split
  · refine ⟨_, rfl, hs.failed.returned ?_ (fun _ => ?_) fun c' hc' => ?_, rfl⟩
    · exact congrArg Hinfo.cl_mutex (hself _)
    · exact congrArg Hinfo.del (hself _)
    · cases hcl.symm.trans hc'
  · refine ⟨_, rfl, hs.succeeded.returned ?_ (fun hnone => by cases hnone)
      fun c' hc' => ⟨?_, fun hmem => ?_⟩, rfl⟩
    · exact congrArg Hinfo.cl_mutex (hself _)
    · exact (congrArg Hinfo.cl (hself _)).trans hc'
    · exact Bool.noConfusion (hmutex.symm.trans (hs.results.refused hi hmem).2)

/-- A handle is taken out. -/
theorem Inv.takeOut (hs : s.Inv) (hp : s.handles.Perm (handle :: handles)) :
    ({ s with handles := handles }.put handle).Inv where
  table := hs.table.same rfl rfl rfl (hp.symm.filterMap _) fun _ => hp.symm.countP_eq _
  clients := hs.clients.same (fun _ => rfl) (fun _ => rfl) rfl rfl fun _ hx =>
    .inl (hp.mem_iff.2 hx)
  bindings := hs.bindings.mono rfl (Nat.le_refl _) fun _ _ => id
  results := hs.results.mono rfl (Nat.le_refl _) (fun _ _ => And.intro) fun _ _ _ => id
  del := hs.del
  unmarked := hs.unmarked

section Find

variable [DecidableEq μ]

theorem mem_of_find (hfind : s.find m = some hi) : (m, hi) ∈ s.hmap := by
  obtain ⟨e, he, rfl⟩ := Option.map_eq_some_iff.1 hfind
  obtain rfl : e.1 = m := by simpa using List.find?_some he
  exact List.mem_of_find?_eq_some he

theorem notMem_of_find (hfind : s.find m = none) : m ∉ s.hmap.map Prod.fst := by
  intro hmem
  obtain ⟨e, he, rfl⟩ := List.mem_map.1 hmem
  have hnone := List.find?_eq_none.1 (Option.map_eq_none_iff.1 hfind) e he
  simp at hnone

theorem Table.find_of_unfreed (hs : s.Table) (hfreed : (s.info hi).freed = false) :
    s.find (s.info hi).m = some hi := by
  have hmem := (hs.freed_iff hi).1 hfreed
  cases hfind : s.find (s.info hi).m with
  | none => exact absurd (List.mem_map_of_mem (f := Prod.fst) hmem) (notMem_of_find hfind)
  | some k =>
    have heq := List.inj_on_of_nodup_map hs.keys (mem_of_find hfind) hmem rfl
    exact congrArg some (Prod.mk.inj heq).2

theorem getHandle_fine (hs : s.Inv) (m : μ) : s.Fine (s.getHandle m) := by
  rw [getHandle]
  split
  next hnone => exact ⟨_, rfl, hs.made (notMem_of_find hnone), rfl⟩
  next hi hfind =>
    have hfreed := hs.table.unfreed_of_mem (mem_of_find hfind)
    rw [use_eq hfreed]
    simp only [bind, Except.bind]
    split
    · exact ⟨_, rfl, hs.counted hfreed, rfl⟩
    · exact ⟨_, rfl, hs.null, rfl⟩

/-- Where nobody holds it, an `hinfo` is deleted. -/
theorem deleteHandleWo_zero (hs : s.Left hi) (hfind : s.find m = some hi)
    (hzero : (s.info hi).refcnt = 0) : s.Fine (s.deleteHandleWo m) := by
  have hmem := mem_of_find hfind
  have hheld : hi ∉ s.held := List.count_eq_zero.1 ((hs.table.counts hi).symm.trans hzero)
  have hmutex : (s.info hi).cl_mutex = false := by
    have hcount := hs.table.mutex hi
    rw [countP_binds hheld] at hcount
    by_contra hlocked
    rw [Bool.not_eq_false] at hlocked
    simp [hlocked] at hcount
  rw [deleteHandleWo, hfind]
  dsimp only
  rw [use_eq (hs.table.unfreed_of_mem hmem)]
  simp only [bind, Except.bind]
  rw [if_pos hzero, if_neg (Bool.eq_false_iff.1 hmutex)]
  exact ⟨_, rfl, hs.drop hmem hheld, rfl⟩

theorem deleteHandleWo_fine (hs : s.Inv) (m : μ) : s.Fine (s.deleteHandleWo m) := by
  cases hfind : s.find m with
  | none =>
    rw [deleteHandleWo, hfind]
    exact ⟨s, rfl, hs, rfl⟩
  | some hi =>
    rcases Nat.eq_zero_or_pos (s.info hi).refcnt with hzero | hpos
    · exact deleteHandleWo_zero hs.left hfind hzero
    · have hfreed := hs.table.unfreed_of_mem (mem_of_find hfind)
      rw [deleteHandleWo, hfind]
      dsimp only
      rw [use_eq hfreed]
      simp only [bind, Except.bind]
      rw [if_neg (Nat.ne_of_gt hpos)]
      exact ⟨_, rfl, hs.marked hfreed hpos, rfl⟩

/-- A handle goes out of scope. -/
theorem doneHandle_fine (hs : (s.put ⟨some hi, none, got⟩).Inv) : s.Fine (s.doneHandle hi) := by
  have hfreed : (s.info hi).freed = false := hs.table.held hi List.mem_cons_self
  have hleft := hs.uncounted
  have hself : (s.setInfo hi { s.info hi with refcnt := (s.info hi).refcnt - 1 }).info hi =
      { s.info hi with refcnt := (s.info hi).refcnt - 1 } := Function.update_self ..
  rw [doneHandle, use_eq hfreed]
  simp only [bind, Except.bind]
  split
  next hcond =>
    have hlive : ((s.setInfo hi { s.info hi with
        refcnt := (s.info hi).refcnt - 1 }).info hi).freed = false := hself.symm ▸ hfreed
    have hzero : ((s.setInfo hi { s.info hi with
        refcnt := (s.info hi).refcnt - 1 }).info hi).refcnt = 0 := hself.symm ▸ hcond.1
    have hfind := hleft.table.find_of_unfreed hlive
    rw [hself] at hfind
    exact deleteHandleWo_zero hleft hfind hzero
  next hcond =>
    refine ⟨_, rfl, hleft.inv fun _ hmarked => ?_, rfl⟩
    rw [hself] at hmarked ⊢
    exact Nat.pos_of_ne_zero fun hzero => hcond ⟨hzero, hmarked⟩

/-! ## Runs -/

variable {as : List (Step μ)} {a : Step μ}

theorem run_fine (hs : s.Inv) {r : Except HandleFault (HandleMgr μ)} (hr : s.run a = some r) :
    s.Fine r := by
  cases a with
  | construct m =>
    obtain rfl := Option.some_inj.1 hr
    exact getHandle_fine hs m
  | safebind j =>
    rw [run] at hr
    split at hr
    next h got handles hpick => exact safebind_fine (hs.takeOut (pick_perm hpick)) hr
    next => cases hr
  | bound j ret =>
    rw [run] at hr
    split at hr
    next hi c got handles hpick =>
      obtain rfl := Option.some_inj.1 hr
      exact bound_fine (hs.takeOut (pick_perm hpick)) ret
    next => cases hr
  | destroy j =>
    rw [run] at hr
    split at hr
    next got handles hpick =>
      obtain rfl := Option.some_inj.1 hr
      exact ⟨_, rfl, (hs.takeOut (pick_perm hpick)).dropped, rfl⟩
    next hi got handles hpick =>
      obtain rfl := Option.some_inj.1 hr
      exact doneHandle_fine (hs.takeOut (pick_perm hpick))
    next => cases hr
  | deleteHandle m =>
    obtain rfl := Option.some_inj.1 hr
    exact deleteHandleWo_fine hs m

theorem inv [Inhabited μ] (h : Run step anyStep new as s) : s.Inv ∧ s.fault = none := by
  refine h.invariant (P := fun s => s.Inv ∧ s.fault = none) ⟨.new, rfl⟩
    fun s a s' hs _ hstep => ?_
  obtain ⟨hs, hfault⟩ := hs
  rw [step, hfault] at hstep
  obtain ⟨r, hr, heq⟩ := Option.map_eq_some_iff.1 hstep
  obtain ⟨s'', rfl, hinv, hsame⟩ := run_fine hs hr
  obtain rfl : s'' = s' := heq
  exact ⟨hinv, hsame.trans hfault⟩

/-- Nobody touches an `hinfo` that has been deleted, or destroys a mutex that is locked; the count
of each is the number of the handles that hold it; and while a handle lives, none of the `rpcc` that
its `safebind` has returned is deleted. -/
theorem handles_sound [Inhabited μ] (h : Run step anyStep new as s) :
    s.fault = none ∧ (∀ hi, (s.info hi).refcnt = s.held.count hi) ∧
      ∀ handle ∈ s.handles, ∀ c ∈ handle.got, c ∉ s.deleted := by
  obtain ⟨hs, hfault⟩ := inv h
  refine ⟨hfault, hs.table.counts, fun handle hmem c hc hdeleted => ?_⟩
  obtain ⟨hi, hhi, hcl⟩ := hs.clients.got handle hmem c hc
  have hfreed := ((hs.clients.cl hi c hcl).2).1 hdeleted
  exact Bool.noConfusion (hfreed.symm.trans (hs.table.held hi (mem_held hmem hhi)))

/-- Two handles of one name, of which the second is bound already when it asks; another cannot be
bound and goes, and its `hinfo` with it; then the two are marked. -/
def sharing : List (Step ℕ) := [.construct 7, .safebind 0, .construct 7, .bound 1 0, .safebind 1,
  .construct 8, .safebind 0, .bound 0 (-1), .destroy 0, .deleteHandle 7, .safebind 0]

def shared : HandleMgr ℕ := (execute step new sharing).get (by decide +kernel)

theorem handles_sound_shared : Run step anyStep new sharing shared ∧ shared.fault = none ∧
    (shared.info 1).freed = true ∧ shared.deleted = [1] ∧
      (shared.info 0).del = true ∧ (shared.info 0).refcnt = 2 ∧ 0 ∉ shared.deleted := by
  have hrun : Run step anyStep new sharing shared := .of_execute (Option.some_get _).symm
  obtain ⟨hfault, hcounts, hgot⟩ := handles_sound hrun
  have hhandles : shared.handles = [⟨some 0, none, [0]⟩, ⟨some 0, none, [0]⟩] := by
    with_unfolding_all rfl
  have hmem : ⟨some 0, none, [0]⟩ ∈ shared.handles := hhandles ▸ List.mem_cons_self
  refine ⟨hrun, hfault, by decide +kernel, by decide +kernel, by decide +kernel,
    (hcounts 0).trans ?_, hgot _ hmem 0 List.mem_cons_self⟩
  rw [held, hhandles]
  rfl

/-- Those who hold handles of one name share the `hinfo`, unless theirs is null; for one `hinfo` one
`rpcc` is made at most; of one `hinfo` all the `rpcc` that `safebind` returns are the same, and
after null it returns null; and where `delete_handle` has not marked the `hinfo`, it returns what
it returned first. -/
theorem safebind_agrees [Inhabited μ] (h : Run step anyStep new as s) :
    (∀ hi ∈ s.held, ∀ hi' ∈ s.held, (s.info hi).m = (s.info hi').m → hi = hi') ∧
      (∀ hi, s.rpccs.count hi ≤ 1) ∧ s.results.Pairwise Before ∧
      ∀ r ∈ s.results, ∀ r' ∈ s.results, r.1 = r'.1 → r.1 ∉ s.marked → r.2 = r'.2 := by
  have hs := (inv h).1
  refine ⟨fun hi hhi hi' hhi' heq => ?_, List.nodup_iff_count_le_one.1 hs.bindings.once,
    hs.results.order, ?_⟩
  · have hmem := (hs.table.freed_iff hi).1 (hs.table.held hi hhi)
    have hmem' := (hs.table.freed_iff hi').1 (hs.table.held hi' hhi')
    exact (Prod.mk.inj (List.inj_on_of_nodup_map hs.table.keys hmem hmem' heq)).2
  · rintro ⟨hi, cl⟩ hr ⟨hi', cl'⟩ hr' (rfl : hi = hi') hnot
    have hnull : ∀ c, (hi, some c) ∈ s.results → (hi, none) ∉ s.results := by
      intro c hc hnone
      have hcl := (hs.unmarked hi hnot (hs.results.refused hi hnone).1).1
      cases hcl.symm.trans (hs.results.given hi c hc)
    cases cl with
    | none =>
      cases cl' with
      | none => rfl
      | some c' => exact absurd hr (hnull c' hr')
    | some c =>
      cases cl' with
      | none => exact absurd hr' (hnull c hr)
      | some c' => exact (hs.results.given hi c hr).symm.trans (hs.results.given hi c' hr')

theorem safebind_agrees_shared : Run step anyStep new sharing shared ∧
    shared.results = [(0, some 0), (0, some 0), (1, none), (0, none)] ∧
      shared.results.Pairwise Before ∧ shared.rpccs.count 0 ≤ 1 := by
  have hrun : Run step anyStep new sharing shared := .of_execute (Option.some_get _).symm
  obtain ⟨-, honce, horder, -⟩ := safebind_agrees hrun
  exact ⟨hrun, by decide +kernel, horder, honce 0⟩

/-- A handle is null exactly where another handle of the name still holds an `hinfo` that is
marked. -/
theorem constructs_null_iff [Inhabited μ] (h : Run step anyStep new as s)
    (hstep : s.step (.construct m) = some s') :
    s'.handles = ⟨none, none, []⟩ :: s.handles ↔
      ∃ hi ∈ s.held, (s.info hi).m = m ∧ (s.info hi).del = true := by
  obtain ⟨hs, hfault⟩ := inv h
  have hlive : ∀ hi ∈ s.held, (s.info hi).m = m → s.find m = some hi := fun hi hhi heq =>
    heq ▸ hs.table.find_of_unfreed (hs.table.held hi hhi)
  rw [step, hfault] at hstep
  obtain ⟨r, hr, heq⟩ := Option.map_eq_some_iff.1 hstep
  obtain rfl : s.getHandle m = r := Option.some_inj.1 hr
  rw [getHandle] at heq
  cases hfind : s.find m with
  | none =>
    rw [hfind] at heq
    obtain rfl := heq
    have hne : ∀ k, Handle.mk (some k) none [] ≠ ⟨none, none, []⟩ := by simp
    refine iff_of_false (fun hnull => hne s.next (List.cons.inj hnull).1) ?_
    rintro ⟨hi, hhi, hm, -⟩
    cases hfind.symm.trans (hlive hi hhi hm)
  | some hi =>
    have hmem := mem_of_find hfind
    have hfreed := hs.table.unfreed_of_mem hmem
    rw [hfind] at heq
    dsimp only at heq
    rw [use_eq hfreed] at heq
    simp only [bind, Except.bind] at heq
    cases hdel : (s.info hi).del with
    | false =>
      rw [if_pos hdel] at heq
      obtain rfl := heq
      have hne : ∀ k, Handle.mk (some k) none [] ≠ ⟨none, none, []⟩ := by simp
      refine iff_of_false (fun hnull => hne hi (List.cons.inj hnull).1) ?_
      rintro ⟨hi', hhi', hm, hmarked⟩
      obtain rfl := Option.some_inj.1 (hfind.symm.trans (hlive hi' hhi' hm))
      exact Bool.noConfusion (hdel.symm.trans hmarked)
    | true =>
      rw [if_neg (Bool.not_eq_false _ ▸ hdel)] at heq
      obtain rfl := heq
      refine iff_of_true rfl ⟨hi, ?_, hs.table.named _ hmem, hdel⟩
      exact List.count_pos_iff.1 (Nat.lt_of_lt_of_eq (hs.del hi hfreed hdel) (hs.table.counts hi))

/-- A binding has failed, and its handle is still there. -/
def refusing : HandleMgr ℕ :=
  (execute step new [.construct 7, .safebind 0, .bound 0 (-1)]).get (by decide +kernel)

theorem constructs_null_iff_refusing : ∃ s', refusing.step (.construct 7) = some s' ∧
    s'.handles = ⟨none, none, []⟩ :: refusing.handles := by
  have hrun : Run step anyStep new _ refusing := .of_execute (Option.some_get _).symm
  have hstep : (refusing.step (.construct 7)).isSome := by decide +kernel
  have hheld : 0 ∈ refusing.held := by decide +kernel
  have hm : (refusing.info 0).m = 7 := by decide +kernel
  have hdel : (refusing.info 0).del = true := by decide +kernel
  have hstep := (Option.some_get hstep).symm
  exact ⟨_, hstep, (constructs_null_iff hrun hstep).2 ⟨0, hheld, hm, hdel⟩⟩

end Find

end HandleMgr

end Rpc
end CseLab
