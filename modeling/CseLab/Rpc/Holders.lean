import CseLab.Lib.Refcount
import CseLab.Rpc.Dispatch

/-!
# Who holds a connection

The count of a connection says how many hold it: the listener with its table, the clients whose
latest connection it is, the requests that came in on it, and those that `dispatch` has answered
for an old server, which are never given up (`Inv.counts`).  Until it is deleted the listener holds
it, so that nobody touches one that has been deleted (`no_use_after_free`), and a connection on
which a request for an old server has come is not deleted at all (`oldsrv_keeps`).
-/

set_option autoImplicit false

namespace CseLab
namespace Rpc

variable {β : Type}

namespace Server

/-- What the listener holds. -/
def listener (s : Server β) : List ℕ := s.accepting.pending ++ s.listed

/-- What the others hold. -/
def refs (s : Server β) : List ℕ := s.conns.map Prod.snd ++ s.jobs.map Job.conn ++ s.leaked

def refnos (s : Server β) (c : ℕ) : ℕ := (s.conn c).refno

/-- One reference more. -/
def up (s : Server β) (c : ℕ) : Server β :=
  s.setConn c { s.conn c with refno := (s.conn c).refno + 1 }

/-- One reference less. -/
def down (s : Server β) (c : ℕ) : Server β :=
  s.setConn c { s.conn c with
    refno := (s.conn c).refno - 1
    freed := (s.conn c).refno - 1 = 0 && (s.conn c).dead }

/-- The connections differ in their counts only. -/
structure Alike (conn conn' : ℕ → Connection) : Prop where
  fd : ∀ d, (conn' d).fd = (conn d).fd
  dead : ∀ d, (conn' d).dead = (conn d).dead
  freed : ∀ d, (conn' d).freed = (conn d).freed
  create_time : ∀ d, (conn' d).create_time = (conn d).create_time

variable {s s' : Server β} {c d j : ℕ} {job : Job β} {jobs : List (Job β)} {h : Request}

theorem use_eq (hc : (s.conn c).freed = false) : s.use c = .ok (s.conn c) := by
  rw [use, hc]
  rfl

theorem incref_eq (hc : (s.conn c).freed = false) : s.incref c = .ok (s.up c) := by
  rw [incref, use_eq hc]
  rfl

theorem decref_eq (hc : (s.conn c).freed = false) (hpos : 0 < s.refnos c) :
    s.decref c = .ok (s.down c) := by
  have hne : (s.conn c).refno ≠ 0 := Nat.ne_of_gt hpos
  rw [decref, use_eq hc]
  simp only [bind, Except.bind, if_neg hne]
  rfl

theorem refnos_up (s : Server β) (c : ℕ) :
    (s.up c).refnos = Function.update s.refnos c (s.refnos c + 1) := by
  funext d
  rcases eq_or_ne d c with rfl | hne
  · simp [refnos, up, setConn]
  · simp [refnos, up, setConn, hne]

theorem refnos_down (s : Server β) (c : ℕ) :
    (s.down c).refnos = Function.update s.refnos c (s.refnos c - 1) := by
  funext d
  rcases eq_or_ne d c with rfl | hne
  · simp [refnos, down, setConn]
  · simp [refnos, down, setConn, hne]

theorem Alike.trans {f g k : ℕ → Connection} (h : Alike f g) (h' : Alike g k) : Alike f k where
  fd d := (h'.fd d).trans (h.fd d)
  dead d := (h'.dead d).trans (h.dead d)
  freed d := (h'.freed d).trans (h.freed d)
  create_time d := (h'.create_time d).trans (h.create_time d)

theorem alike_setConn {conn : Connection} (hfd : conn.fd = (s.conn c).fd)
    (hdead : conn.dead = (s.conn c).dead) (hfreed : conn.freed = (s.conn c).freed)
    (htime : conn.create_time = (s.conn c).create_time) :
    Alike s.conn (s.setConn c conn).conn := by
  refine ⟨fun d => ?_, fun d => ?_, fun d => ?_, fun d => ?_⟩ <;>
  · rcases eq_or_ne d c with rfl | hne
    · simpa [setConn]
    · simp [setConn, hne]

theorem alike_up (s : Server β) (c : ℕ) : Alike s.conn (s.up c).conn :=
  alike_setConn rfl rfl rfl rfl

/-- A connection is not deleted while somebody else holds it. -/
theorem alike_down (hc : (s.conn c).freed = false) (hmore : 1 < s.refnos c) :
    Alike s.conn (s.down c).conn := by
  refine alike_setConn rfl rfl ?_ rfl
  have hne : (s.conn c).refno - 1 ≠ 0 := Nat.ne_of_gt (Nat.sub_pos_of_lt hmore)
  rw [hc, decide_eq_false hne, Bool.false_and]

/-! ## What is kept -/

structure Inv (s : Server β) : Prop where
  counts : Counts s.refnos (s.listener ++ s.refs)
  freed_iff : ∀ c, (s.conn c).freed = false ↔ c ∈ s.listener
  freed_dead : ∀ c, (s.conn c).freed = true → (s.conn c).dead = true
  refs : ∀ c ∈ s.refs, c ∈ s.listener
  nodup : s.listener.Nodup
  /-- The keys of the table are different. -/
  fds : ∀ c ∈ s.listener, ∀ d ∈ s.listener, (s.conn c).fd = (s.conn d).fd → c = d
  lt : ∀ c ∈ s.listener, c < s.next
  rest : s.accepting.rest.Nodup ∧ ∀ c ∈ s.accepting.rest, c ∈ s.listed
  /-- What has been found dead with one reference is held by the table alone. -/
  condemned : ∀ ch c cs, s.accepting = .condemned ch c cs → (s.conn c).dead = true ∧ c ∉ s.refs

theorem Inv.new (nonce : ℕ) (procs : ℤ → Bool) : (new nonce procs : Server β).Inv where
  counts _ := rfl
  freed_iff c := iff_of_false (fun h => by cases h) List.not_mem_nil
  freed_dead _ _ := rfl
  refs _ hc := absurd hc List.not_mem_nil
  nodup := List.nodup_nil
  fds _ hc := absurd hc List.not_mem_nil
  lt _ hc := absurd hc List.not_mem_nil
  rest := ⟨List.nodup_nil, fun _ hc => absurd hc List.not_mem_nil⟩
  condemned _ _ _ heq := by cases heq

/-- Who is held by somebody else is held twice. -/
theorem Inv.two (hs : s.Inv) (hc : c ∈ s.refs) : 1 < s.refnos c := by
  rw [hs.counts c, List.count_append]
  have hlistener := List.count_pos_iff.2 (hs.refs c hc)
  have hrefs := List.count_pos_iff.2 hc
  omega

theorem Inv.unfreed (hs : s.Inv) (hc : c ∈ s.refs) : (s.conn c).freed = false :=
  (hs.freed_iff c).2 (hs.refs c hc)

/-- Others take and give up references to what is held already, or to what lives. -/
theorem Inv.move (hs : s.Inv) (hlisted : s'.listed = s.listed)
    (haccepting : s'.accepting = s.accepting) (hnext : s'.next = s.next)
    (halike : Alike s.conn s'.conn)
    (hrefs : ∀ c ∈ s'.refs, c ∈ s.refs ∨ (s.conn c).dead = false)
    (hcounts : Counts s'.refnos (s.listener ++ s'.refs)) : s'.Inv := by
  have hlistener : s'.listener = s.listener := by rw [listener, listener, hlisted, haccepting]
  refine ⟨hlistener ▸ hcounts, fun c => ?_, fun c => ?_, fun c hc => ?_, hlistener ▸ hs.nodup,
    fun c hc d hd => ?_, fun c hc => ?_, ?_, fun ch c cs heq => ?_⟩
  · rw [hlistener, halike.freed, hs.freed_iff]
  · rw [halike.freed, halike.dead]
    exact hs.freed_dead c
  · rw [hlistener]
    rcases hrefs c hc with hc | hlive
    · exact hs.refs c hc
    · exact (hs.freed_iff c).1 (Bool.eq_false_iff.2 fun hfreed =>
        Bool.false_ne_true (hlive.symm.trans (hs.freed_dead c hfreed)))
  · rw [halike.fd, halike.fd]
    exact hs.fds c (hlistener ▸ hc) d (hlistener ▸ hd)
  · rw [hnext]
    exact hs.lt c (hlistener ▸ hc)
  · rw [haccepting, hlisted]
    exact hs.rest
  · obtain ⟨hdead, hnot⟩ := hs.condemned ch c cs (haccepting ▸ heq)
    refine ⟨(halike.dead c).trans hdead, fun hc => ?_⟩
    rcases hrefs c hc with hc | hlive
    · exact hnot hc
    · exact Bool.false_ne_true (hlive.symm.trans hdead)

theorem Inv.same (hs : s.Inv) (hlisted : s'.listed = s.listed)
    (haccepting : s'.accepting = s.accepting) (hnext : s'.next = s.next) (hconn : s'.conn = s.conn)
    (hrefs : s'.refs.Perm s.refs) : s'.Inv := by
  have hrefnos : s'.refnos = s.refnos := by
    funext c
    rw [refnos, refnos, hconn]
  refine hs.move hlisted haccepting hnext ⟨?_, ?_, ?_, ?_⟩ (fun c hc => .inl (hrefs.mem_iff.1 hc))
    (hrefnos ▸ hs.counts.perm (hrefs.append_left _))
  all_goals
    intro d
    rw [hconn]

/-! ## The pieces of `dispatch` -/

/-- A request has been taken out whose connection is `c`: with its reference put back all is
well. -/
def Owes (s : Server β) (c : ℕ) : Prop := (s.goto (.leaving c)).Inv

theorem Inv.owes (hs : s.Inv) (hp : s.jobs.Perm (job :: jobs)) :
    ({ s with jobs := jobs }).Owes job.conn := by
  refine hs.same rfl rfl rfl rfl ?_
  have hjobs : (job.conn :: jobs.map Job.conn).Perm (s.jobs.map Job.conn) := (hp.map Job.conn).symm
  exact (hjobs.append_left _).append_right _

theorem Owes.inv (hs : s.Owes c) : (s.goto (.leaving c)).Inv := hs

theorem refs_goto (s : Server β) (job : Job β) : (s.goto job).refs.Perm (job.conn :: s.refs) := by
  show (s.conns.map Prod.snd ++ job.conn :: s.jobs.map Job.conn ++ s.leaked).Perm _
  rw [List.append_assoc, List.cons_append]
  refine List.perm_middle.trans (.cons job.conn ?_)
  rw [refs, List.append_assoc]

theorem mem_goto : d ∈ (s.goto job).refs ↔ d = job.conn ∨ d ∈ s.refs :=
  (s.refs_goto job).mem_iff.trans List.mem_cons

/-- The request goes on with its reference. -/
theorem Owes.goto (hs : s.Owes c) (hjob : job.conn = c) : (s.goto job).Inv := by
  refine hs.inv.same rfl rfl rfl rfl ((s.refs_goto job).trans ?_)
  rw [hjob]
  exact (s.refs_goto (.leaving c)).symm

theorem Owes.unfreed (hs : s.Owes c) (hd : d = c ∨ d ∈ s.refs) : (s.conn d).freed = false :=
  hs.inv.unfreed (mem_goto.2 hd)

theorem Owes.two (hs : s.Owes c) (hd : d = c ∨ d ∈ s.refs) : 1 < s.refnos d :=
  hs.inv.two (mem_goto.2 hd)

theorem Owes.counts (hs : s.Owes c) : Counts s.refnos (c :: (s.listener ++ s.refs)) := by
  have hcounts := hs.inv.counts.perm ((s.refs_goto (.leaving c)).symm.append_left _)
  exact hcounts.perm List.perm_middle.symm

/-- The reference is given up. -/
theorem Owes.down (hs : s.Owes c) : s.decref c = .ok (s.down c) ∧ Alike s.conn (s.down c).conn ∧
    Counts (s.down c).refnos (s.listener ++ s.refs) := by
  have htwo := hs.two (.inl rfl)
  have hunfreed := hs.unfreed (.inl rfl)
  refine ⟨decref_eq hunfreed (Nat.lt_trans Nat.one_pos htwo), alike_down hunfreed htwo, ?_⟩
  rw [refnos_down]
  exact hs.counts.decref

theorem Owes.leave (hs : s.Owes c) : (s.down c).Inv :=
  hs.inv.move rfl rfl rfl hs.down.2.1 (fun _ hd => .inl (mem_goto.2 (.inr hd))) hs.down.2.2

theorem perm_of_find? {α : Type} {p : α → Bool} {l : List α} {a : α} (h : l.find? p = some a) :
    l.Perm (a :: l.eraseP p) := by
  induction l with
  | nil => cases h
  | cons b l ih =>
    rw [List.find?_cons] at h
    rw [List.eraseP_cons]
    split at h
    next hb =>
      obtain rfl := Option.some_inj.1 h
      rw [hb]
      exact .refl _
    next hb =>
      rw [hb]
      exact ((ih h).cons b).trans (.swap a b _)

theorem eraseP_of_find? {α : Type} {p : α → Bool} {l : List α} (h : l.find? p = none) :
    l.eraseP p = l :=
  List.eraseP_of_forall_not fun a ha hp => List.find?_eq_none.1 h a ha hp

/-- A client's connection is one of those that are held. -/
theorem conns_perm {n : ℕ} (h : s.latest n = some c) :
    (s.conns.map Prod.snd).Perm (c :: (s.conns.eraseP fun e => e.1 = n).map Prod.snd) := by
  obtain ⟨e, he, rfl⟩ := Option.map_eq_some_iff.1 h
  exact (perm_of_find? he).map Prod.snd

theorem latest_mem {n : ℕ} (h : s.latest n = some c) : c ∈ s.refs := by
  have hmem := (conns_perm h).mem_iff.2 List.mem_cons_self
  exact List.mem_append_left _ (List.mem_append_left _ hmem)

/-- How a piece ends: with all well, or with a fault that is not a connection's. -/
def Fine (s : Server β) : Except ServerFault (Server β) → Prop
  | .ok s' => s'.Inv ∧ s'.fault = s.fault
  | .error f => f ≠ .freed ∧ f ≠ .negative

theorem begin_fine (hs : s.Owes c) (req : Option Request) : s.Fine (s.begin c req) := by
  cases req with
  | none => exact ⟨hs, rfl⟩
  | some h =>
    rw [begin]
    split
    · rw [use_eq (hs.unfreed (.inl rfl))]
      refine ⟨hs.inv.same rfl rfl rfl rfl ?_, rfl⟩
      exact List.perm_middle.trans (s.refs_goto (.leaving c)).symm
    · split
      · exact ⟨by decide, by decide⟩
      · split
        · exact ⟨hs.goto rfl, rfl⟩
        · exact ⟨hs.goto rfl, rfl⟩

/-- A client gets its first connection. -/
theorem Inv.firstLatest {n : ℕ} (hs : s.Inv) (hc : c ∈ s.refs) (hnone : s.latest n = none) :
    s.incref c = .ok (s.up c) ∧ ((s.up c).setLatest n c).Inv := by
  have hconns : (s.up c).conns.eraseP (fun e => e.1 = n) = s.conns :=
    eraseP_of_find? (Option.map_eq_none_iff.1 hnone)
  have hrefs : ((s.up c).setLatest n c).refs = c :: s.refs := by
    rw [setLatest, hconns]
    rfl
  refine ⟨incref_eq (hs.unfreed hc), hs.move rfl rfl rfl (s.alike_up c) (fun d hd => ?_) ?_⟩
  · rw [hrefs] at hd
    rcases List.mem_cons.1 hd with rfl | hd
    · exact .inl hc
    · exact .inl hd
  · rw [hrefs]
    refine Counts.perm ?_ List.perm_middle
    exact refnos_up s c ▸ hs.counts.incref c

/-- A client's connection is replaced by a newer one. -/
theorem Inv.nextLatest {n old : ℕ} (hs : s.Inv) (hc : c ∈ s.refs) (hold : s.latest n = some old) :
    s.decref old = .ok (s.down old) ∧ (s.down old).incref c = .ok ((s.down old).up c) ∧
      (((s.down old).up c).setLatest n c).Inv := by
  have htwo := hs.two (latest_mem hold)
  have hunfreed := hs.unfreed (latest_mem hold)
  have hdown := alike_down hunfreed htwo
  have hup := (s.down old).alike_up c
  -- what is held apart from the old connection
  have hrefs : s.refs.Perm (old :: ((s.conns.eraseP fun e => e.1 = n).map Prod.snd ++
      s.jobs.map Job.conn ++ s.leaked)) :=
    ((conns_perm hold).append_right _).append_right _
  refine ⟨decref_eq hunfreed (Nat.lt_trans Nat.one_pos htwo),
    incref_eq ((hdown.freed c).trans (hs.unfreed hc)),
    hs.move rfl rfl rfl (hdown.trans hup) (fun d hd => .inl ?_) ?_⟩
  · rcases List.mem_cons.1 hd with rfl | hd
    · exact hc
    · exact hrefs.mem_iff.2 (List.mem_cons_of_mem _ hd)
  · have hcounts : Counts s.refnos (old :: (s.listener ++ _)) :=
      hs.counts.perm (List.perm_middle.symm.trans (hrefs.symm.append_left _))
    have hcounts := (refnos_down s old ▸ hcounts.decref).incref c
    refine Counts.perm ?_ List.perm_middle
    exact refnos_up (s.down old) c ▸ hcounts

/-- The latest good connection is saved. -/
theorem save_fine (hs : s.Owes c) (h : Request) : s.Fine (s.save c h) := by
  have hgoto : (({ s with saved := s.saved ++ [(h.clt_nonce, c)] } : Server β).goto
      (.checking c h)).Inv := by
    have hgoto : (s.goto (.checking c h)).Inv := hs.goto rfl
    exact hgoto.same rfl rfl rfl rfl (.refl _)
  have hmem : c ∈ (({ s with saved := s.saved ++ [(h.clt_nonce, c)] } : Server β).goto
      (.checking c h)).refs := mem_goto.2 (.inl rfl)
  rw [save]
  split
  next hnone =>
    obtain ⟨heq, hinv⟩ := hgoto.firstLatest hmem hnone
    rw [heq]
    exact ⟨hinv, rfl⟩
  next old hold =>
    obtain ⟨hdec, hinc, hinv⟩ := hgoto.nextLatest hmem hold
    rw [use_eq (hgoto.unfreed (latest_mem hold)), use_eq (hgoto.unfreed hmem)]
    simp only [bind, Except.bind]
    split
    · rw [hdec]
      dsimp only
      rw [hinc]
      exact ⟨hinv, rfl⟩
    · exact ⟨hgoto, rfl⟩

/-- The latest connection to the client is looked for. -/
theorem reroute_fine (hs : s.Owes c) (h : Request) (b : β) (sz : ℤ) :
    s.Fine (s.reroute c h b sz) := by
  have hunfreed := hs.unfreed (.inl rfl)
  rw [reroute, use_eq hunfreed]
  simp only [bind, Except.bind]
  split
  · obtain ⟨hdec, halike, hcounts⟩ := hs.down
    rw [hdec]
    dsimp only
    split
    next hnone => exact ⟨by decide, by decide⟩
    next c' hlatest =>
      have hmem : c' ∈ s.refs := latest_mem hlatest
      rw [incref_eq ((halike.freed c').trans (hs.unfreed (.inr hmem)))]
      refine ⟨hs.inv.move rfl rfl rfl (halike.trans ((s.down c).alike_up c'))
        (fun d hd => .inl (mem_goto.2 (.inr ?_))) ?_, rfl⟩
      · rcases mem_goto.1 hd with rfl | hd
        · exact hmem
        · exact hd
      · refine Counts.perm ?_ ((refs_goto _ _).append_left _)
        refine Counts.perm ?_ List.perm_middle
        exact refnos_up (s.down c) c' ▸ hcounts.incref c'
  · exact ⟨hs.goto rfl, rfl⟩

@[simp] theorem conn_answered (c : ℕ) (h : Request) (stat : RpcState β) :
    (answered c h stat).conn = c := by
  cases stat <;> rfl

/-- Every piece of `dispatch` is fine. -/
theorem advance_fine (hs : s.Owes job.conn) : s.Fine (s.advance job) := by
  cases job with
  | queued c req => exact begin_fine hs req
  | saving c h => exact save_fine hs h
  | checking c h =>
    have hgoto : ∀ stat, (s.goto (answered c h stat)).Inv := fun stat =>
      hs.goto (conn_answered c h stat)
    exact ⟨(hgoto _).same rfl rfl rfl rfl (.refl _), rfl⟩
  | handling c h => exact ⟨hs.goto rfl, rfl⟩
  | recording c h b sz =>
    have hgoto : (s.goto (.rerouting c h b sz)).Inv := hs.goto rfl
    exact ⟨hgoto.same rfl rfl rfl rfl (.refl _), rfl⟩
  | rerouting c h b sz => exact reroute_fine hs h b sz
  | sending c h answer =>
    have hs : s.Owes c := hs
    rw [advance, use_eq (hs.unfreed (.inl rfl))]
    exact ⟨hs.inv.same rfl rfl rfl rfl (.refl _), rfl⟩
  | leaving c =>
    have hs : s.Owes c := hs
    rw [advance, hs.down.1]
    exact ⟨hs.leave, rfl⟩

theorem handled_fine (hs : s.Owes c) (h : Request) (ret : ℤ) (b : β) (sz : ℤ) :
    s.Fine (s.handled c h ret b sz) := by
  rw [handled]
  split
  · exact ⟨by decide, by decide⟩
  · split
    · have hgoto : (s.goto (.recording c h b sz)).Inv := hs.goto rfl
      exact ⟨hgoto.same rfl rfl rfl rfl (.refl _), rfl⟩
    · have hgoto : (s.goto (.rerouting c h b sz)).Inv := hs.goto rfl
      exact ⟨hgoto.same rfl rfl rfl rfl (.refl _), rfl⟩

/-! ## The accepting thread and the poll thread -/

theorem gotPdu_fine (hs : s.Inv) (hlive : (s.conn c).dead = false) (req : Option Request)
    (succ : Bool) : s.Fine (s.gotPdu c req succ) := by
  have hunfreed : (s.conn c).freed = false := Bool.eq_false_iff.2 fun hfreed =>
    Bool.false_ne_true (hlive.symm.trans (hs.freed_dead c hfreed))
  have howes : (s.up c).Owes c := by
    refine hs.move rfl rfl rfl (s.alike_up c) (fun d hd => ?_) ?_
    · rcases mem_goto.1 hd with rfl | hd
      · exact .inr hlive
      · exact .inl hd
    · refine Counts.perm ?_ ((refs_goto (s.up c) _).append_left _)
      refine Counts.perm ?_ List.perm_middle
      exact refnos_up s c ▸ hs.counts.incref c
  rw [gotPdu, incref_eq hunfreed]
  simp only [bind, Except.bind]
  split
  · exact ⟨howes.goto rfl, rfl⟩
  · rw [howes.down.1]
    exact ⟨howes.leave, rfl⟩

/-- A connection dies. -/
theorem Inv.die (hs : s.Inv) (c : ℕ) : (s.setConn c { s.conn c with dead := true }).Inv := by
  have hother : ∀ {α : Type} (f : Connection → α), f { s.conn c with dead := true } = f (s.conn c) →
      ∀ d, f ((s.setConn c { s.conn c with dead := true }).conn d) = f (s.conn d) := by
    intro α f hf d
    rcases eq_or_ne d c with rfl | hne
    · simpa [setConn] using hf
    · simp [setConn, hne]
  have hdead : ∀ d, (s.conn d).dead = true →
      ((s.setConn c { s.conn c with dead := true }).conn d).dead = true := by
    intro d hd
    rcases eq_or_ne d c with rfl | hne
    · simp [setConn]
    · simpa [setConn, hne] using hd
  have hrefnos : (s.setConn c { s.conn c with dead := true }).refnos = s.refnos :=
    funext (hother Connection.refno rfl)
  have hfreed := hother Connection.freed rfl
  have hfd := hother Connection.fd rfl
  exact
    { hs with
      counts := hrefnos ▸ hs.counts
      freed_iff := fun d => by rw [hfreed]; exact hs.freed_iff d
      freed_dead := fun d hd => hdead d (hs.freed_dead d ((hfreed d).symm.trans hd))
      fds := fun d hd e he heq => hs.fds d hd e he (by rwa [hfd, hfd] at heq)
      condemned := fun ch d cs heq =>
        have ⟨hd, hnot⟩ := hs.condemned ch d cs heq
        ⟨hdead d hd, hnot⟩ }

/-- A new connection is held by the accepting thread. -/
theorem Inv.accept (hs : s.Inv) (hno : s.accepting = .no) {fd : ℕ}
    (hfd : ∀ c < s.next, (s.conn c).freed = false → (s.conn c).fd ≠ fd) (time : ℤ × ℤ) :
    ({ s with
      conn := Function.update s.conn s.next ⟨fd, 1, false, false, time⟩
      next := s.next + 1
      accepting := .scanning s.next s.listed } : Server β).Inv := by
  have hlistener : s.listener = s.listed := by rw [listener, hno]; rfl
  have hlt : ∀ c ∈ s.listed, c < s.next := fun c hc => hs.lt c (hlistener ▸ hc)
  have hnew : s.next ∉ s.listed := fun hmem => Nat.lt_irrefl _ (hlt _ hmem)
  have hrefs : ∀ c ∈ s.refs, c ∈ s.listed := fun c hc => hlistener ▸ hs.refs c hc
  have hfreed : ∀ c, (s.conn c).freed = false ↔ c ∈ s.listed := fun c =>
    (hs.freed_iff c).trans (by rw [hlistener])
  have hself : Function.update s.conn s.next ⟨fd, 1, false, false, time⟩ s.next =
      ⟨fd, 1, false, false, time⟩ := Function.update_self ..
  have hother : ∀ c, c ≠ s.next →
      Function.update s.conn s.next ⟨fd, 1, false, false, time⟩ c = s.conn c :=
    fun c hc => Function.update_of_ne hc ..
  have hapart : ∀ c ∈ s.listed, c ≠ s.next := fun c hc => Nat.ne_of_lt (hlt c hc)
  refine ⟨fun c => ?_, fun c => ?_, fun c hc => ?_, fun c hc => ?_, ?_, fun c hc d hd heq => ?_,
    fun c hc => ?_, ?_, fun ch c cs heq => by cases heq⟩
  · show (Function.update s.conn s.next _ c).refno = (s.next :: (s.listed ++ s.refs)).count c
    rcases eq_or_ne c s.next with rfl | hne
    · have hnot : s.next ∉ s.listed ++ s.refs := fun hmem =>
        hnew ((List.mem_append.1 hmem).elim id (hrefs _))
      rw [hself, List.count_cons_self, List.count_eq_zero_of_not_mem hnot]
    · rw [hother c hne, List.count_cons_of_ne hne.symm, ← hlistener]
      exact hs.counts c
  · show (Function.update s.conn s.next _ c).freed = false ↔ c ∈ s.next :: s.listed
    rcases eq_or_ne c s.next with rfl | hne
    · rw [hself]
      exact iff_of_true rfl List.mem_cons_self
    · rw [hother c hne, List.mem_cons, or_iff_right hne]
      exact hfreed c
  · change (Function.update s.conn s.next _ c).freed = true at hc
    show (Function.update s.conn s.next _ c).dead = true
    rcases eq_or_ne c s.next with rfl | hne
    · rw [hself] at hc
      cases hc
    · rw [hother c hne] at hc ⊢
      exact hs.freed_dead c hc
  · exact List.mem_cons_of_mem _ (hrefs c hc)
  · exact List.nodup_cons.2 ⟨hnew, hlistener ▸ hs.nodup⟩
  · change (Function.update s.conn s.next _ c).fd = (Function.update s.conn s.next _ d).fd at heq
    rcases List.mem_cons.1 hc with rfl | hc <;> rcases List.mem_cons.1 hd with rfl | hd
    · rfl
    · rw [hself, hother d (hapart d hd)] at heq
      exact absurd heq.symm (hfd d (hlt d hd) ((hfreed d).2 hd))
    · rw [hself, hother c (hapart c hc)] at heq
      exact absurd heq (hfd c (hlt c hc) ((hfreed c).2 hc))
    · rw [hother c (hapart c hc), hother d (hapart d hd)] at heq
      exact hs.fds c (hlistener ▸ hc) d (hlistener ▸ hd) heq
  · rcases List.mem_cons.1 hc with rfl | hc
    · exact Nat.lt_succ_self _
    · exact Nat.lt_succ_of_lt (hlt c hc)
  · exact ⟨hlistener ▸ hs.nodup, fun _ => id⟩

/-- The listener holds what it held. -/
theorem Inv.rearrange (hs : s.Inv) (hconn : s'.conn = s.conn) (hnext : s'.next = s.next)
    (hlistener : s'.listener = s.listener) (hrefs : s'.refs = s.refs)
    (hrest : s'.accepting.rest.Nodup ∧ ∀ c ∈ s'.accepting.rest, c ∈ s'.listed)
    (hcondemned : ∀ ch c cs, s'.accepting = .condemned ch c cs →
      (s.conn c).dead = true ∧ c ∉ s.refs) : s'.Inv := by
  have hrefnos : s'.refnos = s.refnos := by
    funext c
    rw [refnos, refnos, hconn]
  refine ⟨?_, ?_, ?_, ?_, ?_, ?_, ?_, hrest, ?_⟩
  · rw [hrefnos, hlistener, hrefs]
    exact hs.counts
  · rw [hconn, hlistener]
    exact hs.freed_iff
  · rw [hconn]
    exact hs.freed_dead
  · rw [hrefs, hlistener]
    exact hs.refs
  · rw [hlistener]
    exact hs.nodup
  · rw [hconn, hlistener]
    exact hs.fds
  · rw [hlistener, hnext]
    exact hs.lt
  · rw [hconn, hrefs]
    exact hcondemned

/-- The loop looks at one connection, or it is over and the new one goes into the table. -/
theorem examine_fine (hs : s.Inv) {ch : ℕ} {cs : List ℕ}
    (haccepting : s.accepting = .scanning ch cs) : s.Fine (s.examine ch cs) := by
  have hlistener : s.listener = ch :: s.listed := by rw [listener, haccepting]; rfl
  obtain ⟨hnodup, hlisted⟩ := hs.rest
  rw [haccepting] at hnodup hlisted
  cases cs with
  | nil =>
    have hmem : ch ∈ s.listener := hlistener ▸ List.mem_cons_self
    have hfilter : (s.listed.filter fun c => (s.conn c).fd ≠ (s.conn ch).fd) = s.listed := by
      refine List.filter_eq_self.2 fun c hc => decide_eq_true fun heq => ?_
      have hc' : c ∈ s.listener := hlistener ▸ List.mem_cons_of_mem _ hc
      obtain rfl := hs.fds c hc' ch hmem heq
      exact (List.nodup_cons.1 (hlistener ▸ hs.nodup)).1 hc
    rw [examine, use_eq ((hs.freed_iff ch).2 hmem)]
    simp only [bind, Except.bind]
    rw [hfilter]
    exact ⟨hs.rearrange rfl rfl hlistener.symm rfl
      ⟨List.nodup_nil, fun _ hc => absurd hc List.not_mem_nil⟩ fun _ _ _ heq => (by cases heq), rfl⟩
  | cons c cs =>
    have hc : c ∈ s.listed := hlisted c List.mem_cons_self
    have hmem : c ∈ s.listener := hlistener ▸ List.mem_cons_of_mem _ hc
    rw [examine, use_eq ((hs.freed_iff c).2 hmem)]
    simp only [bind, Except.bind]
    split
    next hdead =>
      refine ⟨hs.rearrange rfl rfl hlistener.symm rfl ⟨hnodup, hlisted⟩ fun ch' c' cs' heq => ?_,
        rfl⟩
      obtain ⟨-, rfl, -⟩ := Accepting.condemned.inj heq
      exact ⟨hdead.1, fun hrefs => absurd hdead.2 (Nat.ne_of_gt (hs.two hrefs))⟩
    next =>
      exact ⟨hs.rearrange rfl rfl hlistener.symm rfl
        ⟨(List.nodup_cons.1 hnodup).2, fun d hd => hlisted d (List.mem_cons_of_mem _ hd)⟩
        fun _ _ _ heq => (by cases heq), rfl⟩

/-- The one reference left is the table's, and the connection is deleted. -/
theorem collect_fine (hs : s.Inv) {ch : ℕ} {cs : List ℕ}
    (haccepting : s.accepting = .condemned ch c cs) : s.Fine (s.collect ch c cs) := by
  have hlistener : s.listener = ch :: s.listed := by rw [listener, haccepting]; rfl
  obtain ⟨hrest, hlisted⟩ := hs.rest
  rw [haccepting] at hrest hlisted
  obtain ⟨hdead, hnot⟩ := hs.condemned ch c cs haccepting
  have hc : c ∈ s.listed := hlisted c List.mem_cons_self
  obtain ⟨hch, hnodup⟩ := List.nodup_cons.1 (hlistener ▸ hs.nodup)
  have hne : c ≠ ch := fun heq => hch (heq ▸ hc)
  have hheld : (s.listener ++ s.refs).Perm (c :: (ch :: s.listed.erase c ++ s.refs)) := by
    have hlisted : (ch :: s.listed).Perm (c :: ch :: s.listed.erase c) :=
      ((List.perm_cons_erase hc).cons ch).trans (.swap c ch _)
    rw [hlistener]
    exact hlisted.append_right s.refs
  have hcounts : Counts s.refnos (c :: (ch :: s.listed.erase c ++ s.refs)) :=
    hs.counts.perm hheld.symm
  have hone : (s.conn c).refno = 1 := by
    have hcount := hs.counts c
    have hlist : s.listener.count c = 1 := List.count_eq_one_of_mem hs.nodup
      (hlistener ▸ List.mem_cons_of_mem _ hc)
    rwa [List.count_append, hlist, List.count_eq_zero_of_not_mem hnot] at hcount
  have hself : ((s.down c).conn c).freed = true := by
    simp [down, setConn, hone, hdead]
  have hother : ∀ d, d ≠ c → (s.down c).conn d = s.conn d := fun d hd =>
    Function.update_of_ne hd ..
  have hmem : ∀ d, d ∈ ch :: s.listed.erase c ↔ d ≠ c ∧ d ∈ s.listener := by
    intro d
    rw [hlistener, List.mem_cons, List.mem_cons, hnodup.mem_erase_iff]
    constructor
    · rintro (rfl | ⟨hd, hmem⟩)
      · exact ⟨hne.symm, .inl rfl⟩
      · exact ⟨hd, .inr hmem⟩
    · rintro ⟨hd, rfl | hmem⟩
      · exact .inl rfl
      · exact .inr ⟨hd, hmem⟩
  rw [collect, decref_eq ((hs.freed_iff c).2 (hlistener ▸ List.mem_cons_of_mem _ hc))
    (Nat.lt_of_lt_of_eq Nat.one_pos hone.symm)]
  refine ⟨⟨?_, fun d => ?_, fun d hd => ?_, fun d hd => ?_, ?_, fun d hd e he heq => ?_,
    fun d hd => ?_, ⟨(List.nodup_cons.1 hrest).2, fun d hd => ?_⟩, fun _ _ _ heq => by cases heq⟩,
    rfl⟩
  · exact refnos_down s c ▸ hcounts.decref
  · show ((s.down c).conn d).freed = false ↔ d ∈ ch :: s.listed.erase c
    rw [hmem]
    rcases eq_or_ne d c with rfl | hd
    · rw [hself]
      exact iff_of_false Bool.noConfusion fun h => h.1 rfl
    · rw [hother d hd, and_iff_right hd]
      exact hs.freed_iff d
  · change ((s.down c).conn d).freed = true at hd
    show ((s.down c).conn d).dead = true
    rcases eq_or_ne d c with rfl | hdc
    · simp [down, setConn, hdead]
    · rw [hother d hdc] at hd ⊢
      exact hs.freed_dead d hd
  · exact (hmem d).2 ⟨fun heq => hnot (heq ▸ hd), hs.refs d hd⟩
  · exact List.nodup_cons.2 ⟨fun h => hch (List.mem_of_mem_erase h), hnodup.erase c⟩
  · obtain ⟨hdc, hd⟩ := (hmem d).1 hd
    obtain ⟨hec, he⟩ := (hmem e).1 he
    change ((s.down c).conn d).fd = ((s.down c).conn e).fd at heq
    rw [hother d hdc, hother e hec] at heq
    exact hs.fds d hd e he heq
  · exact hs.lt d ((hmem d).1 hd).2
  · refine (hnodup.mem_erase_iff).2 ⟨fun heq => ?_, hlisted d (List.mem_cons_of_mem _ hd)⟩
    exact (List.nodup_cons.1 hrest).1 (heq ▸ hd)

/-! ## Runs -/

variable {ok : Server β → Step β → Prop} {as bs : List (Step β)} {nonce : ℕ} {procs : ℤ → Bool}
  {a : Step β}

/-- What a step does: its piece, or a fault that ends the run. -/
theorem step_cases (h : s.step a = some s') : s.fault = none ∧
    (s.run a = some (.ok s') ∨
      ∃ f, s.run a = some (.error f) ∧ s' = { s with fault := some f }) := by
  rw [step] at h
  split at h
  · cases h
  next hfault =>
    obtain ⟨r, hr, heq⟩ := Option.map_eq_some_iff.1 h
    cases r with
    | ok s'' =>
      obtain rfl : s'' = s' := heq
      exact ⟨hfault, .inl hr⟩
    | error f => exact ⟨hfault, .inr ⟨f, hr, heq.symm⟩⟩

theorem run_fine (hs : s.Inv) (hok : s.Fresh a) {r : Except ServerFault (Server β)}
    (h : s.run a = some r) : s.Fine r := by
  cases a with
  | accept fd time =>
    rw [run] at h
    split at h
    next hno =>
      obtain rfl := Option.some_inj.1 h
      exact ⟨hs.accept hno hok time, rfl⟩
    next => cases h
  | scan =>
    rw [run] at h
    split at h
    next => cases h
    next ch cs hscan =>
      obtain rfl := Option.some_inj.1 h
      exact examine_fine hs hscan
    next ch c cs hscan =>
      obtain rfl := Option.some_inj.1 h
      exact collect_fine hs hscan
  | die c =>
    obtain rfl := Option.some_inj.1 h
    exact ⟨hs.die c, rfl⟩
  | gotPdu c req succ =>
    rw [run] at h
    split at h
    next => cases h
    next hlive =>
      obtain rfl := Option.some_inj.1 h
      exact gotPdu_fine hs (Bool.eq_false_iff.2 hlive) req succ
  | dispatch j =>
    obtain ⟨⟨job, jobs⟩, hpick, rfl⟩ := Option.map_eq_some_iff.1 h
    exact advance_fine (hs.owes (pick_perm hpick))
  | handled j ret b sz =>
    rw [run] at h
    split at h
    next c h' jobs hpick =>
      obtain rfl := Option.some_inj.1 h
      exact handled_fine (hs.owes (pick_perm hpick)) h' ret b sz
    next => cases h

/-- What holds of a run's end: all is well, and the fault, if there is one, is not a
connection's. -/
theorem inv (h : Run step Fresh (new nonce procs) as s) :
    s.Inv ∧ s.fault ≠ some .freed ∧ s.fault ≠ some .negative := by
  refine h.invariant (P := fun s => s.Inv ∧ s.fault ≠ some .freed ∧ s.fault ≠ some .negative)
    ⟨.new nonce procs, by simp [new], by simp [new]⟩ fun s a s' hs hok hstep => ?_
  obtain ⟨hfault, hrun | ⟨f, hrun, rfl⟩⟩ := step_cases hstep
  · obtain ⟨hinv, hsame⟩ := run_fine hs.1 hok hrun
    rw [hsame, hfault]
    exact ⟨hinv, by simp, by simp⟩
  · obtain ⟨hfreed, hnegative⟩ := run_fine hs.1 hok hrun
    exact ⟨{ hs.1 with }, by simpa using hfreed, by simpa using hnegative⟩

/-- No thread touches a connection that has been deleted, and no count falls below zero: the count
of a connection that has not been deleted is the number of those that hold it, and one that has
been deleted is dead and held by nobody. -/
theorem no_use_after_free (h : Run step Fresh (new nonce procs) as s) :
    s.fault ≠ some .freed ∧ s.fault ≠ some .negative ∧
      ∀ c, (s.conn c).refno = (s.listener ++ s.refs).count c ∧
        ((s.conn c).freed = true → (s.conn c).dead = true ∧ c ∉ s.listener ++ s.refs) := by
  obtain ⟨hs, hfreed, hnegative⟩ := inv h
  refine ⟨hfreed, hnegative, fun c => ⟨hs.counts c, fun hc => ⟨hs.freed_dead c hc, fun hmem => ?_⟩⟩⟩
  have hlistener : c ∈ s.listener := (List.mem_append.1 hmem).elim id (hs.refs c)
  exact Bool.false_ne_true (((hs.freed_iff c).2 hlistener).symm.trans hc)

/-- A request is served and its connection dies; as the next one is accepted, it is deleted. -/
def collected : Server ℕ :=
  (execute (guarded step Fresh) (new 1 fun _ => true)
    [.accept 5 (10, 0), .scan, .gotPdu 0 (some ⟨2, 1, 0, 0, 1⟩) true, .dispatch 0,
      .handled 0 0 100 1, .dispatch 0, .dispatch 0, .dispatch 0, .die 0, .accept 6 (11, 0), .scan,
      .scan, .scan]).get (by decide +kernel)

theorem no_use_after_free_collected : (collected.conn 0).freed = true ∧
    collected.fault ≠ some .freed ∧ 0 ∉ collected.listener ++ collected.refs := by
  have hfreed : (collected.conn 0).freed = true := by decide +kernel
  have hrun : Run step Fresh (new 1 fun _ => true) _ collected :=
    .of_guarded (Option.some_get _).symm
  obtain ⟨hfault, -, hconn⟩ := no_use_after_free hrun
  exact ⟨hfreed, hfault, ((hconn 0).2 hfreed).2⟩

end Server
end Rpc
end CseLab
