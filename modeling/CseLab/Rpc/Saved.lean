import CseLab.Rpc.Holders

/-!
# The latest connection of a client

`dispatch` keeps for each client the latest connection on which it has asked something
(`saved_is_latest`), and a reply whose connection has died goes there.  For a client that has none,
as it does not ask for requests to be executed at most once, it follows a null pointer
(`null_iff`).  The connection of a request for an old server is never given up (`oldsrv_keeps`).

Nothing is asked of the requests for all this.
-/

set_option autoImplicit false

namespace CseLab
namespace Rpc

variable {β : Type}

/-- What has not failed has come by its first part. -/
theorem bind_eq_ok {ε α γ : Type} {x : Except ε α} {f : α → Except ε γ} {r : γ}
    (h : (x >>= f) = .ok r) : ∃ a, x = .ok a ∧ f a = .ok r := by
  cases x with
  | error e => cases h
  | ok a => exact ⟨a, rfl, h⟩

/-! ## Which connection is newer -/

/-- Not older than `another`. -/
def Connection.Newer (conn another : Connection) : Prop := 0 ≤ conn.compare another

theorem Connection.newer_iff {conn another : Connection} : conn.Newer another ↔
    another.create_time.1 < conn.create_time.1 ∨
      (another.create_time.1 = conn.create_time.1 ∧
        another.create_time.2 ≤ conn.create_time.2) := by
  rw [Newer, compare]
  split
  · omega
  · split
    · omega
    · split
      · omega
      · split <;> omega

theorem Connection.Newer.refl (conn : Connection) : conn.Newer conn :=
  newer_iff.2 (.inr ⟨rfl, le_refl _⟩)

theorem Connection.Newer.trans {c d e : Connection} (h : c.Newer d) (h' : d.Newer e) :
    c.Newer e := by
  rw [newer_iff] at *
  omega

theorem Connection.newer_of_older {c d : Connection} (h : c.compare d < 0) : d.Newer c := by
  have hnot : ¬ c.Newer d := Int.not_le.2 h
  rw [newer_iff] at *
  omega

theorem Connection.newer_congr {c c' d d' : Connection} (hc : c'.create_time = c.create_time)
    (hd : d'.create_time = d.create_time) : c'.Newer d' ↔ c.Newer d := by
  rw [newer_iff, newer_iff, hc, hd]

namespace Server

variable {s s' : Server β} {c d j n : ℕ} {job : Job β} {jobs : List (Job β)} {h : Request} {b : β}
  {sz : ℤ}

/-! ## What the pieces of `dispatch` do -/

/-- For this instance of the server, or for whichever there is. -/
def Current (s : Server β) (h : Request) : Prop := h.srv_nonce = 0 ∨ h.srv_nonce = s.nonce

theorem use_ok {conn : Connection} (hu : s.use c = .ok conn) : conn = s.conn c := by
  rw [use] at hu
  split at hu
  · cases hu
  · exact (Except.ok.inj hu).symm

theorem incref_ok (hi : s.incref c = .ok s') : s' = s.up c := by
  obtain ⟨conn, hu, hi⟩ := bind_eq_ok hi
  obtain rfl := use_ok hu
  exact (Except.ok.inj hi).symm

theorem decref_ok (hd : s.decref c = .ok s') : s' = s.down c := by
  obtain ⟨conn, hu, hd⟩ := bind_eq_ok hd
  obtain rfl := use_ok hu
  split at hd
  · cases hd
  · exact (Except.ok.inj hd).symm

theorem begin_ok {req : Option Request} (hb : s.begin c req = .ok s') :
    (req = none ∧ s' = s.goto (.leaving c)) ∨ ∃ h, req = some h ∧
      ((¬ s.Current h ∧
          s' = { s with sent := s.sent ++ [(c, h, .oldsrv)], leaked := c :: s.leaked }) ∨
        (s.Current h ∧ h.clt_nonce ≠ 0 ∧ s' = s.goto (.saving c h)) ∨
        (s.Current h ∧ h.clt_nonce = 0 ∧ s' = s.goto (.handling c h))) := by
  cases req with
  | none => exact .inl ⟨rfl, (Except.ok.inj hb).symm⟩
  | some h =>
    refine .inr ⟨h, rfl, ?_⟩
    rw [begin] at hb
    split at hb
    next hold =>
      obtain ⟨conn, -, hb⟩ := bind_eq_ok hb
      exact .inl ⟨fun hcur => hcur.elim hold.1 hold.2, (Except.ok.inj hb).symm⟩
    next hcur =>
      have hcur : s.Current h := by
        rw [not_and_or, not_not, not_not] at hcur
        exact hcur
      split at hb
      · cases hb
      · split at hb
        next hclt => exact .inr (.inl ⟨hcur, hclt, (Except.ok.inj hb).symm⟩)
        next hclt => exact .inr (.inr ⟨hcur, not_not.1 hclt, (Except.ok.inj hb).symm⟩)

theorem latest_setLatest_self (s : Server β) (n c : ℕ) : (s.setLatest n c).latest n = some c := by
  rw [latest, setLatest, List.find?_cons_of_pos (by simp)]
  rfl

theorem latest_setLatest_of_ne {m : ℕ} (hne : m ≠ n) :
    (s.setLatest n c).latest m = s.latest m := by
  rw [latest, setLatest, List.find?_cons_of_neg (by simpa using hne.symm), latest]
  congr 1
  induction s.conns with
  | nil => rfl
  | cons e conns ih =>
    rw [List.eraseP_cons]
    cases hkey : decide (e.1 = n) with
    | true =>
      rw [decide_eq_true_eq] at hkey
      exact (List.find?_cons_of_neg (by simpa [hkey] using hne.symm)).symm
    | false => rw [cond_false, List.find?_cons, List.find?_cons, ih]

theorem create_time_setConn {conn : Connection} (hc : conn.create_time = (s.conn c).create_time) :
    ((s.setConn c conn).conn d).create_time = (s.conn d).create_time := by
  rcases eq_or_ne d c with rfl | hne
  · simpa [setConn]
  · simp [setConn, hne]

theorem create_time_up (s : Server β) (c d : ℕ) :
    ((s.up c).conn d).create_time = (s.conn d).create_time := create_time_setConn rfl

theorem create_time_down (s : Server β) (c d : ℕ) :
    ((s.down c).conn d).create_time = (s.conn d).create_time := create_time_setConn rfl

/-- A table with a connection that is as new as the one that was there, and as `c`. -/
structure Updates (s : Server β) (n c : ℕ) (s' : Server β) : Prop where
  other : ∀ m, m ≠ n → s'.latest m = s.latest m
  self : ∃ c', s'.latest n = some c' ∧ (s.conn c').Newer (s.conn c) ∧
    ∀ old, s.latest n = some old → (s.conn c').Newer (s.conn old)
  table : ∀ e ∈ s'.conns, e = (n, c) ∨ e ∈ s.conns

/-- `c` is put into the table, and is as new as what was there. -/
theorem Updates.setLatest (hconns : s'.conns = s.conns)
    (hold : ∀ old, s.latest n = some old → (s.conn c).Newer (s.conn old)) :
    s.Updates n c (s'.setLatest n c) where
  other := fun m hm => (latest_setLatest_of_ne hm).trans (by rw [latest, latest, hconns])
  self := ⟨c, latest_setLatest_self .., .refl _, hold⟩
  table := fun e he => by
    rcases List.mem_cons.1 he with rfl | he
    · exact .inl rfl
    · exact .inr (hconns ▸ List.mem_of_mem_eraseP he)

theorem save_ok (hs : s.save c h = .ok s') : ∃ conn conns,
    s' = ({ s with conn := conn, conns := conns, saved := s.saved ++ [(h.clt_nonce, c)] }).goto
      (.checking c h) ∧
    (∀ d, (conn d).create_time = (s.conn d).create_time) ∧ s.Updates h.clt_nonce c s' := by
  rw [save] at hs
  split at hs
  next hnone =>
    obtain ⟨s₁, hi, hs⟩ := bind_eq_ok hs
    obtain rfl := incref_ok hi
    obtain rfl := Except.ok.inj hs
    refine ⟨_, _, rfl, create_time_up _ c, .setLatest rfl fun old hold => ?_⟩
    cases hnone.symm.trans hold
  next old hold =>
    have heq : ∀ {old'}, s.latest h.clt_nonce = some old' → old' = old := fun hold' =>
      Option.some_inj.1 (hold'.symm.trans hold)
    obtain ⟨oldConn, hu, hs⟩ := bind_eq_ok hs
    obtain ⟨conn, hu', hs⟩ := bind_eq_ok hs
    obtain rfl := use_ok hu
    obtain rfl := use_ok hu'
    split at hs
    next holder =>
      obtain ⟨s₁, hd, hs⟩ := bind_eq_ok hs
      obtain rfl := decref_ok hd
      obtain ⟨s₂, hi, hs⟩ := bind_eq_ok hs
      obtain rfl := incref_ok hi
      obtain rfl := Except.ok.inj hs
      refine ⟨_, _, rfl, fun d => ?_, .setLatest rfl fun old' hold' => ?_⟩
      · exact (create_time_up _ c d).trans (create_time_down _ old d)
      · exact heq hold' ▸ Connection.newer_of_older holder
    next hnewer =>
      obtain rfl := Except.ok.inj hs
      exact ⟨_, _, rfl, fun d => rfl,
        { other := fun m hm => rfl
          self := ⟨old, hold, Int.not_lt.1 hnewer, fun old' hold' => heq hold' ▸ .refl _⟩
          table := fun e he => .inr he }⟩

theorem mem_conns_of_latest (hc : s.latest n = some c) : (n, c) ∈ s.conns := by
  obtain ⟨e, he, rfl⟩ := Option.map_eq_some_iff.1 hc
  obtain rfl : e.1 = n := by simpa using List.find?_some he
  exact List.mem_of_find?_eq_some he

theorem reroute_ok (hr : s.reroute c h b sz = .ok s') : ∃ c' conn,
    s' = ({ s with conn := conn }).goto (.sending c' h (.reply (some b) sz)) ∧
      (c' = c ∨ (h.clt_nonce, c') ∈ s.conns) ∧
      ∀ d, (conn d).create_time = (s.conn d).create_time := by
  obtain ⟨conn, -, hr⟩ := bind_eq_ok hr
  split at hr
  · obtain ⟨s₁, hd, hr⟩ := bind_eq_ok hr
    obtain rfl := decref_ok hd
    split at hr
    · cases hr
    next c' hlatest =>
      obtain ⟨s₂, hi, hr⟩ := bind_eq_ok hr
      obtain rfl := incref_ok hi
      refine ⟨c', _, (Except.ok.inj hr).symm, .inr (mem_conns_of_latest hlatest), fun d => ?_⟩
      exact ((s.down c).create_time_up c' d).trans (s.create_time_down c d)
  · exact ⟨c, s.conn, (Except.ok.inj hr).symm, .inl rfl, fun _ => rfl⟩

/-! ## What is kept -/

/-- Who asks for a request to be executed at most once has its connection saved by then. -/
def Known (s : Server β) : Job β → Prop
  | .queued .. | .leaving _ => True
  | .saving _ h => h.clt_nonce ≠ 0
  | .checking c h | .handling c h | .recording c h _ _ | .rerouting c h _ _ =>
    h.clt_nonce ≠ 0 → (h.clt_nonce, c) ∈ s.saved
  | .sending c h answer =>
    answer ≠ .oldsrv ∧ (h.clt_nonce ≠ 0 → (h.clt_nonce, c) ∈ s.saved)

/-- What is kept, where the requests `out` have been taken out. -/
structure Saves (s : Server β) (out : List (Job β)) : Prop where
  known : ∀ job ∈ out ++ s.jobs, s.Known job
  leaked : ∀ c h, (c, h, .oldsrv) ∈ s.sent → c ∈ s.leaked
  sentTo : ∀ c h answer, (c, h, answer) ∈ s.sent → answer ≠ .oldsrv → h.clt_nonce ≠ 0 →
    (h.clt_nonce, c) ∈ s.saved
  /-- The latest connection of a client is as new as any that was saved for it. -/
  latest : ∀ x ∈ s.saved, ∃ c, s.latest x.1 = some c ∧ (s.conn c).Newer (s.conn x.2)
  table : ∀ e ∈ s.conns, e ∈ s.saved
  keys : ∀ e ∈ s.saved, e.1 ≠ 0
  lt : ∀ e ∈ s.saved, e.2 < s.next

theorem Saves.new (nonce : ℕ) (procs : ℤ → Bool) : (new nonce procs : Server β).Saves [] where
  known _ hj := absurd hj List.not_mem_nil
  leaked _ _ hmem := absurd hmem List.not_mem_nil
  sentTo _ _ _ hmem := absurd hmem List.not_mem_nil
  latest _ hx := absurd hx List.not_mem_nil
  table _ he := absurd he List.not_mem_nil
  keys _ he := absurd he List.not_mem_nil
  lt _ he := absurd he List.not_mem_nil

variable {job' : Job β} {out : List (Job β)}

theorem Known.mono (hsaved : s.saved ⊆ s'.saved) (hj : s.Known job) : s'.Known job := by
  cases job with
  | queued c req => trivial
  | saving c h => exact hj
  | checking c h | handling c h | recording c h b sz | rerouting c h b sz =>
    exact fun hne => hsaved (hj hne)
  | sending c h answer => exact ⟨hj.1, fun hne => hsaved (hj.2 hne)⟩
  | leaving c => trivial

/-- Nothing is sent, saved or accepted; what was under way is, or is known as well. -/
theorem Saves.same (hs : s.Saves out) {out' : List (Job β)} (hsent : s'.sent = s.sent)
    (hleaked : s.leaked ⊆ s'.leaked) (hsaved : s'.saved = s.saved) (hconns : s'.conns = s.conns)
    (hnext : s'.next = s.next)
    (htime : ∀ d, (s'.conn d).create_time = (s.conn d).create_time)
    (hjobs : ∀ job ∈ out' ++ s'.jobs, job ∈ out ++ s.jobs ∨ s.Known job) : s'.Saves out' where
  known job hj := by
    have hknown : s.Known job := (hjobs job hj).elim (hs.known job) id
    exact hknown.mono fun _ he => hsaved.symm ▸ he
  leaked c h hx := hleaked (hs.leaked c h (hsent ▸ hx))
  sentTo c h answer hx hne hclt := hsaved ▸ hs.sentTo c h answer (hsent ▸ hx) hne hclt
  latest x hx := by
    obtain ⟨c, hc, hnewer⟩ := hs.latest x (hsaved ▸ hx)
    rw [Server.latest, hconns]
    exact ⟨c, hc, (Connection.newer_congr (htime c) (htime x.2)).2 hnewer⟩
  table e he := hsaved ▸ hs.table e (hconns ▸ he)
  keys e he := hs.keys e (hsaved ▸ he)
  lt e he := hnext ▸ hs.lt e (hsaved ▸ he)

/-- A request is taken out. -/
theorem Saves.takeOut (hs : s.Saves []) (hp : s.jobs.Perm (job :: jobs)) :
    ({ s with jobs := jobs }).Saves [job] :=
  hs.same rfl (List.Subset.refl _) rfl rfl rfl (fun _ => rfl) fun _ hj => .inl (hp.mem_iff.2 hj)

/-- A request goes on. -/
theorem Saves.become (hs : s.Saves out) (hknown : s.Known job) : (s.goto job).Saves [] := by
  refine hs.same rfl (List.Subset.refl _) rfl rfl rfl (fun _ => rfl) fun job' hj => ?_
  rcases List.mem_cons.1 hj with rfl | hj
  · exact .inr hknown
  · exact .inl (List.mem_append_right _ hj)

/-- A request is done with. -/
theorem Saves.drop (hs : s.Saves out) : s.Saves [] :=
  hs.same rfl (List.Subset.refl _) rfl rfl rfl (fun _ => rfl) fun _ hj =>
    .inl (List.mem_append_right _ hj)

/-- Counts change. -/
theorem Saves.conn (hs : s.Saves out) {conn : ℕ → Connection}
    (htime : ∀ d, (conn d).create_time = (s.conn d).create_time) :
    ({ s with conn := conn }).Saves out :=
  hs.same rfl (List.Subset.refl _) rfl rfl rfl htime fun _ hj => .inl hj

theorem Saves.send {answer : Answer β} (hs : s.Saves out) (hold : answer = .oldsrv → c ∈ s.leaked)
    (hto : answer ≠ .oldsrv → h.clt_nonce ≠ 0 → (h.clt_nonce, c) ∈ s.saved) :
    ({ s with sent := s.sent ++ [(c, h, answer)] }).Saves out :=
  { hs with
    known := fun job hj => (hs.known job hj).mono (List.Subset.refl _)
    leaked := fun d h' hx => by
      rcases List.mem_append.1 hx with hx | hx
      · exact hs.leaked d h' hx
      · obtain ⟨rfl, -, heq⟩ := by simpa using List.mem_singleton.1 hx
        exact hold heq.symm
    sentTo := fun d h' answer' hx => by
      rcases List.mem_append.1 hx with hx | hx
      · exact hs.sentTo d h' answer' hx
      · obtain ⟨rfl, rfl, rfl⟩ := by simpa using List.mem_singleton.1 hx
        exact hto }

theorem begin_saves {req : Option Request} (hs : s.Saves [.queued c req])
    (hb : s.begin c req = .ok s') : s'.Saves [] := by
  rcases begin_ok hb with ⟨rfl, rfl⟩ | ⟨h, rfl, ⟨hcur, rfl⟩ | ⟨hcur, hclt, rfl⟩ | ⟨hcur, hclt, rfl⟩⟩
  · exact hs.become trivial
  · have hleak : ({ s with leaked := c :: s.leaked } : Server β).Saves [] :=
      hs.drop.same rfl (List.subset_cons_self c _) rfl rfl rfl (fun _ => rfl) fun _ hj => .inl hj
    exact hleak.send (fun _ => List.mem_cons_self) fun hne => absurd rfl hne
  · exact hs.become hclt
  · exact hs.become fun hne => absurd hclt hne

theorem save_saves (hs : s.Saves [.saving c h]) (hlt : c < s.next)
    (hsave : s.save c h = .ok s') : s'.Saves [] := by
  have hclt : h.clt_nonce ≠ 0 := hs.known _ List.mem_cons_self
  obtain ⟨conn, conns, rfl, htime, hother, ⟨c', hc', hnewer, hold⟩, htable⟩ := save_ok hsave
  have hsaved : s.saved ⊆ s.saved ++ [(h.clt_nonce, c)] := List.subset_append_left ..
  have hnewer_iff : ∀ d e, (conn d).Newer (conn e) ↔ (s.conn d).Newer (s.conn e) := fun d e =>
    Connection.newer_congr (htime d) (htime e)
  have hnext : ({ s with
      conn := conn
      conns := conns
      saved := s.saved ++ [(h.clt_nonce, c)] } : Server β).Saves [.saving c h] :=
    { hs with
      known := fun job hj => Known.mono (s := s) hsaved (hs.known job hj)
      latest := fun x hx => by
        rcases List.mem_append.1 hx with hx | hx
        · obtain ⟨d, hd, hnew⟩ := hs.latest x hx
          rcases eq_or_ne x.1 h.clt_nonce with heq | hne
          · refine ⟨c', heq ▸ hc', (hnewer_iff c' x.2).2 ((hold d ?_).trans hnew)⟩
            rw [← heq]
            exact hd
          · exact ⟨d, (hother x.1 hne).trans hd, (hnewer_iff d x.2).2 hnew⟩
        · obtain rfl := List.mem_singleton.1 hx
          exact ⟨c', hc', (hnewer_iff c' c).2 hnewer⟩
      sentTo := fun d h' answer hx hne hclt' => hsaved (hs.sentTo d h' answer hx hne hclt')
      table := fun e he => by
        rcases htable e he with rfl | he
        · exact List.mem_append_right _ (List.mem_singleton_self _)
        · exact hsaved (hs.table e he)
      keys := fun e he => by
        rcases List.mem_append.1 he with he | he
        · exact hs.keys e he
        · obtain rfl := List.mem_singleton.1 he
          exact hclt
      lt := fun e he => by
        rcases List.mem_append.1 he with he | he
        · exact hs.lt e he
        · obtain rfl := List.mem_singleton.1 he
          exact hlt }
  exact hnext.become fun _ => List.mem_append_right _ (List.mem_singleton_self _)

theorem check_saves (hs : s.Saves [.checking c h]) : (s.check c h).Saves [] := by
  have hsaved := hs.known _ List.mem_cons_self
  rcases hask : checkduplicateAndUpdate (s.window.reply_window h.clt_nonce) h.xid h.xid_rep with
    ⟨stat, window⟩
  rw [check, hask]
  have hwindow : ∀ w : Rpcs β, ({ s with window := w } : Server β).Saves [.checking c h] := fun w =>
    hs.same rfl (List.Subset.refl _) rfl rfl rfl (fun _ => rfl) fun _ hj => .inl hj
  refine (hwindow _).become ?_
  cases stat with
  | new => exact hsaved
  | inprogress => trivial
  | done ob sz => exact ⟨by simp, hsaved⟩
  | forgotten => exact ⟨by simp, hsaved⟩

theorem handled_saves (hs : s.Saves [.handling c h]) {ret : ℤ}
    (hh : s.handled c h ret b sz = .ok s') : s'.Saves [] := by
  have hsaved := hs.known _ List.mem_cons_self
  have hran : ({ s with ran := s.ran ++ [(h, b, sz)] } : Server β).Saves [.handling c h] :=
    hs.same rfl (List.Subset.refl _) rfl rfl rfl (fun _ => rfl) fun _ hj => .inl hj
  rw [handled] at hh
  split at hh
  · cases hh
  · obtain rfl := Except.ok.inj hh
    refine hran.become ?_
    split <;> exact hsaved

theorem record_saves (hs : s.Saves [.recording c h b sz]) : (s.record c h b sz).Saves [] := by
  have hsaved := hs.known _ List.mem_cons_self
  have hwindow : ∀ w : Rpcs β, ({ s with window := w } : Server β).Saves [.recording c h b sz] :=
    fun w => hs.same rfl (List.Subset.refl _) rfl rfl rfl (fun _ => rfl) fun _ hj => .inl hj
  exact (hwindow _).become hsaved

theorem reroute_saves (hs : s.Saves [.rerouting c h b sz])
    (hr : s.reroute c h b sz = .ok s') : s'.Saves [] := by
  have hsaved := hs.known _ List.mem_cons_self
  obtain ⟨c', conn, rfl, hc', htime⟩ := reroute_ok hr
  refine (hs.conn htime).become ⟨by simp, fun hne => ?_⟩
  rcases hc' with rfl | hc'
  · exact hsaved hne
  · exact hs.table _ hc'

theorem advance_saves (hs : s.Saves [job]) (hlt : job.conn < s.next)
    (ha : s.advance job = .ok s') : s'.Saves [] := by
  have hknown := hs.known _ List.mem_cons_self
  cases job with
  | queued c req => exact begin_saves hs ha
  | saving c h => exact save_saves hs hlt ha
  | checking c h =>
    obtain rfl := Except.ok.inj ha
    exact check_saves hs
  | handling c h =>
    obtain rfl := Except.ok.inj ha
    exact hs.become hknown
  | recording c h b sz =>
    obtain rfl := Except.ok.inj ha
    exact record_saves hs
  | rerouting c h b sz => exact reroute_saves hs ha
  | sending c h answer =>
    obtain ⟨conn, -, ha⟩ := bind_eq_ok ha
    obtain rfl := Except.ok.inj ha
    have hsent := hs.send (c := c) (h := h) (fun heq => absurd heq hknown.1) fun _ => hknown.2
    exact hsent.become trivial
  | leaving c =>
    obtain rfl := decref_ok ha
    exact hs.drop.conn (s.create_time_down c)

/-! ## Runs -/

variable {as : List (Step β)} {a : Step β} {nonce : ℕ} {procs : ℤ → Bool}

/-- A new connection is nobody's latest one yet. -/
theorem Saves.accept (hs : s.Saves []) (hinv : s.Inv) (conn : Connection)
    (accepting : Accepting) :
    ({ s with
      conn := Function.update s.conn s.next conn
      next := s.next + 1
      accepting := accepting } : Server β).Saves [] :=
  { hs with
    known := fun job hj => Known.mono (s := s) (List.Subset.refl _) (hs.known job hj)
    latest := fun x hx => by
      obtain ⟨c, hc, hnewer⟩ := hs.latest x hx
      have hclt := hinv.lt c (hinv.refs c (latest_mem hc))
      refine ⟨c, hc, ?_⟩
      dsimp only
      rwa [Function.update_of_ne (Nat.ne_of_lt hclt),
        Function.update_of_ne (Nat.ne_of_lt (hs.lt x hx))]
    lt := fun x hx => Nat.lt_succ_of_lt (hs.lt x hx) }

theorem examine_ok {ch : ℕ} {cs : List ℕ} (he : s.examine ch cs = .ok s') :
    ∃ listed accepting, s' = { s with listed := listed, accepting := accepting } := by
  cases cs with
  | nil =>
    obtain ⟨conn, -, he⟩ := bind_eq_ok he
    exact ⟨_, _, (Except.ok.inj he).symm⟩
  | cons c cs =>
    obtain ⟨conn, -, he⟩ := bind_eq_ok he
    exact ⟨_, _, (Except.ok.inj he).symm⟩

theorem collect_ok {ch : ℕ} {cs : List ℕ} (hc : s.collect ch c cs = .ok s') :
    ∃ listed accepting, s' = { s.down c with listed := listed, accepting := accepting } := by
  obtain ⟨s₁, hd, hc⟩ := bind_eq_ok hc
  obtain rfl := decref_ok hd
  exact ⟨_, _, (Except.ok.inj hc).symm⟩

theorem gotPdu_saves {req : Option Request} {succ : Bool} (hs : s.Saves [])
    (hg : s.gotPdu c req succ = .ok s') : s'.Saves [] := by
  obtain ⟨s₁, hi, hg⟩ := bind_eq_ok hg
  obtain rfl := incref_ok hi
  have hup : (s.up c).Saves [] := hs.conn (s.create_time_up c)
  split at hg
  · obtain rfl := Except.ok.inj hg
    exact hup.become trivial
  · obtain rfl := decref_ok hg
    exact hup.conn ((s.up c).create_time_down c)

theorem run_saves (hs : s.Saves []) (hinv : s.Inv) (hr : s.run a = some (.ok s')) :
    s'.Saves [] := by
  cases a with
  | accept fd time =>
    rw [run] at hr
    split at hr
    · obtain rfl := Except.ok.inj (Option.some_inj.1 hr)
      exact hs.accept hinv _ _
    · cases hr
  | scan =>
    rw [run] at hr
    split at hr
    · cases hr
    next ch cs hscan =>
      obtain ⟨listed, accepting, rfl⟩ := examine_ok (Option.some_inj.1 hr)
      exact hs.same rfl (List.Subset.refl _) rfl rfl rfl (fun _ => rfl) fun _ hj => .inl hj
    next ch c cs hscan =>
      obtain ⟨listed, accepting, rfl⟩ := collect_ok (Option.some_inj.1 hr)
      exact hs.same rfl (List.Subset.refl _) rfl rfl rfl (s.create_time_down c) fun _ hj => .inl hj
  | die c =>
    obtain rfl := Except.ok.inj (Option.some_inj.1 hr)
    exact hs.conn fun d => create_time_setConn rfl
  | gotPdu c req succ =>
    rw [run] at hr
    split at hr
    · cases hr
    · exact gotPdu_saves hs (Option.some_inj.1 hr)
  | dispatch j =>
    obtain ⟨⟨job, jobs⟩, hpick, ha⟩ := Option.map_eq_some_iff.1 hr
    have hp := pick_perm hpick
    refine advance_saves (hs.takeOut hp) (hinv.lt _ (hinv.refs _ ?_)) ha
    refine List.mem_append_left _ (List.mem_append_right _ (List.mem_map.2 ⟨job, ?_, rfl⟩))
    exact hp.mem_iff.2 List.mem_cons_self
  | handled j ret b sz =>
    rw [run] at hr
    split at hr
    next c h jobs hpick =>
      exact handled_saves (hs.takeOut (pick_perm hpick)) (Option.some_inj.1 hr)
    · cases hr

theorem saves (h : Run step Fresh (new nonce procs) as s) : s.Saves [] := by
  refine h.invariant_with (P := fun s => s.Saves []) (fun h => inv h) (.new nonce procs)
    fun s a s' hinv hs _ hstep => ?_
  obtain ⟨-, hrun | ⟨f, -, rfl⟩⟩ := step_cases hstep
  · exact run_saves hs hinv.1 hrun
  · exact hs.same rfl (List.Subset.refl _) rfl rfl rfl (fun _ => rfl) fun _ hj => .inl hj

/-- The connection that is kept for a client is one of those that were saved for it, and not older
than any of them. -/
theorem saved_is_latest (h : Run step Fresh (new nonce procs) as s) {n c : ℕ}
    (hc : (n, c) ∈ s.saved) : ∃ c', s.latest n = some c' ∧ (n, c') ∈ s.saved ∧
      (s.conn c').freed = false ∧ (s.conn c').Newer (s.conn c) := by
  have hs := saves h
  obtain ⟨c', hc', hnewer⟩ := hs.latest _ hc
  exact ⟨c', hc', hs.table _ (mem_conns_of_latest hc'), (inv h).1.unfreed (latest_mem hc'), hnewer⟩

/-- A client asks on one connection, which dies, and then on another. -/
def moved : Server ℕ :=
  (execute (guarded step Fresh) (new 1 fun _ => true)
    [.accept 5 (10, 0), .scan, .gotPdu 0 (some ⟨2, 1, 7, 0, 1⟩) true, .dispatch 0, .dispatch 0,
      .dispatch 0, .die 0, .accept 6 (11, 0), .scan, .scan,
      .gotPdu 1 (some ⟨2, 1, 7, 0, 1⟩) true, .dispatch 0, .dispatch 0]).get (by decide +kernel)

theorem saved_is_latest_moved : ∃ c', moved.latest 7 = some c' ∧ (7, c') ∈ moved.saved ∧
    (moved.conn c').freed = false ∧ (moved.conn c').Newer (moved.conn 0) := by
  have hrun : Run step Fresh (new 1 fun _ => true) _ moved :=
    .of_guarded (Option.some_get _).symm
  exact saved_is_latest hrun (by decide +kernel)

/-- A connection on which a request for an old server has been answered is never deleted. -/
theorem oldsrv_keeps (h : Run step Fresh (new nonce procs) as s) {c : ℕ} {hdr : Request}
    (hc : (c, hdr, .oldsrv) ∈ s.sent) : (s.conn c).freed = false :=
  (inv h).1.unfreed (List.mem_append_right _ ((saves h).leaked c hdr hc))

/-- A request for the server before, on a connection that dies then. -/
def kept : Server ℕ :=
  (execute (guarded step Fresh) (new 1 fun _ => true)
    [.accept 5 (10, 0), .scan, .gotPdu 0 (some ⟨2, 1, 7, 9, 1⟩) true, .dispatch 0,
      .die 0]).get (by decide +kernel)

theorem oldsrv_keeps_kept : (kept.conn 0).freed = false := by
  have hrun : Run step Fresh (new 1 fun _ => true) _ kept := .of_guarded (Option.some_get _).symm
  have hsent : (0, ⟨2, 1, 7, 9, 1⟩, .oldsrv) ∈ kept.sent := by decide +kernel
  exact oldsrv_keeps hrun hsent

/-! ## The null pointer -/

theorem bind_ne_null {α γ : Type} {r : Except ServerFault α} {f : α → Except ServerFault γ}
    (hr : r ≠ .error .null) (hf : ∀ x, f x ≠ .error .null) : r >>= f ≠ .error .null := by
  cases r with
  | error e => exact fun heq => hr (congrArg Except.error (Except.error.inj heq))
  | ok x => exact hf x

theorem use_ne_null (s : Server β) (c : ℕ) : s.use c ≠ .error .null := by
  rw [use]
  split <;> simp

theorem incref_ne_null (s : Server β) (c : ℕ) : s.incref c ≠ .error .null :=
  bind_ne_null (s.use_ne_null c) fun _ => by simp [pure, Except.pure]

theorem decref_ne_null (s : Server β) (c : ℕ) : s.decref c ≠ .error .null := by
  refine bind_ne_null (s.use_ne_null c) fun conn => ?_
  split
  · exact bind_ne_null (by simp [throw, throwThe, MonadExceptOf.throw]) fun _ => by
      simp [pure, Except.pure]
  · simp [pure, Except.pure]

theorem begin_ne_null (s : Server β) (c : ℕ) (req : Option Request) :
    s.begin c req ≠ .error .null := by
  cases req with
  | none => simp [begin, pure, Except.pure]
  | some h =>
    rw [begin]
    split
    · exact bind_ne_null (s.use_ne_null c) fun _ => by simp [pure, Except.pure]
    · split
      · simp [throw, throwThe, MonadExceptOf.throw]
      · split <;> simp [pure, Except.pure]

theorem save_ne_null (s : Server β) (c : ℕ) (h : Request) : s.save c h ≠ .error .null := by
  rw [save]
  split
  · exact bind_ne_null (incref_ne_null _ c) fun _ => by simp [pure, Except.pure]
  · refine bind_ne_null (use_ne_null _ _) fun _ => bind_ne_null (use_ne_null _ c) fun _ => ?_
    split
    · exact bind_ne_null (decref_ne_null _ _) fun s => bind_ne_null (s.incref_ne_null c) fun _ =>
        by simp [pure, Except.pure]
    · simp [pure, Except.pure]

theorem examine_ne_null (s : Server β) (ch : ℕ) (cs : List ℕ) :
    s.examine ch cs ≠ .error .null := by
  cases cs with
  | nil => exact bind_ne_null (s.use_ne_null ch) fun _ => by simp [pure, Except.pure]
  | cons c cs => exact bind_ne_null (s.use_ne_null c) fun _ => by simp [pure, Except.pure]

theorem gotPdu_ne_null (s : Server β) (c : ℕ) (req : Option Request) (succ : Bool) :
    s.gotPdu c req succ ≠ .error .null := by
  refine bind_ne_null (s.incref_ne_null c) fun s => ?_
  split
  · simp [pure, Except.pure]
  · exact s.decref_ne_null c

/-- Only the latest connection of a client is a null pointer. -/
theorem advance_null (hnull : s.advance job = .error .null) :
    ∃ c h b sz, job = .rerouting c h b sz ∧ s.reroute c h b sz = .error .null := by
  cases job with
  | queued c req => exact absurd hnull (s.begin_ne_null c req)
  | saving c h => exact absurd hnull (s.save_ne_null c h)
  | checking c h => cases hnull
  | handling c h => cases hnull
  | recording c h b sz => cases hnull
  | rerouting c h b sz => exact ⟨c, h, b, sz, rfl, hnull⟩
  | sending c h answer =>
    exact absurd hnull (bind_ne_null (s.use_ne_null c) fun _ => by simp [pure, Except.pure])
  | leaving c => exact absurd hnull (s.decref_ne_null c)

theorem run_null (hnull : s.run a = some (.error .null)) : ∃ j c h b sz jobs, a = .dispatch j ∧
    pick s.jobs j = some (.rerouting c h b sz, jobs) ∧
      ({ s with jobs := jobs }).reroute c h b sz = .error .null := by
  cases a with
  | accept fd time =>
    rw [run] at hnull
    split at hnull
    · cases Option.some_inj.1 hnull
    · cases hnull
  | scan =>
    rw [run] at hnull
    split at hnull
    · cases hnull
    next ch cs hscan => exact absurd (Option.some_inj.1 hnull) (s.examine_ne_null ch cs)
    next ch c cs hscan =>
      refine absurd (Option.some_inj.1 hnull) (bind_ne_null (s.decref_ne_null c) fun _ => ?_)
      simp [pure, Except.pure]
  | die c => cases Option.some_inj.1 hnull
  | gotPdu c req succ =>
    rw [run] at hnull
    split at hnull
    · cases hnull
    · exact absurd (Option.some_inj.1 hnull) (s.gotPdu_ne_null c req succ)
  | dispatch j =>
    obtain ⟨⟨job, jobs⟩, hpick, ha⟩ := Option.map_eq_some_iff.1 hnull
    obtain ⟨c, h, b, sz, rfl, hr⟩ := advance_null ha
    exact ⟨j, c, h, b, sz, jobs, rfl, hpick, hr⟩
  | handled j ret b sz =>
    rw [run] at hnull
    split at hnull
    next c h jobs hpick =>
      refine absurd (Option.some_inj.1 hnull) ?_
      rw [handled]
      split <;> simp [throw, throwThe, MonadExceptOf.throw, pure, Except.pure]
    · cases hnull

/-- A null pointer is followed where the connection has died and the client has no latest one. -/
theorem reroute_null (hs : s.Owes c) : s.reroute c h b sz = .error .null ↔
    (s.conn c).dead = true ∧ s.latest h.clt_nonce = none := by
  have hunfreed := hs.unfreed (.inl rfl)
  rw [reroute, use_eq hunfreed]
  simp only [bind, Except.bind]
  split
  next hcond =>
    rw [hs.down.1]
    dsimp only
    have hlatest : (s.down c).latest h.clt_nonce = s.latest h.clt_nonce := rfl
    split
    next hnone => exact iff_of_true rfl ⟨hcond.1, hnone⟩
    next c' hsome =>
      refine iff_of_false ?_ fun hnone => ?_
      · exact bind_ne_null (incref_ne_null _ c') fun _ => by simp [pure, Except.pure]
      · rw [hlatest, hnone.2] at hsome
        cases hsome
  next hcond =>
    refine iff_of_false (by simp [pure, Except.pure]) fun hnone => hcond ⟨hnone.1, ?_⟩
    rw [hnone.2]
    simp

/-- Who does not ask to be executed at most once has no latest connection, and only it. -/
theorem Saves.latest_none (hs : s.Saves out) (hsaved : h.clt_nonce ≠ 0 →
    (h.clt_nonce, c) ∈ s.saved) : s.latest h.clt_nonce = none ↔ h.clt_nonce = 0 := by
  constructor
  · intro hnone
    by_contra hne
    obtain ⟨c', hc', -⟩ := hs.latest _ (hsaved hne)
    rw [hnone] at hc'
    cases hc'
  · intro hzero
    cases hlatest : s.latest h.clt_nonce with
    | none => rfl
    | some c' => exact absurd hzero (hs.keys _ (hs.table _ (mem_conns_of_latest hlatest)))

/-- `dispatch` follows a null pointer exactly where the client does not ask to be executed at most
once and its connection has died when the handler has returned. -/
theorem null_iff (hrun : Run step Fresh (new nonce procs) as s) (hok : s.Fresh a)
    (hstep : s.step a = some s') :
    s'.fault = some .null ↔ ∃ j c hdr b sz jobs, a = .dispatch j ∧
      pick s.jobs j = some (.rerouting c hdr b sz, jobs) ∧ hdr.clt_nonce = 0 ∧
        (s.conn c).dead = true := by
  have hinv := (inv hrun).1
  have hsaves := saves hrun
  have hlatest : ∀ {j c hdr b sz jobs}, pick s.jobs j = some (.rerouting c hdr b sz, jobs) →
      (({ s with jobs := jobs }).reroute c hdr b sz = .error .null ↔
        hdr.clt_nonce = 0 ∧ (s.conn c).dead = true) := by
    intro j c hdr b sz jobs hpick
    have hp := pick_perm hpick
    have hknown := hsaves.known _ (hp.mem_iff.2 List.mem_cons_self)
    have howes : ({ s with jobs := jobs }).Owes c := hinv.owes hp
    rw [reroute_null howes, and_comm]
    exact and_congr_left fun _ => hsaves.latest_none hknown
  have hback : ∀ {r}, s.run a = some r → (∃ j c hdr b sz jobs, a = .dispatch j ∧
      pick s.jobs j = some (.rerouting c hdr b sz, jobs) ∧ hdr.clt_nonce = 0 ∧
        (s.conn c).dead = true) → r = .error .null := by
    rintro r hr ⟨j, c, hdr, b, sz, jobs, rfl, hpick, hcond⟩
    rw [run, hpick] at hr
    exact (Option.some_inj.1 hr).symm.trans ((hlatest hpick).2 hcond)
  obtain ⟨hfault, hrun | ⟨f, hrun, rfl⟩⟩ := step_cases hstep
  · refine iff_of_false ?_ fun hcond => ?_
    · rw [(run_fine hinv hok hrun).2, hfault]
      simp
    · cases hback hrun hcond
  · constructor
    · intro hnull
      obtain rfl := Option.some_inj.1 hnull
      obtain ⟨j, c, hdr, b, sz, jobs, rfl, hpick, hr⟩ := run_null hrun
      exact ⟨j, c, hdr, b, sz, jobs, rfl, hpick, (hlatest hpick).1 hr⟩
    · intro hcond
      rw [Except.error.inj (hback hrun hcond)]

/-- A request that need not be executed at most once, whose connection has died. -/
def orphan : Server ℕ :=
  (execute (guarded step Fresh) (new 1 fun _ => true)
    [.accept 5 (10, 0), .scan, .gotPdu 0 (some ⟨2, 1, 0, 0, 1⟩) true, .dispatch 0,
      .handled 0 0 100 1, .die 0]).get (by decide +kernel)

theorem null_iff_orphan : ∃ s', orphan.step (.dispatch 0) = some s' ∧ s'.fault = some .null := by
  have hrun : Run step Fresh (new 1 fun _ => true) _ orphan := .of_guarded (Option.some_get _).symm
  have hstep : (orphan.step (.dispatch 0)).isSome := by decide +kernel
  have hpick : pick orphan.jobs 0 = some (.rerouting 0 ⟨2, 1, 0, 0, 1⟩ 100 1, []) := by
    with_unfolding_all rfl
  have hdead : (orphan.conn 0).dead = true := by decide +kernel
  have hstep := (Option.some_get hstep).symm
  have hok : orphan.Fresh (.dispatch 0) := trivial
  refine ⟨_, hstep, (null_iff hrun hok hstep).2 ?_⟩
  exact ⟨0, 0, _, 100, 1, [], rfl, hpick, rfl, hdead⟩

end Server

end Rpc
end CseLab
