import CseLab.Rpc.Saved

/-!
# What a request gets

Whatever the order in which the pieces of `dispatch` come, the handler of a request runs once at
most, and every reply that is sent to the request is what the handler returned (`served_once`);
what was meant for another instance of the server runs no handler.
-/

set_option autoImplicit false

namespace CseLab
namespace Rpc

variable {β : Type}

namespace Server

variable {s s' : Server β} {c d j n : ℕ} {job : Job β} {jobs : List (Job β)} {h : Request} {b : β}
  {sz : ℤ}

/-! ## What is kept -/

/-- The handler has returned this for the request. -/
def Told (s : Server β) (h : Request) (ob : Option β) (sz : ℤ) : Prop :=
  ∃ h' b, (h', b, sz) ∈ s.ran ∧ ob = some b ∧ h'.clt_nonce = h.clt_nonce ∧ h'.xid = h.xid

def Right (s : Server β) (h : Request) : Answer β → Prop
  | .reply ob sz => s.Told h ob sz
  | .oldsrv => ¬ s.Current h
  | .atmostonce => True

/-- How it has come with a request to where it is. -/
def Good (s : Server β) : Job β → Prop
  | .queued _ none => True
  | .queued _ (some h) => h.xid_rep < h.xid
  | .saving _ h | .checking _ h => h.xid_rep < h.xid ∧ s.Current h ∧ h.clt_nonce ≠ 0
  | .handling _ h => s.Current h
  | .recording _ h b sz => (h, b, sz) ∈ s.ran ∧ h.clt_nonce ≠ 0
  | .rerouting _ h b sz => (h, b, sz) ∈ s.ran
  | .sending _ h answer => s.Right h answer
  | .leaving _ => True

/-- Its handler is running. -/
def handles (n x : ℕ) : Job β → Bool
  | .handling _ h => h.clt_nonce = n ∧ h.xid = x
  | _ => false

/-- What is kept, where the requests `out` have been taken out. -/
structure Serves (s : Server β) (out : List (Job β)) : Prop where
  good : ∀ job ∈ out ++ s.jobs, s.Good job
  /-- The reply window is as in a run of its own. -/
  window : ∃ calls, Run Rpcs.step Rpcs.Proper Rpcs.start calls s.window
  once : ∀ n x, n ≠ 0 → s.window.log.countP (·.isNew n x) =
    (out ++ s.jobs).countP (handles n x) +
      s.ran.countP fun r => r.1.clt_nonce = n ∧ r.1.xid = x
  added : ∀ n x ob sz, .added n x ob sz ∈ s.window.log →
    ∃ h b, (h, b, sz) ∈ s.ran ∧ ob = some b ∧ h.clt_nonce = n ∧ h.xid = x
  ran : ∀ r ∈ s.ran, s.Current r.1
  sent : ∀ x ∈ s.sent, s.Right x.2.1 x.2.2
theorem Serves.new (nonce : ℕ) (procs : ℤ → Bool) : (new nonce procs : Server β).Serves [] where
  good _ hj := absurd hj List.not_mem_nil
  window := ⟨[], .nil⟩
  once _ _ _ := rfl
  added _ _ _ _ hmem := absurd hmem List.not_mem_nil
  ran _ hr := absurd hr List.not_mem_nil
  sent _ hx := absurd hx List.not_mem_nil

variable {job' : Job β}

theorem Told.mono {ob : Option β} (hran : s.ran ⊆ s'.ran) (ht : s.Told h ob sz) :
    s'.Told h ob sz :=
  have ⟨h', b, hmem, heq⟩ := ht
  ⟨h', b, hran hmem, heq⟩

theorem Right.mono {answer : Answer β} (hnonce : s'.nonce = s.nonce) (hran : s.ran ⊆ s'.ran)
    (hr : s.Right h answer) : s'.Right h answer := by
  cases answer with
  | reply ob sz => exact Told.mono hran hr
  | oldsrv =>
    rw [Right, Current, hnonce]
    exact hr
  | atmostonce => trivial

theorem Good.mono (hnonce : s'.nonce = s.nonce) (hran : s.ran ⊆ s'.ran) (hj : s.Good job) :
    s'.Good job := by
  have hcurrent : ∀ h, s.Current h → s'.Current h := fun h hc => by rwa [Current, hnonce]
  cases job with
  | queued c req => cases req <;> exact hj
  | saving c h | checking c h => exact ⟨hj.1, hcurrent h hj.2.1, hj.2.2⟩
  | handling c h => exact hcurrent h hj
  | recording c h b sz => exact ⟨hran hj.1, hj.2⟩
  | rerouting c h b sz => exact hran hj
  | sending c h answer => exact hj.mono hnonce hran
  | leaving c => trivial

variable {out : List (Job β)}

/-- Nothing is sent, asked or returned; the same handlers run, and what was under way is, or has
come to where it is in a good way as well. -/
theorem Serves.same (hs : s.Serves out) {out' : List (Job β)} (hnonce : s'.nonce = s.nonce)
    (hwindow : s'.window = s.window) (hran : s'.ran = s.ran) (hsent : s'.sent = s.sent)
    (hjobs : ∀ job ∈ out' ++ s'.jobs, job ∈ out ++ s.jobs ∨ s.Good job)
    (hhandles : ∀ n x, n ≠ 0 →
      (out' ++ s'.jobs).countP (handles n x) = (out ++ s.jobs).countP (handles n x)) :
    s'.Serves out' where
  good job hj := by
    have hgood : s.Good job := (hjobs job hj).elim (hs.good job) id
    exact hgood.mono hnonce fun _ hr => hran.symm ▸ hr
  window := hwindow ▸ hs.window
  once n x hn := by
    rw [hwindow, hran, hhandles n x hn]
    exact hs.once n x hn
  added n x ob sz hmem := by
    rw [hran]
    exact hs.added n x ob sz (hwindow ▸ hmem)
  ran r hr := by
    rw [Current, hnonce]
    exact hs.ran r (hran ▸ hr)
  sent x hx := Right.mono hnonce (fun _ hr => hran.symm ▸ hr) (hs.sent x (hsent ▸ hx))

/-- A request is taken out. -/
theorem Serves.takeOut (hs : s.Serves []) (hp : s.jobs.Perm (job :: jobs)) :
    ({ s with jobs := jobs }).Serves [job] :=
  hs.same rfl rfl rfl rfl (fun _ hj => .inl (hp.mem_iff.2 hj)) fun _ _ _ => (hp.countP_eq _).symm

/-- A request goes on. -/
theorem Serves.become (hs : s.Serves [job]) (hgood : s.Good job')
    (hhandles : ∀ n x, n ≠ 0 → handles n x job' = handles n x job) :
    (s.goto job').Serves [] := by
  refine hs.same rfl rfl rfl rfl (fun job'' hj => ?_) fun n x hn => ?_
  · rcases List.mem_cons.1 hj with rfl | hj
    · exact .inr hgood
    · exact .inl (List.mem_cons_of_mem _ hj)
  · show (job' :: s.jobs).countP _ = (job :: s.jobs).countP _
    rw [List.countP_cons, List.countP_cons, hhandles n x hn]

/-- A request is done with. -/
theorem Serves.drop (hs : s.Serves [job]) (hnot : ∀ n x, n ≠ 0 → handles n x job = false) :
    s.Serves [] := by
  refine hs.same rfl rfl rfl rfl (fun _ hj => .inl (List.mem_cons_of_mem _ hj)) fun n x hn => ?_
  show s.jobs.countP _ = (job :: s.jobs).countP _
  rw [List.countP_cons, hnot n x hn]
  rfl

/-- A request comes in. -/
theorem Serves.put (hs : s.Serves []) (hgood : s.Good job)
    (hnot : ∀ n x, n ≠ 0 → handles n x job = false) : (s.goto job).Serves [] := by
  refine hs.same rfl rfl rfl rfl (fun job' hj => ?_) fun n x hn => ?_
  · rcases List.mem_cons.1 hj with rfl | hj
    · exact .inr hgood
    · exact .inl hj
  · show (job :: s.jobs).countP _ = s.jobs.countP _
    rw [List.countP_cons, hnot n x hn]
    rfl

/-- Of what is kept here nothing changes. -/
theorem Serves.rest (hs : s.Serves out) (hnonce : s'.nonce = s.nonce)
    (hwindow : s'.window = s.window) (hran : s'.ran = s.ran) (hsent : s'.sent = s.sent)
    (hjobs : s'.jobs = s.jobs) : s'.Serves out := by
  refine hs.same hnonce hwindow hran hsent (fun _ hj => .inl (hjobs ▸ hj)) fun n x _ => ?_
  rw [hjobs]

theorem Serves.send {answer : Answer β} (hs : s.Serves out) (hright : s.Right h answer) (c : ℕ) :
    ({ s with sent := s.sent ++ [(c, h, answer)] }).Serves out :=
  { hs with
    good := fun job hj => (hs.good job hj).mono rfl (.refl _)
    sent := fun x hx => by
      rcases List.mem_append.1 hx with hx | hx
      · exact (hs.sent x hx).mono rfl (.refl _)
      · obtain rfl := List.mem_singleton.1 hx
        exact hright.mono rfl (.refl _) }

theorem begin_serves {req : Option Request} (hs : s.Serves [.queued c req])
    (hb : s.begin c req = .ok s') : s'.Serves [] := by
  have hgood := hs.good _ List.mem_cons_self
  rcases begin_ok hb with ⟨rfl, rfl⟩ | ⟨h, rfl, ⟨hcur, rfl⟩ | ⟨hcur, hclt, rfl⟩ | ⟨hcur, hclt, rfl⟩⟩
  · exact hs.become trivial fun _ _ _ => rfl
  · have hright : s.Right h .oldsrv := hcur
    exact ((hs.drop fun _ _ _ => rfl).send hright c).rest rfl rfl rfl rfl rfl
  · exact hs.become ⟨hgood, hcur, hclt⟩ fun _ _ _ => rfl
  · refine hs.become hcur fun n x hn => decide_eq_false fun heq => ?_
    exact hn (heq.1.symm.trans hclt)

theorem save_serves (hs : s.Serves [.saving c h]) (hsave : s.save c h = .ok s') :
    s'.Serves [] := by
  have hgood := hs.good _ List.mem_cons_self
  obtain ⟨conn, conns, rfl, -⟩ := save_ok hsave
  have hsaved : ({ s with
      conn := conn
      conns := conns
      saved := s.saved ++ [(h.clt_nonce, c)] } : Server β).Serves [.saving c h] :=
    hs.rest rfl rfl rfl rfl rfl
  exact hsaved.become hgood fun _ _ _ => rfl

theorem mem_of_lastAdded {x : ℕ} {log : List (Event β)} {ob : Option β}
    (hlast : lastAdded n x log = some (ob, sz)) : .added n x ob sz ∈ log := by
  induction log using List.reverseRecOn with
  | nil => cases hlast
  | append_singleton log e ih =>
    rw [lastAdded_snoc] at hlast
    cases e with
    | answered => exact List.mem_append_left _ (ih hlast)
    | added n' x' ob' sz' =>
      dsimp only at hlast
      split at hlast
      next heq =>
        obtain ⟨rfl, rfl⟩ := heq
        obtain ⟨rfl, rfl⟩ := Prod.mk.inj (Option.some_inj.1 hlast)
        exact List.mem_append_right _ (List.mem_singleton_self _)
      next => exact List.mem_append_left _ (ih hlast)

theorem check_serves (hs : s.Serves [.checking c h]) : (s.check c h).Serves [] := by
  obtain ⟨hxid, hcur, hclt⟩ := hs.good _ List.mem_cons_self
  obtain ⟨calls, hrun⟩ := hs.window
  rcases hask : checkduplicateAndUpdate (s.window.reply_window h.clt_nonce) h.xid h.xid_rep with
    ⟨stat, window⟩
  have hcheck : s.check c h = ({ s with window :=
      ⟨Function.update s.window.reply_window h.clt_nonce window,
        s.window.log ++ [Event.answered h.clt_nonce h.xid stat]⟩ }).goto (answered c h stat) := by
    rw [check, hask]
  have hstep : Rpcs.step s.window (.checkduplicateAndUpdate h.clt_nonce h.xid h.xid_rep) =
      some ⟨Function.update s.window.reply_window h.clt_nonce window,
        s.window.log ++ [Event.answered h.clt_nonce h.xid stat]⟩ := by
    rw [Rpcs.step, hask]
  have hproper : s.window.Proper (.checkduplicateAndUpdate h.clt_nonce h.xid h.xid_rep) := hxid
  have hrun' := hrun.snoc hproper hstep
  have hwarranted := (Rpcs.at_most_once hrun' h.clt_nonce h.xid).2 _ _ [] rfl
  have hgood : s.Good (answered c h stat) := by
    cases stat with
    | new => exact hcur
    | inprogress => trivial
    | done ob sz => exact hs.added _ _ _ _ (mem_of_lastAdded hwarranted)
    | forgotten => trivial
  have hnew : ∀ n x, (if (Event.answered h.clt_nonce h.xid stat).isNew n x = true then 1 else 0) =
      (if handles n x (answered c h stat) = true then 1 else 0) := by
    intro n x
    cases stat <;> rfl
  rw [hcheck]
  exact
    { hs with
      good := fun job hj => by
        rcases List.mem_cons.1 hj with rfl | hj
        · exact Good.mono (s := s) rfl (List.Subset.refl _) hgood
        · exact Good.mono (s := s) rfl (List.Subset.refl _)
            (hs.good job (List.mem_cons_of_mem _ hj))
      window := ⟨_, hrun'⟩
      once := fun n x hn => by
        have honce := hs.once n x hn
        show (s.window.log ++ [_]).countP _ =
          (answered c h stat :: s.jobs).countP _ + s.ran.countP _
        rw [List.countP_append, List.countP_singleton, List.countP_cons, hnew]
        rw [List.singleton_append, List.countP_cons] at honce
        simp only [handles, Bool.false_eq_true, if_false] at honce
        omega
      added := fun n x ob sz hmem => by
        rcases List.mem_append.1 hmem with hmem | hmem
        · exact hs.added n x ob sz hmem
        · cases List.mem_singleton.1 hmem
      sent := fun x hx => Right.mono (s := s) rfl (List.Subset.refl _) (hs.sent x hx) }

/-- The handler has returned. -/
theorem Serves.returned (hs : s.Serves [.handling c h]) (b : β) (sz : ℤ) :
    ({ s with ran := s.ran ++ [(h, b, sz)] }).Serves [.leaving c] := by
  have hran : s.ran ⊆ s.ran ++ [(h, b, sz)] := List.subset_append_left ..
  have hcur : s.Current h := hs.good _ List.mem_cons_self
  exact
    { hs with
      good := fun job hj => by
        rcases List.mem_cons.1 hj with rfl | hj
        · trivial
        · exact Good.mono (s := s) rfl hran
            (hs.good job (List.mem_cons_of_mem _ hj))
      once := fun n x hn => by
        refine (hs.once n x hn).trans ?_
        show (Job.handling c h :: s.jobs).countP _ + _ = (Job.leaving c :: s.jobs).countP _ + _
        rw [List.countP_cons, List.countP_cons, List.countP_append, List.countP_singleton]
        simp only [handles, decide_eq_true_eq, Bool.false_eq_true, if_false]
        omega
      added := fun n x ob sz' hmem =>
        have ⟨h', b', hmem', heq⟩ := hs.added n x ob sz' hmem
        ⟨h', b', hran hmem', heq⟩
      ran := fun r hr => by
        rcases List.mem_append.1 hr with hr | hr
        · exact hs.ran r hr
        · obtain rfl := List.mem_singleton.1 hr
          exact hcur
      sent := fun x hx => Right.mono (s := s) rfl hran (hs.sent x hx) }

theorem handled_serves (hs : s.Serves [.handling c h]) {ret : ℤ}
    (hh : s.handled c h ret b sz = .ok s') : s'.Serves [] := by
  have hran : (h, b, sz) ∈ s.ran ++ [(h, b, sz)] :=
    List.mem_append_right _ (List.mem_singleton_self _)
  rw [handled] at hh
  split at hh
  · cases hh
  · obtain rfl := Except.ok.inj hh
    split
    next hpos => exact (hs.returned b sz).become ⟨hran, Nat.ne_of_gt hpos⟩ fun _ _ _ => rfl
    next => exact (hs.returned b sz).become hran fun _ _ _ => rfl

theorem record_serves (hs : s.Serves [.recording c h b sz]) : (s.record c h b sz).Serves [] := by
  obtain ⟨hran, hclt⟩ := hs.good _ List.mem_cons_self
  obtain ⟨calls, hrun⟩ := hs.window
  have htaken : .answered h.clt_nonce h.xid .new ∈ s.window.log := by
    have hpos : 0 < s.ran.countP fun r => r.1.clt_nonce = h.clt_nonce ∧ r.1.xid = h.xid :=
      List.countP_pos_iff.2 ⟨_, hran, decide_eq_true ⟨rfl, rfl⟩⟩
    have hnew : 0 < s.window.log.countP (·.isNew h.clt_nonce h.xid) := by
      rw [hs.once _ _ hclt]
      exact Nat.add_pos_right _ hpos
    obtain ⟨e, he, hnew⟩ := List.countP_pos_iff.1 hnew
    rwa [← Event.isNew_iff.1 hnew]
  have hproper : s.window.Proper (.addReply h.clt_nonce h.xid (some b) sz) := htaken
  have hrun' := hrun.snoc hproper rfl
  have hrecorded : ({ s with window :=
      ⟨Function.update s.window.reply_window h.clt_nonce
          (addReply h.xid (some b) sz (s.window.reply_window h.clt_nonce)),
        s.window.log ++ [.added h.clt_nonce h.xid (some b) sz]⟩ } : Server β).Serves
      [.recording c h b sz] :=
    { hs with
      good := fun job hj => Good.mono (s := s) rfl (List.Subset.refl _)
        (hs.good job hj)
      window := ⟨_, hrun'⟩
      once := fun n x hn => by
        rw [List.countP_append, List.countP_singleton]
        exact hs.once n x hn
      added := fun n x ob sz' hmem => by
        rcases List.mem_append.1 hmem with hmem | hmem
        · exact hs.added n x ob sz' hmem
        · obtain ⟨rfl, rfl, rfl, rfl⟩ := Event.added.inj (List.mem_singleton.1 hmem)
          exact ⟨h, b, hran, rfl, rfl, rfl⟩
      sent := fun x hx => Right.mono (s := s) rfl (List.Subset.refl _) (hs.sent x hx) }
  exact hrecorded.become hran fun _ _ _ => rfl

theorem reroute_serves (hs : s.Serves [.rerouting c h b sz])
    (hr : s.reroute c h b sz = .ok s') : s'.Serves [] := by
  have hran := hs.good _ List.mem_cons_self
  obtain ⟨c', conn, rfl, -, -⟩ := reroute_ok hr
  have hconn : ({ s with conn := conn } : Server β).Serves [.rerouting c h b sz] :=
    hs.rest rfl rfl rfl rfl rfl
  exact hconn.become ⟨h, b, hran, rfl, rfl, rfl⟩ fun _ _ _ => rfl

theorem advance_serves (hs : s.Serves [job]) (ha : s.advance job = .ok s') : s'.Serves [] := by
  have hgood := hs.good _ List.mem_cons_self
  cases job with
  | queued c req => exact begin_serves hs ha
  | saving c h => exact save_serves hs ha
  | checking c h =>
    obtain rfl := Except.ok.inj ha
    exact check_serves hs
  | handling c h =>
    obtain rfl := Except.ok.inj ha
    exact hs.become hgood fun _ _ _ => rfl
  | recording c h b sz =>
    obtain rfl := Except.ok.inj ha
    exact record_serves hs
  | rerouting c h b sz => exact reroute_serves hs ha
  | sending c h answer =>
    obtain ⟨conn, -, ha⟩ := bind_eq_ok ha
    obtain rfl := Except.ok.inj ha
    exact (hs.send hgood c).become trivial fun _ _ _ => rfl
  | leaving c =>
    obtain rfl := decref_ok ha
    exact (hs.drop fun _ _ _ => rfl).rest rfl rfl rfl rfl rfl

/-! ## Runs -/

variable {as : List (Step β)} {a : Step β} {nonce : ℕ} {procs : ℤ → Bool}

theorem gotPdu_serves {req : Option Request} {succ : Bool} (hs : s.Serves [])
    (hok : s.Proper (.gotPdu c req succ)) (hg : s.gotPdu c req succ = .ok s') :
    s'.Serves [] := by
  obtain ⟨s₁, hi, hg⟩ := bind_eq_ok hg
  obtain rfl := incref_ok hi
  have hup : (s.up c).Serves [] := hs.rest rfl rfl rfl rfl rfl
  split at hg
  · obtain rfl := Except.ok.inj hg
    refine hup.put ?_ fun _ _ _ => rfl
    cases req with
    | none => trivial
    | some h => exact hok
  · obtain rfl := decref_ok hg
    exact hup.rest rfl rfl rfl rfl rfl

theorem run_serves (hs : s.Serves []) (hok : s.Proper a) (hr : s.run a = some (.ok s')) :
    s'.Serves [] := by
  cases a with
  | accept fd time =>
    rw [run] at hr
    split at hr
    · obtain rfl := Except.ok.inj (Option.some_inj.1 hr)
      exact hs.rest rfl rfl rfl rfl rfl
    · cases hr
  | scan =>
    rw [run] at hr
    split at hr
    · cases hr
    next ch cs hscan =>
      obtain ⟨listed, accepting, rfl⟩ := examine_ok (Option.some_inj.1 hr)
      exact hs.rest rfl rfl rfl rfl rfl
    next ch c cs hscan =>
      obtain ⟨listed, accepting, rfl⟩ := collect_ok (Option.some_inj.1 hr)
      exact hs.rest rfl rfl rfl rfl rfl
  | die c =>
    obtain rfl := Except.ok.inj (Option.some_inj.1 hr)
    exact hs.rest rfl rfl rfl rfl rfl
  | gotPdu c req succ =>
    rw [run] at hr
    split at hr
    · cases hr
    · exact gotPdu_serves hs hok (Option.some_inj.1 hr)
  | dispatch j =>
    obtain ⟨⟨job, jobs⟩, hpick, ha⟩ := Option.map_eq_some_iff.1 hr
    exact advance_serves (hs.takeOut (pick_perm hpick)) ha
  | handled j ret b sz =>
    rw [run] at hr
    split at hr
    next c h jobs hpick =>
      exact handled_serves (hs.takeOut (pick_perm hpick)) (Option.some_inj.1 hr)
    · cases hr

theorem serves (h : Run step Proper (new nonce procs) as s) : s.Serves [] := by
  refine h.invariant (P := fun s => s.Serves []) (.new nonce procs)
    fun s a s' hs hok hstep => ?_
  obtain ⟨-, hrun | ⟨f, -, rfl⟩⟩ := step_cases hstep
  · exact run_serves hs hok hrun
  · exact hs.rest rfl rfl rfl rfl rfl

/-- The handler of a request that asks to be executed at most once runs once at most, handlers run
for this instance of the server only, and whatever is sent to the request is right: a reply is what
its handler returned, and it is sent on a connection on which the client has asked something. -/
theorem served_once (h : Run step Proper (new nonce procs) as s) :
    (∀ n x, n ≠ 0 → (s.ran.countP fun r => r.1.clt_nonce = n ∧ r.1.xid = x) ≤ 1) ∧
      (∀ r ∈ s.ran, s.Current r.1) ∧
      ∀ c h answer, (c, h, answer) ∈ s.sent → s.Right h answer ∧
        (answer ≠ .oldsrv → h.clt_nonce ≠ 0 → (h.clt_nonce, c) ∈ s.saved) := by
  have hs := serves h
  have hsaves := saves (h.mono fun s a => Proper.fresh)
  refine ⟨fun n x hn => ?_, hs.ran, fun c h answer hmem =>
    ⟨hs.sent _ hmem, hsaves.sentTo c h answer hmem⟩⟩
  obtain ⟨calls, hwindow⟩ := hs.window
  have hnew := (Rpcs.at_most_once hwindow n x).1
  rw [hs.once n x hn] at hnew
  exact (Nat.le_add_left _ _).trans hnew

/-- The handler runs while the connection of its request dies and the client asks again on another;
its reply goes there. -/
def rerouted : Server ℕ :=
  (execute (guarded step Proper) (new 1 fun _ => true)
    [.accept 5 (10, 0), .scan, .gotPdu 0 (some ⟨2, 1, 7, 0, 1⟩) true, .dispatch 0, .dispatch 0,
      .dispatch 0, .die 0, .accept 6 (11, 0), .scan, .scan,
      .gotPdu 1 (some ⟨2, 1, 7, 0, 1⟩) true, .dispatch 0, .dispatch 0, .dispatch 0, .dispatch 0,
      .handled 0 0 100 1, .dispatch 0, .dispatch 0, .dispatch 0]).get (by decide +kernel)

theorem served_once_rerouted : (1, ⟨2, 1, 7, 0, 1⟩, .reply (some 100) 1) ∈ rerouted.sent ∧
    (rerouted.ran.countP fun r => r.1.clt_nonce = 7 ∧ r.1.xid = 2) ≤ 1 ∧
      rerouted.Told ⟨2, 1, 7, 0, 1⟩ (some 100) 1 := by
  have hsent : (1, ⟨2, 1, 7, 0, 1⟩, .reply (some 100) 1) ∈ rerouted.sent := by decide +kernel
  have hrun : Run step Proper (new 1 fun _ => true) _ rerouted :=
    .of_guarded (Option.some_get _).symm
  obtain ⟨honce, -, hright⟩ := served_once hrun
  exact ⟨hsent, honce 7 2 (by decide), (hright _ _ _ hsent).1⟩

end Server

end Rpc
end CseLab
