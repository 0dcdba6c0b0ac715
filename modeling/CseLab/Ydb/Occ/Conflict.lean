import CseLab.Lib.Journal
import CseLab.Ydb.Occ.Generations

/-!
# What an optimistic transaction is aborted for

`transaction_commit` answers `ABORT` when an extent the transaction has read carries a larger
generation than the one the transaction remembers.  It remembers the generation it found when it
first looked the extent up, for a `get` or for a `write`, and only a commit changes what is stored.
So there has been a commit in between that wrote the extent, whatever deletions have done to the
generations, and by another transaction, since a transaction that has committed validates no more.

`timeline` is a run as this argument sees it: beginnings, first looks at an extent, returns, commits
and refusals, in their order.  `Knows` is what the map of a transaction and its call in progress say
about the timeline, and `Explained` is what each moment says about those before it.

A key is its hash to the server, so the other transaction may have written another key of the same
hash.
-/

set_option autoImplicit false

namespace CseLab
namespace Ydb
namespace Occ

open Serial

/-! ## The timeline of a run -/

/-- What happens in a run. -/
inductive Moment
  /-- `transaction_begin` has handed out this id. -/
  | begun (id : TransactionId)
  /-- A call of the transaction has looked its extent up in the store. -/
  | sampled (id : TransactionId) (c : Call)
  /-- A call has returned, or a commit section has installed its writes. -/
  | logged (e : Event)
  /-- A commit section has found something newer than what the transaction has read. -/
  | refused (id : TransactionId)
  deriving DecidableEq

/-- What is to be seen of a step besides the log. -/
def unlogged (s : State) : Action → List Moment
  | .begin => [.begun s.nextTransactionId]
  | .call _ _ => []
  | .resume id =>
    match s.calls id, s.tMap id with
    | some (.read key), _ => [.sampled id (.get key)]
    | some (.sample c _ _), _ => [.sampled id c]
    | some .commit, some m => if validates s.store m then [] else [.refused id]
    | _, _ => []

/-- What happens in a step. -/
def moments (s : State) (a : Action) (s' : State) : List Moment :=
  unlogged s a ++ (s'.log.drop s.log.length).map .logged

/-- What happens in a run, in order. -/
def timeline (n₀ : TransactionId) (as : List Action) : List Moment :=
  observe step moments (State.start n₀) as

/-! ## Conflicts -/

section conflict

variable (P : Bytes → Prop) (tl : List Moment) (id : TransactionId)

/-- The transaction has looked up a key of the kind `P`. -/
def Sampled : Prop := ∃ c key, .sampled id c ∈ tl ∧ c.key = some key ∧ P key

/-- A `get` of a key of the kind `P` has returned. -/
def Got : Prop := ∃ key out, .logged (.returned id (.get key) .ok out) ∈ tl ∧ P key

/-- A `set` or `del` of a key of the kind `P` has returned. -/
def Wrote : Prop :=
  ∃ c key out, .logged (.returned id c .ok out) ∈ tl ∧ c.writes = some key ∧ P key

/-- Another transaction has committed a write of a key of the kind `P` since this one looked such a
key up. -/
def Overwritten : Prop :=
  ∃ before u after, tl = before ++ .logged (.committed u) :: after ∧ u ≠ id ∧
    Sampled P before id ∧ Wrote P before u

/-- Another transaction has committed a write of a key this one has read, since this one first
touched it: `same key` are the keys that count as `key`. -/
def Conflict (same : Bytes → Bytes → Prop) : Prop :=
  ∃ key, Got (· = key) tl id ∧ Overwritten (same key) tl id

end conflict

/-- Two keys that are one to the server. -/
def SameHash (key key' : Bytes) : Prop := hash key' = hash key

/-- `transaction_commit` returns `ABORT` only if there was a conflict before it validated. -/
def AbortsOnConflict (same : Bytes → Bytes → Prop) (tl : List Moment) : Prop :=
  ∀ before id out after,
    tl = before ++ .logged (.returned id .transactionCommit .abort out) :: after →
      ∃ early late, before = early ++ .refused id :: late ∧ Conflict early id same

/-- A transaction since whose beginning no other has committed passes its commit section. -/
def LoneCommits (s : State) (tl : List Moment) : Prop :=
  ∀ before id after m, tl = before ++ .begun id :: after →
    (∀ u, .logged (.committed u) ∈ after → u = id) → s.calls id = some .commit →
      s.tMap id = some m → Commits s (.resume id) m

/-! ## What only grows -/

section grow

variable {P : Bytes → Prop} {tl : List Moment} {id : TransactionId}

theorem Sampled.append (h : Sampled P tl id) (ms : List Moment) : Sampled P (tl ++ ms) id :=
  let ⟨c, key, hmem, hkey⟩ := h
  ⟨c, key, List.mem_append_left ms hmem, hkey⟩

theorem Got.append (h : Got P tl id) (ms : List Moment) : Got P (tl ++ ms) id :=
  let ⟨key, out, hmem, hkey⟩ := h
  ⟨key, out, List.mem_append_left ms hmem, hkey⟩

theorem Wrote.append (h : Wrote P tl id) (ms : List Moment) : Wrote P (tl ++ ms) id :=
  let ⟨c, key, out, hmem, hkey⟩ := h
  ⟨c, key, out, List.mem_append_left ms hmem, hkey⟩

theorem Overwritten.append (h : Overwritten P tl id) (ms : List Moment) :
    Overwritten P (tl ++ ms) id := by
  obtain ⟨before, u, after, rfl, hu⟩ := h
  exact ⟨before, u, after ++ ms, by rw [List.append_assoc, List.cons_append], hu⟩

end grow

/-- A key of the extent. -/
def At (eid : ExtentId) (key : Bytes) : Prop := hash key = eid

/-- The generation the transaction remembers for an extent: it has looked the extent up, and what is
stored now is no larger unless another transaction has committed a write since. -/
structure Dated (store : IdealStore) (tl : List Moment) (id : TransactionId) (eid : ExtentId)
    (g : Int32) : Prop where
  sampled : Sampled (At eid) tl id
  upToDate : getGeneration (store eid) ≤ g ∨ Overwritten (At eid) tl id

/-- What an entry of a transaction's map says has happened. -/
structure Held (store : IdealStore) (tl : List Moment) (id : TransactionId) (eid : ExtentId)
    (e : TValue) : Prop where
  dated : Dated store tl id eid e.generation
  got : e.readen = true → Got (At eid) tl id
  wrote : e.written = true → Wrote (At eid) tl id

/-- The extent and the generation a call in progress has in hand. -/
def Pc.hand : Pc → Option (ExtentId × Int32)
  | .readInsert key g _ => some (hash key, g)
  | .sampleInsert _ eid _ g => some (eid, g)
  | .read _ | .sample _ _ _ | .commit | .erase _ => none

/-- What the map of transaction `id` and its call in progress say has happened. -/
structure Knows (store : IdealStore) (tl : List Moment) (id : TransactionId) (map : Option VMap)
    (pc : Option Pc) : Prop where
  held : ∀ m, map = some m → (∀ ret, pc ≠ some (.erase ret)) → ∀ eid e, m.find eid = some e →
    Held store tl id eid e
  hand : ∀ p eid g, pc = some p → p.hand = some (eid, g) → Dated store tl id eid g
  refused : pc = some (.erase .abort) → .refused id ∈ tl

section knows

variable {store : IdealStore} {tl : List Moment} {id : TransactionId} {eid : ExtentId} {g : Int32}
  {map : Option VMap} {pc : Option Pc}

theorem Dated.append (h : Dated store tl id eid g) (ms : List Moment) :
    Dated store (tl ++ ms) id eid g :=
  ⟨h.sampled.append ms, h.upToDate.imp_right fun h => h.append ms⟩

theorem Held.append {e : TValue} (h : Held store tl id eid e) (ms : List Moment) :
    Held store (tl ++ ms) id eid e :=
  ⟨h.dated.append ms, fun hr => (h.got hr).append ms, fun hw => (h.wrote hw).append ms⟩

theorem Knows.append (h : Knows store tl id map pc) (ms : List Moment) :
    Knows store (tl ++ ms) id map pc where
  held m hm hpc eid e he := (h.held m hm hpc eid e he).append ms
  hand p eid g hp hhand := (h.hand p eid g hp hhand).append ms
  refused hpc := List.mem_append_left ms (h.refused hpc)

/-- A commit of another transaction: what it has not written is as it was, and what it has written
is overwritten from now on. -/
theorem Dated.install {u : TransactionId} {m : VMap} (h : Dated store tl id eid g) (hne : u ≠ id)
    (hwrote : ∀ e, m.find eid = some e → e.written = true → Wrote (At eid) tl u) :
    Dated (installAll store m) (tl ++ [.logged (.committed u)]) id eid g := by
  refine ⟨h.sampled.append _, ?_⟩
  have hover : Wrote (At eid) tl u → Overwritten (At eid) (tl ++ [.logged (.committed u)]) id :=
    fun hw => ⟨tl, u, [], rfl, hne, h.sampled, hw⟩
  have hsame := h.upToDate.imp_right fun h => h.append [.logged (.committed u)]
  rw [getGeneration_installAll]
  cases he : m.find eid with
  | none => exact hsame
  | some e =>
    cases hw : e.written with
    | false => simpa [hw] using hsame
    | true => exact .inr (hover (hwrote e he hw))

theorem Knows.install {u : TransactionId} {m : VMap} (h : Knows store tl id map pc) (hne : u ≠ id)
    (hwrote : ∀ eid e, m.find eid = some e → e.written = true → Wrote (At eid) tl u) :
    Knows (installAll store m) (tl ++ [.logged (.committed u)]) id map pc where
  held m' hm hpc eid e he :=
    have hheld := h.held m' hm hpc eid e he
    ⟨hheld.dated.install hne (hwrote eid), fun hr => (hheld.got hr).append _,
      fun hw => (hheld.wrote hw).append _⟩
  hand p eid g hp hhand := (h.hand p eid g hp hhand).install hne (hwrote eid)
  refused hpc := List.mem_append_left _ (h.refused hpc)

end knows

/-! ## What a moment says about those before it -/

/-- A transaction looks nothing up before it begins, is refused for a conflict, and is told `ABORT`
once it has been refused. -/
def Explained (tl : List Moment) : Moment → Prop
  | .begun id => ∀ c, .sampled id c ∉ tl
  | .refused id => Conflict tl id SameHash
  | .logged (.returned id .transactionCommit .abort _) => .refused id ∈ tl
  | .sampled _ _ | .logged _ => True

/-- What ties the state of the server to the timeline. -/
structure Accounted (s : State) (tl : List Moment) : Prop where
  knows : ∀ id, Knows s.store tl id (s.tMap id) (s.calls id)
  /-- A transaction that has looked something up has begun. -/
  born : ∀ id c, .sampled id c ∈ tl → id < s.nextTransactionId
  explained : Journal Explained tl

theorem Accounted.start (n₀ : TransactionId) : Accounted (State.start n₀) [] where
  knows _ :=
    ⟨fun _ h => absurd h (by simp [State.start]), fun _ _ _ h => absurd h (by simp [State.start]),
      fun h => absurd h (by simp [State.start])⟩
  born _ _ h := absurd h (by simp)
  explained := .nil

section step

variable {s s' : State} {tl : List Moment} {x : Moment} {id : TransactionId} {m : VMap}

/-- A step of transaction `id` in which nothing is installed. -/
theorem Accounted.snoc {a : Action} (h : Accounted s tl) (id : TransactionId) (x : Moment)
    (hm : moments s a s' = [x])
    (hstore : s'.store = s.store) (hnext : s'.nextTransactionId = s.nextTransactionId)
    (hother : ∀ u, u ≠ id → s'.tMap u = s.tMap u ∧ s'.calls u = s.calls u)
    (hself : Knows s.store (tl ++ [x]) id (s'.tMap id) (s'.calls id)) (hx : Explained tl x)
    (hborn : ∀ u c, x = .sampled u c → u < s.nextTransactionId) :
    Accounted s' (tl ++ moments s a s') := by
  rw [hm]
  refine ⟨fun u => ?_, fun u c hmem => ?_, h.explained.snoc hx⟩
  · rw [hstore]
    by_cases hu : u = id
    · exact hu ▸ hself
    · rw [(hother u hu).1, (hother u hu).2]
      exact (h.knows u).append [x]
  · rw [hnext]
    rcases List.mem_append.1 hmem with hmem | hmem
    · exact h.born u c hmem
    · exact hborn u c (List.mem_singleton.1 hmem).symm

/-- The transaction's map gets an entry, and its call is over. -/
theorem Knows.set {store : IdealStore} {pc : Option Pc} {eid : ExtentId} {e : TValue}
    (h : Knows store tl id (some m) pc) (hpc : ∀ ret, pc ≠ some (.erase ret)) (ms : List Moment)
    (he : Held store (tl ++ ms) id eid e) :
    Knows store (tl ++ ms) id (some (m.set eid e)) none where
  held m' hm _ eid' e' he' := by
    obtain rfl := Option.some_inj.1 hm
    rw [OrdMap.find_set] at he'
    split at he'
    · rename_i heid
      obtain rfl := Option.some_inj.1 he'
      exact heid ▸ he
    · exact (h.held m rfl hpc eid' e' he').append ms
  hand _ _ _ hp := absurd hp (by simp)
  refused hp := absurd hp (by simp)

/-- The same for an extent that was not in the map, and whose generation the call has in hand. -/
theorem Knows.insert {store : IdealStore} {p : Pc} {eid : ExtentId} {e : TValue}
    (h : Knows store tl id (some m) (some p)) (hhand : p.hand = some (eid, e.generation))
    (hnone : m.find eid = .none) (ms : List Moment)
    (hgot : e.readen = true → Got (At eid) (tl ++ ms) id)
    (hwrote : e.written = true → Wrote (At eid) (tl ++ ms) id) :
    Knows store (tl ++ ms) id (some (m.insert eid e)) none := by
  have hdated := (h.hand p eid e.generation rfl hhand).append ms
  rw [OrdMap.insert_of_find_none hnone]
  refine h.set (fun ret hret => ?_) ms ⟨hdated, hgot, hwrote⟩
  rw [Option.some_inj.1 hret] at hhand
  exact absurd hhand (by simp [Pc.hand])

theorem Knows.none {store : IdealStore} : Knows store tl id none none :=
  ⟨fun _ h => absurd h (by simp), fun _ _ _ h => absurd h (by simp), fun h => absurd h (by simp)⟩

theorem got_returned {c : Call} {eid : ExtentId} {out v : Bytes}
    (h : c.done out = some (.get eid v)) :
    Got (At eid) (tl ++ [.logged (.returned id c .ok out)]) id := by
  obtain ⟨key, rfl, hkey⟩ := Call.of_done_get h
  exact ⟨key, out, by simp, hkey⟩

theorem wrote_returned {c : Call} {eid : ExtentId} {out v : Bytes}
    (h : c.done out = some (.put eid v)) :
    Wrote (At eid) (tl ++ [.logged (.returned id c .ok out)]) id := by
  obtain ⟨key, -, hwrites, hkey⟩ := Call.of_done_put h
  exact ⟨c, key, out, by simp, hwrites, hkey⟩

/-- A call about an extent in the map. -/
theorem Knows.touch {store : IdealStore} {m' : VMap} {d : Done ExtentId Bytes} {c : Call}
    {out : Bytes} (h : Knows store tl id (some m) .none) (ht : Touch m m' d)
    (hkey : (m.find d.key).isSome) (hd : c.done out = some d) :
    Knows store (tl ++ [.logged (.returned id c .ok out)]) id (some m') .none := by
  have hheld := h.held m rfl (by simp)
  cases ht with
  | @getHit eid e he =>
    have hold := (hheld eid e he).append [.logged (.returned id c .ok out)]
    exact h.set (by simp) _ ⟨hold.dated, fun _ => got_returned hd, hold.wrote⟩
  | @writeHit eid e value he =>
    have hold := (hheld eid e he).append [.logged (.returned id c .ok out)]
    exact h.set (by simp) _ ⟨hold.dated, hold.got, fun _ => wrote_returned hd⟩
  | getMiss g v he | writeMiss g v he =>
    rw [Done.key, he] at hkey
    exact absurd hkey (by simp)

/-- What a commit section that refuses has found. -/
theorem Knows.conflict {store : IdealStore} (h : Knows store tl id (some m) (some .commit))
    (hval : validates store m = false) : Conflict tl id SameHash := by
  have hnot : ¬ ∀ eid e, m.find eid = some e → e.readen = true →
      ¬ getGeneration (store eid) > e.generation := by
    rw [← validates_iff, hval]
    simp
  push Not at hnot
  obtain ⟨eid, e, he, hr, hgt⟩ := hnot
  have hheld := h.held m rfl (by simp) eid e he
  obtain ⟨key, out, hmem, rfl⟩ := hheld.got hr
  refine ⟨key, ⟨key, out, hmem, rfl⟩, hheld.dated.upToDate.resolve_left fun hle => ?_⟩
  exact Int32.lt_irrefl (Int32.lt_of_lt_of_le hgt hle)

/-- A call of a transaction that is not there does not return `ABORT`. -/
theorem reject_ne_abort {c : Call} {ret : Status} (hid : s.tMap id = .none)
    (hcall : s.calls id = .none) (h : s.call id c = some (s.reply id c ret [])) : ret ≠ .abort := by
  rw [State.call, hid, hcall, Option.some_inj] at h
  have hlog := congrArg State.log h
  simp only [State.startUnknown, State.reply_log, List.append_cancel_left_eq, List.cons.injEq,
    Event.returned.injEq] at hlog
  obtain ⟨⟨-, -, rfl, -⟩, -⟩ := hlog
  split <;> simp

/-! ## One step -/

/-- The new transaction has an empty map, and has looked nothing up. -/
theorem Accounted.begin (hi : Inv s) (h : Accounted s tl) :
    Accounted { s with
      nextTransactionId := s.nextTransactionId + 1
      tMap := Function.update s.tMap s.nextTransactionId
        (some ((s.tMap s.nextTransactionId).getD OrdMap.empty)) }
      (tl ++ [.begun s.nextTransactionId]) := by
  obtain ⟨hnone, hcall, -⟩ := hi.unborn s.nextTransactionId (Int.le_refl _)
  refine ⟨fun u => ?_, fun u c hmem => ?_, h.explained.snoc fun c hmem => ?_⟩
  · by_cases hu : u = s.nextTransactionId
    · subst hu
      simp only [Function.update_self, hnone, hcall, Option.getD_none]
      refine ⟨fun m hm _ eid e he => ?_, fun _ _ _ hp => absurd hp (by simp),
        fun hp => absurd hp (by simp)⟩
      obtain rfl := Option.some_inj.1 hm
      exact absurd he (by simp)
    · simp only [Function.update_of_ne hu]
      exact (h.knows u).append _
  · have hlt := h.born u c (by simpa using hmem)
    exact Int.lt_trans hlt (Int.lt_add_one_of_le (Int.le_refl _))
  · exact absurd (h.born _ c hmem) (Int.lt_irrefl _)

/-- The commit section installs the writes and the transaction is on its way out. -/
theorem Accounted.commit (h : Accounted s tl) (hid : s.tMap id = some m)
    (hcall : s.calls id = some .commit) :
    Accounted { s with
      store := installAll s.store m
      calls := Function.update s.calls id (some (.erase .ok))
      log := s.log ++ [.committed id] } (tl ++ [.logged (.committed id)]) := by
  refine ⟨fun u => ?_, fun u c hmem => h.born u c (by simpa using hmem), h.explained.snoc trivial⟩
  by_cases hu : u = id
  · subst hu
    simp only [Function.update_self]
    refine ⟨fun _ _ hpc => absurd rfl (hpc .ok), fun p eid g hp hhand => ?_,
      fun hp => absurd hp (by simp)⟩
    obtain rfl := Option.some_inj.1 hp
    exact absurd hhand (by simp [Pc.hand])
  · have hknows := h.knows id
    rw [hid, hcall] at hknows
    simp only [Function.update_of_ne hu]
    exact (h.knows u).install (Ne.symm hu) fun eid e he =>
      (hknows.held m rfl (by simp) eid e he).wrote

/-- Going on to another program point, with a generation in hand or not. -/
theorem Knows.goto {store : IdealStore} {map : Option VMap} {pc : Option Pc}
    (h : Knows store tl id map pc) (pc' : Pc) (hpc : ∀ ret, pc ≠ some (.erase ret))
    (ms : List Moment)
    (hhand : ∀ eid g, pc'.hand = some (eid, g) → Dated store (tl ++ ms) id eid g)
    (hrefused : pc' = .erase .abort → .refused id ∈ tl ++ ms) :
    Knows store (tl ++ ms) id map (some pc') where
  held m hm _ eid e he := (h.held m hm hpc eid e he).append ms
  hand _ eid g hp hg := hhand eid g (Option.some_inj.1 hp ▸ hg)
  refused hp := hrefused (Option.some_inj.1 hp)

theorem Pc.Initial.hand {pc : Pc} (h : pc.Initial m) : pc.hand = .none := by
  cases pc with
  | read | sample | commit => rfl
  | readInsert | sampleInsert | erase => exact h.elim

theorem Pc.Initial.ne_erase {pc : Pc} (h : pc.Initial m) (ret : Status) : pc ≠ .erase ret := by
  rintro rfl
  exact h

/-- The start of a call that has to look its extent up, or to validate. -/
theorem Accounted.enter {pc : Pc} (h : Accounted s tl) (hcall : s.calls id = .none)
    (hpc : pc.Initial m) : Accounted (s.goto id pc) tl := by
  refine ⟨fun u => ?_, h.born, h.explained⟩
  by_cases hu : u = id
  · subst hu
    have hknows := (h.knows u).goto pc (by simp [hcall]) []
      (fun _ _ hg => absurd (hpc.hand.symm.trans hg) (by simp))
      fun hp => absurd hp (hpc.ne_erase .abort)
    simpa using hknows
  · simpa [hu] using h.knows u

/-- A look at the store: what it gives is up to date. -/
theorem Knows.look {store : IdealStore} {map : Option VMap} {pc : Option Pc} {c : Call}
    {key : Bytes} (h : Knows store tl id map pc) (pc' : Pc) (hpc : ∀ ret, pc ≠ some (.erase ret))
    (hkey : c.key = some key)
    (hhand : pc'.hand = some (hash key, getGeneration (store (hash key)))) :
    Knows store (tl ++ [.sampled id c]) id map (some pc') := by
  refine h.goto pc' hpc _ (fun eid g hg => ?_) fun hp => ?_
  · obtain ⟨rfl, rfl⟩ := Prod.mk.inj (Option.some_inj.1 (hhand.symm.trans hg))
    exact ⟨⟨c, key, by simp, hkey, rfl⟩, .inl (Int32.le_refl _)⟩
  · rw [hp] at hhand
    exact absurd hhand (by simp [Pc.hand])

/-- The call of `id` goes on, which is no entry of the log. -/
theorem Accounted.goes {pc : Pc} (h : Accounted s tl) (hun : unlogged s (.resume id) = [x])
    (hself : Knows s.store (tl ++ [x]) id (s.tMap id) (some pc)) (hx : Explained tl x)
    (hborn : ∀ u c, x = .sampled u c → u < s.nextTransactionId) :
    Accounted (s.goto id pc) (tl ++ moments s (.resume id) (s.goto id pc)) :=
  h.snoc id x (by simp [moments, hun]) rfl rfl (fun u hu => by simp [hu]) (by simpa using hself) hx
    hborn

/-- A call of `id` returns, and `map` is what there is of the transaction then. -/
theorem Accounted.returns {a : Action} {c : Call} {ret : Status} {out : Bytes} {map : Option VMap}
    (h : Accounted s tl) (hun : unlogged s a = [])
    (hs : s' = { s with tMap := Function.update s.tMap id map }.reply id c ret out)
    (hself : Knows s.store (tl ++ [.logged (.returned id c ret out)]) id map .none)
    (hx : Explained tl (.logged (.returned id c ret out))) :
    Accounted s' (tl ++ moments s a s') := by
  subst hs
  exact h.snoc id _ (by simp [moments, hun]) rfl rfl (fun u hu => by simp [hu])
    (by simpa using hself) hx (by simp)

theorem explained_ok {c : Call} {out : Bytes} :
    Explained tl (.logged (.returned id c .ok out)) := by
  cases c <;> trivial

/-- Every step keeps the account. -/
theorem Accounted.step {a : Action} (hi : Inv s) (h : Accounted s tl)
    (hs : Occ.step s a = some s') : Accounted s' (tl ++ moments s a s') := by
  cases step_cases hs with
  | begin hlt => simpa [moments, unlogged] using h.begin hi
  | @reject id c ret hid hcall hret =>
    refine h.returns rfl (by rw [← hid, Function.update_eq_self]) .none ?_
    have hne := reject_ne_abort hid hcall hs
    cases c with
    | transactionCommit =>
      cases ret with
      | abort => exact absurd rfl hne
      | ok | rpcerr | transidinv => trivial
    | get | set | del | transactionAbort => trivial
  | @hit id c m m' d out hid hcall ht hkey hd =>
    have hknows := h.knows id
    rw [hid, hcall] at hknows
    exact h.returns rfl rfl (hknows.touch ht hkey hd) explained_ok
  | @enter id c m pc hid hcall hpc => simpa [moments, unlogged] using h.enter hcall hpc
  | @abort id m hid hcall => exact h.returns rfl rfl .none trivial
  | @read id key m hid hcall =>
    have hlt := hi.lt_next hid
    exact h.goes (by simp [unlogged, hcall])
      ((h.knows id).look (c := .get key) _ (by simp [hcall]) rfl rfl) trivial (by simp [hlt])
  | @readInsert id key v g m hid hcall =>
    have hknows := h.knows id
    rw [hid, hcall] at hknows
    obtain ⟨m', hm', hnone⟩ := hi.about id _ hcall
    obtain rfl := Option.some_inj.1 (hid.symm.trans hm')
    exact h.returns (by simp [unlogged, hcall]) rfl (hknows.insert rfl hnone _
      (fun _ => got_returned rfl) fun hw => absurd hw (by simp)) explained_ok
  | @sample id c eid value m hid hcall =>
    have hlt := hi.lt_next hid
    obtain ⟨-, -, -, hd⟩ := hi.about id _ hcall
    obtain ⟨key, hkey, -, rfl⟩ := Call.of_done_put hd
    exact h.goes (by simp [unlogged, hcall])
      ((h.knows id).look (c := c) _ (by simp [hcall]) hkey rfl) trivial (by simp [hlt])
  | @sampleInsert id c eid value g m hid hcall =>
    have hknows := h.knows id
    rw [hid, hcall] at hknows
    obtain ⟨m', hm', hnone, hd⟩ := hi.about id _ hcall
    obtain rfl := Option.some_inj.1 (hid.symm.trans hm')
    exact h.returns (by simp [unlogged, hcall]) rfl (hknows.insert rfl hnone _
      (fun hr => absurd hr (by simp)) fun _ => wrote_returned hd) explained_ok
  | @commit id m hid hcall hval =>
    simpa [moments, unlogged, hid, hcall, hval] using h.commit hid hcall
  | @refuse id m hid hcall hval =>
    have hknows := h.knows id
    rw [hid, hcall] at hknows
    have hun : unlogged s (.resume id) = [.refused id] := by simp [unlogged, hid, hcall, hval]
    refine h.goes hun ?_ (hknows.conflict hval) (by simp)
    rw [hid]
    exact hknows.goto _ (by simp) _ (fun eid g hg => absurd hg (by simp [Pc.hand])) (by simp)
  | @erase id ret m hid hcall =>
    refine h.returns (by simp [unlogged, hcall]) rfl .none ?_
    cases ret with
    | abort => exact (h.knows id).refused hcall
    | ok | rpcerr | transidinv => trivial

end step

/-! ## Every run -/

section run

variable {ok : State → Action → Prop} {n₀ : TransactionId} {as : List Action} {s : State}
  {tl : List Moment}

theorem Accounted.of_run (h : Run Occ.step ok (State.start n₀) as s) :
    Accounted s (timeline n₀ as) := by
  induction h with
  | nil => exact .start n₀
  | snoc h hok hs ih =>
    rw [timeline, h.observe_snoc hs]
    exact ih.step (.of_run h) hs

theorem Accounted.abortsOnConflict (h : Accounted s tl) : AbortsOnConflict SameHash tl := by
  intro before id out after htl
  have hrefused : .refused id ∈ before := h.explained before _ after htl
  obtain ⟨early, late, rfl⟩ := List.append_of_mem hrefused
  rw [List.append_assoc, List.cons_append] at htl
  exact ⟨early, late, rfl, h.explained early (.refused id) _ htl⟩

theorem Accounted.loneCommits (h : Accounted s tl) : LoneCommits s tl := by
  intro before id after m htl hlone hcall hid
  refine ⟨id, rfl, hcall, hid, ?_⟩
  cases hval : validates s.store m with
  | true => rfl
  | false =>
    have hknows := h.knows id
    rw [hid, hcall] at hknows
    obtain ⟨key, -, before', u, after', htl', hne, ⟨c, key', hsampled, -⟩, -⟩ :=
      hknows.conflict hval
    -- the first look came after the beginning, so the commit of `u` did
    have hlate : Moment.sampled id c ∉ before := h.explained before (.begun id) after htl c
    rcases List.append_eq_append_iff.1 (htl'.symm.trans htl) with
      ⟨mid, hbefore, -⟩ | ⟨mid, hbefore, hafter⟩
    · exact absurd (hbefore ▸ List.mem_append_left mid hsampled) hlate
    · cases mid with
      | nil => exact absurd (List.cons.inj hafter).1 (by simp)
      | cons x mid =>
        rw [List.cons_append, List.cons.injEq] at hafter
        exact absurd (hlone u (by simp [hafter.2])) hne

/-- **The optimistic server aborts only on a conflict.**  In every run, a transaction that is told
`ABORT` was refused after another had committed a write of a key it had read, or of one of the same
hash, which it had touched before that commit; and a transaction since whose beginning no other has
committed passes its commit section. -/
theorem aborts_on_conflict (h : Run Occ.step anyStep (State.start n₀) as s) :
    AbortsOnConflict SameHash (timeline n₀ as) ∧ LoneCommits s (timeline n₀ as) :=
  ⟨(Accounted.of_run h).abortsOnConflict, (Accounted.of_run h).loneCommits⟩

end run

/-- A transaction reads the key `Az`, another writes the key `B;`, and both commit: the hashes of
the two keys are the same. -/
def sharedExtent : List Action :=
  [.begin, .call 0 (.get [65, 122]), .resume 0, .resume 0,
    .begin, .call 1 (.set [66, 59] [118]), .resume 1, .resume 1, .call 1 .transactionCommit,
    .resume 1, .resume 1,
    .call 0 .transactionCommit, .resume 0, .resume 0]

theorem aborts_on_conflict_sharedExtent : ∃ s,
    Run Occ.step anyStep (State.start 0) sharedExtent s ∧
      AbortsOnConflict SameHash (timeline 0 sharedExtent) ∧
        LoneCommits s (timeline 0 sharedExtent) := by
  have hsome : (execute step (State.start 0) sharedExtent).isSome := by decide +kernel
  obtain ⟨s, hs⟩ := Option.isSome_iff_exists.1 hsome
  exact ⟨s, .of_execute hs, aborts_on_conflict (.of_execute hs)⟩

/-- **A transaction is aborted for a key it has never touched.** -/
theorem not_aborts_on_conflict :
    ¬ ∀ n₀ as s, Run Occ.step anyStep (State.start n₀) as s →
      AbortsOnConflict (fun key key' => key' = key) (timeline n₀ as) ∧
        LoneCommits s (timeline n₀ as) := by
  intro h
  have hsome : (execute step (State.start 0) sharedExtent).isSome := by decide +kernel
  obtain ⟨s, hs⟩ := Option.isSome_iff_exists.1 hsome
  have htl : timeline 0 sharedExtent =
      [.begun 0, .sampled 0 (.get [65, 122]), .logged (.returned 0 (.get [65, 122]) .ok []),
        .begun 1, .sampled 1 (.set [66, 59] [118]),
        .logged (.returned 1 (.set [66, 59] [118]) .ok []), .logged (.committed 1),
        .logged (.returned 1 .transactionCommit .ok []), .refused 0] ++
      .logged (.returned 0 .transactionCommit .abort []) :: [] := by decide +kernel
  obtain ⟨early, late, hearly, key, ⟨key₁, out, hgot, hsame₁⟩, before, u, after, rfl, -, -,
    c, key₂, out', hwrote, hwrites, hsame₂⟩ := (h 0 sharedExtent s (.of_execute hs)).1 _ _ _ _ htl
  have hget := hearly ▸ List.mem_append_left _ hgot
  have hset := hearly ▸ List.mem_append_left _ (List.mem_append_left _ hwrote)
  -- the key read is `Az`, and no call has written it
  have hkey : key₁ = [65, 122] ∧ out = [] := by simpa using hget
  have hcall : c = .get [65, 122] ∨ c = .set [66, 59] [118] ∨ c = .transactionCommit := by
    simp only [List.mem_cons, Moment.logged.injEq, Event.returned.injEq, reduceCtorEq] at hset
    tauto
  rw [hsame₂, ← hsame₁, hkey.1] at hwrites
  rcases hcall with rfl | rfl | rfl <;> exact absurd hwrites (by decide)

end Occ
end Ydb
end CseLab
