import CseLab.Lib.OrdMap
import CseLab.Lib.Run
import CseLab.Ydb.Log
import Mathlib.Data.Nat.Basic

/-!
# The optimistic server, one protected section at a time

`ydb_server_occ` keeps for every live transaction a map from the extents it has touched to a
`TValue`: the generation under which the extent was first seen, whether it was read and written, and
the value the transaction would see there now.  A stored value carries its generation in front
(`composeValue`); an extent with no value has generation 0.  `transaction_commit` compares, under
the commit lock, the generation of everything it has read with the stored one, and installs its
writes under the generation it remembers plus one.

The model cuts every call at the sections the code protects with a lock, and each section is one
action:

* `begin` is `transaction_begin`;
* `call id c` is the start of a call up to and including its look at `tMap` — for a `get` or `write`
  of an extent the transaction has touched already, and for an abort, that is the whole call;
* `resume id` is the next section of the call transaction `id` has in progress: reading the store
  under the extent's lock, entering the result into the transaction's map, the commit section, the
  removal of the transaction.

The calls of one transaction come one after another; everything else interleaves freely.  `log`
records the calls that have returned and the commits in the order of their commit sections; no
action reads it.

Transaction ids are counted up from whatever `nextTransactionId` held when the server was built.
-/

set_option autoImplicit false

namespace CseLab
namespace Ydb
namespace Occ

/-! ## Stored values -/

/-- `ydb_server_occ::getGeneration`: the `int` at the front of a stored value. -/
def getGeneration (str : Bytes) : Int32 :=
  if str.length = 0 then 0
  else (wordOf (str.getD 0 0) (str.getD 1 0) (str.getD 2 0) (str.getD 3 0)).toInt32

/-- `ydb_server_occ::composeValue`. -/
def composeValue (g : Int32) (v : Bytes) : Bytes := wordBytes g.toUInt32 ++ v

/-- The value part of `ydb_server_occ::decomposeValue`.  Only empty strings and strings made by
`composeValue` are ever stored, so `substr` is never asked for a position past the end. -/
def valuePart (str : Bytes) : Bytes := if str.length = 0 then [] else str.drop 4

/-- `ydb_server_occ::decomposeValue`. -/
def decomposeValue (str : Bytes) : Int32 × Bytes := (getGeneration str, valuePart str)

@[simp] theorem getGeneration_nil : getGeneration [] = 0 := rfl

@[simp] theorem valuePart_nil : valuePart [] = [] := rfl

@[simp] theorem getGeneration_composeValue (g : Int32) (v : Bytes) :
    getGeneration (composeValue g v) = g := by
  simp [getGeneration, composeValue, wordBytes]

@[simp] theorem valuePart_composeValue (g : Int32) (v : Bytes) :
    valuePart (composeValue g v) = v := by
  simp [valuePart, composeValue, wordBytes]

/-! ## State -/

/-- What a transaction remembers of an extent it has touched. -/
structure TValue where
  generation : Int32
  readen : Bool
  written : Bool
  value : Bytes
  deriving DecidableEq

/-- The extents a transaction has touched. -/
abbrev VMap := OrdMap ExtentId TValue

/-- Where a call stands that has passed its first section. -/
inductive Pc
  /-- `get` of an untouched extent, before it reads the store. -/
  | read (key : Bytes)
  /-- The same, with generation and value in hand. -/
  | readInsert (key : Bytes) (g : Int32) (v : Bytes)
  /-- `write` to an untouched extent, before it samples the generation. -/
  | sample (c : Call) (eid : ExtentId) (value : Bytes)
  /-- The same, with the generation in hand. -/
  | sampleInsert (c : Call) (eid : ExtentId) (value : Bytes) (g : Int32)
  /-- `transaction_commit`, before the commit lock. -/
  | commit
  /-- The same, after the commit lock has been given back. -/
  | erase (ret : Status)
  deriving DecidableEq

/-- The server, the store behind it, the calls in progress and the log. -/
structure State where
  nextTransactionId : TransactionId
  tMap : TransactionId → Option VMap
  store : IdealStore
  calls : TransactionId → Option Pc
  log : List Event

/-- A new server: `nextTransactionId` is not initialised, so it is whatever it is. -/
def State.start (n₀ : TransactionId) : State where
  nextTransactionId := n₀
  tMap := fun _ => none
  store := IdealStore.fresh
  calls := fun _ => none
  log := []

/-! ## The sections -/

/-- The first loop of `transaction_commit`: nothing the transaction has read carries a newer
generation by now. -/
def validates (store : IdealStore) (m : VMap) : Bool :=
  m.entries.all fun p => !p.2.readen || !decide (getGeneration (store p.1) > p.2.generation)

/-- The generation an extent has once the write of `e` is installed. -/
def newGeneration (e : TValue) : Int32 := if e.value.length = 0 then 0 else e.generation + 1

/-- One round of the second loop of `transaction_commit`. -/
def installEntry (store : IdealStore) (p : ExtentId × TValue) : IdealStore :=
  if !p.2.written then store
  else if p.2.value.length = 0 then store.remove p.1
  else store.put p.1 (composeValue (p.2.generation + 1) p.2.value)

/-- The second loop of `transaction_commit`. -/
def installAll (store : IdealStore) (m : VMap) : IdealStore := m.entries.foldl installEntry store

namespace State

/-- The call `c` of transaction `id` returns. -/
def reply (s : State) (id : TransactionId) (c : Call) (ret : Status) (out : Bytes) : State :=
  { s with
    calls := Function.update s.calls id none
    log := s.log ++ [.returned id c ret out] }

/-- The call of transaction `id` goes on to `pc`. -/
def goto (s : State) (id : TransactionId) (pc : Pc) : State :=
  { s with calls := Function.update s.calls id (some pc) }

/-- The map of transaction `id` becomes `m`. -/
def setMap (s : State) (id : TransactionId) (m : VMap) : State :=
  { s with tMap := Function.update s.tMap id (some m) }

/-- `tMap.erase`. -/
def eraseMap (s : State) (id : TransactionId) : State :=
  { s with tMap := Function.update s.tMap id none }

section fields

variable (s : State) (id : TransactionId) (c : Call) (ret : Status) (out : Bytes) (pc : Pc)
  (m : VMap)

@[simp] theorem reply_next : (s.reply id c ret out).nextTransactionId = s.nextTransactionId := rfl
@[simp] theorem reply_tMap : (s.reply id c ret out).tMap = s.tMap := rfl
@[simp] theorem reply_store : (s.reply id c ret out).store = s.store := rfl
@[simp] theorem reply_calls :
    (s.reply id c ret out).calls = Function.update s.calls id none := rfl
@[simp] theorem reply_log :
    (s.reply id c ret out).log = s.log ++ [.returned id c ret out] := rfl
@[simp] theorem goto_next : (s.goto id pc).nextTransactionId = s.nextTransactionId := rfl
@[simp] theorem goto_tMap : (s.goto id pc).tMap = s.tMap := rfl
@[simp] theorem goto_store : (s.goto id pc).store = s.store := rfl
@[simp] theorem goto_calls : (s.goto id pc).calls = Function.update s.calls id (some pc) := rfl
@[simp] theorem goto_log : (s.goto id pc).log = s.log := rfl
@[simp] theorem setMap_next : (s.setMap id m).nextTransactionId = s.nextTransactionId := rfl
@[simp] theorem setMap_tMap : (s.setMap id m).tMap = Function.update s.tMap id (some m) := rfl
@[simp] theorem setMap_store : (s.setMap id m).store = s.store := rfl
@[simp] theorem setMap_calls : (s.setMap id m).calls = s.calls := rfl
@[simp] theorem setMap_log : (s.setMap id m).log = s.log := rfl
@[simp] theorem eraseMap_next : (s.eraseMap id).nextTransactionId = s.nextTransactionId := rfl
@[simp] theorem eraseMap_tMap : (s.eraseMap id).tMap = Function.update s.tMap id none := rfl
@[simp] theorem eraseMap_store : (s.eraseMap id).store = s.store := rfl
@[simp] theorem eraseMap_calls : (s.eraseMap id).calls = s.calls := rfl
@[simp] theorem eraseMap_log : (s.eraseMap id).log = s.log := rfl

end fields

/-- `transaction_begin`. -/
def begin (s : State) : Option State :=
  if s.nextTransactionId < intMax then
    some { s with
      nextTransactionId := s.nextTransactionId + 1
      tMap := Function.update s.tMap s.nextTransactionId
        (some ((s.tMap s.nextTransactionId).getD OrdMap.empty)) }
  else none

/-- `get` of an extent in the transaction's map, and the start of one that is not. -/
def startGet (s : State) (id : TransactionId) (m : VMap) (key : Bytes) : State :=
  match m.find (hash key) with
  | none => s.goto id (.read key)
  | some e => (s.setMap id (m.set (hash key) { e with readen := true })).reply id (.get key) .ok
      e.value

/-- `write` to an extent in the transaction's map, and the start of one that is not. -/
def startWrite (s : State) (id : TransactionId) (m : VMap) (c : Call) (eid : ExtentId)
    (value : Bytes) : State :=
  match m.find eid with
  | none => s.goto id (.sample c eid value)
  | some e => (s.setMap id (m.set eid { e with written := true, value := value })).reply id c .ok []

/-- A call of a transaction that is not in `tMap`: `transaction_abort` answers `ok` all the same. -/
def startUnknown (s : State) (id : TransactionId) (c : Call) : State :=
  s.reply id c (if c = .transactionAbort then .ok else .transidinv) []

/-- A call of a transaction whose map is `m`. -/
def startKnown (s : State) (id : TransactionId) (m : VMap) : Call → State
  | .get key => s.startGet id m key
  | .set key value => s.startWrite id m (.set key value) (hash key) value
  | .del key => s.startWrite id m (.del key) (hash key) []
  | .transactionCommit => s.goto id .commit
  | .transactionAbort => (s.eraseMap id).reply id .transactionAbort .ok []

/-- The first section of a call. -/
def call (s : State) (id : TransactionId) (c : Call) : Option State :=
  match s.calls id, s.tMap id with
  | some _, _ => none
  | none, none => some (s.startUnknown id c)
  | none, some m => some (s.startKnown id m c)

/-- The section between the commit lock's acquire and its release. -/
def commitSection (s : State) (id : TransactionId) (m : VMap) : State :=
  if validates s.store m then
    { s with
      store := installAll s.store m
      calls := Function.update s.calls id (some (.erase .ok))
      log := s.log ++ [.committed id] }
  else s.goto id (.erase .abort)

/-- The next section of the call transaction `id` has in progress. -/
def resume (s : State) (id : TransactionId) : Option State :=
  match s.calls id, s.tMap id with
  | some (.read key), some _ =>
    let (g, v) := decomposeValue (s.store (hash key))
    some (s.goto id (.readInsert key g v))
  | some (.readInsert key g v), some m =>
    some ((s.setMap id (m.insert (hash key) ⟨g, true, false, v⟩)).reply id (.get key) .ok v)
  | some (.sample c eid value), some _ =>
    some (s.goto id (.sampleInsert c eid value (getGeneration (s.store eid))))
  | some (.sampleInsert c eid value g), some m =>
    some ((s.setMap id (m.insert eid ⟨g, false, true, value⟩)).reply id c .ok [])
  | some .commit, some m => some (s.commitSection id m)
  | some (.erase ret), some _ => some ((s.eraseMap id).reply id .transactionCommit ret [])
  | _, _ => none

end State

/-! ## The machine -/

/-- What the scheduler may do next. -/
inductive Action
  | begin
  | call (id : TransactionId) (c : Call)
  | resume (id : TransactionId)
  deriving DecidableEq

/-- One action. -/
def step (s : State) : Action → Option State
  | .begin => s.begin
  | .call id c => s.call id c
  | .resume id => s.resume id

end Occ
end Ydb
end CseLab
