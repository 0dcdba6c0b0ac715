import CseLab.Lib.Cond
import CseLab.Rpc.Window

/-!
# The server

`rpcs` has a thread that accepts connections, the poll thread that brings it requests, and a pool
of threads that dispatch them.  A connection is deleted when it is dead and its last reference is
given up; references are held by the listener's table, by the table of each client's latest
connection, and by the requests being dispatched.

`dispatch` and `process_accept` are cut where they lock and unlock, and their pieces are the steps.
What touches a connection goes through `Server.use`, which faults where it has been deleted.  An xid
is a natural number, as in the reply window.
-/

set_option autoImplicit false

namespace CseLab
namespace Rpc

variable {β : Type}

/-- A `req_header`, as `dispatch` reads it. -/
structure Request where
  xid : ℕ
  proc : ℤ
  clt_nonce : ℕ
  srv_nonce : ℕ
  xid_rep : ℕ
  deriving DecidableEq

/-- What is sent to a client. -/
inductive Answer (β : Type)
  | reply (b : Option β) (sz : ℤ)
  /-- `rpc_const::oldsrv_failure`. -/
  | oldsrv
  /-- `rpc_const::atmostonce_failure`. -/
  | atmostonce
  deriving DecidableEq

/-- What a server makes of a `connection`. -/
structure Connection where
  fd : ℕ
  refno : ℕ
  dead : Bool
  /-- It has been deleted. -/
  freed : Bool
  /-- Seconds and microseconds. -/
  create_time : ℤ × ℤ

/-- `connection::compare`. -/
def Connection.compare (conn another : Connection) : ℤ :=
  if another.create_time.1 < conn.create_time.1 then 1
  else if conn.create_time.1 < another.create_time.1 then -1
  else if another.create_time.2 < conn.create_time.2 then 1
  else if conn.create_time.2 < another.create_time.2 then -1
  else 0

/-- A request, and how far `dispatch` has come with it. -/
inductive Job (β : Type)
  /-- In the pool; `none` is what has no header. -/
  | queued (c : ℕ) (req : Option Request)
  /-- About to save the connection. -/
  | saving (c : ℕ) (h : Request)
  /-- About to ask the reply window. -/
  | checking (c : ℕ) (h : Request)
  | handling (c : ℕ) (h : Request)
  /-- About to call `add_reply`. -/
  | recording (c : ℕ) (h : Request) (b : β) (sz : ℤ)
  /-- About to look for the client's latest connection. -/
  | rerouting (c : ℕ) (h : Request) (b : β) (sz : ℤ)
  | sending (c : ℕ) (h : Request) (answer : Answer β)
  /-- About to give the connection up. -/
  | leaving (c : ℕ)

/-- The connection that it holds. -/
def Job.conn : Job β → ℕ
  | .queued c _ => c
  | .saving c _ => c
  | .checking c _ => c
  | .handling c _ => c
  | .recording c _ _ _ => c
  | .rerouting c _ _ _ => c
  | .sending c _ _ => c
  | .leaving c => c

/-- Where the accepting thread is in `process_accept`, with the new connection `ch` and what it has
still to look at. -/
inductive Accepting
  | no
  | scanning (ch : ℕ) (cs : List ℕ)
  /-- It has found `c` dead with one reference. -/
  | condemned (ch c : ℕ) (cs : List ℕ)

/-- The connection that is not in the table yet. -/
def Accepting.pending : Accepting → List ℕ
  | .no => []
  | .scanning ch _ => [ch]
  | .condemned ch _ _ => [ch]

/-- What it has still to look at. -/
def Accepting.rest : Accepting → List ℕ
  | .no => []
  | .scanning _ cs => cs
  | .condemned _ c cs => c :: cs

inductive ServerFault
  /-- A connection is touched that has been deleted. -/
  | freed
  /-- `VERIFY(refno_>=0)`. -/
  | negative
  | unknownProc
  /-- `VERIFY(rh.ret >= 0)`. -/
  | badRet
  /-- A null pointer is followed. -/
  | null
  deriving DecidableEq

/-- `rpcs` with its `tcpsconn`. -/
structure Server (β : Type) where
  nonce : ℕ
  procs : ℤ → Bool
  conn : ℕ → Connection
  /-- How many connections there have been. -/
  next : ℕ
  /-- `tcpsconn::conns_`; the keys are the descriptors. -/
  listed : List ℕ
  accepting : Accepting
  /-- `rpcs::conns_`. -/
  conns : List (ℕ × ℕ)
  window : Rpcs β
  jobs : List (Job β)
  /-- For the record: the handlers that have returned, and with what. -/
  ran : List (Request × β × ℤ)
  /-- For the record. -/
  sent : List (ℕ × Request × Answer β)
  /-- For the record: who was saved for which client. -/
  saved : List (ℕ × ℕ)
  /-- For the record: references that nobody will give up. -/
  leaked : List ℕ
  fault : Option ServerFault

namespace Server

def new (nonce : ℕ) (procs : ℤ → Bool) : Server β :=
  { nonce := nonce, procs := procs, conn := fun _ => ⟨0, 0, true, true, (0, 0)⟩, next := 0,
    listed := [], accepting := .no, conns := [], window := .start, jobs := [], ran := [],
    sent := [], saved := [], leaked := [], fault := none }

/-! ## Connections -/

def use (s : Server β) (c : ℕ) : Except ServerFault Connection :=
  if (s.conn c).freed = true then .error .freed else .ok (s.conn c)

def setConn (s : Server β) (c : ℕ) (conn : Connection) : Server β :=
  { s with conn := Function.update s.conn c conn }

/-- `connection::incref`. -/
def incref (s : Server β) (c : ℕ) : Except ServerFault (Server β) := do
  let conn ← s.use c
  return s.setConn c { conn with refno := conn.refno + 1 }

/-- `connection::decref`. -/
def decref (s : Server β) (c : ℕ) : Except ServerFault (Server β) := do
  let conn ← s.use c
  if conn.refno = 0 then throw .negative
  return s.setConn c { conn with
    refno := conn.refno - 1
    freed := conn.refno - 1 = 0 && conn.dead }

/-! ## `dispatch` -/

/-- A request that was taken out goes back. -/
def goto (s : Server β) (job : Job β) : Server β := { s with jobs := job :: s.jobs }

/-- `conns_[clt_nonce]`; where there is no entry it makes one, which is null. -/
def latest (s : Server β) (clt_nonce : ℕ) : Option ℕ :=
  (s.conns.find? fun e => e.1 = clt_nonce).map Prod.snd

/-- `conns_[clt_nonce] = c`. -/
def setLatest (s : Server β) (clt_nonce c : ℕ) : Server β :=
  { s with conns := (clt_nonce, c) :: s.conns.eraseP fun e => e.1 = clt_nonce }

/-- Up to where it locks for the first time. -/
def begin (s : Server β) (c : ℕ) : Option Request → Except ServerFault (Server β)
  | none => return s.goto (.leaving c)
  | some h =>
    if h.srv_nonce ≠ 0 ∧ h.srv_nonce ≠ s.nonce then do
      let _ ← s.use c
      -- the source returns here without giving up the connection
      return { s with sent := s.sent ++ [(c, h, .oldsrv)], leaked := c :: s.leaked }
    else if s.procs h.proc = false then throw .unknownProc
    else if h.clt_nonce ≠ 0 then return s.goto (.saving c h)
    else return s.goto (.handling c h)

/-- Save the latest good connection to the client. -/
def save (s : Server β) (c : ℕ) (h : Request) : Except ServerFault (Server β) := do
  let s := ({ s with saved := s.saved ++ [(h.clt_nonce, c)] }).goto (.checking c h)
  match s.latest h.clt_nonce with
  | none =>
    let s ← s.incref c
    return s.setLatest h.clt_nonce c
  | some old =>
    let oldConn ← s.use old
    let conn ← s.use c
    if oldConn.compare conn < 0 then
      let s ← s.decref old
      let s ← s.incref c
      return s.setLatest h.clt_nonce c
    else return s

/-- What is done with what the reply window says. -/
def answered (c : ℕ) (h : Request) : RpcState β → Job β
  | .new => .handling c h
  | .inprogress => .leaving c
  | .done b sz => .sending c h (.reply b sz)
  | .forgotten => .sending c h .atmostonce

/-- Ask the reply window. -/
def check (s : Server β) (c : ℕ) (h : Request) : Server β :=
  let (stat, window) :=
    checkduplicateAndUpdate (s.window.reply_window h.clt_nonce) h.xid h.xid_rep
  let asked : Rpcs β :=
    { reply_window := Function.update s.window.reply_window h.clt_nonce window
      log := s.window.log ++ [.answered h.clt_nonce h.xid stat] }
  ({ s with window := asked }).goto (answered c h stat)

/-- The handler returns `ret`, and `rep` is `b`. -/
def handled (s : Server β) (c : ℕ) (h : Request) (ret : ℤ) (b : β) (sz : ℤ) :
    Except ServerFault (Server β) :=
  if ret < 0 then throw .badRet
  else
    let job : Job β := if 0 < h.clt_nonce then .recording c h b sz else .rerouting c h b sz
    return ({ s with ran := s.ran ++ [(h, b, sz)] }).goto job

/-- `add_reply`. -/
def record (s : Server β) (c : ℕ) (h : Request) (b : β) (sz : ℤ) : Server β :=
  let window := addReply h.xid (some b) sz (s.window.reply_window h.clt_nonce)
  let added : Rpcs β :=
    { reply_window := Function.update s.window.reply_window h.clt_nonce window
      log := s.window.log ++ [.added h.clt_nonce h.xid (some b) sz] }
  ({ s with window := added }).goto (.rerouting c h b sz)

/-- Get the latest connection to the client. -/
def reroute (s : Server β) (c : ℕ) (h : Request) (b : β) (sz : ℤ) :
    Except ServerFault (Server β) := do
  let conn ← s.use c
  if conn.dead = true ∧ s.latest h.clt_nonce ≠ some c then
    let s ← s.decref c
    match s.latest h.clt_nonce with
    | none => throw .null
    | some c' =>
      let s ← s.incref c'
      return s.goto (.sending c' h (.reply (some b) sz))
  else return s.goto (.sending c h (.reply (some b) sz))

/-- The next piece of `dispatch`, the handler apart; of `s`, the job has been taken out. -/
def advance (s : Server β) : Job β → Except ServerFault (Server β)
  | .queued c req => s.begin c req
  | .saving c h => s.save c h
  | .checking c h => return s.check c h
  | .handling c h => return s.goto (.handling c h)
  | .recording c h b sz => return s.record c h b sz
  | .rerouting c h b sz => s.reroute c h b sz
  | .sending c h answer => do
    let _ ← s.use c
    return ({ s with sent := s.sent ++ [(c, h, answer)] }).goto (.leaving c)
  | .leaving c => s.decref c

/-! ## `process_accept` -/

/-- The next piece of the loop. -/
def examine (s : Server β) (ch : ℕ) : List ℕ → Except ServerFault (Server β)
  | c :: cs => do
    let conn ← s.use c
    return { s with accepting :=
      if conn.dead = true ∧ conn.refno = 1 then .condemned ch c cs else .scanning ch cs }
  | [] => do
    let conn ← s.use ch
    return { s with
      listed := ch :: s.listed.filter fun c => (s.conn c).fd ≠ conn.fd
      accepting := .no }

/-- It gives up `c` and takes it out of the table. -/
def collect (s : Server β) (ch c : ℕ) (cs : List ℕ) : Except ServerFault (Server β) := do
  let s ← s.decref c
  return { s with listed := s.listed.erase c, accepting := .scanning ch cs }

/-! ## Steps -/

inductive Step (β : Type)
  /-- `accept` returns the descriptor `fd`. -/
  | accept (fd : ℕ) (create_time : ℤ × ℤ)
  /-- The accepting thread goes on. -/
  | scan
  /-- Reading from a connection fails, or writing to it. -/
  | die (c : ℕ)
  /-- `got_pdu`, where the pool takes the request or not. -/
  | gotPdu (c : ℕ) (req : Option Request) (succ : Bool)
  /-- `dispatch` goes on with the `j`-th request. -/
  | dispatch (j : ℕ)
  /-- The handler of the `j`-th request returns. -/
  | handled (j : ℕ) (ret : ℤ) (b : β) (sz : ℤ)

/-- `rpcs::got_pdu`. -/
def gotPdu (s : Server β) (c : ℕ) (req : Option Request) (succ : Bool) :
    Except ServerFault (Server β) := do
  let s ← s.incref c
  if succ = true then return s.goto (.queued c req) else s.decref c

def run (s : Server β) : Step β → Option (Except ServerFault (Server β))
  | .accept fd create_time =>
    match s.accepting with
    | .no => some (.ok { s with
        conn := Function.update s.conn s.next ⟨fd, 1, false, false, create_time⟩
        next := s.next + 1
        accepting := .scanning s.next s.listed })
    | _ => none
  | .scan =>
    match s.accepting with
    | .no => none
    | .scanning ch cs => some (s.examine ch cs)
    | .condemned ch c cs => some (s.collect ch c cs)
  | .die c => some (.ok (s.setConn c { s.conn c with dead := true }))
  | .gotPdu c req succ =>
    if (s.conn c).dead = true then none else some (s.gotPdu c req succ)
  | .dispatch j => (pick s.jobs j).map fun (job, jobs) => ({ s with jobs := jobs }).advance job
  | .handled j ret b sz =>
    match pick s.jobs j with
    | some (.handling c h, jobs) => some (({ s with jobs := jobs }).handled c h ret b sz)
    | _ => none

def step (s : Server β) (a : Step β) : Option (Server β) :=
  match s.fault with
  | some _ => none
  | none => (s.run a).map fun
    | .ok s' => s'
    | .error f => { s with fault := some f }

/-- No descriptor is given out that is open. -/
def Fresh (s : Server β) : Step β → Prop
  | .accept fd _ => ∀ c < s.next, (s.conn c).freed = false → (s.conn c).fd ≠ fd
  | _ => True

instance (s : Server β) : ∀ a, Decidable (s.Fresh a)
  | .accept _ _ => inferInstanceAs (Decidable (∀ c < s.next, _))
  | .gotPdu .. | .scan | .die _ | .dispatch _ | .handled .. => inferInstanceAs (Decidable True)

/-- What comes from outside: no descriptor is given out that is open, and a request acknowledges
only what comes before it. -/
def Proper (s : Server β) : Step β → Prop
  | .accept fd _ => ∀ c < s.next, (s.conn c).freed = false → (s.conn c).fd ≠ fd
  | .gotPdu _ (some h) _ => h.xid_rep < h.xid
  | _ => True

instance (s : Server β) : ∀ a, Decidable (s.Proper a)
  | .accept _ _ => inferInstanceAs (Decidable (∀ c < s.next, _))
  | .gotPdu _ (some h) _ => inferInstanceAs (Decidable (h.xid_rep < h.xid))
  | .gotPdu _ none _ | .scan | .die _ | .dispatch _ | .handled .. =>
    inferInstanceAs (Decidable True)

theorem Proper.fresh {s : Server β} {a : Step β} (h : s.Proper a) : s.Fresh a := by
  cases a with
  | accept fd create_time => exact h
  | scan | die | gotPdu | dispatch | handled => trivial

end Server

end Rpc
end CseLab
