import CseLab.Lib.Cond
import CseLab.Lib.Refcount
import CseLab.Lib.Run
import Mathlib.Data.Int.Notation
import Mathlib.Data.List.Nodup

/-!
# Handles

The servers call their clients back through handles: `handle h(cid)` and `h.safebind()` give an
`rpcc` that is bound to `cid`, and all who hold a handle of one name at a time share the `rpcc`.
`handle_mgr` keeps an `hinfo` for each name, with a count of the handles it is held by; it is
deleted with its `rpcc` when a failed binding, or `delete_handle`, has marked it and the last handle
has gone.

The steps are the critical sections of the handle manager's mutex and of an `hinfo`'s; `safebind`
is in two, as it binds in between.
-/

set_option autoImplicit false

namespace CseLab
namespace Rpc

variable {μ : Type*}

structure Hinfo (μ : Type*) where
  cl : Option ℕ
  refcnt : ℕ
  del : Bool
  m : μ
  /-- It is locked. -/
  cl_mutex : Bool
  /-- It has been deleted. -/
  freed : Bool

structure Handle where
  /-- `none` where it is `NULL`. -/
  h : Option ℕ
  /-- The `rpcc` that its `safebind` binds. -/
  binding : Option ℕ
  /-- For the record: what its `safebind` has returned. -/
  got : List ℕ

inductive HandleFault
  /-- An `hinfo` is touched that has been deleted. -/
  | freed
  /-- `cl_mutex` is destroyed while it is locked. -/
  | locked
  deriving DecidableEq

/-- An `rpcc` is known by its place in `rpccs`. -/
structure HandleMgr (μ : Type*) where
  info : ℕ → Hinfo μ
  /-- How many `hinfo` there have been. -/
  next : ℕ
  hmap : List (μ × ℕ)
  handles : List Handle
  /-- For which `hinfo` each was made. -/
  rpccs : List ℕ
  /-- For the record: those that have been deleted. -/
  deleted : List ℕ
  /-- For the record: what `safebind` returned, of which `hinfo`. -/
  results : List (ℕ × Option ℕ)
  /-- For the record: the `hinfo` that `delete_handle` has marked. -/
  marked : List ℕ
  fault : Option HandleFault

namespace HandleMgr

def new [Inhabited μ] : HandleMgr μ :=
  { info := fun _ => ⟨none, 0, false, default, false, true⟩, next := 0, hmap := [],
    handles := [], rpccs := [], deleted := [], results := [], marked := [], fault := none }

def use (s : HandleMgr μ) (hi : ℕ) : Except HandleFault (Hinfo μ) :=
  if (s.info hi).freed = true then .error .freed else .ok (s.info hi)

def setInfo (s : HandleMgr μ) (hi : ℕ) (h : Hinfo μ) : HandleMgr μ :=
  { s with info := Function.update s.info hi h }

def put (s : HandleMgr μ) (handle : Handle) : HandleMgr μ :=
  { s with handles := handle :: s.handles }

/-- `safebind` has returned `cl`. -/
def returned (s : HandleMgr μ) (handle : Handle) (hi : ℕ) (cl : Option ℕ) : HandleMgr μ :=
  ({ s with results := s.results ++ [(hi, cl)] }).put
    { handle with binding := none, got := cl.toList ++ handle.got }

/-- `handle::safebind`, of a handle that was taken out, up to where it binds; `none` is where it has
to wait for `cl_mutex`. -/
def safebind (s : HandleMgr μ) (handle : Handle) : Option (Except HandleFault (HandleMgr μ)) :=
  match handle.h with
  | none => some (.ok (s.put handle))
  | some hi =>
    match s.use hi with
    | .error f => some (.error f)
    | .ok h =>
      if h.cl_mutex = true then none
      else if h.del = true then some (.ok (s.returned handle hi none))
      else match h.cl with
        | some cl => some (.ok (s.returned handle hi (some cl)))
        | none =>
          let binding := { s.setInfo hi { h with cl_mutex := true } with rpccs := s.rpccs ++ [hi] }
          some (.ok (binding.put { handle with binding := some s.rpccs.length }))

/-- The rest of it, where `bind` has returned `ret`. -/
def bound (s : HandleMgr μ) (handle : Handle) (hi cl : ℕ) (ret : ℤ) :
    Except HandleFault (HandleMgr μ) := do
  let h ← s.use hi
  if ret < 0 then
    let failed := { s.setInfo hi { h with del := true, cl_mutex := false } with
      deleted := cl :: s.deleted }
    return failed.returned handle hi h.cl
  else
    return (s.setInfo hi { h with cl := some cl, cl_mutex := false }).returned handle hi (some cl)

section Table

variable [DecidableEq μ]

def find (s : HandleMgr μ) (m : μ) : Option ℕ := (s.hmap.find? fun e => e.1 = m).map Prod.snd

/-- `handle_mgr::get_handle`, and the handle is constructed with what it returns. -/
def getHandle (s : HandleMgr μ) (m : μ) : Except HandleFault (HandleMgr μ) :=
  match s.find m with
  | none =>
    let made := { s with
      info := Function.update s.info s.next ⟨none, 1, false, m, false, false⟩
      next := s.next + 1
      hmap := (m, s.next) :: s.hmap }
    return made.put ⟨some s.next, none, []⟩
  | some hi => do
    let h ← s.use hi
    if h.del = false then
      return (s.setInfo hi { h with refcnt := h.refcnt + 1 }).put ⟨some hi, none, []⟩
    else return s.put ⟨none, none, []⟩

/-- `handle_mgr::delete_handle_wo`. -/
def deleteHandleWo (s : HandleMgr μ) (m : μ) : Except HandleFault (HandleMgr μ) :=
  match s.find m with
  | none => return s
  | some hi => do
    let h ← s.use hi
    if h.refcnt = 0 then
      if h.cl_mutex = true then throw .locked
      return { s.setInfo hi { h with freed := true } with
        hmap := s.hmap.filter fun e => e.1 ≠ m
        deleted := h.cl.toList ++ s.deleted }
    else return { s.setInfo hi { h with del := true } with marked := hi :: s.marked }

/-- `handle_mgr::done_handle`. -/
def doneHandle (s : HandleMgr μ) (hi : ℕ) : Except HandleFault (HandleMgr μ) := do
  let h ← s.use hi
  -- it is held by the handle, so that the count is not zero
  let s := s.setInfo hi { h with refcnt := h.refcnt - 1 }
  if h.refcnt - 1 = 0 ∧ h.del = true then s.deleteHandleWo h.m else return s

inductive Step (μ : Type*)
  /-- `handle h(m)`. -/
  | construct (m : μ)
  /-- `safebind` of the `j`-th handle. -/
  | safebind (j : ℕ)
  /-- The binding in it comes to an end. -/
  | bound (j : ℕ) (ret : ℤ)
  /-- The `j`-th handle goes out of scope. -/
  | destroy (j : ℕ)
  | deleteHandle (m : μ)

def run (s : HandleMgr μ) : Step μ → Option (Except HandleFault (HandleMgr μ))
  | .construct m => some (s.getHandle m)
  | .safebind j =>
    match pick s.handles j with
    | some (⟨h, none, got⟩, handles) => ({ s with handles := handles }).safebind ⟨h, none, got⟩
    | _ => none
  | .bound j ret =>
    match pick s.handles j with
    | some (⟨some hi, some cl, got⟩, handles) =>
      some (({ s with handles := handles }).bound ⟨some hi, some cl, got⟩ hi cl ret)
    | _ => none
  | .destroy j =>
    match pick s.handles j with
    | some (⟨none, none, _⟩, handles) => some (.ok { s with handles := handles })
    | some (⟨some hi, none, _⟩, handles) => some (({ s with handles := handles }).doneHandle hi)
    | _ => none
  | .deleteHandle m => some (s.deleteHandleWo m)

def step (s : HandleMgr μ) (a : Step μ) : Option (HandleMgr μ) :=
  match s.fault with
  | some _ => none
  | none => (s.run a).map fun
    | .ok s' => s'
    | .error f => { s with fault := some f }

end Table

end HandleMgr

end Rpc
end CseLab
