import CseLab.Lib.Journal

/-!
# Waiting in line

Somebody who asks for something may be told to wait, and some day be served; others are served
without waiting.  `line` reads off a log of such turns who is waiting, in the order in which they
have come, and who has been served that had waited, in the order in which they were served.  It does
not ask whose turn it was.

A turn is fair (`Turn.Fair`) if nobody is served while somebody else has been waiting for longer.
Where all are, those that had to wait are served in the order in which they have come
(`granted_append_waiting`).
-/

set_option autoImplicit false

namespace CseLab

variable {α : Type*}

/-- One turn. -/
inductive Turn (α : Type*)
  /-- `a` has to wait. -/
  | queue (a : α)
  | serve (a : α)
  deriving DecidableEq

/-- Those that wait, and those that have been served after a wait. -/
structure Line (α : Type*) where
  waiting : List α
  granted : List α

/-- Those that had to wait. -/
def queued (log : List (Turn α)) : List α :=
  log.filterMap fun
    | .queue a => some a
    | .serve _ => none

theorem queued_snoc_queue (log : List (Turn α)) (a : α) :
    queued (log ++ [.queue a]) = queued log ++ [a] := by
  rw [queued, List.filterMap_append]
  rfl

theorem queued_snoc_serve (log : List (Turn α)) (a : α) :
    queued (log ++ [.serve a]) = queued log := by
  rw [queued, List.filterMap_append]
  exact List.append_nil _

variable [DecidableEq α] {log : List (Turn α)} {w : List α} {a : α}

/-- One more turn. -/
def Line.after (l : Line α) : Turn α → Line α
  | .queue a => { l with waiting := l.waiting ++ [a] }
  | .serve a => if a ∈ l.waiting then ⟨l.waiting.erase a, l.granted ++ [a]⟩ else l

/-- What the log says. -/
def line (log : List (Turn α)) : Line α := log.foldl Line.after ⟨[], []⟩

/-- Nobody is served while another has been waiting for longer. -/
def Turn.Fair (before : List (Turn α)) : Turn α → Prop
  | .queue _ => True
  | .serve a => (line before).waiting = [] ∨ (line before).waiting.head? = some a

@[simp] theorem line_nil : line ([] : List (Turn α)) = ⟨[], []⟩ := rfl

theorem line_snoc (t : Turn α) : line (log ++ [t]) = (line log).after t := by
  rw [line, List.foldl_append]
  rfl

theorem line_snoc_queue : line (log ++ [.queue a]) =
    ⟨(line log).waiting ++ [a], (line log).granted⟩ :=
  line_snoc _

/-- Somebody is served where nobody waits. -/
theorem line_snoc_serve_nil (h : (line log).waiting = []) :
    line (log ++ [.serve a]) = line log := by
  rw [line_snoc, Line.after, h, if_neg List.not_mem_nil]

/-- The first in line is served. -/
theorem line_snoc_serve_cons (h : (line log).waiting = a :: w) :
    line (log ++ [.serve a]) = ⟨w, (line log).granted ++ [a]⟩ := by
  rw [line_snoc, Line.after, h, if_pos List.mem_cons_self, List.erase_cons_head]

/-- **Those that had to wait are served in the order in which they have come.** -/
theorem granted_append_waiting (h : Journal Turn.Fair log) :
    (line log).granted ++ (line log).waiting = queued log := by
  induction log using List.reverseRecOn with
  | nil => rfl
  | append_singleton log t ih =>
    obtain ⟨hlog, hfair⟩ := h.of_snoc
    have hlog := ih hlog
    cases t with
    | queue a => rw [line_snoc_queue, queued_snoc_queue, ← hlog, List.append_assoc]
    | serve a =>
      rw [queued_snoc_serve, ← hlog]
      rcases hfair with hnil | hhead
      · rw [line_snoc_serve_nil hnil]
      · obtain ⟨w, hw⟩ := List.head?_eq_some_iff.1 hhead
        rw [line_snoc_serve_cons hw, hw, List.append_assoc]
        rfl

end CseLab
