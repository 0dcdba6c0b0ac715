import Mathlib.Data.List.Count
import Mathlib.Logic.Function.Basic

/-!
# Reference counts

Who holds an object has its name in the list of holders, as often as it holds it.  The counts are
right if each says how often its object is in the list; taking and giving up a reference keep them
right, and handing one over changes the list only in its order.
-/

set_option autoImplicit false

namespace CseLab

variable {ι : Type*} [DecidableEq ι] {refno : ι → ℕ} {held held' : List ι} {c : ι}

/-- The counts are those of the list. -/
def Counts (refno : ι → ℕ) (held : List ι) : Prop := ∀ c, refno c = held.count c

namespace Counts

theorem perm (h : Counts refno held) (hp : held'.Perm held) : Counts refno held' :=
  fun c => (h c).trans (hp.count_eq c).symm

theorem incref (h : Counts refno held) (c : ι) :
    Counts (Function.update refno c (refno c + 1)) (c :: held) := by
  intro d
  rcases eq_or_ne d c with rfl | hne
  · rw [Function.update_self, List.count_cons_self, h d]
  · rw [Function.update_of_ne hne, List.count_cons_of_ne hne.symm, h d]

theorem decref (h : Counts refno (c :: held)) :
    Counts (Function.update refno c (refno c - 1)) held := by
  intro d
  rcases eq_or_ne d c with rfl | hne
  · rw [Function.update_self, h d, List.count_cons_self, Nat.add_sub_cancel]
  · rw [Function.update_of_ne hne, h d, List.count_cons_of_ne hne.symm]

end Counts

end CseLab
