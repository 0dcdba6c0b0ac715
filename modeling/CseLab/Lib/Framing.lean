import Mathlib.Data.List.Basic
import Mathlib.Data.List.Infix

/-!
# Messages in a stream

Where no message is the beginning of another, a stream can be cut into messages in one way only.
Two parties cut the same stream, one up to where it has read, and the other has put in what may not
be a whole message yet at its end; then what the first has cut off is what the second has put in
(`PrefixFree.prefix_of_flatten`).
-/

set_option autoImplicit false

namespace CseLab

variable {α : Type*}

/-- None of the messages is the beginning of another. -/
def PrefixFree (C : List α → Prop) : Prop := ∀ x y, C x → C y → x <+: y → x = y

variable {C : List α → Prop} {xs ys : List (List α)} {p q : List α}

theorem PrefixFree.prefix_of_flatten (hC : PrefixFree C) (hxs : ∀ x ∈ xs, C x)
    (hys : ∀ y ∈ ys, C y) (hp : ∀ y, C y → ¬ y <+: p)
    (heq : xs.flatten ++ p = ys.flatten ++ q) : ys <+: xs := by
  induction ys generalizing xs with
  | nil => exact List.nil_prefix
  | cons y ys ih =>
    have hy := hys y (.head _)
    rw [List.flatten_cons, List.append_assoc] at heq
    cases xs with
    | nil => exact absurd ⟨_, heq.symm⟩ (hp y hy)
    | cons x xs =>
      have hx := hxs x (.head _)
      rw [List.flatten_cons, List.append_assoc] at heq
      -- the first messages begin alike
      have hxy : x = y := by
        rcases List.prefix_or_prefix_of_prefix (List.prefix_append x _)
          (heq ▸ List.prefix_append y _) with h | h
        · exact hC x y hx hy h
        · exact (hC y x hy hx h).symm
      subst hxy
      exact List.cons_prefix_cons.2 ⟨rfl, ih (fun z hz => hxs z (.tail _ hz))
        (fun z hz => hys z (.tail _ hz)) (List.append_cancel_left heq)⟩

end CseLab
