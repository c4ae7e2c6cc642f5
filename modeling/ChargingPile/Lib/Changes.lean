import Mathlib.Data.List.Basic

/-!
# Changes in a list

`changes a l` counts the places of `a :: l` at which an element differs from the one before it.
Dropping elements does not add to it, nor does repeating the last one, and another first or last
element adds at most one.
-/

namespace ChargingPile

variable {α : Type*} [DecidableEq α]

/-- How often `a :: l` goes from one element to a different one. -/
def changes (a : α) : List α → Nat
  | [] => 0
  | b :: l => (if a = b then 0 else 1) + changes b l

theorem changes_le_of_head (a b : α) (l : List α) :
    changes a l ≤ (if a = b then 0 else 1) + changes b l := by
  cases l with
  | nil => exact Nat.zero_le _
  | cons c l =>
    simp only [changes]
    by_cases hab : a = b
    · subst hab
      simp
    · simp only [hab, if_false]
      split <;> omega

theorem changes_le_of_sublist {l l' : List α} (h : l.Sublist l') (a : α) :
    changes a l ≤ changes a l' := by
  induction h generalizing a with
  | slnil => exact Nat.le_refl _
  | cons b _ ih => exact Nat.le_trans (changes_le_of_head a b _) (Nat.add_le_add_left (ih b) _)
  | cons_cons b _ ih => exact Nat.add_le_add_left (ih b) _

theorem changes_concat_concat (a b : α) (l : List α) :
    changes a (l ++ [b, b]) = changes a (l ++ [b]) := by
  induction l generalizing a with
  | nil => simp [changes]
  | cons c l ih =>
    simp only [List.cons_append, changes]
    rw [ih]

theorem changes_concat_le (a b c : α) (l : List α) :
    changes a (l ++ [c]) ≤ changes a (l ++ [b]) + 1 := by
  induction l generalizing a with
  | nil =>
    simp only [List.nil_append, changes]
    split <;> omega
  | cons d l ih =>
    have hrest := ih d
    simp only [List.cons_append, changes]
    omega

end ChargingPile
