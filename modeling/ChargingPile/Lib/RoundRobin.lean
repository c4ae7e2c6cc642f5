import Mathlib.Algebra.Group.Fin.Basic
import Mathlib.Algebra.GroupWithZero.Nat
import Mathlib.Data.List.FinRange

/-!
# Round robin

`n` parties sit on a ring. A round visits them once, beginning with the one whose turn it is, and
serves the first that is due; the turn then passes to the party after it. A due party that is not
served waits for fewer visits than before (`wait_next`), so it is served within `n` rounds in
which it stays due.
-/

namespace ChargingPile.RoundRobin

variable {n : Nat}

/-- The parties in the order of a round. -/
def visits (turn : Fin n) : List (Fin n) := (List.finRange n).map (turn + ·)

/-- The party that a round serves. -/
def next (turn : Fin n) (due : Fin n → Bool) : Option (Fin n) := (visits turn).find? due

/-- The number of visits before that of `j`. -/
def wait (turn j : Fin n) : Nat := (j - turn).val

theorem wait_lt (turn j : Fin n) : wait turn j < n := (j - turn).isLt

theorem nodup_visits (turn : Fin n) : (visits turn).Nodup :=
  (List.nodup_finRange n).map (add_right_injective turn)

variable [NeZero n] {turn i j : Fin n} {due : Fin n → Bool}

theorem mem_visits (turn j : Fin n) : j ∈ visits turn :=
  List.mem_map.2 ⟨j - turn, List.mem_finRange _, add_sub_cancel turn j⟩

/-- The visits come in the order of the waiting. -/
theorem pairwise_visits (turn : Fin n) :
    (visits turn).Pairwise fun i j => wait turn i < wait turn j := by
  rw [visits, List.pairwise_map]
  refine (List.pairwise_lt_finRange n).imp ?_
  intro a b hab
  rw [wait, wait, add_sub_cancel_left, add_sub_cancel_left]
  exact hab

/-- With the turn at the party after `i`, a later one waits for the visits of the others only. -/
theorem wait_succ (h : wait turn i < wait turn j) : wait (i + 1) j < wait turn j := by
  have hsub : j - (i + 1) = (j - turn) - (i - turn + 1) := by
    rw [sub_add_eq_sub_sub, sub_add_eq_sub_sub, sub_sub_sub_cancel_right]
  unfold wait at h ⊢
  rw [hsub]
  generalize i - turn = a at h
  generalize j - turn = b at h
  have hsucc : (a + 1).val = a.val + 1 := Fin.val_add_one_of_lt' (by omega)
  have hle : a + 1 ≤ b := by
    rw [Fin.le_def, hsucc]
    exact h
  rw [Fin.sub_val_of_le hle, hsucc]
  omega

theorem next_isSome (h : due j = true) : (next turn due).isSome = true := by
  rw [next, List.find?_isSome]
  exact ⟨j, mem_visits turn j, h⟩

/-- A due party that is not served comes nearer to its turn. -/
theorem wait_next (hi : next turn due = some i) (hj : due j = true) (hne : i ≠ j) :
    wait (i + 1) j < wait turn j := by
  obtain ⟨-, l, m, hvisits, hl⟩ := List.find?_eq_some_iff_append.1 hi
  have hm : j ∈ m := by
    have hmem := mem_visits turn j
    rw [hvisits, List.mem_append, List.mem_cons] at hmem
    rcases hmem with hmem | hmem | hmem
    · have := hl j hmem
      rw [hj] at this
      cases this
    · exact absurd hmem.symm hne
    · exact hmem
  have hpair := pairwise_visits turn
  rw [hvisits, List.pairwise_append, List.pairwise_cons] at hpair
  exact wait_succ (hpair.2.1.1 j hm)

end ChargingPile.RoundRobin
