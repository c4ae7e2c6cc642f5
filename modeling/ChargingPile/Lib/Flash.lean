import Mathlib.Data.List.Basic

/-!
# Storage as a function of the address

A storage is a function from addresses to cells. Every operation on it replaces the cells of one
range and leaves the others (`overwrite`): an erase puts the blank value there, a write the bytes
it was given (`program`), and an operation that fails or is cut off puts there whatever it likes.
`Agree` says that two storages hold the same on a range. The rules below are what a transfer needs
that fills a storage from the bottom to the top: agreement grows at its upper end, and nothing that
happens above it disturbs it.
-/

namespace ChargingPile

variable {α : Type*} {f g h : Nat → α} {lo mid hi : Nat}

/-- The storage `f` with the cells of `[lo, hi)` taken from `g`. -/
def overwrite (f : Nat → α) (lo hi : Nat) (g : Nat → α) : Nat → α :=
  fun i => if lo ≤ i ∧ i < hi then g i else f i

/-- The storage `f` with `l` written at `a`. -/
def program (f : Nat → α) (a : Nat) (l : List α) : Nat → α :=
  fun i => if a ≤ i then (l[i - a]?).getD (f i) else f i

/-- The `n` cells of `g` from `a` on. -/
def slice (g : Nat → α) (a n : Nat) : List α := (List.range n).map fun i => g (a + i)

@[simp] theorem length_slice (g : Nat → α) (a n : Nat) : (slice g a n).length = n := by
  simp [slice]

@[simp] theorem overwrite_empty (f : Nat → α) (lo : Nat) (g : Nat → α) :
    overwrite f lo lo g = f := by
  funext i
  have hempty : ¬ (lo ≤ i ∧ i < lo) := by omega
  simp [overwrite, hempty]

/-- An operation leaves the cells below its range. -/
theorem overwrite_of_lt {i : Nat} (h : i < lo) : overwrite f lo hi g i = f i := by
  have hlo : ¬ lo ≤ i := by omega
  simp [overwrite, hlo]

theorem program_of_lt {i a : Nat} {l : List α} (h : i < a) : program f a l i = f i := by
  have ha : ¬ a ≤ i := by omega
  simp [program, ha]

/-- Writing a slice of `g` where it comes from copies that part of `g`. -/
theorem program_slice (f g : Nat → α) (a n : Nat) :
    program f a (slice g a n) = overwrite f a (a + n) g := by
  funext i
  simp only [program, overwrite, slice]
  split
  next ha =>
    obtain hlt | hge := Nat.lt_or_ge (i - a) n
    · have hi : i < a + n := by omega
      simp [hlt, ha, hi]
    · have hi : ¬ i < a + n := by omega
      simp [hge, hi]
  next ha => simp [ha]

/-! ## Parts of a storage -/

section
variable {v w : Nat → α} {a b n k i : Nat} {l : List α}

theorem slice_congr (h : ∀ i, a ≤ i → i < a + n → v i = w i) : slice v a n = slice w a n := by
  refine List.map_congr_left fun i hi => ?_
  have := List.mem_range.1 hi
  exact h (a + i) (by omega) (by omega)

theorem eq_of_slice_eq (h : slice v a n = slice w a n) (hi : a ≤ i) (hi' : i < a + n) :
    v i = w i := by
  have heq := congrArg (fun l => l[i - a]?) h
  have hlt : i - a < n := by omega
  have hadd : a + (i - a) = i := by omega
  simpa [slice, hlt, hadd] using heq

theorem slice_append (v : Nat → α) (a n k : Nat) :
    slice v a (n + k) = slice v a n ++ slice v (a + n) k := by
  rw [slice, slice, slice, List.range_add, List.map_append, List.map_map]
  refine congrArg _ (List.map_congr_left fun i _ => ?_)
  rw [Function.comp_apply, Nat.add_assoc]

theorem drop_slice (v : Nat → α) (a n k : Nat) :
    (slice v a (n + k)).drop n = slice v (a + n) k := by
  rw [slice_append, List.drop_left' (length_slice v a n)]

theorem take_slice (v : Nat → α) (a n k : Nat) : (slice v a (n + k)).take n = slice v a n := by
  rw [slice_append, List.take_left' (length_slice v a n)]

theorem program_of_outside (h : i < a ∨ a + l.length ≤ i) : program v a l i = v i := by
  rcases h with h | h
  · exact program_of_lt h
  · rw [program, if_pos (by omega), List.getElem?_eq_none (by omega)]
    rfl

theorem slice_program_of_apart (h : a + n ≤ b ∨ b + l.length ≤ a) :
    slice (program v b l) a n = slice v a n :=
  slice_congr fun i _ _ => program_of_outside (by omega)

/-- What has been written is there. -/
theorem slice_program_self (v : Nat → α) (a : Nat) (l : List α) :
    slice (program v a l) a l.length = l := by
  refine List.ext_getElem? fun i => ?_
  rcases Nat.lt_or_ge i l.length with hi | hi
  · simp [slice, program, hi]
  · simp [slice, hi]

/-- Something is written to a part. -/
theorem slice_program (v : Nat → α) (a b k : Nat) (l : List α) :
    slice (program v (a + b) l) a (b + (l.length + k)) =
      slice v a b ++ l ++ slice v (a + (b + l.length)) k := by
  rw [slice_append, slice_append, slice_program_self, slice_program_of_apart (by omega),
    slice_program_of_apart (by omega), List.append_assoc, Nat.add_assoc]

end

/-! ## Agreement -/

/-- The storages `f` and `g` hold the same on `[lo, hi)`. -/
def Agree (f g : Nat → α) (lo hi : Nat) : Prop := ∀ i, lo ≤ i → i < hi → f i = g i

namespace Agree

theorem empty (f g : Nat → α) (lo : Nat) : Agree f g lo lo := by
  intro i h₁ h₂
  omega

/-- Agreement on two adjacent ranges. -/
theorem append (h₁ : Agree f g lo mid) (h₂ : Agree f g mid hi) : Agree f g lo hi := by
  intro i hlo hhi
  obtain hlt | hge := Nat.lt_or_ge i mid
  · exact h₁ i hlo hlt
  · exact h₂ i hge hhi

/-- Agreement on a shorter range. -/
theorem mono {hi' : Nat} (hle : hi' ≤ hi) (hfg : Agree f g lo hi) : Agree f g lo hi' :=
  fun i h₁ h₂ => hfg i h₁ (Nat.lt_of_lt_of_le h₂ hle)

/-- Agreement depends on the cells below its end only. -/
theorem congr_below {f' : Nat → α} (hff' : ∀ i < hi, f' i = f i) (hfg : Agree f g lo hi) :
    Agree f' g lo hi :=
  fun i h₁ h₂ => (hff' i h₂).trans (hfg i h₁ h₂)

/-- What is done above a range does not disturb it. -/
theorem overwrite_above {a b : Nat} (hle : hi ≤ a) (hfg : Agree f g lo hi) :
    Agree (overwrite f a b h) g lo hi :=
  hfg.congr_below fun _ hi => overwrite_of_lt (Nat.lt_of_lt_of_le hi hle)

/-- What is copied from `g` agrees with `g`. -/
theorem overwrite_self (f g : Nat → α) (lo hi : Nat) : Agree (overwrite f lo hi g) g lo hi := by
  intro i h₁ h₂
  simp [overwrite, h₁, h₂]

end Agree

end ChargingPile
