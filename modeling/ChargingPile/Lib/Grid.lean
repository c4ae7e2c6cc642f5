import Mathlib.Data.List.Basic

/-!
# Loops over a grid

A `Grid` holds one value per cell of a rectangle. Its cells are read and changed at any integer
coordinates, and an access outside the rectangle fails. `forRange` is the loop of C over a range of
integers, whose body may fail. `forRect_eq` is the rule for two nested loops each step of which
changes the cell it is at: every cell of the range has been changed once, and no other cell.
-/

namespace ChargingPile

/-- `n` steps of a loop from the index `a` on. -/
def forSteps {σ : Type*} (body : Int → σ → Option σ) : Nat → Int → σ → Option σ
  | 0, _, s => some s
  | n + 1, a, s => (body a s).bind (forSteps body n (a + 1))

/-- `for(auto i = a; i < b; i++) body`. -/
def forRange {σ : Type*} (a b : Int) (body : Int → σ → Option σ) (s : σ) : Option σ :=
  forSteps body (b - a).toNat a s

section Loop

variable {σ : Type*} {a b : Int} {body : Int → σ → Option σ} {s : σ}

/-- An empty range. -/
theorem forRange_of_le (h : b ≤ a) : forRange a b body s = some s := by
  have hn : (b - a).toNat = 0 := by omega
  rw [forRange, hn, forSteps]

/-- The first step of a loop. -/
theorem forRange_cons (h : a < b) :
    forRange a b body s = (body a s).bind (forRange (a + 1) b body) := by
  have hn : (b - a).toNat = (b - (a + 1)).toNat + 1 := by omega
  rw [forRange, hn, forSteps]
  rfl

/-- A loop fails if its first step does. -/
theorem forRange_of_none (h : a < b) (hbody : body a s = none) : forRange a b body s = none := by
  rw [forRange_cons h, hbody, Option.bind_none]

/-- **The loop rule.** A loop whose state at every index is known. -/
theorem forRange_eq (next : Int → σ) (hab : a ≤ b)
    (hstep : ∀ i, a ≤ i → i < b → body i (next i) = some (next (i + 1))) :
    forRange a b body (next a) = some (next b) := by
  obtain ⟨n, rfl⟩ : ∃ n : Nat, b = a + n := ⟨(b - a).toNat, by omega⟩
  clear hab
  induction n generalizing a with
  | zero =>
    rw [forRange_of_le (by omega)]
    exact congrArg (some ∘ next) (by omega)
  | succ n ih =>
    have hend : a + ((n + 1 : Nat) : Int) = a + 1 + (n : Int) := by omega
    rw [hend] at hstep ⊢
    rw [forRange_cons (by omega), hstep a (Int.le_refl a) (by omega), Option.bind_some]
    exact ih fun i hi hlt => hstep i (by omega) hlt

end Loop

/-- A grid of `width` times `height` cells. -/
structure Grid (C : Type*) where
  width : Nat
  height : Nat
  cell : Int → Int → C

namespace Grid

variable {C : Type*}

/-- The coordinates of the cells. -/
def Inside (g : Grid C) (x y : Int) : Prop := 0 ≤ x ∧ x < g.width ∧ 0 ≤ y ∧ y < g.height

instance (g : Grid C) (x y : Int) : Decidable (g.Inside x y) :=
  inferInstanceAs (Decidable (0 ≤ x ∧ x < g.width ∧ 0 ≤ y ∧ y < g.height))

/-- Reading a cell. -/
def get (g : Grid C) (x y : Int) : Option C := if g.Inside x y then some (g.cell x y) else none

/-- Changing a cell. -/
def modify (g : Grid C) (x y : Int) (f : C → C) : Option (Grid C) :=
  if g.Inside x y then
    some { g with cell := fun i j => if i = x ∧ j = y then f (g.cell x y) else g.cell i j }
  else none

/-- The grid in which every cell of a range has been changed. -/
def mapRect (g : Grid C) (x₀ x₁ y₀ y₁ : Int) (f : Int → Int → C → C) : Grid C :=
  { g with cell := fun i j =>
      if x₀ ≤ i ∧ i < x₁ ∧ y₀ ≤ j ∧ j < y₁ then f i j (g.cell i j) else g.cell i j }

section Rect

variable {g : Grid C} {x y x₀ x₁ y₀ y₁ : Int} {f : Int → Int → C → C}

@[simp] theorem mapRect_width : (g.mapRect x₀ x₁ y₀ y₁ f).width = g.width := rfl

@[simp] theorem mapRect_height : (g.mapRect x₀ x₁ y₀ y₁ f).height = g.height := rfl

theorem get_of_inside (h : g.Inside x y) : g.get x y = some (g.cell x y) := if_pos h

theorem modify_of_outside {f : C → C} (h : ¬ g.Inside x y) : g.modify x y f = none := if_neg h

/-- A cell of the range. -/
theorem mapRect_cell (hx : x₀ ≤ x ∧ x < x₁) (hy : y₀ ≤ y ∧ y < y₁) :
    (g.mapRect x₀ x₁ y₀ y₁ f).cell x y = f x y (g.cell x y) :=
  if_pos ⟨hx.1, hx.2, hy.1, hy.2⟩

/-- A cell outside the range. -/
theorem mapRect_cell_of_not (h : ¬ (x₀ ≤ x ∧ x < x₁ ∧ y₀ ≤ y ∧ y < y₁)) :
    (g.mapRect x₀ x₁ y₀ y₁ f).cell x y = g.cell x y :=
  if_neg h

/-- Two grids of one size that hold the same. -/
theorem ext_cell {h : Grid C} (hw : g.width = h.width) (hh : g.height = h.height)
    (hcell : ∀ i j, g.cell i j = h.cell i j) : g = h := by
  cases g
  cases h
  cases hw
  cases hh
  exact congrArg (Grid.mk _ _) (funext fun i => funext fun j => hcell i j)

/-- An empty range. -/
theorem mapRect_of_le (h : x₁ ≤ x₀ ∨ y₁ ≤ y₀) : g.mapRect x₀ x₁ y₀ y₁ f = g := by
  refine ext_cell rfl rfl fun i j => mapRect_cell_of_not (by omega)

/-- Changing a cell. -/
theorem modify_of_inside {f : C → C} (h : g.Inside x y) :
    g.modify x y f = some (g.mapRect x (x + 1) y (y + 1) fun _ _ => f) := by
  rw [modify, if_pos h]
  refine congrArg some (ext_cell rfl rfl fun i j => ?_)
  simp only [mapRect]
  by_cases hij : i = x ∧ j = y
  · rw [if_pos hij, if_pos (by omega), hij.1, hij.2]
  · rw [if_neg hij, if_neg (by omega)]

/-- Two changes that agree on a range. -/
theorem mapRect_congr {f' : Int → Int → C → C}
    (h : ∀ i j c, x₀ ≤ i → i < x₁ → y₀ ≤ j → j < y₁ → f i j c = f' i j c) :
    g.mapRect x₀ x₁ y₀ y₁ f = g.mapRect x₀ x₁ y₀ y₁ f' := by
  refine ext_cell rfl rfl fun i j => ?_
  simp only [mapRect]
  split
  next hin => exact h i j _ hin.1 hin.2.1 hin.2.2.1 hin.2.2.2
  next => rfl

/-- Leaving a range alone. -/
theorem mapRect_id (h : ∀ i j c, x₀ ≤ i → i < x₁ → y₀ ≤ j → j < y₁ → f i j c = c) :
    g.mapRect x₀ x₁ y₀ y₁ f = g :=
  calc g.mapRect x₀ x₁ y₀ y₁ f
    _ = g.mapRect x₀ x₁ y₀ y₁ fun _ _ c => c := mapRect_congr h
    _ = g := ext_cell rfl rfl fun _ _ => ite_self _

/-- One more column of a range. -/
theorem mapRect_succ_left (h : x₀ ≤ x) :
    (g.mapRect x₀ x y₀ y₁ f).mapRect x (x + 1) y₀ y₁ f = g.mapRect x₀ (x + 1) y₀ y₁ f := by
  refine ext_cell rfl rfl fun i j => ?_
  simp only [mapRect]
  split_ifs <;> first | rfl | omega

/-- One more cell of a column. -/
theorem mapRect_succ_right (h : y₀ ≤ y) :
    (g.mapRect x₀ x₁ y₀ y f).mapRect x₀ x₁ y (y + 1) f = g.mapRect x₀ x₁ y₀ (y + 1) f := by
  refine ext_cell rfl rfl fun i j => ?_
  simp only [mapRect]
  split_ifs <;> first | rfl | omega

/-- **The raster rule.** Two nested loops whose body at a cell changes that cell, whatever the
other cells hold. -/
theorem forRect_eq {body : Int → Int → Grid C → Option (Grid C)}
    (hbody : ∀ i j (g' : Grid C), x₀ ≤ i → i < x₁ → y₀ ≤ j → j < y₁ → g'.width = g.width →
      g'.height = g.height → body i j g' = some (g'.mapRect i (i + 1) j (j + 1) f)) :
    forRange x₀ x₁ (fun i => forRange y₀ y₁ (body i)) g = some (g.mapRect x₀ x₁ y₀ y₁ f) := by
  have hcolumn (i : Int) (hi₀ : x₀ ≤ i) (hi₁ : i < x₁) (g' : Grid C) (hw : g'.width = g.width)
      (hh : g'.height = g.height) :
      forRange y₀ y₁ (body i) g' = some (g'.mapRect i (i + 1) y₀ y₁ f) := by
    by_cases hy : y₁ ≤ y₀
    · rw [forRange_of_le hy, mapRect_of_le (.inr hy)]
    · have hloop : forRange y₀ y₁ (body i) (g'.mapRect i (i + 1) y₀ y₀ f) =
          some (g'.mapRect i (i + 1) y₀ y₁ f) := by
        refine forRange_eq (fun j => g'.mapRect i (i + 1) y₀ j f) (by omega) fun j hj₀ hj₁ => ?_
        rw [hbody i j (g'.mapRect i (i + 1) y₀ j f) hi₀ hi₁ hj₀ hj₁ hw hh, mapRect_succ_right hj₀]
      rwa [mapRect_of_le (.inr (Int.le_refl y₀))] at hloop
  by_cases hx : x₁ ≤ x₀
  · rw [forRange_of_le hx, mapRect_of_le (.inl hx)]
  · have hloop : forRange x₀ x₁ (fun i => forRange y₀ y₁ (body i)) (g.mapRect x₀ x₀ y₀ y₁ f) =
        some (g.mapRect x₀ x₁ y₀ y₁ f) := by
      refine forRange_eq (fun i => g.mapRect x₀ i y₀ y₁ f) (by omega) fun i hi₀ hi₁ => ?_
      rw [hcolumn i hi₀ hi₁ (g.mapRect x₀ i y₀ y₁ f) rfl rfl, mapRect_succ_left hi₀]
    rwa [mapRect_of_le (.inl (Int.le_refl x₀))] at hloop

end Rect

end Grid

end ChargingPile
