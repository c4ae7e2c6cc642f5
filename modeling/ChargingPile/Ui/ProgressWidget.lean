import ChargingPile.Lib.Grid

/-!
# The progress bar

`ProgressWidget::onDraw` (`ui/progress_widget.cxx`) draws a bar with the operations of `Graphics`
(`ui/graphics.cxx`): the background, a rectangle of the full columns and a line of a fainter colour
in the column after them. An access outside the buffer is undefined and is `none` here. When the
bar is full there is no column after the full ones: `ProgressWidget.onDraw_isSome_iff`.
-/

namespace ChargingPile

variable {C : Type*} (blend : C → C → C)

namespace Graphics

/-- `Graphics::fillRect`. -/
def fillRect (buffer : Grid C) (color : C) (x y width height : Int) : Option (Grid C) :=
  forRange x (x + width)
    (fun i => forRange y (y + height) fun j buffer => buffer.modify i j fun _ => color) buffer

/-- `Graphics::addRect`, where `blend` is the operator `+=` of the colours. -/
def addRect (buffer : Grid C) (color : C) (x y width height : Int) : Option (Grid C) :=
  forRange x (x + width)
    (fun i => forRange y (y + height) fun j buffer => buffer.modify i j (blend · color)) buffer

/-- `Graphics::addVLine`. -/
def addVLine (buffer : Grid C) (color : C) (x0 y0 y1 : Int) : Option (Grid C) :=
  forRange (min y0 y1) (max y0 y1 + 1) (fun i buffer => buffer.modify x0 i (blend · color)) buffer

end Graphics

open Graphics

/-- `ProgressWidget::onDraw`. The length of the bar is a fraction, which is truncated
where it is a coordinate; `fade` multiplies the alpha of a colour with hundredths, here
with what is truncated. -/
def ProgressWidget.onDraw (fade : C → Int → C) (backColor foreColor : C) (progress : Int)
    (buffer : Grid C) : Option (Grid C) := do
  let width : Int := buffer.width
  let height : Int := buffer.height
  let buffer ← fillRect buffer backColor 0 0 width height
  let len := (width * progress).tdiv 100
  let buffer ← addRect blend buffer foreColor 0 0 len height
  let lineColor := fade foreColor ((width * progress).tmod 100)
  addVLine blend buffer lineColor len 0 (height - 1)

section Range

variable {blend} {buffer : Grid C} {color : C} {x y width height : Int}

/-- A rectangle inside the buffer is filled. -/
theorem Graphics.fillRect_eq (hx : 0 ≤ x) (hw : x + width ≤ buffer.width) (hy : 0 ≤ y)
    (hh : y + height ≤ buffer.height) : fillRect buffer color x y width height =
      some (buffer.mapRect x (x + width) y (y + height) fun _ _ _ => color) :=
  Grid.forRect_eq fun i j g hi₀ hi₁ hj₀ hj₁ hgw hgh =>
    Grid.modify_of_inside (by rw [Grid.Inside, hgw, hgh]; omega)

/-- A rectangle inside the buffer is blended. -/
theorem Graphics.addRect_eq (hx : 0 ≤ x) (hw : x + width ≤ buffer.width) (hy : 0 ≤ y)
    (hh : y + height ≤ buffer.height) : addRect blend buffer color x y width height =
      some (buffer.mapRect x (x + width) y (y + height) fun _ _ c => blend c color) :=
  Grid.forRect_eq fun i j g hi₀ hi₁ hj₀ hj₁ hgw hgh =>
    Grid.modify_of_inside (by rw [Grid.Inside, hgw, hgh]; omega)

/-- A vertical line inside the buffer is blended. -/
theorem Graphics.addVLine_isSome {x0 y1 : Int} (hx₀ : 0 ≤ x0) (hx₁ : x0 < buffer.width)
    (hy₀ : 0 ≤ y1) (hy₁ : y1 < buffer.height) : (addVLine blend buffer color x0 0 y1).isSome := by
  have hloop : forRange 0 (y1 + 1) (fun i buffer => buffer.modify x0 i (blend · color))
      (buffer.mapRect x0 (x0 + 1) 0 0 fun _ _ c => blend c color) =
      some (buffer.mapRect x0 (x0 + 1) 0 (y1 + 1) fun _ _ c => blend c color) := by
    refine forRange_eq (fun j => buffer.mapRect x0 (x0 + 1) 0 j fun _ _ c => blend c color)
      (by omega) fun j hj₀ hj₁ => ?_
    rw [Grid.modify_of_inside, Grid.mapRect_succ_right hj₀]
    rw [Grid.Inside, Grid.mapRect_width, Grid.mapRect_height]
    omega
  rw [Grid.mapRect_of_le (.inr (Int.le_refl 0))] at hloop
  rw [addVLine, Int.min_eq_left hy₀, Int.max_eq_right hy₀, hloop]
  rfl

/-- A vertical line behind the last column is not. -/
theorem Graphics.addVLine_of_le {x0 y0 y1 : Int} (hx : buffer.width ≤ x0) :
    addVLine blend buffer color x0 y0 y1 = none := by
  refine forRange_of_none (by omega) (Grid.modify_of_outside ?_)
  rw [Grid.Inside]
  omega

end Range

namespace ProgressWidget

/-- The full columns of a bar: all of them exactly if the bar is full. -/
theorem len_bounds {width progress : Int} (hw : 1 ≤ width) (hpos : 0 ≤ progress)
    (hle : progress ≤ 100) : 0 ≤ (width * progress).tdiv 100 ∧ (width * progress).tdiv 100 ≤
      width ∧
      ((width * progress).tdiv 100 < width ↔ progress < 100) := by
  have hprod : 0 ≤ width * progress := Int.mul_nonneg (by omega) hpos
  rw [Int.tdiv_eq_ediv_of_nonneg hprod]
  have hmax : width * progress ≤ width * 100 := Int.mul_le_mul_of_nonneg_left hle (by omega)
  refine ⟨by omega, by omega, fun hlt => ?_, fun hlt => ?_⟩
  · by_contra hfull
    obtain rfl : progress = 100 := by omega
    omega
  · have : width * progress ≤ width * 99 := Int.mul_le_mul_of_nonneg_left (by omega) (by omega)
    omega

variable {blend} {fade : C → Int → C} {backColor foreColor : C}

/-- The bar stays inside its buffer exactly if it is not full. -/
theorem onDraw_isSome_iff {progress : Int} {buffer : Grid C} (hw : 1 ≤ buffer.width)
    (hh : 1 ≤ buffer.height) (hpos : 0 ≤ progress) (hle : progress ≤ 100) :
    (onDraw blend fade backColor foreColor progress buffer).isSome ↔ progress < 100 := by
  have hw' : (1 : Int) ≤ buffer.width := by omega
  obtain ⟨hlen₀, hlen₁, hlen⟩ := len_bounds hw' hpos hle
  simp only [onDraw, Option.bind_eq_bind]
  rw [fillRect_eq (Int.le_refl 0) (by omega) (Int.le_refl 0) (by omega), Option.bind_some,
    addRect_eq (Int.le_refl 0) (by rw [Grid.mapRect_width]; omega) (Int.le_refl 0)
      (by rw [Grid.mapRect_height]; omega), Option.bind_some, ← hlen]
  constructor
  · intro h
    by_contra hfull
    rw [addVLine_of_le (by simp only [Grid.mapRect_width]; omega)] at h
    cases h
  · intro hlt
    exact addVLine_isSome hlen₀ hlt (by omega) (by simp only [Grid.mapRect_height]; omega)

/-- A bar of one half on five columns and two rows. -/
theorem onDraw_isSome_half :
    (onDraw (fun _ c => c) (fun c _ => c) false true 50 ⟨5, 2, fun _ _ => false⟩).isSome :=
  (onDraw_isSome_iff (by decide) (by decide) (by decide) (by decide)).mpr (by decide)

/-- The full bar of the widget, which has five columns and two rows: the line is in
the column 5. -/
theorem onDraw_full :
    onDraw (fun _ c => c) (fun c _ => c) false true 100 ⟨5, 2, fun _ _ => false⟩ = none := by
  decide

end ProgressWidget

end ChargingPile
