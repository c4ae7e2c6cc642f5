import Mathlib.Data.List.Induction
import Mathlib.Logic.Function.Basic
import ChargingPile.Lib.Grid

/-!
# Composing the screen

`Core` (`ui/core.cxx`) keeps the widgets of a screen in the order of their z-indices and, when a
widget is to be redrawn, composes its rectangle again in a buffer of the size of the screen and
copies it to the screen. The loops of `Buffer::fill` and `Buffer::blend` (`ui/buffer.cxx`) do not
stop at the rectangle: they go on to the end of the buffer, the latter even beyond it, where only
the comparison with the other widget's rectangle keeps it from the buffer's end. `Core.composition`
says that the rectangle is composed right all the same, and that no access is outside its buffer.
Coordinates are unbounded integers: a buffer for which `selfX + getWidth()` does not fit an `int`
does not fit the memory.
-/

namespace ChargingPile

/-! ## Stable order -/

section Order

variable {α : Type*}

/-- `order` is `l` in increasing order of a key, with equal keys in the order of `l`. -/
structure KeyOrder (key : α → Int) (l order : List α) : Prop where
  perm : order.Perm l
  sorted : order.Pairwise fun a b => key a ≤ key b
  ties : ∀ k, order.filter (key · = k) = l.filter (key · = k)

/-- `std::list::sort` with the comparison of a key, which is stable. -/
def sortByKey (key : α → Int) (l : List α) : List α := l.mergeSort fun a b => key a ≤ key b

variable {key : α → Int}

/-- A stable sort brings a list into key order. -/
theorem keyOrder_sortByKey (l : List α) : KeyOrder key l (sortByKey key l) := by
  have htrans (a b c : α) (hab : decide (key a ≤ key b) = true)
      (hbc : decide (key b ≤ key c) = true) :
      decide (key a ≤ key c) = true := by
    rw [decide_eq_true_iff] at *
    exact Int.le_trans hab hbc
  have htotal (a b : α) : (decide (key a ≤ key b) || decide (key b ≤ key a)) = true := by
    rw [Bool.or_eq_true, decide_eq_true_iff, decide_eq_true_iff]
    exact Int.le_total (key a) (key b)
  have hperm : (sortByKey key l).Perm l := List.mergeSort_perm l _
  refine ⟨hperm, ?_, fun k => ?_⟩
  · exact (List.pairwise_mergeSort htrans htotal l).imp fun h => of_decide_eq_true h
  · -- the elements of one key are sorted already, so the sort keeps them as a sublist
    have hsorted : (l.filter (key · = k)).Pairwise fun a b => decide (key a ≤ key b) = true := by
      refine List.pairwise_of_forall_mem_list fun a ha b hb => ?_
      simp only [List.mem_filter, decide_eq_true_iff] at ha hb ⊢
      omega
    have hsub := (List.sublist_mergeSort htrans htotal hsorted List.filter_sublist).filter
      (key · = k)
    rw [List.filter_filter] at hsub
    simp only [Bool.and_self] at hsub
    exact (hsub.eq_of_length (hperm.filter _).length_eq.symm).symm

/-- Adding an element behind a list in key order and sorting again. -/
theorem KeyOrder.concat {l order : List α} (h : KeyOrder key l order) (a : α) :
    KeyOrder key (l ++ [a]) (sortByKey key (order ++ [a])) := by
  have hsort : KeyOrder key (order ++ [a]) _ := keyOrder_sortByKey (order ++ [a])
  refine ⟨hsort.perm.trans (h.perm.append_right [a]), hsort.sorted, fun k => ?_⟩
  rw [hsort.ties k, List.filter_append, List.filter_append, h.ties k]

end Order

/-! ## Buffers -/

section Buffer

variable {C : Type} (blendColor : C → C → C)

/-- `Buffer::fill`, which does not use the width and the height. -/
def Buffer.fill (buffer : Grid C) (x y _width _height : Int) (color : C) : Option (Grid C) :=
  forRange x buffer.width
    (fun i => forRange y buffer.height fun j g => g.modify i j fun _ => color) buffer

/-- `Buffer::blend`, which does not use the width and the height either. -/
def Buffer.blend (buffer : Grid C) (selfX selfY otherX otherY : Int) (other : Grid C)
    (_width _height : Int) : Option (Grid C) :=
  forRange selfX (selfX + buffer.width)
    (fun dx => forRange selfY (selfY + buffer.height) fun dy g =>
      if dx ≥ otherX ∧ dy ≥ otherY ∧ dx < otherX + other.width ∧ dy < otherY + other.height then
        (other.get (dx - otherX) (dy - otherY)).bind
          fun color => g.modify dx dy (blendColor · color)
      else some g) buffer

end Buffer

/-- `Widget`: its place, its z-index and its buffer. -/
structure Widget (C : Type) where
  x : Int
  y : Int
  zIndex : Int
  buffer : Grid C

namespace Widget

variable {C : Type}

/-- The rectangle of a widget. -/
def Covers (w : Widget C) (i j : Int) : Prop :=
  w.x ≤ i ∧ i < w.x + w.buffer.width ∧ w.y ≤ j ∧ j < w.y + w.buffer.height

instance (w : Widget C) (i j : Int) : Decidable (w.Covers i j) :=
  inferInstanceAs
    (Decidable (w.x ≤ i ∧ i < w.x + w.buffer.width ∧ w.y ≤ j ∧ j < w.y + w.buffer.height))

/-- The pixel of a widget at a point of the screen. -/
def pixel (w : Widget C) (i j : Int) : C := w.buffer.cell (i - w.x) (j - w.y)

/-- `onDraw` of a widget, which changes its own buffer. -/
def onDraw (w : Widget C) (drawn : Int → Int → C) : Widget C :=
  ⟨w.x, w.y, w.zIndex, ⟨w.buffer.width, w.buffer.height, drawn⟩⟩

/-- The widget lies inside a screen. -/
def InScreen (w : Widget C) (width height : Nat) : Prop :=
  0 ≤ w.x ∧ w.x + w.buffer.width ≤ width ∧ 0 ≤ w.y ∧ w.y + w.buffer.height ≤ height

end Widget

/-- `Core`, with the screen and the widgets that it refers to. Widgets are known by their addresses
`W`; `widgets` is the list of those that have been added. -/
structure Core (W C R : Type) where
  screen : Grid R
  buffer : Grid C
  widgets : List W
  widget : W → Widget C

namespace Core

variable {W C R : Type} (blendColor : C → C → C) (kBlack : C) (toRgb : C → R)

/-- `Core::Core`. -/
def new (screen : Grid R) (color : Int → Int → C) (widget : W → Widget C) : Core W C R where
  screen := screen
  buffer := ⟨screen.width, screen.height, color⟩
  widgets := []
  widget := widget

/-- `Core::add`. -/
def add (c : Core W C R) (w : W) : Core W C R :=
  { c with widgets := sortByKey (fun w => (c.widget w).zIndex) (c.widgets ++ [w]) }

/-- A widget has drawn itself. -/
def draw [DecidableEq W] (c : Core W C R) (w : W) (drawn : Int → Int → C) : Core W C R :=
  { c with widget := Function.update c.widget w ((c.widget w).onDraw drawn) }

/-- `Core::invalidWidget` after `onDraw`. -/
def compose (c : Core W C R) (w : Widget C) : Option (Core W C R) := do
  let buffer ← Buffer.fill c.buffer w.x w.y w.buffer.width w.buffer.height kBlack
  let buffer ← c.widgets.foldlM (fun buffer wi =>
    Buffer.blend blendColor buffer w.x w.y (c.widget wi).x (c.widget wi).y (c.widget wi).buffer
      w.buffer.width w.buffer.height) buffer
  let screen ← forRange w.x (w.x + w.buffer.width) (fun i =>
    forRange w.y (w.y + w.buffer.height) fun j screen =>
      (buffer.get i j).bind fun color => screen.modify i j fun _ => toRgb color) c.screen
  return { c with buffer, screen }

/-- `Core::invalidWidget`, with what the widget draws into its buffer. -/
def invalidWidget [DecidableEq W] (c : Core W C R) (w : W) (drawn : Int → Int → C) :
    Option (Core W C R) :=
  let c := c.draw w drawn
  c.compose blendColor kBlack toRgb (c.widget w)

/-- What happens to a core. -/
inductive Event (W C : Type)
  | add (w : W)
  | invalidWidget (w : W) (drawn : Int → Int → C)

/-- One call. -/
def step [DecidableEq W] (c : Core W C R) : Event W C → Option (Core W C R)
  | .add w => some (c.add w)
  | .invalidWidget w drawn => c.invalidWidget blendColor kBlack toRgb w drawn

/-- A sequence of calls. -/
def run [DecidableEq W] (c : Core W C R) (es : List (Event W C)) : Option (Core W C R) :=
  es.foldlM (step blendColor kBlack toRgb) c

/-- The widgets that have been added, in the order of addition. -/
def added (es : List (Event W C)) : List W :=
  es.filterMap fun
    | .add w => some w
    | .invalidWidget _ _ => none

/-! ## What the loops do -/

section Loops

variable {blendColor} {g : Grid C} {x y width height : Int}

/-- The fill blackens everything to the right of and below a point. -/
theorem fill_eq {color : C} (hx : 0 ≤ x) (hy : 0 ≤ y) : Buffer.fill g x y width height color =
    some (g.mapRect x g.width y g.height fun _ _ _ => color) :=
  Grid.forRect_eq fun i j g' hi₀ hi₁ hj₀ hj₁ hw hh =>
    Grid.modify_of_inside (by rw [Grid.Inside, hw, hh]; omega)

/-- What a widget makes of the colour of a point that lies below it. -/
def layer (blendColor : C → C → C) (w : Widget C) (i j : Int) (color : C) : C :=
  if w.Covers i j then blendColor color (w.pixel i j) else color

/-- The blend lays a widget inside the buffer over everything to the right of and below a point. -/
theorem blend_eq {w : Widget C} (hx : 0 ≤ x) (hy : 0 ≤ y) (hw : w.InScreen g.width g.height) :
    Buffer.blend blendColor g x y w.x w.y w.buffer width height =
      some (g.mapRect x (x + g.width) y (y + g.height) (layer blendColor w)) := by
  refine Grid.forRect_eq fun i j g' hi₀ hi₁ hj₀ hj₁ hgw hgh => ?_
  obtain ⟨hx₀, hx₁, hy₀, hy₁⟩ := hw
  split
  next hin =>
    have hcov : w.Covers i j := ⟨hin.1, hin.2.2.1, hin.2.1, hin.2.2.2⟩
    rw [Grid.get_of_inside (by rw [Grid.Inside]; omega), Option.bind_some,
      Grid.modify_of_inside (by rw [Grid.Inside, hgw, hgh]; omega)]
    refine congrArg some (Grid.mapRect_congr fun i' j' c hi₀' hi₁' hj₀' hj₁' => ?_)
    obtain rfl : i' = i := by omega
    obtain rfl : j' = j := by omega
    rw [layer, if_pos hcov, Widget.pixel]
  next hout =>
    rw [Grid.mapRect_id fun i' j' c hi₀' hi₁' hj₀' hj₁' => ?_]
    obtain rfl : i' = i := by omega
    obtain rfl : j' = j := by omega
    exact if_neg fun hcov => hout ⟨hcov.1, hcov.2.2.1, hcov.2.1, hcov.2.2.2⟩

/-- The blends of a list of widgets, at the points to the right of and below the first one. -/
theorem blends_eq (blendColor : C → C → C) (width height : Int) {widget : W → Widget C}
    (hx : 0 ≤ x) (hy : 0 ≤ y) {sw sh : Nat} (hall : ∀ w, (widget w).InScreen sw sh) (ws : List W)
    (g : Grid C) (hw : g.width = sw) (hh : g.height = sh) :
    ∃ g',
      ws.foldlM (fun buffer wi => Buffer.blend blendColor buffer x y (widget wi).x (widget wi).y
        (widget wi).buffer width height) g = some g' ∧ g'.width = sw ∧ g'.height = sh ∧
      ∀ i j, x ≤ i → i < sw → y ≤ j → j < sh →
        g'.cell i j = ws.foldl (fun color wi => layer blendColor (widget wi) i j color)
          (g.cell i j) := by
  induction ws generalizing g with
  | nil => exact ⟨g, rfl, hw, hh, fun _ _ _ _ _ _ => rfl⟩
  | cons w ws ih =>
    obtain ⟨g', hrun, hw', hh', hcell⟩ := ih (g.mapRect x (x + g.width) y (y + g.height)
      (layer blendColor (widget w))) hw hh
    refine ⟨g', ?_, hw', hh', fun i j hi₀ hi₁ hj₀ hj₁ => ?_⟩
    · rw [List.foldlM_cons, blend_eq hx hy (by rw [hw, hh]; exact hall w)]
      exact hrun
    · rw [hcell i j hi₀ hi₁ hj₀ hj₁, Grid.mapRect_cell ⟨hi₀, by omega⟩ ⟨hj₀, by omega⟩,
        List.foldl_cons]

end Loops

/-! ## What a call does -/

/-- A core whose buffer has the size of the screen and whose widgets, which lie inside it, are the
given ones with anything drawn into their buffers. -/
structure Fits (widget : W → Widget C) (c : Core W C R) : Prop where
  width : c.buffer.width = c.screen.width
  height : c.buffer.height = c.screen.height
  inScreen : ∀ w, (widget w).InScreen c.screen.width c.screen.height
  drawn : ∀ w, ∃ drawn, c.widget w = (widget w).onDraw drawn

/-- The colour of a point: black, and over it the pixels of the widgets that cover it, in the
order of a list. -/
def composed (widget : W → Widget C) (order : List W) (i j : Int) : C :=
  (order.filter fun w => (widget w).Covers i j).foldl
    (fun color w => blendColor color ((widget w).pixel i j)) kBlack

/-- The layers of all widgets are the pixels of those that cover the point. -/
theorem composed_eq_foldl (widget : W → Widget C) (order : List W) (i j : Int) :
    composed blendColor kBlack widget order i j =
      order.foldl (fun color w => layer blendColor (widget w) i j color) kBlack := by
  rw [composed, List.foldl_filter]
  simp only [layer, decide_eq_true_iff]

section Calls

variable {widget : W → Widget C} {c : Core W C R}

/-- Drawing moves no widget. -/
theorem Fits.inScreen' (h : c.Fits widget) (w : W) :
    (c.widget w).InScreen c.screen.width c.screen.height := by
  obtain ⟨drawn, hw⟩ := h.drawn w
  rw [hw]
  exact h.inScreen w

/-- Drawing changes no rectangle. -/
theorem Fits.covers_iff (h : c.Fits widget) {w : W} {i j : Int} :
    (c.widget w).Covers i j ↔ (widget w).Covers i j := by
  obtain ⟨drawn, hw⟩ := h.drawn w
  rw [hw]
  rfl

/-- Drawing changes no z-index. -/
theorem Fits.zIndex_eq (h : c.Fits widget) :
    (fun w => (c.widget w).zIndex) = fun w => (widget w).zIndex := by
  funext w
  obtain ⟨drawn, hw⟩ := h.drawn w
  rw [hw]
  rfl

/-- Composing the rectangle of a widget. -/
theorem compose_eq (h : c.Fits widget) (w : W) :
    ∃ c', c.compose blendColor kBlack toRgb (c.widget w) = some c' ∧
      c'.screen = c.screen.mapRect (c.widget w).x ((c.widget w).x + (c.widget w).buffer.width)
        (c.widget w).y ((c.widget w).y + (c.widget w).buffer.height) (fun i j _ =>
          toRgb (composed blendColor kBlack c.widget c.widgets i j)) ∧
      c'.buffer.width = c.screen.width ∧ c'.buffer.height = c.screen.height ∧
      c'.widgets = c.widgets ∧ c'.widget = c.widget := by
  have hwidth := h.width
  have hheight := h.height
  obtain ⟨hx₀, hx₁, hy₀, hy₁⟩ := h.inScreen' w
  obtain ⟨buffer, hblends, hw, hh, hcell⟩ := blends_eq blendColor (c.widget w).buffer.width
    (c.widget w).buffer.height hx₀ hy₀ h.inScreen' c.widgets (c.buffer.mapRect (c.widget w).x
      c.buffer.width (c.widget w).y c.buffer.height fun _ _ _ => kBlack) hwidth hheight
  have hcopy : forRange (c.widget w).x ((c.widget w).x + (c.widget w).buffer.width) (fun i =>
      forRange (c.widget w).y ((c.widget w).y + (c.widget w).buffer.height) fun j screen =>
        (buffer.get i j).bind fun color => screen.modify i j fun _ => toRgb color) c.screen =
      some (c.screen.mapRect (c.widget w).x ((c.widget w).x + (c.widget w).buffer.width)
        (c.widget w).y ((c.widget w).y + (c.widget w).buffer.height) fun i j _ =>
          toRgb (composed blendColor kBlack c.widget c.widgets i j)) := by
    refine Grid.forRect_eq fun i j screen hi₀ hi₁ hj₀ hj₁ hsw hsh => ?_
    rw [Grid.get_of_inside (by rw [Grid.Inside]; omega), Option.bind_some,
      Grid.modify_of_inside (by rw [Grid.Inside, hsw, hsh]; omega)]
    refine congrArg some (Grid.mapRect_congr fun i' j' _ hi₀' hi₁' hj₀' hj₁' => ?_)
    obtain rfl : i' = i := by omega
    obtain rfl : j' = j := by omega
    -- the point was blackened, and every widget was laid over it
    rw [hcell i' j' (by omega) (by omega) (by omega) (by omega),
      Grid.mapRect_cell ⟨by omega, by omega⟩ ⟨by omega, by omega⟩, composed_eq_foldl]
  refine ⟨⟨_, buffer, c.widgets, c.widget⟩, ?_, rfl, hw, hh, rfl, rfl⟩
  simp only [compose, Option.bind_eq_bind]
  rw [fill_eq hx₀ hy₀, Option.bind_some, hblends, Option.bind_some, hcopy]
  rfl

variable {blendColor kBlack toRgb} [DecidableEq W]

/-- A widget draws. -/
theorem Fits.draw (h : c.Fits widget) (w : W) (drawn : Int → Int → C) :
    (c.draw w drawn).Fits widget := by
  refine ⟨h.width, h.height, h.inScreen, fun w' => ?_⟩
  obtain ⟨old, hold⟩ := h.drawn w'
  obtain rfl | hne := eq_or_ne w' w
  · exact ⟨drawn, (Function.update_self w' _ c.widget).trans (by rw [hold]; rfl)⟩
  · exact ⟨old, (Function.update_of_ne hne _ c.widget).trans hold⟩

/-- A widget is redrawn: its rectangle is composed from the widgets of the core, and the rest of
the screen is left alone. -/
theorem invalidWidget_eq (h : c.Fits widget) (w : W) (drawn : Int → Int → C) :
    ∃ c', c.invalidWidget blendColor kBlack toRgb w drawn = some c' ∧ c'.Fits widget ∧
      c'.widgets = c.widgets ∧ c'.widget = (c.draw w drawn).widget ∧
      ∀ i j, ((widget w).Covers i j →
          c'.screen.cell i j = toRgb (composed blendColor kBlack c'.widget c.widgets i j)) ∧
        (¬ (widget w).Covers i j → c'.screen.cell i j = c.screen.cell i j) := by
  have hd := h.draw w drawn
  obtain ⟨c', hcompose, hscreen, hw, hh, hwidgets, hwidget⟩ :=
    compose_eq blendColor kBlack toRgb hd w
  refine ⟨c', hcompose, ?_, hwidgets, hwidget, fun i j => ⟨fun hin => ?_, fun hout => ?_⟩⟩
  · refine ⟨?_, ?_, ?_, ?_⟩
    · rw [hw, hscreen, Grid.mapRect_width]
    · rw [hh, hscreen, Grid.mapRect_height]
    · rw [hscreen]
      exact hd.inScreen
    · rw [hwidget]
      exact hd.drawn
  · obtain ⟨hx₀, hx₁, hy₀, hy₁⟩ := hd.covers_iff.mpr hin
    rw [hscreen, hwidget, Grid.mapRect_cell ⟨hx₀, hx₁⟩ ⟨hy₀, hy₁⟩]
    rfl
  · rw [hscreen, Grid.mapRect_cell_of_not fun hin => hout (hd.covers_iff.mp hin)]
    rfl

end Calls

/-! ## Runs -/

section Runs

variable [DecidableEq W] {blendColor kBlack toRgb} {screen : Grid R} {color : Int → Int → C}
  {widget : W → Widget C}

/-- A run of calls never fails, and keeps the added widgets in the order of their z-indices. -/
theorem run_fits (hinside : ∀ w, (widget w).InScreen screen.width screen.height)
    (es : List (Event W C)) :
    ∃ c, (new screen color widget).run blendColor kBlack toRgb es = some c ∧ c.Fits widget ∧
      KeyOrder (fun w => (widget w).zIndex) (added es) c.widgets := by
  induction es using List.reverseRecOn with
  | nil =>
    refine ⟨new screen color widget, rfl,
      ⟨rfl, rfl, hinside, fun w => ⟨(widget w).buffer.cell, rfl⟩⟩, ?_⟩
    exact ⟨.nil, .nil, fun _ => rfl⟩
  | append_singleton es e ih =>
    obtain ⟨c, hrun, hfits, horder⟩ := ih
    have hstep : (new screen color widget).run blendColor kBlack toRgb (es ++ [e]) =
        c.step blendColor kBlack toRgb e := by
      rw [run, List.foldlM_append]
      change ((new screen color widget).run blendColor kBlack toRgb es).bind _ = _
      rw [hrun]
      simp
    rw [hstep]
    cases e with
    | add w =>
      refine ⟨c.add w, rfl, ⟨hfits.width, hfits.height, hfits.inScreen, hfits.drawn⟩, ?_⟩
      have hadded : added (es ++ [Event.add w]) = added es ++ [w] := List.filterMap_append
      rw [hadded, add, hfits.zIndex_eq]
      exact horder.concat w
    | invalidWidget w drawn =>
      obtain ⟨c', hcall, hfits', hwidgets, -⟩ := invalidWidget_eq hfits w drawn
      refine ⟨c', hcall, hfits', ?_⟩
      have hadded : added (es ++ [Event.invalidWidget w drawn]) = added es :=
        (List.filterMap_append).trans (List.append_nil _)
      rw [hadded, hwidgets]
      exact horder

variable (blendColor kBlack toRgb screen color)

/-- Whatever has been called before, redrawing a widget accesses no buffer outside its size,
gives every point of its rectangle the colour of the added widgets that cover it, from black on
in increasing order of the z-index with ties in the order of addition, and writes no other
point of the screen. -/
theorem composition (hinside : ∀ w, (widget w).InScreen screen.width screen.height)
    (es : List (Event W C)) :
    ∃ c, (new screen color widget).run blendColor kBlack toRgb es = some c ∧
      ∀ w drawn, ∃ c' order, c.invalidWidget blendColor kBlack toRgb w drawn = some c' ∧
        KeyOrder (fun w => (widget w).zIndex) (added es) order ∧
        c'.widget = (c.draw w drawn).widget ∧
        ∀ i j, ((widget w).Covers i j →
            c'.screen.cell i j = toRgb (composed blendColor kBlack c'.widget order i j)) ∧
          (¬ (widget w).Covers i j → c'.screen.cell i j = c.screen.cell i j) := by
  obtain ⟨c, hrun, hfits, horder⟩ := run_fits hinside es
  refine ⟨c, hrun, fun w drawn => ?_⟩
  obtain ⟨c', hcall, -, -, hwidget, hscreen⟩ := invalidWidget_eq hfits w drawn
  exact ⟨c', c.widgets, hcall, horder, hwidget, hscreen⟩

/-- Two widgets of two by one points that overlap in one point. -/
def pair (second : Bool) : Widget Nat :=
  if second then ⟨1, 0, 0, ⟨2, 1, fun _ _ => 2⟩⟩ else ⟨0, 0, 0, ⟨2, 1, fun _ _ => 1⟩⟩

/-- On a screen of three by one points both are added and the first is redrawn: the point of the
overlap has the colour of the second one over that of the first, and the point that only the second
one covers is not written. -/
theorem composition_pair :
    (∀ w, (pair w).InScreen 3 1) ∧
    ∃ c, (new ⟨3, 1, fun _ _ => 7⟩ (fun _ _ => 0) pair).run (fun a b => 10 * a + b) 0 id
        [.add false, .add true] = some c ∧
      ∃ c', c.invalidWidget (fun a b => 10 * a + b) 0 id false (fun _ _ => 1) = some c' ∧
        c'.screen.cell 1 0 = 12 ∧ c'.screen.cell 2 0 = 7 := by
  have hinside (w : Bool) : (pair w).InScreen 3 1 := by
    cases w
    · exact ⟨by decide, by decide, by decide, by decide⟩
    · exact ⟨by decide, by decide, by decide, by decide⟩
  refine ⟨hinside, ?_⟩
  obtain ⟨c, hrun, hcall⟩ := composition (fun a b => 10 * a + b) 0 id ⟨3, 1, fun _ _ => 7⟩
    (fun _ _ => 0) hinside [.add false, .add true]
  obtain ⟨c', order, hc', horder, hwidget, hscreen⟩ := hcall false fun _ _ => 1
  obtain rfl := Option.some.inj hrun
  -- the z-indices are equal, so the order is that of the addition
  have hall : ∀ w ∈ order, decide ((pair w).zIndex = 0) = true := by
    intro w _
    cases w <;> rfl
  have horder : order = [false, true] := (List.filter_eq_self.2 hall).symm.trans (horder.ties 0)
  refine ⟨_, hrun, c', hc', ?_, (hscreen 2 0).2 (by decide)⟩
  rw [(hscreen 1 0).1 (by decide), hwidget, horder]
  rfl

end Runs

end Core

end ChargingPile
