import Mathlib.Algebra.BigOperators.Group.List.Basic
import Mathlib.Algebra.GroupWithZero.Nat
import Mathlib.Algebra.Order.Group.Nat
import Mathlib.Data.List.Chain

/-!
# Intervals with counts

The numbers from one bound to another are divided into intervals that follow each other (`Path`),
each with a count. An interval without a count is idle, and `Separated` says that no two idle
ones are neighbours. A program that keeps such intervals in two lists, one of the bounds and one
of the counts, works at one place of both: the lemmas give the bounds of a list of intervals that
is put together from parts, so that what is done at a place is to replace one interval by others.
An idle interval can be `cut` to make room for a new one, and an interval that becomes idle is
joined with its neighbours.
-/

namespace ChargingPile

/-! ## A place in a list -/

section
variable {α : Type*} (l₁ l₂ : List α) (x : α)

theorem insertIdx_append_length : (l₁ ++ l₂).insertIdx l₁.length x = l₁ ++ x :: l₂ := by
  induction l₁ with
  | nil => exact List.insertIdx_zero
  | cons a l₁ ih => exact congrArg (a :: ·) ih

theorem eraseIdx_append_length : (l₁ ++ x :: l₂).eraseIdx l₁.length = l₁ ++ l₂ := by
  rw [List.eraseIdx_append_of_length_le (Nat.le_refl _), Nat.sub_self, List.eraseIdx_cons_zero]

theorem modify_append_length (f : α → α) : (l₁ ++ x :: l₂).modify l₁.length f =
    l₁ ++ f x :: l₂ := by
  induction l₁ with
  | nil => rfl
  | cons a l₁ ih => exact congrArg (a :: ·) ih

theorem insertIdx_append_succ (y : α) :
    (l₁ ++ x :: l₂).insertIdx (l₁.length + 1) y = l₁ ++ x :: y :: l₂ := by
  simpa using insertIdx_append_length (l₁ ++ [x]) l₂ y

theorem eraseIdx_append_succ (y : α) :
    (l₁ ++ x :: y :: l₂).eraseIdx (l₁.length + 1) = l₁ ++ x :: l₂ := by
  simpa using eraseIdx_append_length (l₁ ++ [x]) l₂ y

end

/-- The numbers from `start` on and below `stop`, with a count. -/
structure Interval where
  start : Nat
  stop : Nat
  count : Nat

namespace Intervals

variable {p q r a b x : Nat} {i : Interval} {l l₁ l₂ m : List Interval}

/-! ## Intervals that follow each other -/

/-- The intervals lead from one bound to another, and none of them is empty. -/
def Path : Nat → List Interval → Nat → Prop
  | p, [], q => p = q
  | p, i :: l, q => i.start = p ∧ p < i.stop ∧ Path i.stop l q

theorem path_append : Path p (l₁ ++ l₂) q ↔ ∃ r, Path p l₁ r ∧ Path r l₂ q := by
  induction l₁ generalizing p with
  | nil => exact ⟨fun h => ⟨p, rfl, h⟩, fun ⟨_, hp, h⟩ => hp ▸ h⟩
  | cons i l₁ ih =>
    constructor
    · rintro ⟨hstart, hlt, h⟩
      obtain ⟨r, h₁, h₂⟩ := ih.1 h
      exact ⟨r, ⟨hstart, hlt, h₁⟩, h₂⟩
    · rintro ⟨r, ⟨hstart, hlt, h₁⟩, h₂⟩
      exact ⟨hstart, hlt, ih.2 ⟨r, h₁, h₂⟩⟩

/-- A path goes through each of its intervals. -/
theorem path_split :
    Path p (l₁ ++ i :: l₂) q ↔ Path p l₁ i.start ∧ i.start < i.stop ∧ Path i.stop l₂ q := by
  rw [path_append]
  constructor
  · rintro ⟨r, h₁, rfl, hlt, h₂⟩
    exact ⟨h₁, hlt, h₂⟩
  · rintro ⟨h₁, hlt, h₂⟩
    exact ⟨i.start, h₁, rfl, hlt, h₂⟩

theorem Path.le (h : Path p l q) : p ≤ q := by
  induction l generalizing p with
  | nil => exact Nat.le_of_eq h
  | cons i l ih =>
    obtain ⟨-, hlt, h⟩ := h
    exact Nat.le_trans (Nat.le_of_lt hlt) (ih h)

theorem Path.mem_bounds (h : Path p l q) (hi : i ∈ l) : p ≤ i.start ∧ i.start < i.stop ∧
    i.stop ≤ q := by
  obtain ⟨l₁, l₂, rfl⟩ := List.append_of_mem hi
  obtain ⟨h₁, hlt, h₂⟩ := path_split.1 h
  exact ⟨h₁.le, hlt, h₂.le⟩

/-- The interval in which a number lies. -/
theorem Path.exists_mem (h : Path p l q) (hp : p ≤ a) (hq : a < q) :
    ∃ l₁ i l₂, l = l₁ ++ i :: l₂ ∧ i.start ≤ a ∧ a < i.stop := by
  induction l generalizing p with
  | nil =>
    have hpq : p = q := h
    omega
  | cons i l ih =>
    obtain ⟨hstart, -, h⟩ := h
    rcases Nat.lt_or_ge a i.stop with hlt | hge
    · exact ⟨[], i, l, rfl, Nat.le_trans (Nat.le_of_eq hstart) hp, hlt⟩
    · obtain ⟨l₁, j, l₂, rfl, hj⟩ := ih h hge
      exact ⟨i :: l₁, j, l₂, rfl, hj⟩

/-- Two intervals do not overlap. -/
theorem Path.apart (h : Path p l q) {j : Interval} (hi : i ∈ l) (hj : j ∈ l) :
    i = j ∨ i.stop ≤ j.start ∨ j.stop ≤ i.start := by
  obtain ⟨l₁, l₂, rfl⟩ := List.append_of_mem hi
  obtain ⟨h₁, -, h₂⟩ := path_split.1 h
  rcases List.mem_append.1 hj with hj | hj
  · exact .inr (.inr (h₁.mem_bounds hj).2.2)
  · rcases List.mem_cons.1 hj with rfl | hj
    · exact .inl rfl
    · exact .inr (.inl (h₂.mem_bounds hj).1)

/-- No two intervals begin at the same number. -/
theorem Path.start_ne (h : Path p (l₁ ++ i :: l₂) q) {j : Interval} (hj : j ∈ l₁ ++ l₂) :
    j.start ≠ i.start := by
  obtain ⟨h₁, hlt, h₂⟩ := path_split.1 h
  rcases List.mem_append.1 hj with hj | hj
  · have := h₁.mem_bounds hj
    omega
  · have := h₂.mem_bounds hj
    omega

/-! ## Bounds -/

/-- Where the intervals begin, and where the last one ends. -/
def bounds (l : List Interval) (q : Nat) : List Nat := l.map Interval.start ++ [q]

theorem Path.bounds_eq (h : Path p l q) : bounds l q = p :: l.map Interval.stop := by
  induction l generalizing p with
  | nil => exact congrArg ([·]) (Eq.symm h)
  | cons i l ih =>
    obtain ⟨rfl, -, h⟩ := h
    exact congrArg (i.start :: ·) (ih h)

/-- The bounds of intervals that are put together. -/
theorem bounds_append (h : Path r l₂ q) :
    bounds (l₁ ++ l₂) q = l₁.map Interval.start ++ r :: l₂.map Interval.stop := by
  rw [← h.bounds_eq, bounds, bounds, List.map_append, List.append_assoc]

theorem Path.bounds_pairwise (h : Path p l q) : (bounds l q).Pairwise (· < ·) := by
  induction l generalizing p with
  | nil => exact List.pairwise_singleton _ _
  | cons i l ih =>
    obtain ⟨rfl, hlt, h⟩ := h
    refine List.pairwise_cons.2 ⟨fun b hb => ?_, ih h⟩
    rcases List.mem_append.1 hb with hb | hb
    · obtain ⟨j, hj, rfl⟩ := List.mem_map.1 hb
      exact Nat.lt_of_lt_of_le hlt (h.mem_bounds hj).1
    · rw [List.mem_singleton.1 hb]
      exact Nat.lt_of_lt_of_le hlt h.le

/-- No interval in front of a place begins there or behind it. -/
theorem Path.start_lt (h : Path p l q) {c : Nat} (hc : c ∈ l.map Interval.start) : c < q := by
  obtain ⟨i, hi, rfl⟩ := List.mem_map.1 hc
  have := h.mem_bounds hi
  omega

/-! ## Idle intervals -/

/-- No two idle intervals are neighbours. -/
def Separated (l : List Interval) : Prop := l.IsChain fun i j => i.count ≠ 0 ∨ j.count ≠ 0

/-- Between parts that are separated and end with intervals in use, anything can stand. -/
theorem Separated.between (h₁ : Separated l₁) (h₂ : Separated l₂) (hm : Separated m)
    (hlast : ∀ j ∈ l₁.getLast?, ∀ k ∈ m.head?, j.count ≠ 0 ∨ k.count ≠ 0)
    (hhead : ∀ j ∈ m.getLast?, ∀ k ∈ l₂.head?, j.count ≠ 0 ∨ k.count ≠ 0) (hne : m ≠ []) :
    Separated (l₁ ++ (m ++ l₂)) := by
  refine h₁.append (hm.append h₂ hhead) fun j hj k hk => hlast j hj k ?_
  rwa [List.head?_append_of_ne_nil _ hne] at hk

theorem separated_split (h : Separated (l₁ ++ i :: l₂)) :
    Separated l₁ ∧ Separated l₂ ∧ (i.count = 0 →
      (∀ j ∈ l₁.getLast?, j.count ≠ 0) ∧ ∀ k ∈ l₂.head?, k.count ≠ 0) := by
  obtain ⟨h₁, h₂, hlast⟩ := List.isChain_append.1 h
  obtain ⟨hhead, h₂⟩ := List.isChain_cons.1 h₂
  refine ⟨h₁, h₂, fun hi => ⟨fun j hj => ?_, fun k hk => ?_⟩⟩
  · exact (hlast j hj i rfl).resolve_right (not_not.2 hi)
  · exact (hhead k hk).resolve_left (not_not.2 hi)

/-- An idle interval is replaced. -/
theorem Separated.replace (h : Separated (l₁ ++ i :: l₂)) (hi : i.count = 0) (hm : Separated m)
    (hne : m ≠ []) : Separated (l₁ ++ (m ++ l₂)) := by
  obtain ⟨h₁, h₂, hbusy⟩ := separated_split h
  obtain ⟨hlast, hhead⟩ := hbusy hi
  exact h₁.between h₂ hm (fun j hj _ _ => .inl (hlast j hj)) (fun _ _ k hk => .inr (hhead k hk))
    hne

/-- The count of an interval changes, and it remains in use. -/
theorem Separated.recount (h : Separated (l₁ ++ i :: l₂)) {j : Interval} (hj : j.count ≠ 0) :
    Separated (l₁ ++ j :: l₂) := by
  obtain ⟨h₁, h₂, -⟩ := separated_split h
  refine h₁.between h₂ (m := [j]) (List.isChain_singleton j) (fun _ _ k hk => .inr ?_)
    (fun k hk _ _ => .inl ?_) (List.cons_ne_nil _ _)
  · obtain rfl := Option.some.inj hk
    exact hj
  · obtain rfl := Option.some.inj hk
    exact hj

/-! ## Counts -/

/-- The count of the interval with the given bounds. -/
def held (l : List Interval) (a b : Nat) : Nat :=
  (l.map fun i => if i.start = a ∧ i.stop = b then i.count else 0).sum

@[simp] theorem held_nil : held [] a b = 0 := rfl

@[simp] theorem held_cons :
    held (i :: l) a b = (if i.start = a ∧ i.stop = b then i.count else 0) + held l a b := by
  simp [held]

@[simp] theorem held_append : held (l₁ ++ l₂) a b = held l₁ a b + held l₂ a b := by
  simp [held]

theorem held_eq_zero (h : ∀ i ∈ l, i.start ≠ a) : held l a b = 0 := by
  induction l with
  | nil => rfl
  | cons i l ih =>
    obtain ⟨hi, hl⟩ := List.forall_mem_cons.1 h
    rw [held_cons, if_neg fun heq => hi heq.1, ih hl]

theorem exists_of_held (h : held l a b ≠ 0) : ∃ i ∈ l, i.start = a ∧ i.stop = b ∧ i.count ≠ 0 := by
  induction l with
  | nil => exact absurd rfl h
  | cons i l ih =>
    rw [held_cons] at h
    split at h
    next heq =>
      rcases Nat.eq_zero_or_pos i.count with hzero | hpos
      · rw [hzero, Nat.zero_add] at h
        obtain ⟨j, hj, hj'⟩ := ih h
        exact ⟨j, .tail _ hj, hj'⟩
      · exact ⟨i, .head _, heq.1, heq.2, Nat.ne_of_gt hpos⟩
    next =>
      rw [Nat.zero_add] at h
      obtain ⟨j, hj, hj'⟩ := ih h
      exact ⟨j, .tail _ hj, hj'⟩

/-- Two intervals in use that do not begin at the same number are apart. -/
theorem Path.apart_of_held (h : Path p l q) {y : Nat} (ha : held l a b ≠ 0) (hx : held l x y ≠ 0)
    (hne : a ≠ x) : b ≤ x ∨ y ≤ a := by
  obtain ⟨i, hi, rfl, rfl, -⟩ := exists_of_held ha
  obtain ⟨j, hj, rfl, rfl, -⟩ := exists_of_held hx
  obtain ⟨l₁, l₂, rfl⟩ := List.append_of_mem hi
  obtain ⟨h₁, -, h₂⟩ := path_split.1 h
  rcases List.mem_append.1 hj with hj | hj
  · exact .inr (h₁.mem_bounds hj).2.2
  · rcases List.mem_cons.1 hj with rfl | hj
    · exact absurd rfl hne
    · exact .inl (h₂.mem_bounds hj).1

/-- Only one interval begins at a bound. -/
theorem Path.held_start (h : Path p (l₁ ++ i :: l₂) q) :
    held (l₁ ++ i :: l₂) i.start b = if i.stop = b then i.count else 0 := by
  have hzero₁ : held l₁ i.start b = 0 :=
    held_eq_zero fun j hj => h.start_ne (List.mem_append_left _ hj)
  have hzero₂ : held l₂ i.start b = 0 :=
    held_eq_zero fun j hj => h.start_ne (List.mem_append_right _ hj)
  rw [held_append, held_cons, hzero₁, hzero₂]
  simp

/-- An interval in use begins at a number. -/
def Busy (l : List Interval) (x : Nat) : Prop := ∃ i ∈ l, i.start = x ∧ i.count ≠ 0

@[simp] theorem not_busy_nil : ¬ Busy [] x := fun ⟨_, hi, _⟩ => List.not_mem_nil hi

@[simp] theorem busy_cons : Busy (i :: l) x ↔ i.start = x ∧ i.count ≠ 0 ∨ Busy l x := by
  simp [Busy]

@[simp] theorem busy_append : Busy (l₁ ++ l₂) x ↔ Busy l₁ x ∨ Busy l₂ x := by
  simp [Busy, or_and_right, exists_or]

theorem held_of_not_busy (h : ¬ Busy l a) : held l a b = 0 :=
  not_not.1 fun hne =>
    let ⟨i, hi, hstart, _, hcount⟩ := exists_of_held hne
    h ⟨i, hi, hstart, hcount⟩

theorem Path.not_busy_others (h : Path p (l₁ ++ i :: l₂) q) : ¬ Busy (l₁ ++ l₂) i.start :=
  fun ⟨_, hj, heq, _⟩ => h.start_ne hj heq

theorem Path.not_busy_of_idle (h : Path p (l₁ ++ i :: l₂) q) (hi : i.count = 0)
    (hstart : i.start ≤ x) (hstop : x < i.stop) : ¬ Busy (l₁ ++ i :: l₂) x := by
  obtain ⟨h₁, -, h₂⟩ := path_split.1 h
  rintro ⟨j, hj, rfl, hcount⟩
  rcases List.mem_append.1 hj with hj | hj
  · have := h₁.mem_bounds hj
    omega
  · rcases List.mem_cons.1 hj with rfl | hj
    · exact hcount hi
    · have := h₂.mem_bounds hj
      omega

/-- The second list counts one more for the interval with the given bounds. -/
def Gains (l l' : List Interval) (a b : Nat) : Prop :=
  ∀ x y, held l' x y = held l x y + if a = x ∧ b = y then 1 else 0

/-- All other intervals have the same count. -/
theorem Gains.same {l' : List Interval} {c d : Nat} (h : Gains l l' a b) (hne : c ≠ a) :
    held l' c d = held l c d := by
  rw [h c d, if_neg fun heq => hne heq.1.symm, Nat.add_zero]

theorem Gains.recount {j : Interval} (hstart : j.start = i.start) (hstop : j.stop = i.stop)
    (hcount : j.count = i.count + 1) : Gains (l₁ ++ i :: l₂) (l₁ ++ j :: l₂) i.start i.stop := by
  intro x y
  simp only [held_append, held_cons, hstart, hstop, hcount]
  split <;> omega

/-! ## Room for an interval -/

/-- The numbers from `a` on and below `b` lie in an idle interval, or are one in use. -/
def Fits (l : List Interval) (a b : Nat) : Prop :=
  ∃ i ∈ l, i.start ≤ a ∧ b ≤ i.stop ∧ (i.count ≠ 0 → i.start = a ∧ i.stop = b)

/-- **Room.** What is apart from all intervals in use fits, since no two idle ones
are neighbours. -/
theorem Path.fits_iff (h : Path p l q) (hsep : Separated l) (hab : a < b) (hp : p ≤ a)
    (hq : b ≤ q) :
    Fits l a b ↔
      ∀ i ∈ l, i.count ≠ 0 → i.start = a ∧ i.stop = b ∨ b ≤ i.start ∨ i.stop ≤ a := by
  constructor
  · rintro ⟨j, hj, hstart, hstop, hbusy⟩ i hi hcount
    rcases h.apart hj hi with rfl | hle | hle
    · exact .inl (hbusy hcount)
    · exact .inr (.inl (by omega))
    · exact .inr (.inr (by omega))
  · intro hapart
    obtain ⟨l₁, i, l₂, rfl, hstart, hstop⟩ := h.exists_mem hp (by omega)
    obtain ⟨-, -, h₂⟩ := path_split.1 h
    have hi : i ∈ l₁ ++ i :: l₂ := List.mem_append_right _ (.head _)
    refine ⟨i, hi, hstart, Nat.not_lt.1 fun hlt => ?_, fun hcount => ?_⟩
    · -- otherwise the interval behind is in use, and overlaps
      have hidle : i.count = 0 := not_not.1 fun hcount => by
        have := hapart i hi hcount
        omega
      obtain ⟨-, -, hneighbours⟩ := separated_split hsep
      cases l₂ with
      | nil =>
        have hend : i.stop = q := h₂
        omega
      | cons k l₂ =>
        obtain ⟨hk, hlt', -⟩ := id h₂
        have hk' : k ∈ l₁ ++ i :: k :: l₂ := List.mem_append_right _ (.tail _ (.head _))
        have := hapart k hk' ((hneighbours hidle).2 k rfl)
        omega
    · have := hapart i hi hcount
      omega

/-! ## Cutting -/

/-- An interval is cut out of an idle one, and what is left on both sides remains idle. -/
def cut (i : Interval) (a b : Nat) : List Interval :=
  (if i.start < a then [⟨i.start, a, 0⟩] else []) ++
    ⟨a, b, 1⟩ :: if b < i.stop then [⟨b, i.stop, 0⟩] else []

theorem cut_ne_nil : cut i a b ≠ [] := List.append_ne_nil_of_right_ne_nil _ (List.cons_ne_nil _ _)

theorem path_cut (ha : i.start ≤ a) (hab : a < b) (hb : b ≤ i.stop) :
    Path i.start (cut i a b) i.stop := by
  refine path_append.2 ⟨a, ?_, rfl, hab, ?_⟩
  · split
    next hlt => exact ⟨rfl, hlt, rfl⟩
    next hge => exact Nat.le_antisymm ha (Nat.not_lt.1 hge)
  · split
    next hlt => exact ⟨rfl, hlt, rfl⟩
    next hge => exact Nat.le_antisymm hb (Nat.not_lt.1 hge)

theorem separated_cut : Separated (cut i a b) := by
  refine List.isChain_append.2 ⟨?_, List.isChain_cons.2 ⟨fun _ _ => .inl Nat.one_ne_zero, ?_⟩,
    fun _ _ j hj => ?_⟩
  · split
    next => exact List.isChain_singleton _
    next => exact .nil
  · split
    next => exact List.isChain_singleton _
    next => exact .nil
  · obtain rfl := Option.some.inj hj
    exact .inr Nat.one_ne_zero

/-- The intervals after one has been cut out of an idle one. -/
theorem Path.cut (h : Path p (l₁ ++ i :: l₂) q) (ha : i.start ≤ a) (hab : a < b)
    (hb : b ≤ i.stop) :
    Path p (l₁ ++ (cut i a b ++ l₂)) q := by
  obtain ⟨h₁, -, h₂⟩ := path_split.1 h
  exact path_append.2 ⟨_, h₁, path_append.2 ⟨_, path_cut ha hab hb, h₂⟩⟩

theorem Separated.cut (h : Separated (l₁ ++ i :: l₂)) (hi : i.count = 0) :
    Separated (l₁ ++ (cut i a b ++ l₂)) :=
  h.replace hi separated_cut cut_ne_nil

theorem held_cut (y : Nat) : held (cut i a b) x y = if a = x ∧ b = y then 1 else 0 := by
  have hleft : held (if i.start < a then [⟨i.start, a, 0⟩] else []) x y = 0 := by
    split <;> simp
  have hright : held (if b < i.stop then [⟨b, i.stop, 0⟩] else []) x y = 0 := by
    split <;> simp
  rw [cut, held_append, held_cons, hleft, hright, Nat.zero_add, Nat.add_zero]

theorem gains_cut (hi : i.count = 0) : Gains (l₁ ++ i :: l₂) (l₁ ++ (cut i a b ++ l₂)) a b := by
  intro x y
  simp only [held_append, held_cons, held_cut, hi, ite_self]
  omega

theorem busy_cut : Busy (cut i a b) x ↔ a = x := by
  have hleft : ¬ Busy (if i.start < a then [⟨i.start, a, 0⟩] else []) x := by
    split <;> simp
  have hright : ¬ Busy (if b < i.stop then [⟨b, i.stop, 0⟩] else []) x := by
    split <;> simp
  rw [cut, busy_append, busy_cons]
  simp [hleft, hright]

/-! ## Joining -/

/-- An idle interval in front of others takes in the first of them if that is idle too. -/
def absorb (i : Interval) : List Interval → List Interval
  | [] => [i]
  | k :: l => if k.count = 0 then ⟨i.start, k.stop, 0⟩ :: l else i :: k :: l

/-- What has been joined begins where the first interval did and is idle. -/
theorem absorb_eq_cons (hi : i.count = 0) (l : List Interval) :
    ∃ j m, absorb i l = j :: m ∧ j.start = i.start ∧ j.count = 0 := by
  cases l with
  | nil => exact ⟨i, [], rfl, rfl, hi⟩
  | cons k l =>
    rw [absorb]
    split
    next => exact ⟨_, l, rfl, rfl, rfl⟩
    next => exact ⟨i, k :: l, rfl, rfl, hi⟩

theorem path_absorb (h : Path p (i :: l) q) : Path p (absorb i l) q := by
  cases l with
  | nil => exact h
  | cons k l =>
    rw [absorb]
    split
    next =>
      obtain ⟨hstart, hlt, hk, hlt', h⟩ := h
      exact ⟨hstart, Nat.lt_trans hlt hlt', h⟩
    next => exact h

/-- Behind what has been joined there is an interval in use. -/
theorem separated_absorb (hl : Separated l) : Separated (absorb i l) := by
  cases l with
  | nil => exact List.isChain_singleton i
  | cons k l =>
    obtain ⟨hhead, htail⟩ := List.isChain_cons.1 hl
    rw [absorb]
    split
    next hk =>
      exact List.isChain_cons.2 ⟨fun j hj => .inr ((hhead j hj).resolve_left (not_not.2 hk)),
        htail⟩
    next hk => exact List.isChain_cons_cons.2 ⟨.inr hk, hl⟩

theorem busy_absorb (hi : i.count = 0) : Busy (absorb i l) x ↔ Busy l x := by
  cases l with
  | nil => simp [absorb, hi]
  | cons k l =>
    rw [absorb]
    split <;> simp [*]

theorem held_absorb (hi : i.count = 0) : held (absorb i l) a b = held l a b := by
  cases l with
  | nil => simp [absorb, hi]
  | cons k l =>
    rw [absorb]
    split <;> simp [*]

/-- An interval that has become idle is joined with its neighbours. -/
def merge : List Interval → Interval → List Interval → List Interval
  | [], i, l₂ => absorb i l₂
  | [j], i, l₂ => if j.count = 0 then absorb j (absorb i l₂) else j :: absorb i l₂
  | j :: k :: l₁, i, l₂ => j :: merge (k :: l₁) i l₂

theorem merge_concat {j : Interval} : merge (l₁ ++ [j]) i l₂ =
    l₁ ++ if j.count = 0 then absorb j (absorb i l₂) else j :: absorb i l₂ := by
  induction l₁ with
  | nil => rfl
  | cons k l₁ ih =>
    cases l₁ with
    | nil => exact congrArg (k :: ·) ih
    | cons m l₁ => exact congrArg (k :: ·) ih

/-- The first interval begins where it did. -/
theorem merge_eq_cons (k : Interval) (l₁ : List Interval) (i : Interval) (l₂ : List Interval) :
    ∃ j m, merge (k :: l₁) i l₂ = j :: m ∧ j.start = k.start := by
  cases l₁ with
  | nil =>
    rw [merge]
    split
    next hk =>
      obtain ⟨j, m, heq, hstart, -⟩ := absorb_eq_cons hk (absorb i l₂)
      exact ⟨j, m, heq, hstart⟩
    next => exact ⟨k, _, rfl, rfl⟩
  | cons j l₁ => exact ⟨k, _, rfl, rfl⟩

theorem Path.merge (h : Path p (l₁ ++ i :: l₂) q) : Path p (merge l₁ i l₂) q := by
  obtain ⟨h₁, hlt, h₂⟩ := path_split.1 h
  have hright : Path i.start (absorb i l₂) q := path_absorb ⟨rfl, hlt, h₂⟩
  rcases List.eq_nil_or_concat' l₁ with rfl | ⟨l₁, j, rfl⟩
  · obtain rfl : p = i.start := h₁
    exact hright
  · obtain ⟨hleft, hlt', hj⟩ := path_split.1 h₁
    have hjoined : Path j.start (j :: absorb i l₂) q := ⟨rfl, hlt', path_append.2 ⟨_, hj, hright⟩⟩
    rw [merge_concat]
    refine path_append.2 ⟨j.start, hleft, ?_⟩
    split
    next => exact path_absorb hjoined
    next => exact hjoined

theorem separated_merge (h₁ : Separated l₁) (h₂ : Separated l₂) : Separated (merge l₁ i l₂) := by
  have hright : Separated (absorb i l₂) := separated_absorb h₂
  rcases List.eq_nil_or_concat' l₁ with rfl | ⟨l₁, j, rfl⟩
  · exact hright
  · rw [merge_concat]
    split
    next hj =>
      obtain ⟨j', m, heq, -, -⟩ := absorb_eq_cons hj (absorb i l₂)
      have hne : absorb j (absorb i l₂) ≠ [] := heq ▸ List.cons_ne_nil j' m
      simpa using h₁.replace hj (separated_absorb hright) hne
    next hj =>
      have hjoined : Separated ((l₁ ++ [j]) ++ absorb i l₂) :=
        h₁.append hright fun k hk _ _ => .inl (by
        rw [List.getLast?_concat] at hk
        exact Option.some.inj hk ▸ hj)
      simpa using hjoined

theorem busy_merge (hi : i.count = 0) : Busy (merge l₁ i l₂) x ↔ Busy (l₁ ++ l₂) x := by
  rcases List.eq_nil_or_concat' l₁ with rfl | ⟨l₁, j, rfl⟩
  · exact busy_absorb hi
  · rw [merge_concat]
    split
    next hj => simp [busy_absorb hj, busy_absorb hi, hj]
    next => simp [busy_absorb hi]

theorem held_merge (hi : i.count = 0) : held (merge l₁ i l₂) a b = held (l₁ ++ l₂) a b := by
  rcases List.eq_nil_or_concat' l₁ with rfl | ⟨l₁, j, rfl⟩
  · exact held_absorb hi
  · rw [merge_concat]
    split
    next hj => simp [held_absorb hj, held_absorb hi, hj]
    next => simp [held_absorb hi]

/-- The last count of an interval goes, and it is joined with its neighbours. -/
theorem gains_merge {j : Interval} (hj : j.count = 0) (hi : i.count = 1) :
    Gains (merge l₁ j l₂) (l₁ ++ i :: l₂) i.start i.stop := by
  intro x y
  rw [held_merge hj, held_append, held_append, held_cons, hi]
  omega

end Intervals

end ChargingPile
