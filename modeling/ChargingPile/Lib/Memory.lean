import Mathlib.Logic.Function.Basic

/-!
# Memory

Objects at addresses, with `malloc` and `free`. Code on such a memory is an `Exec`: it has no
result where it uses an object that is not there.
-/

namespace ChargingPile

/-- An address. The null pointer is 0. -/
abbrev Addr := Nat

/-- The address of a new object, given those in use. -/
structure Allocator where
  make : List Addr → Addr
  make_notMem : ∀ l, make l ∉ l
  make_ne_zero : ∀ l, make l ≠ 0

theorem Allocator.above_notMem (l : List Addr) : l.foldr max 0 + 1 ∉ l := by
  intro h
  have hle : ∀ a ∈ l, a ≤ l.foldr max 0 := by
    clear h
    induction l with
    | nil => exact List.forall_mem_nil _
    | cons b l ih =>
      refine List.forall_mem_cons.2 ⟨Nat.le_max_left .., fun a ha => ?_⟩
      exact Nat.le_trans (ih a ha) (Nat.le_max_right ..)
  exact Nat.not_succ_le_self _ (hle _ h)

/-- New objects above all others. -/
def Allocator.above : Allocator where
  make l := l.foldr max 0 + 1
  make_notMem := above_notMem
  make_ne_zero _ := Nat.succ_ne_zero _

/-- The objects by their addresses. All addresses with an object are in use. -/
structure Memory (β : Type) where
  get : Addr → Option β
  used : List Addr
  mem_used : ∀ a, (get a).isSome → a ∈ used

namespace Memory

variable {β γ : Type} {m : Memory β} {a x : Addr} {b : β}

/-- No objects. -/
def empty : Memory β where
  get _ := none
  used := []
  mem_used _ h := absurd h Bool.false_ne_true

theorem mem_used_set (m : Memory β) (a : Addr) (b : β) (x : Addr)
    (h : (Function.update m.get a (some b) x).isSome) : x ∈ a :: m.used := by
  rcases eq_or_ne x a with rfl | hne
  · exact List.mem_cons_self
  · rw [Function.update_of_ne hne] at h
    exact List.mem_cons_of_mem _ (m.mem_used x h)

/-- An object is put in place. -/
def set (m : Memory β) (a : Addr) (b : β) : Memory β where
  get := Function.update m.get a (some b)
  used := a :: m.used
  mem_used := mem_used_set m a b

theorem mem_used_free (m : Memory β) (a x : Addr) (h : (Function.update m.get a none x).isSome) :
    x ∈ m.used.filter (· ≠ a) := by
  rcases eq_or_ne x a with rfl | hne
  · rw [Function.update_self] at h
    cases h
  · rw [Function.update_of_ne hne] at h
    exact List.mem_filter.2 ⟨m.mem_used x h, decide_eq_true hne⟩

/-- An object is given back, and its address may be used again. -/
def free (m : Memory β) (a : Addr) : Memory β where
  get := Function.update m.get a none
  used := m.used.filter (· ≠ a)
  mem_used := mem_used_free m a

@[simp] theorem get_set_self : (m.set a b).get a = some b := Function.update_self ..

@[simp] theorem get_set_of_ne (h : x ≠ a) : (m.set a b).get x = m.get x :=
  Function.update_of_ne h ..

@[simp] theorem get_free_self : (m.free a).get a = none := Function.update_self ..

@[simp] theorem get_free_of_ne (h : x ≠ a) : (m.free a).get x = m.get x :=
  Function.update_of_ne h ..

theorem get_make (A : Allocator) (m : Memory β) : m.get (A.make m.used) = none := by
  cases h : m.get (A.make m.used) with
  | none => rfl
  | some b => exact absurd (m.mem_used _ (by rw [h]; rfl)) (A.make_notMem _)

/-- Code on a memory. -/
abbrev Exec (β γ : Type) : Type := StateT (Memory β) Option γ

namespace Exec

/-- The object at an address. -/
def load (a : Addr) : Exec β β := fun m => (m.get a).map fun b => (b, m)

/-- Changes an object. -/
def store (a : Addr) (f : β → β) : Exec β Unit :=
  fun m => (m.get a).map fun b => ((), m.set a (f b))

/-- `free`. -/
def release (a : Addr) : Exec β Unit := fun m => (m.get a).map fun _ => ((), m.free a)

/-- `malloc`. -/
def new (A : Allocator) (b : β) : Exec β Addr := fun m =>
  some (A.make m.used, m.set (A.make m.used) b)

theorem run_bind_of_run {p : Exec β γ} {δ : Type} {f : γ → Exec β δ} {m m' : Memory β} {c : γ}
    (h : p.run m = some (c, m')) : (p >>= f).run m = (f c).run m' := by
  rw [StateT.run_bind, h]
  rfl

theorem run_load (h : m.get a = some b) : (load a).run m = some (b, m) := by
  simp [load, StateT.run, h]

theorem run_store (h : m.get a = some b) (f : β → β) :
    (store a f).run m = some ((), m.set a (f b)) := by
  simp [store, StateT.run, h]

theorem run_release (h : m.get a = some b) : (release a).run m = some ((), m.free a) := by
  simp [release, StateT.run, h]

theorem run_new (A : Allocator) (m : Memory β) (b : β) :
    (new A b).run m = some (A.make m.used, m.set (A.make m.used) b) := rfl

end Exec

end Memory

end ChargingPile
