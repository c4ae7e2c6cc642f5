import ChargingPile.Lib.Machine
import Mathlib.Tactic.Common

/-!
# The countdown

`CountDown` of `utilities/count_down.hxx`, the timer every decorator of the lower controller counts
its ticks with. It counts only between a trigger and a reset, and it stays at zero once it has
expired: `trigger` does not load it again, `reset` and (at zero) `retrigger` do. The type parameter
of the source is an unsigned integer that only ever counts down to zero, a natural number here.

In a run of all these operations (`CountDown.machine`) the value is what was loaded last, less the
updates since then that were made while the countdown was counting:
`CountDown.updateAndCheck_true_iff`.
-/

namespace ChargingPile

/-- `CountDown`. -/
structure CountDown where
  counting : Bool := false
  currVal : Nat
  initVal : Nat
deriving DecidableEq, Repr

namespace CountDown

/-- The constructor `CountDown(initVal)`. -/
def ofInit (initVal : Nat) : CountDown := { currVal := initVal, initVal := initVal }

/-- `CountDown::reset`. -/
def reset (c : CountDown) : CountDown := { c with counting := false, currVal := c.initVal }

/-- `CountDown::trigger`: the counter keeps its value, also a value of zero. -/
def trigger (c : CountDown) : CountDown := { c with counting := true }

/-- `CountDown::forceTrigger`. -/
def forceTrigger (c : CountDown) : CountDown := { c with counting := true, currVal := 1 }

/-- `CountDown::retrigger`: loads an expired counter again. -/
def retrigger (c : CountDown) : CountDown :=
  { c with counting := true, currVal := if c.currVal = 0 then c.initVal else c.currVal }

/-- `CountDown::setInitial`. -/
def setInitial (c : CountDown) (initVal : Nat) : CountDown := { c with initVal := initVal }

/-- `CountDown::updateAndCheck`: its result, and the countdown after the call. -/
def updateAndCheck (c : CountDown) : Bool × CountDown :=
  if !c.counting then (false, c)
  else if c.currVal = 0 then (false, c)
  else (c.currVal - 1 == 0, { c with currVal := c.currVal - 1 })

/-- The countdown runs: the next `updateAndCheck` changes it. -/
def Armed (c : CountDown) : Prop := c.counting = true ∧ c.currVal ≠ 0

instance (c : CountDown) : Decidable c.Armed := inferInstanceAs (Decidable (_ ∧ _))

/-- A call expires the countdown exactly if it counts and has one tick left. -/
@[simp] theorem updateAndCheck_fst (c : CountDown) :
    c.updateAndCheck.1 = true ↔ c.counting = true ∧ c.currVal = 1 := by
  unfold updateAndCheck
  cases c.counting <;> simp
  split
  · simp_all
  · simp only [beq_iff_eq]; omega

@[simp] theorem updateAndCheck_counting (c : CountDown) :
    c.updateAndCheck.2.counting = c.counting := by
  unfold updateAndCheck
  split
  · rfl
  · split <;> rfl

@[simp] theorem updateAndCheck_initVal (c : CountDown) :
    c.updateAndCheck.2.initVal = c.initVal := by
  unfold updateAndCheck
  split
  · rfl
  · split <;> rfl

/-- A call takes one tick off a countdown that counts. -/
@[simp] theorem updateAndCheck_currVal (c : CountDown) :
    c.updateAndCheck.2.currVal = if c.counting then c.currVal - 1 else c.currVal := by
  unfold updateAndCheck
  cases c.counting <;> simp
  split <;> simp_all

/-! ## Runs -/

/-- A call of one of the operations. -/
inductive Op
  | reset
  | trigger
  | retrigger
  | forceTrigger
  | setInitial (initVal : Nat)
  | updateAndCheck

/-- A countdown whose operations are called in any order. `updateAndCheck` has a result. -/
def machine : Machine CountDown Op Bool where
  step c
    | .reset => (c.reset, [])
    | .trigger => (c.trigger, [])
    | .retrigger => (c.retrigger, [])
    | .forceTrigger => (c.forceTrigger, [])
    | .setInitial initVal => (c.setInitial initVal, [])
    | .updateAndCheck => (c.updateAndCheck.2, [c.updateAndCheck.1])

/-- The value with which an operation loads the countdown, if it does. -/
def load (c : CountDown) : Op → Option Nat
  | .reset => some c.initVal
  | .forceTrigger => some 1
  | .retrigger => if c.currVal = 0 then some c.initVal else none
  | .trigger | .setInitial _ | .updateAndCheck => none

/-- An update that is made while the countdown is counting. -/
def effective (c : CountDown) : Op → Bool
  | .updateAndCheck => c.counting
  | _ => false

/-- What has been loaded, and the effective updates since then. -/
structure Loaded where
  value : Nat
  updates : Nat

/-- An operation loads the countdown anew, or is an update or none. -/
def Loaded.next (c : CountDown) (op : Op) (l : Loaded) : Loaded :=
  match c.load op with
  | some value => ⟨value, 0⟩
  | none => { l with updates := l.updates + (c.effective op).toNat }

/-- The last load of a countdown that was constructed with `n`. -/
def lastLoad (n : Nat) (ops : List Op) : Loaded :=
  machine.tally Loaded.next (ofInit n) ⟨n, 0⟩ ops

/-- The value is what remains of the load, and is never loaded with zero. -/
structure Counts (c : CountDown) (l : Loaded) : Prop where
  currVal : c.currVal = l.value - l.updates
  value : 1 ≤ l.value
  initVal : 1 ≤ c.initVal

theorem Counts.step {c : CountDown} {l : Loaded} (h : Counts c l) {op : Op}
    (hop : ∀ v, op = .setInitial v → 1 ≤ v) : Counts (machine.step c op).1 (l.next c op) := by
  obtain ⟨hval, hload, hinit⟩ := h
  cases op with
  | reset => exact ⟨rfl, hinit, hinit⟩
  | forceTrigger => exact ⟨rfl, Nat.le_refl 1, hinit⟩
  | trigger => exact ⟨hval, hload, hinit⟩
  | setInitial v => exact ⟨hval, hload, hop v rfl⟩
  | retrigger =>
    by_cases hzero : c.currVal = 0
    · have hnext : l.next c .retrigger = ⟨c.initVal, 0⟩ := by rw [Loaded.next, load, if_pos hzero]
      rw [hnext]
      exact ⟨if_pos hzero, hinit, hinit⟩
    · have hnext : l.next c .retrigger = l := by
        rw [Loaded.next, load, if_neg hzero]
        rfl
      rw [hnext]
      exact ⟨(if_neg hzero).trans hval, hload, hinit⟩
  | updateAndCheck =>
    refine ⟨(updateAndCheck_currVal c).trans ?_, hload, (updateAndCheck_initVal c).symm ▸ hinit⟩
    change _ = l.value - (l.updates + c.counting.toNat)
    cases c.counting with
    | false => exact hval
    | true =>
      rw [if_pos rfl, hval]
      exact Nat.sub_sub ..

/-- An operation that does not load an expired countdown leaves it expired. -/
theorem step_expired {c : CountDown} {op : Op} (h : c.currVal = 0) (hload : c.load op = none) :
    (machine.step c op).1.currVal = 0 := by
  cases op with
  | reset | forceTrigger => cases hload
  | retrigger =>
    rw [load, if_pos h] at hload
    cases hload
  | trigger | setInitial => exact h
  | updateAndCheck =>
    refine (updateAndCheck_currVal c).trans ?_
    rw [h]
    exact ite_self 0

/-- `updateAndCheck` is true exactly if with it the effective updates since the last load reach the
loaded value, and between two calls that are true the countdown is loaded. -/
theorem updateAndCheck_true_iff (n : Nat) (ops : List Op) (hn : 1 ≤ n)
    (hset : ∀ v, .setInitial v ∈ ops → 1 ≤ v) :
    ((machine.run (ofInit n) ops).updateAndCheck.1 = true ↔
      (machine.run (ofInit n) ops).counting = true ∧
        (lastLoad n ops).updates + 1 = (lastLoad n ops).value) ∧
    ∀ between, (machine.run (ofInit n) ops).updateAndCheck.1 = true →
      (machine.run (ofInit n) (ops ++ Op.updateAndCheck :: between)).updateAndCheck.1 = true →
      ¬ machine.Along (fun c op => c.load op = none)
        (machine.run (ofInit n) (ops ++ [Op.updateAndCheck])) between := by
  have halong : machine.Along (fun _ op => ∀ v, op = .setInitial v → 1 ≤ v) (ofInit n) ops :=
    Machine.along_of_mem fun op hop _ v hv => hset v (hv ▸ hop)
  obtain ⟨hval, hvalue, -⟩ : Counts (machine.run (ofInit n) ops) (lastLoad n ops) :=
    Machine.tally_inv (fun _ _ _ h hop => h.step hop) halong ⟨rfl, hn, hn⟩
  constructor
  · rw [updateAndCheck_fst, hval]
    exact and_congr_right fun _ => by omega
  · intro between hfirst hsecond hnone
    have hexpired : (machine.run (ofInit n) (ops ++ [Op.updateAndCheck])).currVal = 0 := by
      obtain ⟨hcounting, hone⟩ := (updateAndCheck_fst _).1 hfirst
      rw [Machine.run_concat]
      refine (updateAndCheck_currVal _).trans ?_
      rw [if_pos hcounting, hone]
    have hstill :=
      Machine.run_inv (I := fun c => c.currVal = 0) (fun _ _ => step_expired) hnone hexpired
    rw [← Machine.run_append, List.append_assoc] at hstill
    have hone := ((updateAndCheck_fst _).1 hsecond).2
    rw [List.singleton_append] at hstill
    omega

/-- A countdown of two that has been triggered and updated once expires with the next update. -/
theorem expires_second :
    (machine.run (ofInit 2) [.trigger, .updateAndCheck]).updateAndCheck.1 = true :=
  (updateAndCheck_true_iff 2 [.trigger, .updateAndCheck] (by decide) (fun v h => by simp at h)).1.2
    (by decide)

end CountDown

end ChargingPile
