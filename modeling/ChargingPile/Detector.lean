import ChargingPile.Charger
import ChargingPile.Lib.Machine

/-!
# The load detector and its timer

`VirtualLoadDetector` (`components/virtual_load_detector.cxx`) on its own. Its timer is created
when the relay is opened and dropped when it has run, and `update` asks it `isRunning()` whenever
the relay is not closed, without a check for null. That happens in `init` already, unless the relay
is closed by then, and again at every measurement of an open relay after the timer has run
(`VirtualLoadDetector.no_null_read_iff`).

`Charger` contains the detector: its calls are the detector's events (`Charger.detector_call`).
-/

namespace ChargingPile

/-- `VirtualLoadDetector`, with the values it watches. `timer` is `none` for a null pointer and
otherwise its `running` flag. -/
structure VirtualLoadDetector where
  relay : Option Relay
  timer : Option Bool := none
  state : Option Bool := none
  current : Option Int
  voltage : Option Int
deriving DecidableEq, Repr

namespace VirtualLoadDetector

/-- The events: an assignment to the relay, a reading of the meter, and the expiry of the timer. -/
inductive Event
  | relay (value : Relay)
  | current (value : Int)
  | voltage (value : Int)
  | expire
deriving DecidableEq, Repr

/-- `timer->isRunning()` was called through a null pointer. -/
inductive Output
  | nullRead
deriving DecidableEq, Repr

/-- `VirtualLoadDetector::update`. What `isRunning()` yields for a null pointer is
`nullRunning`. -/
def update (nullRunning : Bool) (d : VirtualLoadDetector) : VirtualLoadDetector × List Output :=
  if d.relay = some .on then ({ d with state := some true }, [])
  else
    (if d.timer.getD nullRunning then d else { d with state := some false },
      if d.timer = none then [.nullRead] else [])

/-- `VirtualLoadDetector::init`, with the values of the relay and of the meter at that time. -/
def init (nullRunning : Bool) (relay : Option Relay) (current voltage : Option Int) :
    VirtualLoadDetector × List Output :=
  update nullRunning { relay := relay, current := current, voltage := voltage }

/-- One event. The observers of a value are told of new values only. -/
def step (nullRunning : Bool) (d : VirtualLoadDetector) : Event → VirtualLoadDetector × List Output
  | .relay .on =>
    if d.relay = some .on then (d, []) else update nullRunning { d with relay := some .on }
  | .relay .off =>
    -- `createTimer` if there is none, and `start`
    if d.relay = some .off then (d, [])
      else ({ d with relay := some .off, timer := some true }, [])
  | .current value =>
    if d.current = some value then (d, []) else update nullRunning { d with current := some value }
  | .voltage value =>
    if d.voltage = some value then (d, []) else update nullRunning { d with voltage := some value }
  | .expire =>
    match d.timer with
    | some true =>
      -- `Timer::run`, and the handler of `createTimer`
      let r := update nullRunning { d with timer := some false }
      ({ r.1 with timer := none }, r.2)
    | _ => (d, [])

/-- The detector as a machine. -/
def machine (nullRunning : Bool) : Machine VirtualLoadDetector Event Output := ⟨step nullRunning⟩

variable {nr : Bool} {d d₀ : VirtualLoadDetector} {e : Event} {es : List Event}

@[simp] theorem machine_step : (machine nr).step d e = d.step nr e := rfl

/-! ## What an event does -/

/-- The event is a reading that differs from the last one. -/
def Measures (d : VirtualLoadDetector) : Event → Prop
  | .current value => d.current ≠ some value
  | .voltage value => d.voltage ≠ some value
  | _ => False

theorem update_timer : (d.update nr).1.timer = d.timer := by
  simp only [update]
  split
  · rfl
  · split <;> rfl

theorem nullRead_mem_update :
    .nullRead ∈ (d.update nr).2 ↔ d.relay ≠ some .on ∧ d.timer = none := by
  simp only [update]
  split
  · simp_all
  · split <;> simp_all

/-- The null pointer is read at a new measurement, with the relay not closed and
without a timer. -/
theorem nullRead_mem_step :
    .nullRead ∈ (d.step nr e).2 ↔ d.Measures e ∧ d.relay ≠ some .on ∧ d.timer = none := by
  have hreading : ∀ (p : Prop) [Decidable p] (d' : VirtualLoadDetector), d'.relay = d.relay →
      d'.timer = d.timer → (.nullRead ∈ (if p then (d, []) else d'.update nr).2 ↔
        ¬ p ∧ d.relay ≠ some .on ∧ d.timer = none) := by
    intro p _ d' hr ht
    by_cases hp : p
    · simp [hp]
    · rw [if_neg hp, nullRead_mem_update, hr, ht]
      simp [hp]
  cases e with
  | relay value =>
    simp only [Measures, false_and, iff_false]
    cases value with
    | on =>
      simp only [step]
      split
      · exact List.not_mem_nil
      · simp [nullRead_mem_update]
    | off =>
      simp only [step]
      split <;> exact List.not_mem_nil
  | current value => exact hreading _ _ rfl rfl
  | voltage value => exact hreading _ _ rfl rfl
  | expire =>
    simp only [Measures, false_and, iff_false, step]
    split
    · simp [nullRead_mem_update]
    · exact List.not_mem_nil

/-- The timer is made by an opening, and dropped by an expiry. -/
theorem step_timer : (d.step nr e).1.timer =
    if e = .relay .off ∧ d.relay ≠ some .off then some true
    else if e = .expire ∧ d.timer = some true then none else d.timer := by
  cases e with
  | relay value =>
    cases value with
    | on =>
      simp only [step]
      split <;> simp [update_timer]
    | off =>
      simp only [step]
      split <;> simp [*]
  | current value =>
    simp only [step]
    split <;> simp [update_timer]
  | voltage value =>
    simp only [step]
    split <;> simp [update_timer]
  | expire =>
    simp only [step]
    split
    · simp [*]
    · rename_i hne
      simp [show d.timer ≠ some true from hne]

/-! ## Runs -/

/-- The relay was opened in the run `es` from `d₀`, and the timer has not run since. -/
def Timed (nr : Bool) (d₀ : VirtualLoadDetector) (es : List Event) : Prop :=
  ∃ l m, es = l ++ .relay .off :: m ∧ ((machine nr).run d₀ l).relay ≠ some .off ∧ .expire ∉ m

theorem timed_concat : Timed nr d₀ (es ++ [e]) ↔
    e = .relay .off ∧ ((machine nr).run d₀ es).relay ≠ some .off ∨ e ≠ .expire ∧
    Timed nr d₀ es := by
  constructor
  · rintro ⟨l, m, heq, hl, hm⟩
    cases m using List.reverseRecOn with
    | nil =>
      obtain ⟨rfl, he⟩ := List.append_inj' heq rfl
      exact .inl ⟨by simpa using he, hl⟩
    | append_singleton m x =>
      rw [← List.cons_append, ← List.append_assoc] at heq
      obtain ⟨rfl, he⟩ := List.append_inj' heq rfl
      obtain rfl : e = x := by simpa using he
      simp only [List.mem_append, List.mem_singleton, not_or] at hm
      exact .inr ⟨fun h => hm.2 h.symm, l, m, rfl, hl, hm.1⟩
  · rintro (⟨rfl, hr⟩ | ⟨he, l, m, rfl, hl, hm⟩)
    · exact ⟨es, [], rfl, hr, List.not_mem_nil⟩
    · refine ⟨l, m ++ [e], by simp, hl, ?_⟩
      simp only [List.mem_append, List.mem_singleton, not_or]
      exact ⟨hm, fun h => he h.symm⟩

/-- The timer is there while an opening of the relay is not followed by an expiry, and then it
runs. -/
theorem run_timer (h : d₀.timer = none) (es : List Event) :
    ((machine nr).run d₀ es).timer = some true ∧ Timed nr d₀ es ∨
      ((machine nr).run d₀ es).timer = none ∧ ¬ Timed nr d₀ es := by
  refine Machine.history_inv (M := machine nr) (s := d₀)
    (I := fun es (d : VirtualLoadDetector) => d.timer = some true ∧ Timed nr d₀ es ∨
      d.timer = none ∧ ¬ Timed nr d₀ es) (.inr ⟨h, ?_⟩) ?_ es
  · rintro ⟨l, m, heq, -⟩
    exact absurd heq (by simp)
  · intro es e ih
    rw [timed_concat, machine_step, step_timer]
    by_cases ho : e = .relay .off ∧ ((machine nr).run d₀ es).relay ≠ some .off
    · rw [if_pos ho]
      exact .inl ⟨rfl, .inl ho⟩
    · rw [if_neg ho]
      by_cases he : e = .expire
      · subst he
        refine .inr ⟨?_, by simp⟩
        rcases ih with ⟨ht, -⟩ | ⟨ht, -⟩ <;> simp [ht]
      · rw [if_neg fun h => he h.1]
        simpa [ho, he] using ih

/-- **When the missing timer is used.** In a run from `init` on, `update` never reads through a
null pointer exactly if the relay is closed at `init`, and every new reading comes while the relay
is closed or after it was opened and before the timer has run. -/
theorem no_null_read_iff (nr : Bool) (relay : Option Relay) (current voltage : Option Int)
    (es : List Event) :
    (.nullRead ∉ (init nr relay current voltage).2 ∧
      .nullRead ∉ (machine nr).trace (init nr relay current voltage).1 es) ↔
    relay = some .on ∧ ∀ pre e post, es = pre ++ e :: post →
      ((machine nr).run (init nr relay current voltage).1 pre).Measures e →
      ((machine nr).run (init nr relay current voltage).1 pre).relay = some .on ∨
        Timed nr (init nr relay current voltage).1 pre := by
  have hinit : .nullRead ∉ (init nr relay current voltage).2 ↔ relay = some .on := by
    rw [init, nullRead_mem_update]
    simp
  have htimer : ∀ es, ((machine nr).run (init nr relay current voltage).1 es).timer = some true ∧
      Timed nr (init nr relay current voltage).1 es ∨
      ((machine nr).run (init nr relay current voltage).1 es).timer = none ∧
        ¬ Timed nr (init nr relay current voltage).1 es := run_timer update_timer
  rw [hinit, Machine.mem_trace]
  refine and_congr_right fun _ => ?_
  simp only [not_exists, not_and]
  refine forall_congr' fun pre => forall_congr' fun e => forall_congr' fun post =>
    forall_congr' fun _ => ?_
  rw [machine_step, nullRead_mem_step]
  rcases htimer pre with ⟨ht, hpre⟩ | ⟨ht, hpre⟩
  · simp [ht, hpre]
  · simp only [ht, hpre, and_true, or_false]
    tauto

/-- The relay is not set when the detector is initialised, and a meter reports once more after the
relay was opened and the timer has run. -/
theorem missing_timer_used :
    (init false none none none).2 = [.nullRead] ∧
    (machine false).trace (init false none none none).1
      [.relay .on, .relay .off, .expire, .current 5] = [.nullRead] := by
  decide

end VirtualLoadDetector

/-! ## The detector of a charger -/

namespace Charger

open VirtualLoadDetector (Event)

/-- The detector in a charger. -/
def detector (c : Charger) : VirtualLoadDetector where
  relay := c.relay
  timer := c.timer
  state := c.vlodet
  current := c.current
  voltage := c.voltage

/-- The call that an event of the detector is. -/
def call (nullRunning : Bool) (c : Charger) : Event → Charger × List State
  | .relay .on => c.start nullRunning
  | .relay .off => c.stop
  | .current value => c.setCurrent nullRunning value
  | .voltage value => c.setVoltage nullRunning value
  | .expire => c.timerRun nullRunning

variable {nr : Bool} {c : Charger}

@[simp] theorem detector_publish (s : State) : (c.publish s).1.detector = c.detector := by
  simp only [publish]
  split <;> rfl

@[simp] theorem detector_update : c.update.1.detector = c.detector := by
  simp only [update]
  split
  · exact detector_publish _
  · split
    · exact detector_publish _
    · rfl

theorem detector_setVlodet (v : Bool) :
    (c.setVlodet v).1.detector = { c.detector with state := some v } := by
  simp only [setVlodet]
  split
  · rename_i h
    simp [detector, h]
  · split
    · rw [detector_publish]
      rfl
    · rw [detector_update]
      rfl

theorem detector_vlodetUpdate :
    (c.vlodetUpdate nr).1.detector = (c.detector.update nr).1 := by
  simp only [vlodetUpdate, VirtualLoadDetector.update]
  by_cases hr : c.relay = some .on
  · rw [if_pos hr, if_pos (show c.detector.relay = some .on from hr), detector_setVlodet]
  · rw [if_neg hr, if_neg (show c.detector.relay ≠ some .on from hr)]
    by_cases ht : c.timer.getD nr = true
    · rw [if_pos ht, if_pos (show c.detector.timer.getD nr = true from ht)]
    · rw [if_neg ht, if_neg (show ¬ c.detector.timer.getD nr = true from ht), detector_setVlodet]

/-- **A charger runs the detector.** Each call does to the detector in it what the event does. -/
theorem detector_call (e : Event) : (c.call nr e).1.detector = (c.detector.step nr e).1 := by
  have hreading : ∀ {p q : Prop} [Decidable p] [Decidable q] (c' : Charger), (p ↔ q) →
      (if p then (c, []) else andThen (c'.vlodetUpdate nr) update).1.detector =
        (if q then (c.detector, []) else c'.detector.update nr).1 := by
    intro p q _ _ c' hpq
    by_cases hp : p
    · rw [if_pos hp, if_pos (hpq.1 hp)]
    · rw [if_neg hp, if_neg (mt hpq.2 hp), andThen, detector_update, detector_vlodetUpdate]
  cases e with
  | relay value =>
    cases value with
    | on => exact hreading { c with relay := some .on } Iff.rfl
    | off =>
      simp only [call, stop, VirtualLoadDetector.step]
      by_cases hr : c.relay = some .off
      · rw [if_pos hr, if_pos (show c.detector.relay = some .off from hr)]
      · rw [if_neg hr, if_neg (show c.detector.relay ≠ some .off from hr), detector_publish]
        rfl
  | current value => exact hreading { c with current := some value } Iff.rfl
  | voltage value => exact hreading { c with voltage := some value } Iff.rfl
  | expire =>
    have ht : c.detector.timer = c.timer := rfl
    simp only [call, timerRun, VirtualLoadDetector.step, ht]
    rcases c.timer with - | - | -
    · rfl
    · rfl
    · exact congrArg (fun d : VirtualLoadDetector => { d with timer := none })
        (detector_vlodetUpdate (c := { c with timer := some false }))

theorem detector_boot : (boot nr).detector = (VirtualLoadDetector.init nr none none none).1 := by
  cases nr <;> rfl

end Charger

end ChargingPile
