import Mathlib.Tactic.Common

/-!
# One charging port: relay, load detector and state store

A `Charger` (`components/charger.cxx`) chains three observers: the relay value, the virtual load
detector with its one-shot timer, and the state store whose `Observable` the rest of the controller
watches. An `Observable` notifies its observers only when its value changes, so a call on a charger
returns the new charger together with the states its state store published, in order.

The observers are listed in the order of registration: the detector watches the relay and the meter
from its constructor on, the state store from `Charger::init` on.

`timer->isRunning()` is reached through a null pointer when no timer exists
(`VirtualLoadDetector::update`). What that read yields is the parameter `nullRunning`.
-/

namespace ChargingPile

/-- `State::Value`. -/
inductive State
  | loadNotInsert | loadInserted | charging | loadWaitRemove | error
deriving DecidableEq, Repr

/-- `Relay::Value`. -/
inductive Relay
  | on | off
deriving DecidableEq, Repr

/-- A charger with the values of its observables. `relay` is unset until the relay is first driven;
`timer` is the detector's timer, `none` for a null pointer and otherwise its `running` flag. -/
structure Charger where
  relay : Option Relay := none
  vlodet : Option Bool := none
  timer : Option Bool := none
  state : Option State := none
  current : Option Int := none
  voltage : Option Int := none
deriving DecidableEq, Repr

namespace Charger

/-! ## The calls -/

/-- Two calls in a row, with what both publish. -/
def andThen (r : Charger × List State) (f : Charger → Charger × List State) :
    Charger × List State :=
  ((f r.1).1, r.2 ++ (f r.1).2)

/-- `state = s` in the state store. -/
def publish (c : Charger) (s : State) : Charger × List State :=
  if c.state = some s then (c, []) else ({ c with state := some s }, [s])

/-- `StateStore::update`. -/
def update (c : Charger) : Charger × List State :=
  if c.relay = some .on then c.publish .charging
  else if c.vlodet = some false then c.publish .loadNotInsert
  else (c, [])

/-- `state = v` in the detector, and the handler of `StateStore::watch(virtualLoadDetector)`. -/
def setVlodet (c : Charger) (v : Bool) : Charger × List State :=
  if c.vlodet = some v then (c, [])
  else
    let c := { c with vlodet := some v }
    if v then c.publish .loadInserted else c.update

/-- `VirtualLoadDetector::update`. -/
def vlodetUpdate (nullRunning : Bool) (c : Charger) : Charger × List State :=
  if c.relay = some .on then c.setVlodet true
  else if c.timer.getD nullRunning then (c, [])
  else c.setVlodet false

/-- `Charger::start`: `relay->value = Relay::On`, then the detector's and the state store's
handlers. -/
def start (nullRunning : Bool) (c : Charger) : Charger × List State :=
  if c.relay = some .on then (c, [])
  else andThen (vlodetUpdate nullRunning { c with relay := some .on }) update

/-- `Charger::stop`: `relay->value = Relay::Off`. The detector's handler creates the timer if there
is none and starts it, the state store's handler sets `LoadWaitRemove`. -/
def stop (c : Charger) : Charger × List State :=
  if c.relay = some .off then (c, [])
  else publish { c with relay := some .off, timer := some true } .loadWaitRemove

/-- The meter's handlers of a charger, after a new current or voltage. -/
def meterUpdate (nullRunning : Bool) (c : Charger) : Charger × List State :=
  andThen (c.vlodetUpdate nullRunning) update

/-- `current = v` of the charger's meter channel. -/
def setCurrent (nullRunning : Bool) (v : Int) (c : Charger) : Charger × List State :=
  if c.current = some v then (c, []) else meterUpdate nullRunning { c with current := some v }

/-- `voltage = v` of the charger's meter channel. -/
def setVoltage (nullRunning : Bool) (v : Int) (c : Charger) : Charger × List State :=
  if c.voltage = some v then (c, []) else meterUpdate nullRunning { c with voltage := some v }

/-- The detector's one-shot timer expires: `Timer::run` clears `running`, the handler of
`createTimer` updates the detector and drops the timer. -/
def timerRun (nullRunning : Bool) (c : Charger) : Charger × List State :=
  match c.timer with
  | some true =>
    let r := vlodetUpdate nullRunning { c with timer := some false }
    ({ r.1 with timer := none }, r.2)
  | _ => (c, [])

/-- A charger after its constructors and `Charger::init`: the detector has updated itself once,
before the state store watched it. -/
def boot (nullRunning : Bool) : Charger :=
  { vlodet := if nullRunning then none else some false }

/-! ## The invariant -/

/-- What holds of a charger between two events. -/
structure Inv (c : Charger) : Prop where
  /-- The state store says `Charging` exactly while the relay is closed. -/
  charging_iff : c.state = some .charging ↔ c.relay = some .on
  /-- While the relay is closed the detector sees a load. -/
  vlodet_on : c.relay = some .on → c.vlodet = some true
  /-- Before the relay is first driven no load was seen and no session was published. -/
  unset : c.relay = none → c.vlodet ≠ some true ∧ (c.state = none ∨ c.state = some .loadNotInsert)

variable {c : Charger} {nr : Bool} {v : Int}

theorem boot_inv : (boot nr).Inv := by
  constructor <;> simp [boot]

/-- A charger whose relay is closed already ignores `start`. -/
theorem start_on (h : c.relay = some .on) : c.start nr = (c, []) := by
  simp [start, h]

/-- `start` on an open relay publishes `Charging` last, after `LoadInserted` unless the detector
still saw the load. -/
theorem start_spec (hc : c.Inv) (h : c.relay ≠ some .on) :
    c.start nr = ({ c with relay := some .on, vlodet := some true, state := some .charging },
      if c.vlodet = some true ∨ c.state = some .loadInserted then [.charging]
      else [.loadInserted, .charging]) := by
  have hs : c.state ≠ some .charging := fun hs => h (hc.charging_iff.1 hs)
  by_cases hv : c.vlodet = some true
  · simp [start, h, vlodetUpdate, setVlodet, andThen, update, publish, hv, hs]
  · by_cases hl : c.state = some .loadInserted
    · simp [start, h, vlodetUpdate, setVlodet, andThen, update, publish, hv, hl]
    · simp [start, h, vlodetUpdate, setVlodet, andThen, update, publish, hv, hl]

/-- A charger whose relay is open already ignores `stop`. -/
theorem stop_off (h : c.relay = some .off) : c.stop = (c, []) := by
  simp [stop, h]

/-- `stop` on a closed or unset relay publishes `LoadWaitRemove`. -/
theorem stop_spec (hc : c.Inv) (h : c.relay ≠ some .off) :
    c.stop = ({ c with relay := some .off, timer := some true, state := some .loadWaitRemove },
      [.loadWaitRemove]) := by
  have hs : c.state ≠ some .loadWaitRemove := by
    cases hr : c.relay with
    | none => rcases (hc.unset hr).2 with hs | hs <;> simp [hs]
    | some r =>
      cases r with
      | on => simp [hc.charging_iff.2 hr]
      | off => exact absurd hr h
  simp [stop, h, publish, hs]

/-- The calls that leave the relay alone. They change nothing while the relay is closed, and
otherwise publish at most `LoadNotInsert`. -/
structure Quiet (c : Charger) (r : Charger × List State) : Prop where
  relay : r.1.relay = c.relay
  current : r.1.current = c.current
  voltage : r.1.voltage = c.voltage
  closed : c.relay = some .on → r.2 = [] ∧ r.1.state = c.state ∧ r.1.vlodet = c.vlodet
  opened : c.relay ≠ some .on → (r.2 = [] ∧ r.1.state = c.state ∨
    r.2 = [.loadNotInsert] ∧ r.1.state = some .loadNotInsert) ∧
    (r.1.vlodet = c.vlodet ∨ r.1.vlodet = some false)

theorem Quiet.inv {r : Charger × List State} (hc : c.Inv) (h : Quiet c r) : r.1.Inv := by
  by_cases hr : c.relay = some .on
  · obtain ⟨-, hs, hv⟩ := h.closed hr
    constructor
    · rw [hs, h.relay]; exact hc.charging_iff
    · rw [hv, h.relay]; exact hc.vlodet_on
    · rw [h.relay, hr]; nofun
  · obtain ⟨hs, hv⟩ := h.opened hr
    have hne : c.state ≠ some .charging := fun hs => hr (hc.charging_iff.1 hs)
    constructor
    · rw [h.relay]
      rcases hs with ⟨-, hs⟩ | ⟨-, hs⟩ <;> simp [hs, hr, hne]
    · rw [h.relay]; exact fun hr' => absurd hr' hr
    · rw [h.relay]
      intro hn
      obtain ⟨hv', hs'⟩ := hc.unset hn
      refine ⟨?_, ?_⟩
      · rcases hv with hv | hv <;> simp [hv, hv']
      · rcases hs with ⟨-, hs⟩ | ⟨-, hs⟩ <;> simp [hs, hs']

/-- `VirtualLoadDetector::update` leaves the relay alone. -/
theorem vlodetUpdate_quiet (hc : c.Inv) (b : Bool) : Quiet c (c.vlodetUpdate b) := by
  by_cases hr : c.relay = some .on
  · have hv := hc.vlodet_on hr
    constructor <;> simp [vlodetUpdate, hr, setVlodet, hv]
  · by_cases ht : c.timer.getD b = true
    · constructor <;> simp [vlodetUpdate, hr, ht]
    · by_cases hv : c.vlodet = some false
      · constructor <;> simp [vlodetUpdate, hr, ht, setVlodet, hv]
      · by_cases hs : c.state = some .loadNotInsert
        · constructor <;> simp [vlodetUpdate, hr, ht, setVlodet, hv, update, publish, hs]
        · constructor <;> simp [vlodetUpdate, hr, ht, setVlodet, hv, update, publish, hs]

/-- `StateStore::update` leaves the relay alone. -/
theorem update_quiet (hc : c.Inv) : Quiet c c.update := by
  by_cases hr : c.relay = some .on
  · have hs := hc.charging_iff.2 hr
    constructor <;> simp [update, hr, publish, hs]
  · by_cases hv : c.vlodet = some false
    · by_cases hs : c.state = some .loadNotInsert
      · constructor <;> simp [update, hr, publish, hs, hv]
      · constructor <;> simp [update, hr, publish, hs, hv]
    · constructor <;> simp [update, hr, hv]

/-- Both updates together publish `LoadNotInsert` at most once. -/
theorem meterUpdate_quiet (hc : c.Inv) (b : Bool) : Quiet c (c.meterUpdate b) := by
  have h1 := vlodetUpdate_quiet hc b
  have h2 := update_quiet (h1.inv hc)
  unfold meterUpdate andThen
  constructor
  · exact h2.relay.trans h1.relay
  · exact h2.current.trans h1.current
  · exact h2.voltage.trans h1.voltage
  · intro hr
    obtain ⟨ha, hb, hd⟩ := h1.closed hr
    obtain ⟨ha', hb', hd'⟩ := h2.closed (h1.relay.trans hr)
    exact ⟨by simp [ha, ha'], hb'.trans hb, hd'.trans hd⟩
  · intro hr
    obtain ⟨hs, hv⟩ := h1.opened hr
    have hr' : (c.vlodetUpdate b).1.relay ≠ some .on := by rwa [h1.relay]
    obtain ⟨hs', hv'⟩ := h2.opened hr'
    refine ⟨?_, ?_⟩
    · rcases hs with ⟨hp, hs⟩ | ⟨hp, hs⟩
      · rcases hs' with ⟨hp', hs'⟩ | ⟨hp', hs'⟩
        · exact .inl ⟨by simp [hp, hp'], hs'.trans hs⟩
        · exact .inr ⟨by simp [hp, hp'], hs'⟩
      · -- the first update has published it, so the second one finds it set
        have hu : (c.vlodetUpdate b).1.update.2 = [] := by
          simp only [update, if_neg hr', publish, hs]
          split <;> rfl
        refine .inr ⟨by simp [hp, hu], ?_⟩
        rcases hs' with ⟨-, hs'⟩ | ⟨-, hs'⟩
        · exact hs'.trans hs
        · exact hs'
    · rcases hv' with hv' | hv'
      · rw [hv']; exact hv
      · exact .inr hv'

theorem inv_setMeter (hc : c.Inv) (i u : Option Int) :
    ({ c with current := i, voltage := u } : Charger).Inv :=
  ⟨hc.charging_iff, hc.vlodet_on, hc.unset⟩

/-- A new current leaves the relay alone. -/
theorem setCurrent_quiet (hc : c.Inv) (h : c.current ≠ some v) :
    Quiet { c with current := some v } (c.setCurrent nr v) := by
  rw [setCurrent, if_neg h]
  exact meterUpdate_quiet (inv_setMeter hc _ _) nr

/-- A new voltage leaves the relay alone. -/
theorem setVoltage_quiet (hc : c.Inv) (h : c.voltage ≠ some v) :
    Quiet { c with voltage := some v } (c.setVoltage nr v) := by
  rw [setVoltage, if_neg h]
  exact meterUpdate_quiet (inv_setMeter hc _ _) nr

/-- The expiry of the detector's timer leaves the relay alone. -/
theorem timerRun_quiet (hc : c.Inv) : Quiet c (c.timerRun nr) := by
  unfold timerRun
  split
  · have hc' : ({ c with timer := some false } : Charger).Inv :=
      ⟨hc.charging_iff, hc.vlodet_on, hc.unset⟩
    have h := vlodetUpdate_quiet hc' nr
    exact ⟨h.relay, h.current, h.voltage, h.closed, h.opened⟩
  · constructor <;> simp

theorem start_inv (hc : c.Inv) : (c.start nr).1.Inv := by
  by_cases h : c.relay = some .on
  · rw [start_on h]; exact hc
  · rw [start_spec hc h]
    constructor <;> simp

theorem stop_inv (hc : c.Inv) : c.stop.1.Inv := by
  by_cases h : c.relay = some .off
  · rw [stop_off h]; exact hc
  · rw [stop_spec hc h]
    constructor <;> simp

theorem setCurrent_inv (hc : c.Inv) : (c.setCurrent nr v).1.Inv := by
  by_cases h : c.current = some v
  · rw [setCurrent, if_pos h]; exact hc
  · exact (setCurrent_quiet hc h).inv (inv_setMeter hc _ _)

theorem setVoltage_inv (hc : c.Inv) : (c.setVoltage nr v).1.Inv := by
  by_cases h : c.voltage = some v
  · rw [setVoltage, if_pos h]; exact hc
  · exact (setVoltage_quiet hc h).inv (inv_setMeter hc _ _)

theorem timerRun_inv (hc : c.Inv) : (c.timerRun nr).1.Inv :=
  (timerRun_quiet hc).inv hc

end Charger

end ChargingPile
