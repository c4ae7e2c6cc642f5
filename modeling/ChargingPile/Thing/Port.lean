import ChargingPile.CountDown
import ChargingPile.Charger
import Mathlib.Algebra.Group.Int.Defs
import Mathlib.Algebra.GroupWithZero.Nat

/-!
# A port of the lower controller and its decorators

`Thing` (`applications/thing.cxx`) keeps one `ChargerInfo` per port and six decorators, in this
order: `Counter`, `CurrentLimiter`, `NoloadDetecter`, `Backuper`, `DataSetter` and
`ConsumptionMeasurer`. Every decorator keeps a record per port. A `Port` gathers what belongs to
one port: the charger, its `ChargerInfo` and the six records. `Port.exec` is what one event does to
one port. What the ports share reaches it through a `Ctx`.

A charger publishes its states in the middle of a call, and each state runs the decorators at once.
No `onStateChanged` reads the relay, the detector or the state store or drives the relay, so the
decorators are run after the call, on the published states in order (`Port.drive`).
-/

namespace ChargingPile

/-- `Config::Bsp::kPortNum`. -/
abbrev kPortNum : Nat := 10

instance : NeZero kPortNum := ⟨Nat.succ_ne_zero 9⟩

/-- `InnerPort`, with a value that `InnerPort::validate` accepts. -/
abbrev InnerPort := Fin kPortNum

/-- The conversion of an `InnerPort` to a `NatPort`. -/
def InnerPort.toNatPort (p : InnerPort) : Nat := kPortNum - p.val

/-- The value of a 32-bit `int` after a wrap-around. -/
def int32 (n : Int) : Int := Int.bmod n (2 ^ 32)

/-- A variable that the source may read before it is written: its content, and whether it was
assigned. -/
structure Slot (α : Type) where
  val : α
  assigned : Bool := false

/-- An assignment. -/
def Slot.set {α : Type} (a : α) : Slot α := ⟨a, true⟩

/-- `DevConfig`. -/
structure DevConfig where
  currentLimit : Int
  uploadThr : Int
  noloadCurrThr : Int
  doneCurrThr : Int
deriving DecidableEq, Repr

/-- `defualtConf`, the configuration of a controller whose flash holds none. -/
def DevConfig.defualtConf : DevConfig where
  currentLimit := 4000
  uploadThr := 100
  noloadCurrThr := 44
  doneCurrThr := 80

/-- `Backup`. -/
structure Backup where
  leftSeconds : Int := 0
  timerId : Int := 0
  consumption : Float32 := 0

/-- `CurrentData::Fuse::Value`. -/
inductive Fuse
  | normal | fused | unknown
deriving DecidableEq, Repr

/-- `CurrentData`. A state is `none` when the variable it is read from holds no enumerator. -/
structure CurrentData where
  port : Nat
  timerId : Int
  leftMinutes : Int
  state : Slot (Option State)
  current : Int
  voltage : Int
  consumption : Slot Float32
  fuse : Fuse

/-- `ChargerInfo`, less the charger. Nothing initialises `finalState`, which is zero until it is
assigned. -/
structure ChargerInfo where
  timerId : Int := 0
  leftSeconds : Int := 0
  consumption : Float32 := 0
  finalState : Slot (Option State) := ⟨none, false⟩

/-- `NoloadDetecter::ChargerSpec`. -/
structure NoloadDetecter where
  noloadCount : CountDown := .ofInit 120
  doneCount : CountDown := .ofInit 125

/-- `Backuper::PortSpec`. -/
structure Backuper where
  stateHasTransitioned : Bool := false
  backupCount : CountDown := .ofInit 20
  fResume : CountDown := .ofInit 1

/-- `DataSetter::Spec`. Nothing initialises `prevState` and `prevConsumption`. -/
structure DataSetter where
  prevCurrMiA : Int := 0
  prevState : Slot (Option State)
  prevConsumption : Slot Float32
  count : CountDown := .ofInit 1

/-- `ConsumptionMeasurer::ChargerSpec`. `tick` is assigned before it is read. -/
structure ConsumptionMeasurer where
  tick : UInt32 := 0
  prevCurr : Int := 0
  prevVol : Int := 0

/-- One port. `limiter` is the `count` of `CurrentLimiter::Spec`. -/
structure Port where
  charger : Charger
  info : ChargerInfo := {}
  limiter : CountDown := .ofInit 10
  noload : NoloadDetecter := {}
  backuper : Backuper := {}
  data : DataSetter
  meas : ConsumptionMeasurer := {}

/-- What a port reads of the rest: its number, the configuration, `rt_tick_get()`, the flag
`ConsumptionMeasurer::isFirstCharge` that all ports share, and what a null timer reads as. -/
structure Ctx where
  port : InnerPort
  conf : DevConfig
  tick : UInt32
  isFirstCharge : Bool
  nullRunning : Bool

/-- What a port emits: a published state, `onCurrentLimit`, `onCurrentData`, and a record written
to the backup partition. -/
inductive Output
  | state (s : State)
  | currentLimit
  | currentData (d : CurrentData)
  | backup (b : Backup)

/-! ## Handlers of the decorators -/

/-- `Counter::onStateChanged`. -/
def Counter.onStateChanged (s : State) (info : ChargerInfo) : ChargerInfo :=
  if s ≠ .loadWaitRemove then info else { info with leftSeconds := 0 }

/-- `CurrentLimiter::onCurrentChanged`. -/
def CurrentLimiter.onCurrentChanged (conf : DevConfig) (state : Option State) (value : Int)
    (count : CountDown) : CountDown :=
  if state ≠ some .charging then count.reset
  else if value > conf.currentLimit then count.trigger
  else count.reset

namespace NoloadDetecter

/-- `NoloadDetecter::checkCurrent`. -/
def checkCurrent (conf : DevConfig) (value : Int) (spec : NoloadDetecter) : NoloadDetecter where
  noloadCount :=
    if value < conf.noloadCurrThr then spec.noloadCount.trigger else spec.noloadCount.reset
  doneCount := if value < conf.doneCurrThr then spec.doneCount.trigger else spec.doneCount.reset

/-- `NoloadDetecter::onStateChanged`. -/
def onStateChanged (conf : DevConfig) (curr : Int) (s : State) (spec : NoloadDetecter) :
    NoloadDetecter :=
  if s ≠ .charging then
    { noloadCount := spec.noloadCount.reset, doneCount := spec.doneCount.reset }
  else spec.checkCurrent conf curr

/-- `NoloadDetecter::onCurrentChanged`. -/
def onCurrentChanged (conf : DevConfig) (state : Option State) (value : Int)
    (spec : NoloadDetecter) : NoloadDetecter :=
  if state ≠ some .charging then spec else spec.checkCurrent conf value

end NoloadDetecter

/-- `Backuper::onStateChanged`. -/
def Backuper.onStateChanged (s : State) (spec : Backuper) : Backuper :=
  if !spec.stateHasTransitioned then { spec with fResume := spec.fResume.trigger }
  else if s = .charging ∨ s = .loadWaitRemove then
    { spec with backupCount := spec.backupCount.forceTrigger }
  else spec

namespace DataSetter

/-- `DataSetter::onStateChanged`. -/
def onStateChanged (curr : Int) (s : State) (info : ChargerInfo) (spec : DataSetter) :
    ChargerInfo × DataSetter :=
  match s with
  | .charging => ({ info with finalState := .set (some .loadWaitRemove) },
      { spec with prevCurrMiA := curr, prevState := .set (some s), count := spec.count.retrigger })
  | .loadWaitRemove => (info,
      { spec with prevState := .set (some s), prevConsumption := .set info.consumption,
                  count := spec.count.retrigger })
  | _ => (info, spec)

/-- `DataSetter::onCurrentChanged`. -/
def onCurrentChanged (conf : DevConfig) (state : Option State) (value : Int) (spec : DataSetter) :
    DataSetter :=
  if state ≠ some .charging then spec
  else if ((value - spec.prevCurrMiA).natAbs : Int) ≥ conf.uploadThr then
    { spec with prevCurrMiA := value, count := spec.count.retrigger }
  else spec

end DataSetter

namespace ConsumptionMeasurer

/-- `ConsumptionMeasurer::onStateChanged`. -/
def onStateChanged (x : Ctx) (curr vol : Int) (s : State) (info : ChargerInfo)
    (spec : ConsumptionMeasurer) : ChargerInfo × ConsumptionMeasurer :=
  match s with
  | .charging => (if x.isFirstCharge then info else { info with consumption := 0 },
      { tick := x.tick, prevCurr := curr, prevVol := vol })
  | .loadNotInsert => ({ info with consumption := 0 }, spec)
  | _ => (info, spec)

/-- `ConsumptionMeasurer::update`. -/
def update (x : Ctx) (c : Charger) (info : ChargerInfo) (spec : ConsumptionMeasurer) :
    ChargerInfo × ConsumptionMeasurer :=
  if c.state ≠ some .charging then (info, spec)
  else
    ({ info with consumption := info.consumption + Float32.ofInt spec.prevCurr / 1000 *
        Float32.ofInt spec.prevVol * Float32.ofNat (x.tick - spec.tick).toNat / 1000 },
      { tick := x.tick, prevCurr := c.current.getD 0, prevVol := c.voltage.getD 0 })

end ConsumptionMeasurer

/-- The state `s` was published: the port's next state is no longer the first `Charging`. -/
def Ctx.published (x : Ctx) (s : State) : Ctx :=
  { x with isFirstCharge := x.isFirstCharge && s != .charging }

namespace Port

/-- `onStateChanged` of all decorators in order. -/
def onStateChanged (x : Ctx) (s : State) (p : Port) : Port :=
  let curr := p.charger.current.getD 0
  let vol := p.charger.voltage.getD 0
  let d := DataSetter.onStateChanged curr s (Counter.onStateChanged s p.info) p.data
  let m := ConsumptionMeasurer.onStateChanged x curr vol s d.1 p.meas
  { p with
    info := m.1
    noload := p.noload.onStateChanged x.conf curr s
    backuper := p.backuper.onStateChanged s
    data := d.2
    meas := m.2 }

/-- `onCurrentChanged` of all decorators in order. -/
def onCurrentChanged (x : Ctx) (value : Int) (p : Port) : Port :=
  let m := ConsumptionMeasurer.update x p.charger p.info p.meas
  { p with
    limiter := CurrentLimiter.onCurrentChanged x.conf p.charger.state value p.limiter
    noload := p.noload.onCurrentChanged x.conf p.charger.state value
    data := p.data.onCurrentChanged x.conf p.charger.state value
    info := m.1
    meas := m.2 }

/-- `onVoltageChanged` of all decorators, also one tick of the `ConsumptionMeasurer`. -/
def measure (x : Ctx) (p : Port) : Port :=
  let m := ConsumptionMeasurer.update x p.charger p.info p.meas
  { p with info := m.1, meas := m.2 }

/-- The decorators on a list of published states. -/
def notify (x : Ctx) : List State → Port → Port
  | [], p => p
  | s :: l, p => notify (x.published s) l (p.onStateChanged x s)

/-- A call on the charger, with the decorators it runs. -/
def drive (x : Ctx) (p : Port) (r : Charger × List State) : Port × List Output :=
  (notify x r.2 { p with charger := r.1 }, r.2.map .state)

/-- The assignment of `info.finalState`. -/
def setFinalState (p : Port) (s : State) : Port :=
  { p with info := { p.info with finalState := .set (some s) } }

/-! ## Ticks -/

/-- The body of the `Counter` loop. -/
def counterTick (x : Ctx) (p : Port) : Port × List Output :=
  if p.charger.state = some .charging then
    let p := { p with info := { p.info with leftSeconds := int32 (p.info.leftSeconds - 1) } }
    if p.info.leftSeconds ≤ 0 then p.drive x p.charger.stop else (p, [])
  else (p, [])

/-- The body of the `CurrentLimiter` loop. -/
def limiterTick (x : Ctx) (p : Port) : Port × List Output :=
  let u := p.limiter.updateAndCheck
  let p := { p with limiter := u.2 }
  if u.1 then
    let p := p.setFinalState .error
    let r := p.drive x p.charger.stop
    (r.1, r.2 ++ [.currentLimit])
  else (p, [])

/-- The `NoloadDetecter` timer at the port's turn. -/
def noloadTick (x : Ctx) (p : Port) : Port × List Output :=
  let n := p.noload.noloadCount.updateAndCheck
  let d := p.noload.doneCount.updateAndCheck
  let p := { p with noload := { noloadCount := n.2, doneCount := d.2 } }
  if (n.1 || d.1) ∧ p.charger.state = some .charging then
    let p := if n.1 then p.setFinalState .loadNotInsert else p
    p.drive x p.charger.stop
  else (p, [])

/-- `Backuper::resume`, with the record `man->read(port)`. -/
def resume (x : Ctx) (backup : Backup) (p : Port) : Port × List Output :=
  if p.backuper.stateHasTransitioned then (p, [])
  else
    let p := { p with
      backuper := { p.backuper with stateHasTransitioned := true }
      info := { p.info with timerId := backup.timerId } }
    if backup.leftSeconds ≠ 0 then
      let p := { p with info := { p.info with
        leftSeconds := backup.leftSeconds, consumption := backup.consumption } }
      p.drive x (p.charger.start x.nullRunning)
    else
      ({ p with
          info := { p.info with leftSeconds := 0, consumption := 0 }
          backuper := { p.backuper with backupCount := p.backuper.backupCount.trigger } }, [])

/-- The resuming part of the `Backuper` timer at the port's turn. -/
def resumeTick (x : Ctx) (backup : Backup) (p : Port) : Port × List Output :=
  let u := p.backuper.fResume.updateAndCheck
  let p := { p with backuper := { p.backuper with fResume := u.2 } }
  if u.1 then p.resume x backup else (p, [])

/-- `spec.backupCount.updateAndCheck()`. -/
def backupUpdate (p : Port) : Port :=
  { p with backuper := { p.backuper with backupCount := p.backuper.backupCount.updateAndCheck.2 } }

/-- A due port whose turn it is writes its record. -/
def backupWrite (p : Port) : Port × List Output :=
  let p := p.backupUpdate
  let p := if p.charger.state = some .charging then
      { p with backuper := { p.backuper with backupCount := p.backuper.backupCount.retrigger } }
    else p
  (p, [.backup { leftSeconds := p.info.leftSeconds, timerId := p.info.timerId,
                 consumption := p.info.consumption }])

/-- A due port after the one that was written stays due. -/
def backupPostpone (p : Port) : Port :=
  let p := p.backupUpdate
  { p with backuper := { p.backuper with backupCount := p.backuper.backupCount.forceTrigger } }

/-- The report that is waiting is that of a finished session. -/
def FinalPending (p : Port) : Prop := p.data.prevState.val = some .loadWaitRemove

instance (p : Port) : Decidable p.FinalPending := inferInstanceAs (Decidable (_ = _))

/-- The `CurrentData` that `DataSetter::emitPortData` emits. -/
def currentData (x : Ctx) (p : Port) : CurrentData where
  port := x.port.toNatPort
  timerId := p.info.timerId
  leftMinutes := p.info.leftSeconds.tdiv 60
  state := if p.FinalPending then p.info.finalState else p.data.prevState
  current := p.charger.current.getD 0
  voltage := p.charger.voltage.getD 0
  consumption := if p.FinalPending then p.data.prevConsumption else .set p.info.consumption
  fuse := .normal

/-- `DataSetter::emitPortData`. -/
def emitPortData (x : Ctx) (p : Port) : Port × List Output :=
  (if p.FinalPending then
      { p with
        info := { p.info with
          timerId := 0, consumption := 0, finalState := .set (some .loadNotInsert) }
        data := { p.data with prevState := .set (some .loadNotInsert) } }
    else p, [.currentData (p.currentData x)])

/-- The `DataSetter` timer at the port's turn. -/
def dataTick (x : Ctx) (p : Port) : Port × List Output :=
  let u := p.data.count.updateAndCheck
  let p := { p with data := { p.data with count := u.2 } }
  if u.1 then p.emitPortData x else (p, [])

end Port

/-- What an event does at one port. -/
inductive Op
  | control (timerId minutes : Int)
  | stop (timerId : Int)
  | query
  | current (value : Int)
  | voltage (value : Int)
  | detector
  | counter
  | limiter
  | noload
  | resume (backup : Backup)
  | backupUpdate
  | backupWrite
  | backupPostpone
  | data
  | measure

/-- One operation on one port. -/
def Port.exec (x : Ctx) (p : Port) : Op → Port × List Output
  -- `Thing::control`
  | .control timerId minutes =>
    let p := { p with
      info := { p.info with leftSeconds := int32 (minutes * 60), timerId := timerId } }
    p.drive x (p.charger.start x.nullRunning)
  -- `Thing::stop`
  | .stop timerId =>
    let r := p.drive x p.charger.stop
    ({ r.1 with info := { r.1.info with timerId := timerId } }, r.2)
  -- `DataSetter::query`
  | .query => ({ p with data := { p.data with count := p.data.count.retrigger } }, [])
  -- a meter reading, which reaches nobody unless it is new
  | .current value =>
    if p.charger.current = some value then (p, [])
    else
      let r := p.drive x (p.charger.setCurrent x.nullRunning value)
      (r.1.onCurrentChanged x value, r.2)
  | .voltage value =>
    if p.charger.voltage = some value then (p, [])
    else
      let r := p.drive x (p.charger.setVoltage x.nullRunning value)
      (r.1.measure x, r.2)
  | .detector => p.drive x (p.charger.timerRun x.nullRunning)
  | .counter => p.counterTick x
  | .limiter => p.limiterTick x
  | .noload => p.noloadTick x
  | .resume backup => p.resumeTick x backup
  | .backupUpdate => (p.backupUpdate, [])
  | .backupWrite => p.backupWrite
  | .backupPostpone => (p.backupPostpone, [])
  | .data => p.dataTick x
  | .measure => (p.measure x, [])

end ChargingPile
