import Mathlib.Logic.Function.Basic
import Mathlib.Data.Fin.Basic
import ChargingPile.Lib.Machine
import ChargingPile.Thing.Port

/-!
# The lower controller

`Thing` (`applications/thing.cxx`) with its ten ports, as a machine: the commands of the upper end,
the meter readings, the expiries of the load detectors' timers and the ticks of the decorators'
timers are the events. Each event is handled to its end before the next one. `Thing.exec` is the
only way a port changes, so everything proved about `Port.exec` lifts to runs of the controller.

A run starts from a `Boot`: the chargers are constructed, their meters may already have reported
(`samples`), and then `Thing::init` starts the decorators and tells them the states published so
far.
-/

namespace ChargingPile

/-- The ports that share a voltage reading are those of one `Multimeter`. -/
abbrev Meter := Fin 5

/-- The port on channel A of a meter. -/
def Meter.portA (m : Meter) : InnerPort := ⟨2 * m.val, by have := m.isLt; show _ < 10; omega⟩

/-- The port on channel B of a meter. -/
def Meter.portB (m : Meter) : InnerPort := ⟨2 * m.val + 1, by have := m.isLt; show _ < 10; omega⟩

/-- `Thing` with its decorators' shared fields. The four port numbers are the `currPort` of
`NoloadDetecter` and `DataSetter` and the `currResumePort` and `currBackupPort` of `Backuper`,
`man` is the backup partition behind `LowerBackup`. -/
structure Thing where
  ports : InnerPort → Port
  conf : DevConfig
  tick : UInt32
  isFirstCharge : Bool := true
  noloadPort : InnerPort := 0
  dataPort : InnerPort := 0
  resumePort : InnerPort := 0
  backupPort : InnerPort := 0
  nextCount : CountDown := .ofInit 30
  man : InnerPort → Backup
  nullRunning : Bool

/-- The events. `advance` lets system ticks pass. -/
inductive Event
  | control (port : InnerPort) (timerId minutes : Int)
  | stop (port : InnerPort) (timerId : Int)
  | query
  | config (conf : DevConfig)
  | current (port : InnerPort) (value : Int)
  | voltage (meter : Meter) (value : Int)
  | detector (port : InnerPort)
  | counterTick
  | limiterTick
  | noloadTick
  | backupTick
  | dataTick
  | measureTick
  | advance (ticks : UInt32)
deriving DecidableEq

namespace Thing

/-- What port `i` reads of the controller. -/
def ctx (t : Thing) (i : InnerPort) : Ctx where
  port := i
  conf := t.conf
  tick := t.tick
  isFirstCharge := t.isFirstCharge
  nullRunning := t.nullRunning

/-- An output's effect on the fields the ports share. -/
def absorb (i : InnerPort) (t : Thing) : Output → Thing
  | .state s => { t with isFirstCharge := t.isFirstCharge && s != .charging }
  | .backup b => { t with man := Function.update t.man i b }
  | _ => t

/-- One operation on port `i`. -/
def exec (t : Thing) (i : InnerPort) (op : Op) : Thing × List (InnerPort × Output) :=
  let r := (t.ports i).exec (t.ctx i) op
  (r.2.foldl (absorb i) { t with ports := Function.update t.ports i r.1 }, r.2.map (i, ·))

/-- Operations on several ports in order. -/
def execAll (t : Thing) : List (InnerPort × Op) → Thing × List (InnerPort × Output)
  | [] => (t, [])
  | a :: l =>
    let r := t.exec a.1 a.2
    let r' := execAll r.1 l
    (r'.1, r.2 ++ r'.2)

/-- A loop over all ports. -/
def forPorts (op : Op) : List (InnerPort × Op) := (List.finRange kPortNum).map (·, op)

/-- The loop of the `Backuper` timer over the ports in the order it visits them: the first due port
is written and the turn passes to the port after it, later due ports are postponed. -/
def backupLoop (t : Thing) (ingore : Bool) (nextBackupPort : InnerPort) :
    List InnerPort → Thing × List (InnerPort × Output)
  | [] => ({ t with backupPort := nextBackupPort }, [])
  | i :: l =>
    if (t.ports i).backuper.backupCount.updateAndCheck.1 then
      if !ingore then
        let r := t.exec i .backupWrite
        let r' := backupLoop r.1 true (i + 1) l
        (r'.1, r.2 ++ r'.2)
      else
        let r := t.exec i .backupPostpone
        let r' := backupLoop r.1 ingore nextBackupPort l
        (r'.1, r.2 ++ r'.2)
    else
      let r := t.exec i .backupUpdate
      let r' := backupLoop r.1 ingore nextBackupPort l
      (r'.1, r.2 ++ r'.2)

/-- The second part of the `Backuper` timer: the scheduling of the next backup. -/
def backupRound (t : Thing) : Thing × List (InnerPort × Output) :=
  let u := t.nextCount.updateAndCheck
  if u.1 then
    backupLoop { t with nextCount := u.2.retrigger } false t.backupPort
      ((List.finRange kPortNum).map (t.backupPort + ·))
  else ({ t with nextCount := u.2 }, [])

/-- The `Backuper` timer. -/
def backupTick (t : Thing) : Thing × List (InnerPort × Output) :=
  let port := t.resumePort
  let r := exec { t with resumePort := port + 1 } port (.resume (t.man port))
  let r' := r.1.backupRound
  (r'.1, r.2 ++ r'.2)

/-- One event. The two channels of a meter share its voltage, and no handler of one port reads the
other. -/
def step (t : Thing) : Event → Thing × List (InnerPort × Output)
  | .control i timerId minutes => t.exec i (.control timerId minutes)
  | .stop i timerId => t.exec i (.stop timerId)
  | .query => t.execAll (forPorts .query)
  | .config conf => ({ t with conf := conf }, [])
  | .current i value => t.exec i (.current value)
  | .voltage m value => t.execAll [(m.portA, .voltage value), (m.portB, .voltage value)]
  | .detector i => t.exec i .detector
  | .counterTick => t.execAll (forPorts .counter)
  | .limiterTick => t.execAll (forPorts .limiter)
  | .noloadTick => exec { t with noloadPort := t.noloadPort + 1 } t.noloadPort .noload
  | .backupTick => t.backupTick
  | .dataTick => exec { t with dataPort := t.dataPort + 1 } t.dataPort .data
  | .measureTick => t.execAll (forPorts .measure)
  | .advance n => ({ t with tick := t.tick + n }, [])

/-- The controller as a machine. -/
def machine : Machine Thing Event (InnerPort × Output) := ⟨step⟩

@[simp] theorem machine_step (t : Thing) (e : Event) : machine.step t e = t.step e := rfl

end Thing

/-! ## Boot -/

/-- A meter reading before `Thing::init`. -/
inductive Sample
  | current (port : InnerPort) (value : Int)
  | voltage (meter : Meter) (value : Int)

/-- What a run starts from: the configuration and the backups in flash, the system tick, the
content of the memory that nothing initialises (`prevState` and `prevConsumption` of each port),
what a null timer reads as, and the meter readings that came before `Thing::init`. -/
structure Boot where
  conf : DevConfig
  man : InnerPort → Backup
  tick : UInt32
  junk : InnerPort → Option State × Float32
  nullRunning : Bool
  samples : List Sample

/-- A boot with the default configuration, an empty backup partition and no early reading. -/
def Boot.plain : Boot where
  conf := .defualtConf
  man := fun _ => {}
  tick := 0
  junk := fun _ => (none, 0)
  nullRunning := false
  samples := []

/-- A meter reading at one charger. -/
def Sample.apply (nullRunning : Bool) (i : InnerPort) (c : Charger) :
    Sample → Charger × List State
  | .current j v => if i = j then c.setCurrent nullRunning v else (c, [])
  | .voltage m v => if i = m.portA ∨ i = m.portB then c.setVoltage nullRunning v else (c, [])

namespace Boot

/-- The readings before `Thing::init` at one charger. -/
def sampled (nullRunning : Bool) (i : InnerPort) (c : Charger) :
    List Sample → Charger × List State
  | [] => (c, [])
  | a :: l => Charger.andThen (a.apply nullRunning i c) (sampled nullRunning i · l)

/-- The charger of port `i` when `Thing::init` runs, and the states it has published. -/
def charger (b : Boot) (i : InnerPort) : Charger × List State :=
  sampled b.nullRunning i (.boot b.nullRunning) b.samples

/-- A port as the constructors leave it. -/
def fresh (b : Boot) (i : InnerPort) : Port where
  charger := (b.charger i).1
  data := { prevState := ⟨(b.junk i).1, false⟩, prevConsumption := ⟨(b.junk i).2, false⟩ }

/-- The controller before the decorators hear of any state. -/
def construct (b : Boot) : Thing where
  ports := b.fresh
  conf := b.conf
  tick := b.tick
  man := b.man
  nullRunning := b.nullRunning
  nextCount := (CountDown.ofInit 30).retrigger

/-- `Thing::init`: a port that has a state tells it to the decorators. -/
def init (b : Boot) : Thing :=
  { b.construct with
    ports := fun i => match (b.fresh i).charger.state with
      | none => b.fresh i
      | some s => (b.fresh i).onStateChanged (b.construct.ctx i) s }

end Boot

/-- The outputs of port `i` in a trace. -/
def outputsOf (i : InnerPort) (l : List (InnerPort × Output)) : List Output :=
  l.filterMap fun a => if a.1 = i then some a.2 else none

/-- The states in a list of outputs. -/
def statesOf (l : List Output) : List State :=
  l.filterMap fun o => match o with
    | .state s => some s
    | _ => none

/-- The reports in a list of outputs. -/
def reportsOf (l : List Output) : List CurrentData :=
  l.filterMap fun o => match o with
    | .currentData d => some d
    | _ => none

end ChargingPile
