import ChargingPile.CountDown
import ChargingPile.Handshake.Basic
import ChargingPile.Json.Basic

/-!
# The loaders and the communication guard

Each controller runs one of two applications, the major one or the one for updates. Its `Loader`
(`applications/loader.cxx`) reads from a backup register of the chip which one to start, and clears
the register; `restart` writes it and resets the chip. The upper end changes its application when
the cloud asks for an update and when the update is done. The lower end takes the type of the
handshake packets for a request: it restarts if they are of another type than its own application.

The applications of the lower end hold a `CommGuard` and a `WatchDog`. If the handshake packets
stay away, the guard has the chip reset by the hardware.

`Pile` are both controllers with the handshake packets under way to the lower end. The link keeps
the order of the packets and may lose some. Of a packet only its type counts here.
-/

namespace ChargingPile

/-! ## Loaders -/

/-- `Loader`: the register `RTC_BKP_DR1` and the start method that its constructor found there. -/
structure Loader where
  register : Nat
  startMethod : Nat
deriving DecidableEq, Repr

namespace Loader

/-- The constructor of `Loader`. -/
def boot (register : Nat) : Loader := ⟨0, register⟩

/-- `Loader::restart`: the register is written, and the chip reset. -/
def restart (_ : Loader) (method : Nat) : Loader := boot method

/-- A reset that the loader does not ask for. The register keeps its content. -/
def reset (l : Loader) : Loader := boot l.register

end Loader

/-- `Config::Loader::OtaParams`. -/
structure OtaParams where
  module : Text
  version : Text
  url : Text
  size : Int32
deriving DecidableEq

/-- The applications of the upper end: `UpperApp` and `UpperOtaApp`. -/
inductive UpperApp
  | major
  | ota (params : OtaParams)
deriving DecidableEq

/-- The type of the handshake that an application of the upper end constructs. -/
def UpperApp.type : UpperApp → HandshakeType
  | .major => .major
  | .ota _ => .ota

/-- The upper end: its loader, the parameters in its storage, and the application, if
it has one. -/
structure UpperEnd where
  loader : Loader
  params : OtaParams
  app : Option UpperApp

namespace UpperEnd

/-- `UpperLoader::createApp`. -/
def createApp (loader : Loader) (params : OtaParams) : Option UpperApp :=
  match loader.startMethod with
  | 0 => some .major
  | 1 => some (.ota params)
  | _ => none

/-- `runLoader`, after the loader was constructed. -/
def start (loader : Loader) (params : OtaParams) : UpperEnd :=
  ⟨loader, params, createApp loader params⟩

/-- `UpperLoader::ota`. -/
def ota (u : UpperEnd) (params : OtaParams) : UpperEnd := start (u.loader.restart 1) params

/-- `UpperLoader::major`. -/
def major (u : UpperEnd) : UpperEnd := start (u.loader.restart 0) u.params

/-- A reset from outside. -/
def reset (u : UpperEnd) : UpperEnd := start u.loader.reset u.params

end UpperEnd

/-! ## The guard of the lower end -/

/-- `WatchDog`, with what is left of the timeout of the hardware, in seconds. -/
structure WatchDog where
  f : CountDown
  feedCond : Bool
  left : Nat
deriving DecidableEq, Repr

namespace WatchDog

/-- `kTimeoutS`. -/
def kTimeoutS : Nat := 5

/-- The constructor. -/
def boot : WatchDog := ⟨.ofInit 1, true, kTimeoutS⟩

/-- `WatchDog::feed`. -/
def feed (w : WatchDog) : WatchDog := if w.feedCond then { w with left := kTimeoutS } else w

/-- `WatchDog::resetAfter`. -/
def resetAfter (w : WatchDog) (durationS : Nat) : WatchDog :=
  { w with f := ((w.f.setInitial durationS).reset).retrigger }

/-- The timer of the watch dog. -/
def timerRun (w : WatchDog) : WatchDog :=
  feed { w with f := w.f.updateAndCheck.2, feedCond := w.feedCond && !w.f.updateAndCheck.1 }

/-- A second goes by for the hardware. The hook of the idle thread feeds it until the
last moment. -/
def elapse (w : WatchDog) : WatchDog := feed { w with left := w.left - 1 }

end WatchDog

/-- An application of the lower end, `LowerMajorApp` or `LowerOtaApp`: the type of its handshake,
the countdown of its `CommGuard`, and its `WatchDog`. -/
structure LowerApp where
  type : HandshakeType
  count : CountDown
  watchDog : WatchDog
deriving DecidableEq, Repr

namespace LowerApp

/-- The constructor. -/
def boot (type : HandshakeType) : LowerApp := ⟨type, .ofInit 3, .boot⟩

/-- The handler of `CommGuard` for a handshake. -/
def onHandshake (a : LowerApp) (type : HandshakeType) : LowerApp :=
  if type ≠ a.type then a else { a with count := a.count.reset.retrigger }

/-- The timer of `CommGuard`. -/
def guardRun (a : LowerApp) : LowerApp :=
  { a with
    count := a.count.updateAndCheck.2
    watchDog := if a.count.updateAndCheck.1 then a.watchDog.resetAfter 1 else a.watchDog }

end LowerApp

/-- The lower end: its loader, and the application, if it has one. -/
structure LowerEnd where
  loader : Loader
  app : Option LowerApp

namespace LowerEnd

/-- `LowerLoader::handshakeTypeToMethod`. -/
def handshakeTypeToMethod : HandshakeType → Nat
  | .major => 0
  | .ota => 1

/-- `LowerLoader::createApp`. -/
def createApp (loader : Loader) : Option LowerApp :=
  match loader.startMethod with
  | 0 => some (.boot .major)
  | 1 => some (.boot .ota)
  | _ => none

/-- `runLoader`, after the loader was constructed. -/
def start (loader : Loader) : LowerEnd := ⟨loader, createApp loader⟩

/-- The lower end restarts with the application for a type. -/
def switch (l : LowerEnd) (type : HandshakeType) : LowerEnd :=
  start (l.loader.restart (handshakeTypeToMethod type))

/-- A reset from outside, or by the watch dog. -/
def reset (l : LowerEnd) : LowerEnd := start l.loader.reset

end LowerEnd

/-! ## Both ends -/

/-- Both controllers, and the types of the handshake packets under way to the lower
one, oldest first. -/
structure Pile where
  upper : UpperEnd
  lower : LowerEnd
  link : List HandshakeType

/-- Why a controller boots: its own loader asks for it, or something else resets it. -/
inductive Cause
  | loader | reset
deriving DecidableEq, Repr

namespace Pile

/-- The events: the cloud asks for an update, the update is done, the handshake timer of the upper
end, the delivery of the oldest packet, the loss of a packet, the timer of the `CommGuard`, the
timer of the `WatchDog`, and a reset of an end from outside. -/
inductive Event
  | ota (params : OtaParams)
  | done
  | tick
  | deliver
  | lose (n : Nat)
  | guard
  | second
  | reset (s : Side)
deriving DecidableEq

/-- A boot of an end. -/
inductive Output
  | booted (s : Side) (cause : Cause)
deriving DecidableEq, Repr

/-- The handlers of the lower end for a handshake packet: that of the `CommGuard`, then
that of the loader. -/
def receive (l : LowerEnd) (type : HandshakeType) : LowerEnd × List Output :=
  match l.app with
  | none => (l, [])
  | some a =>
    if LowerEnd.handshakeTypeToMethod type ≠ l.loader.startMethod then
      (l.switch type, [.booted .lower .loader])
    else ({ l with app := some (a.onHandshake type) }, [])

/-- A second of the lower end: the hardware resets the chip, or the timer of the watch dog runs. -/
def lowerSecond (l : LowerEnd) : LowerEnd × List Output :=
  match l.app with
  | none => (l, [])
  | some a =>
    if a.watchDog.elapse.left = 0 then (l.reset, [.booted .lower .reset])
    else ({ l with app := some { a with watchDog := a.watchDog.elapse.timerRun } }, [])

/-- One event. -/
def step (p : Pile) : Event → Pile × List Output
  | .ota params =>
    match p.upper.app with
    | some .major => ({ p with upper := p.upper.ota params }, [.booted .upper .loader])
    | _ => (p, [])
  | .done =>
    match p.upper.app with
    | some (.ota _) => ({ p with upper := p.upper.major }, [.booted .upper .loader])
    | _ => (p, [])
  | .tick =>
    match p.upper.app with
    | some a => ({ p with link := p.link ++ [a.type] }, [])
    | none => (p, [])
  | .deliver =>
    match p.link with
    | [] => (p, [])
    | type :: link =>
      ({ p with lower := (receive p.lower type).1, link := link }, (receive p.lower type).2)
  | .lose n => ({ p with link := p.link.eraseIdx n }, [])
  | .guard => ({ p with lower := { p.lower with app := p.lower.app.map LowerApp.guardRun } }, [])
  | .second => ({ p with lower := (lowerSecond p.lower).1 }, (lowerSecond p.lower).2)
  | .reset .upper => ({ p with upper := p.upper.reset }, [.booted .upper .reset])
  | .reset .lower => ({ p with lower := p.lower.reset }, [.booted .lower .reset])

/-- Both controllers as a machine. -/
def machine : Machine Pile Event Output := ⟨step⟩

@[simp] theorem machine_step (p : Pile) (e : Event) : machine.step p e = p.step e := rfl

/-- Both controllers after they got power: the registers are clear. -/
def powerUp (params : OtaParams) : Pile := ⟨.start (.boot 0) params, .start (.boot 0), []⟩

/-! ## What an end runs -/

/-- The controllers run: each loader has started an application with its method and
cleared the register. -/
structure Runs (p : Pile) (upper : UpperApp) (lower : LowerApp) : Prop where
  upperApp : p.upper.app = some upper
  lowerApp : p.lower.app = some lower
  upperRegister : p.upper.loader.register = 0
  lowerRegister : p.lower.loader.register = 0
  method : p.lower.loader.startMethod = LowerEnd.handshakeTypeToMethod lower.type

theorem handshakeTypeToMethod_inj {s t : HandshakeType} :
    LowerEnd.handshakeTypeToMethod s = LowerEnd.handshakeTypeToMethod t ↔ s = t := by
  cases s <;> cases t <;> decide

/-- A loader starts the application that it was restarted for, and clears the register. -/
theorem start_switch (l : Loader) (type : HandshakeType) :
    LowerEnd.start (l.restart (LowerEnd.handshakeTypeToMethod type)) =
      ⟨⟨0, LowerEnd.handshakeTypeToMethod type⟩, some (.boot type)⟩ := by
  cases type <;> rfl

/-- With a clear register, a reset starts the major application. -/
theorem start_reset {l : Loader} (h : l.register = 0) :
    LowerEnd.start l.reset = ⟨⟨0, 0⟩, some (.boot .major)⟩ := by
  rw [Loader.reset, h]
  rfl

theorem upper_reset {u : UpperEnd} (h : u.loader.register = 0) :
    u.reset = ⟨⟨0, 0⟩, u.params, some .major⟩ := by
  rw [UpperEnd.reset, Loader.reset, h]
  rfl

variable {p : Pile} {upper : UpperApp} {lower : LowerApp}

theorem runs_powerUp (params : OtaParams) : Runs (powerUp params) .major (.boot .major) :=
  ⟨rfl, rfl, rfl, rfl, rfl⟩

/-- The lower end handles a packet: it restarts, or its guard is told. -/
theorem receive_eq {l : LowerEnd} (happ : l.app = some lower)
    (hmethod : l.loader.startMethod = LowerEnd.handshakeTypeToMethod lower.type)
    (type : HandshakeType) :
    receive l type =
      if type = lower.type then ({ l with app := some (lower.onHandshake type) }, [])
      else (⟨⟨0, LowerEnd.handshakeTypeToMethod type⟩, some (.boot type)⟩,
        [.booted .lower .loader]) := by
  rw [receive, happ]
  simp only [hmethod, ne_eq, handshakeTypeToMethod_inj, LowerEnd.switch, start_switch, ite_not]

end Pile

end ChargingPile
