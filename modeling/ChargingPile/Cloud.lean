import Mathlib.Tactic.IntervalCases
import ChargingPile.Packet.RoundTrip
import ChargingPile.Serializer
import ChargingPile.Thing.Resume

/-!
# Commands of the cloud

A `control` or `stop` request of the cloud names its port by a number in a JSON document.
`AliCloud` makes a `NatPort` of it, `UpperApp` passes that on as an `InnerPort`, `RemoteThing`
sends it to the lower end, and `LocalThing` hands it to `Thing`, which takes it for an index of its
ports. The number is narrowed to eight bits on the way, and neither end calls `validate`.

`serve` is the way of a request over a link that is up. A request is respected (`Respected`)
exactly for the port numbers 1 to 10 (`port_respected_iff`). Every other number is either an index
outside the array or a command to a port that the request did not name.
-/

namespace ChargingPile

/-! ## The messages -/

/-- `Packets::Handshake`. `type` is the byte of a `HandshakeType`. -/
structure HandshakeMsg where
  sync : Bool
  type : UInt8

/-- `Services::Control`. -/
structure ControlMsg where
  port : UInt8
  timerId : Int32
  minutes : Int32

/-- `Services::Stop`. -/
structure StopMsg where
  port : UInt8
  timerId : Int32

/-- The types of the messages above. -/
inductive MsgType
  | handshake | control | stop
deriving DecidableEq, Repr

namespace MsgType

/-- The message of a type. -/
def Msg : MsgType → Type
  | handshake => HandshakeMsg
  | control => ControlMsg
  | stop => StopMsg

/-- `Serializer::build` of an `int`. -/
def buildInt (n : Int32) : List UInt8 := leBytes 4 n.toUInt32.toNat

/-- `Serializer::build`. -/
def build : (t : MsgType) → Msg t → List UInt8
  | handshake, m => [if m.sync then 1 else 0, m.type]
  | control, m => m.port :: (buildInt m.timerId ++ buildInt m.minutes)
  | stop, m => m.port :: buildInt m.timerId

/-- An `InnerPort` as plain data: `Port::serialize` builds its only member. -/
def portTy : Ty .value UInt8 :=
  .aggregate ⟨fun value => (value, ()), Prod.fst, fun _ => rfl, fun _ => rfl⟩ 0
    (.field (.scalar .uint8) .nil)

section
variable {α : Type} (k : UInt8 → Reader UInt8 α) (k' : Int32 → Reader UInt8 α)

/-- `Deserializer::parse` of a `rt_uint8_t`. -/
def parseByte : Reader UInt8 α :=
  .ask fun invalid => if invalid then k 0 else .read 1 fun l => k (l.headD 0)

/-- `Deserializer::parse` of an `int`. -/
def parseInt : Reader UInt8 α :=
  .ask fun invalid =>
    if invalid then k' 0 else .read 4 fun l => k' (UInt32.ofNat (ofLeBytes l)).toInt32

/-- `Deserializer::parse` of an `InnerPort`. -/
def parsePort : Reader UInt8 α := .ask fun invalid => if invalid then k 0 else parseByte k

theorem parseByte_eq : parseByte k = (Deserializer.parseScalar .uint8).bind k := by
  refine congrArg Reader.ask (funext fun invalid => ?_)
  cases invalid with
  | true => rfl
  | false => exact congrArg (Reader.read 1) (funext fun l => congrArg k (ofNat_ofLeBytes l).symm)

theorem parseByte_bool_eq (k : Bool → Reader UInt8 α) :
    (parseByte fun b => k (b != 0)) = (Deserializer.parseScalar .bool).bind k := by
  refine congrArg Reader.ask (funext fun invalid => ?_)
  cases invalid with
  | true => rfl
  | false =>
    refine congrArg (Reader.read 1) (funext fun l => ?_)
    exact congrArg (fun b => k (b != 0)) (ofNat_ofLeBytes l).symm

theorem parseInt_eq : parseInt k' = (Deserializer.parseScalar .int).bind k' := by
  refine congrArg Reader.ask (funext fun invalid => ?_)
  cases invalid <;> rfl

theorem parsePort_eq : parsePort k = (Deserializer.parse portTy).bind k := by
  refine congrArg Reader.ask (funext fun invalid => ?_)
  cases invalid with
  | true => rfl
  | false =>
    show parseByte k = (((Deserializer.parseScalar .uint8).bind fun value =>
      (Reader.done ()).bind fun b => .done (value, b)).bind fun p => .done p.1).bind k
    rw [parseByte_eq, Reader.bind_assoc, Reader.bind_assoc]
    rfl

end

/-- `Deserializer::parse`. -/
def parse : (t : MsgType) → Reader UInt8 (Msg t)
  | handshake => .ask fun invalid =>
      if invalid then .done ⟨false, 0⟩
      else parseByte fun sync => parseByte fun type => .done ⟨sync != 0, type⟩
  | control => .ask fun invalid =>
      if invalid then .done ⟨0, 0, 0⟩
      else parsePort fun port => parseInt fun timerId => parseInt fun minutes =>
        .done ⟨port, timerId, minutes⟩
  | stop => .ask fun invalid =>
      if invalid then .done ⟨0, 0⟩
      else parsePort fun port => parseInt fun timerId => .done ⟨port, timerId⟩

/-- The messages as plain data. -/
def ty : (t : MsgType) → Ty .value (Msg t)
  | handshake => .aggregate ⟨fun m => (m.sync, m.type, ()), fun p => ⟨p.1, p.2.1⟩, fun _ => rfl,
      fun _ => rfl⟩ ⟨false, 0⟩ (.field (.scalar .bool) (.field (.scalar .uint8) .nil))
  | control => .aggregate ⟨fun m => (m.port, m.timerId, m.minutes, ()),
      fun p => ⟨p.1, p.2.1, p.2.2.1⟩, fun _ => rfl, fun _ => rfl⟩ ⟨0, 0, 0⟩
      (.field portTy (.field (.scalar .int) (.field (.scalar .int) .nil)))
  | stop => .aggregate ⟨fun m => (m.port, m.timerId, ()), fun p => ⟨p.1, p.2.1⟩, fun _ => rfl,
      fun _ => rfl⟩ ⟨0, 0⟩ (.field portTy (.field (.scalar .int) .nil))

theorem fits_ty (t : MsgType) (m : Msg t) : (ty t).Fits m := by
  cases t <;> simp [ty, portTy, Ty.Fits]

/-- The messages are written as the plain data they are. -/
theorem build_eq (t : MsgType) (m : Msg t) : build t m = Serializer.build (ty t) m := by
  have hport (port : UInt8) : Serializer.build portTy port = [port] :=
    congrArg (· ++ []) (leBytes_one port)
  cases t with
  | handshake =>
    show [if m.sync then 1 else 0, m.type] = Scalar.bool.write m.sync ++
      (leBytes 1 m.type.toNat ++ [])
    rw [leBytes_one]
    cases m.sync <;> rfl
  | control =>
    show m.port :: (buildInt m.timerId ++ buildInt m.minutes) =
      Serializer.build portTy m.port ++ (buildInt m.timerId ++ (buildInt m.minutes ++ []))
    rw [hport, List.append_nil]
    rfl
  | stop =>
    show m.port :: buildInt m.timerId = Serializer.build portTy m.port ++
      (buildInt m.timerId ++ [])
    rw [hport, List.append_nil]
    rfl

/-- The messages are read as the plain data they are. -/
theorem parse_eq (t : MsgType) : parse t = Deserializer.parse (ty t) := by
  cases t with
  | handshake =>
    simp only [parse, ty, Deserializer.parse, Deserializer.checked, Reader.bind_assoc,
      Reader.bind_done, parseByte_eq, ← parseByte_bool_eq]
    rfl
  | control =>
    simp only [parse, ty, Deserializer.parse, Deserializer.checked, Reader.bind_assoc,
      Reader.bind_done, parsePort_eq, parseInt_eq]
    rfl
  | stop =>
    simp only [parse, ty, Deserializer.parse, Deserializer.checked, Reader.bind_assoc,
      Reader.bind_done, parsePort_eq, parseInt_eq]
    rfl

theorem parse_build (t : MsgType) (m : Msg t) : (parse t).run (build t m) = some (m, []) := by
  rw [parse_eq, build_eq, ← List.append_nil (Serializer.build _ _)]
  exact Deserializer.run_parse (ty t) (fits_ty t m) []

end MsgType

/-! ## From the cloud to the lower end -/

/-- A request of the cloud, with the number it gives as `port`. -/
inductive Request
  | control (port : Int) (timerId minutes : Int32)
  | stop (port : Int) (timerId : Int32)

namespace Request

/-- The `port` of a request. -/
def port : Request → Int
  | control port _ _ => port
  | stop port _ => port

/-- The command of a request, given to a port. -/
def event (i : InnerPort) : Request → Event
  | control _ timerId minutes => .control i timerId.toInt minutes.toInt
  | stop _ timerId => .stop i timerId.toInt

end Request

/-- `Json::operator int` of a number: `parse_number` of cJSON converts a `double` to `int`. What it
makes of a number that does not fit is `wild`. -/
def Json.valueint (wild : Int → Int32) (n : Int) : Int32 :=
  if -2 ^ 31 ≤ n ∧ n < 2 ^ 31 then Int32.ofInt n else wild n

/-- `NatPort{rt_uint8_t(params["port"_i])}`. -/
def AliCloud.natPort (wild : Int → Int32) (n : Int) : UInt8 :=
  UInt8.ofInt (Json.valueint wild n).toInt

/-- `NatPort::operator InnerPort`. -/
def NatPort.toInnerPort (value : UInt8) : UInt8 := UInt8.ofInt (kPortNum - value.toNat)

/-- What `RemoteThing` emits for a request: `RemoteThing::control` and `RemoteThing::stop`. -/
def RemoteThing.message (wild : Int → Int32) : Request → (t : MsgType) × t.Msg
  | .control port timerId minutes =>
    ⟨.control, ⟨NatPort.toInnerPort (AliCloud.natPort wild port), timerId, minutes⟩⟩
  | .stop port timerId => ⟨.stop, ⟨NatPort.toInnerPort (AliCloud.natPort wild port), timerId⟩⟩

/-- `infos[port.get()]`: `none` is an index outside the array. -/
def Thing.infos (port : UInt8) : Option InnerPort :=
  if h : port.toNat < kPortNum then some ⟨port.toNat, h⟩ else none

/-- The handlers of `LocalThing`: `Thing::control` and `Thing::stop`. -/
def LocalThing.handle (t : Thing) :
    (s : MsgType) → s.Msg → Option (Thing × List (InnerPort × Output))
  | .handshake, _ => some (t, [])
  | .control, m =>
    (Thing.infos m.port).map fun i => t.step (.control i m.timerId.toInt m.minutes.toInt)
  | .stop, m => (Thing.infos m.port).map fun i => t.step (.stop i m.timerId.toInt)

section
variable (wild : Int → Int32) (hash : MsgType → UInt32) (hinj : Function.Injective hash)
  (B : Build) {t : Thing} {r : Request} {i : InnerPort}

/-- The messages with the hashes of their types. -/
@[reducible] def MsgType.protocol : Protocol MsgType where
  Msg := Msg
  hash := hash
  build := build
  parse := parse
  hash_injective := hinj
  parse_build := parse_build

/-- A request on its way: the upper end's `Packet` sends it, the lower end's receives the frame and
calls the handler. `none` is an index outside the array. -/
def serve (t : Thing) (r : Request) : Option (Thing × List (InnerPort × Output)) :=
  let P := MsgType.protocol hash hinj
  let m := RemoteThing.message wild r
  match (Packet.handleFrame P B [.handshake, .control, .stop]
    (Packet.emit P .handshake true m.1 m.2)).1 with
  | .called s m => LocalThing.handle t s m
  | .returned | .halted _ => some (t, [])

/-- The index that reaches `Thing`. -/
def index (n : Int) : Option InnerPort :=
  Thing.infos (NatPort.toInnerPort (AliCloud.natPort wild n))

/-- The handler is called with the message that was emitted. -/
theorem serve_eq (t : Thing) (r : Request) :
    serve wild hash hinj B t r = (index wild r.port).map fun i => t.step (r.event i) := by
  have hframe := Packet.handleFrame_frame (MsgType.protocol hash hinj) B
    [.handshake, .control, .stop] (t := (RemoteThing.message wild r).1)
    (by cases (RemoteThing.message wild r).1 <;> simp) (RemoteThing.message wild r).2 []
  simp only [serve, Packet.emit_eq, true_or, if_true]
  rw [List.append_nil] at hframe
  rw [hframe]
  cases r <;> rfl

/-! ## The port numbers -/

/-- A number that names a port arrives as the port's index. -/
theorem index_of_mem {n : Int} (h : 1 ≤ n ∧ n ≤ 10) :
    ∃ i : InnerPort, (i.val : Int) = 10 - n ∧ index wild n = some i := by
  obtain ⟨k, rfl⟩ := Int.eq_ofNat_of_zero_le (show 0 ≤ n by omega)
  obtain ⟨h1, h2⟩ : 1 ≤ k ∧ k ≤ 10 := by omega
  clear h
  refine ⟨⟨10 - k, by show _ < 10; omega⟩, by show ((10 - k : Nat) : Int) = _; omega, ?_⟩
  interval_cases k <;> rfl

/-- The relay, the remaining time and the timer of a port are as they were. -/
def Port.Untouched (p q : Port) : Prop :=
  q.charger.relay = p.charger.relay ∧ q.info.leftSeconds = p.info.leftSeconds ∧
    q.info.timerId = p.info.timerId

/-- What a request may do: command the port it names and leave the others alone, or, if it names
none, leave all of them alone. -/
structure Respected (t : Thing) (r : Request) (o : Option (Thing × List (InnerPort × Output))) :
    Prop where
  inside : 1 ≤ r.port ∧ r.port ≤ 10 → ∃ i : InnerPort, (i.val : Int) = 10 - r.port ∧
    o = some (t.step (r.event i)) ∧ ∀ k, k ≠ i → (t.step (r.event i)).1.ports k = t.ports k
  outside : ¬ (1 ≤ r.port ∧ r.port ≤ 10) →
    ∃ u, o = some u ∧ ∀ k, (t.ports k).Untouched (u.1.ports k)

theorem respected_of_mem (t : Thing) (h : 1 ≤ r.port ∧ r.port ≤ 10) :
    Respected t r (serve wild hash hinj B t r) := by
  refine ⟨?_, fun hn => absurd h hn⟩
  intro _
  obtain ⟨i, hi, hidx⟩ := index_of_mem wild h
  refine ⟨i, hi, by rw [serve_eq, hidx]; rfl, ?_⟩
  intro k hk
  cases r <;> exact (Thing.exec_other hk _).1

/-- The timer of a request. -/
def Request.timerId : Request → Int32
  | .control _ timerId _ => timerId
  | .stop _ timerId => timerId

/-- A request that reaches a port gives it its timer. -/
theorem step_event_timerId (t : Thing) (r : Request) (i : InnerPort) :
    ((t.step (r.event i)).1.ports i).info.timerId = r.timerId.toInt := by
  cases r with
  | control | stop =>
    exact (congrArg (·.info.timerId) (Thing.exec_self t i _).1).trans (Port.exec_timerId ..)

/-- A request with another port number and a timer of its own is not respected: it reaches a port
that it did not name, or an index outside the array. -/
theorem not_respected (h : ¬ (1 ≤ r.port ∧ r.port ≤ 10))
    (htimer : ∀ i, (t.ports i).info.timerId ≠ r.timerId.toInt) :
    ¬ Respected t r (serve wild hash hinj B t r) := by
  intro hr
  obtain ⟨u, hu, huntouched⟩ := hr.outside h
  rw [serve_eq] at hu
  obtain ⟨i, -, rfl⟩ := Option.map_eq_some_iff.1 hu
  refine htimer i ?_
  rw [← step_event_timerId t r i]
  exact (huntouched i).2.2.symm

/-- **Port numbers of the cloud.** A number is respected in every `control` request, in every state
of the lower end, exactly if it is one of 1 to 10, and likewise in every `stop` request. -/
theorem port_respected_iff (n : Int) :
    ((∀ (b : Boot) (es : List Event) (timerId minutes : Int32),
        let t := Thing.machine.run b.init es
        Respected t (.control n timerId minutes)
          (serve wild hash hinj B t (.control n timerId minutes))) ↔ 1 ≤ n ∧ n ≤ 10) ∧
      ((∀ (b : Boot) (es : List Event) (timerId : Int32),
        let t := Thing.machine.run b.init es
        Respected t (.stop n timerId) (serve wild hash hinj B t (.stop n timerId))) ↔
          1 ≤ n ∧ n ≤ 10) := by
  have hplain : ∀ i, (Boot.plain.init.ports i).info.timerId ≠ (7 : Int32).toInt := by
    decide +kernel
  refine ⟨⟨?_, ?_⟩, ⟨?_, ?_⟩⟩
  · intro h
    by_contra hn
    exact not_respected wild hash hinj B (r := .control n 7 0) hn hplain (h .plain [] 7 0)
  · intro h b es timerId minutes
    exact respected_of_mem wild hash hinj B _ h
  · intro h
    by_contra hn
    exact not_respected wild hash hinj B (r := .stop n 7) hn hplain (h .plain [] 7)
  · intro h b es timerId
    exact respected_of_mem wild hash hinj B _ h

end

/-- The build of the lower end. -/
def Build.lower : Build where
  exceptions := false
  garbage _ n := List.replicate n 0
  length_garbage := Build.upper.length_garbage

/-- A choice of hashes. -/
def MsgType.number : MsgType → UInt32
  | handshake => 1
  | control => 2
  | stop => 3

theorem MsgType.number_injective : Function.Injective number := by
  intro a b h
  cases a <;> cases b <;> simp_all [number]

/-- The number 3 is respected. -/
theorem port_respected_three :
    Respected Boot.plain.init (.control 3 7 60)
      (serve (fun _ => 0) MsgType.number MsgType.number_injective .lower Boot.plain.init
        (.control 3 7 60)) :=
  (port_respected_iff (fun _ => 0) MsgType.number MsgType.number_injective .lower 3).1.2
    (by decide) .plain [] 7 60

/-- The number 257 starts port 9, which is the port with number 1, and the number 0 is an index
outside the array. -/
theorem port_257_starts_port_1 :
    let request := fun n => serve (fun _ => 0) MsgType.number MsgType.number_injective .lower
      Boot.plain.init (.control n 7 60)
    (Boot.plain.init.ports 9).charger.relay ≠ some .on ∧
      (request 257).map (fun u => (u.1.ports 9).charger.relay) = some (some .on) ∧
      (request 0).isNone := by
  intro request
  have hrequest : ∀ n, request n = (index (fun _ => 0) n).map fun i =>
      Boot.plain.init.step (.control i 7 60) :=
    fun n => serve_eq _ _ _ _ _ (.control n 7 60)
  rw [hrequest, hrequest]
  decide +kernel

end ChargingPile
