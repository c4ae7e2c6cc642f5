import ChargingPile.AliIotDevice
import ChargingPile.Json.Safety
import ChargingPile.Lib.Machine

/-!
# Services and their replies

The services of `AliCloud` (`applications/ali_cloud.cxx`), as the thread of `AliIotDevice` runs
them. A message of the broker waits in the queue of the thread. When its turn comes it is parsed
and dispatched (`AliIotDevice.onMessage`), the service reads its parameters, and `UpperApp` does
what is asked for. The result goes back to the queue, and when its turn comes it is published as a
reply. The service `property` is a deliver of its own and takes one more turn. `reboot` has no
subscriber, so it has no result.

In every run each request is done once, in the order of arrival, and answered once, and what is
published is a document with the id of its request (`AliCloud.requests_answered`).
-/

namespace ChargingPile.AliCloud

open Json AliIotDevice

/-! ## The services -/

/-- `DevConfig`, as it is sent. -/
structure Conf where
  currentLimit : Int32
  uploadThr : Int32
  fuzedThr : Int32
  noloadCurrThr : Int32
  doneCurrThr : Int32
deriving DecidableEq

/-- A call of one of the signals of `Cloud`. A port is the value of a `NatPort`. -/
inductive Command
  | query
  | reboot
  | control (port : UInt8) (timerId minutes : Int32)
  | stop (port : UInt8) (timerId : Int32)
  | config (conf : Conf)
  | readConfig
  | broadcast (balance type : Int32)
  | debug (type : Int32)
deriving DecidableEq

/-- `NatPort{rt_uint8_t(params["port"_i])}`. -/
def natPortOf (port : Int32) : UInt8 := UInt8.ofInt port.toInt

/-- The names in `services`. -/
def names : List Text :=
  ["property".toList, "query".toList, "reboot".toList, "control".toList, "stop".toList,
    "config".toList, "rd_conf".toList, "broadcast".toList, "debug".toList]

/-- What the service of a name calls, if its parameters are there. -/
def command (name : Text) (params : Value) : Except Error Command :=
  if name = "query".toList then .ok .query
  else if name = "reboot".toList then .ok .reboot
  else if name = "control".toList then
    return .control (natPortOf (← params.getInt "port".toList)) (← params.getInt "timer_id".toList)
      (← params.getInt "minutes".toList)
  else if name = "stop".toList then
    return .stop (natPortOf (← params.getInt "port".toList)) (← params.getInt "timer_id".toList)
  else if name = "config".toList then
    return .config ⟨← params.getInt "current_limit".toList, ← params.getInt "upload_thr".toList,
      ← params.getInt "fused_thr".toList, ← params.getInt "noload_curr_thr".toList,
      ← params.getInt "done_curr_thr".toList⟩
  else if name = "rd_conf".toList then .ok .readConfig
  else if name = "broadcast".toList then
    return .broadcast (← params.getInt "balance".toList) (← params.getInt "type".toList)
  else return .debug (← params.getInt "type".toList)

section
variable (D : Doubles)

/-- `Json(int)`. -/
def ofInt (n : Int32) : Value := .number n (D.ofInt n.toInt)

/-- The result of a call: what `UpperApp` returns, as a document, or an exception. `throws`
says whether the call ends with an exception, and `conf` is what `readConfig` returns. `reboot`
has no subscriber. -/
def result (throws : Bool) (conf : Conf) : Command → Option (Except Unit Value)
  | .reboot => none
  | .control .. | .stop .. =>
    -- `ServiceResult::Failed` and `ServiceResult::Succeed`
    some (.ok (.object [("state".toList, ofInt D (if throws then 2 else 1))]))
  | .readConfig =>
    some (if throws then .error ()
      else .ok
        (.object [("current_limit".toList, ofInt D conf.currentLimit),
          ("upload_thr".toList, ofInt D conf.uploadThr),
          ("fused_thr".toList, ofInt D conf.fuzedThr),
      ("noload_curr_thr".toList, ofInt D conf.noloadCurrThr),
      ("done_curr_thr".toList, ofInt D conf.doneCurrThr)]))
  | .query | .config _ | .broadcast .. | .debug _ =>
    some (if throws then .error () else .ok (.object []))

/-- The service `property`. None of the properties has a handler, and the name of an element of an
array is no string. -/
def property : Value → Except Unit Value
  | .object _ | .array [] => .ok (.object [])
  | _ => .error ()

/-- `Alink::Reply`. -/
def reply (data : Value) (code : Int32) (id : Text) : Value :=
  .object [("code".toList, ofInt D code), ("data".toList, data), ("id".toList, .string id)]

/-! ## The thread -/

/-- What waits in the queue of the thread: a message, the service `property`, or the
result of a service. -/
inductive Task
  | message (topic data : Text)
  | property (params : Value) (id : Text) (replyTo : ReplyTo)
  | result (id : Text) (replyTo : ReplyTo) (result : Except Unit Value)

/-- A message arrives, or the thread takes the next task. What the environment decides is whether a
call of `UpperApp` throws, and what `readConfig` returns. -/
inductive Event
  | arrive (topic data : Text)
  | poll (throws : Bool) (conf : Conf)

/-- What can be seen: a call, a reply with the request it is for, and a request that failed. -/
inductive Output
  | called (c : Command)
  | published (id : Text) (replyTo : ReplyTo) (topic payload : Text)
  | failed (id : Text) (replyTo : ReplyTo)

/-- `genTopic` with `sys` and the names of the device. A view is taken as far as its first NUL. -/
def genTopic (productKey deviceName : Text) (suffixes : List Text) : Text :=
  "/sys".toList ++ '/' :: productKey ++ '/' :: deviceName ++
    suffixes.flatMap fun suffix => '/' :: suffix.takeWhile (· ≠ '\x00')

variable (productKey deviceName : Text)

/-- Where a reply goes. -/
def replyTopic : ReplyTo → Text
  | .topic topic => topic ++ "_reply".toList
  | .rrpc requestId => genTopic productKey deviceName ["rrpc".toList, "response".toList, requestId]

/-- The call is that for an upgrade. -/
def isOta : Call → Bool
  | .ota .. => true
  | .service .. => false

/-- The calls that a message makes, `none` if it does something undefined or announces an upgrade,
for which the device restarts. -/
def handled (topic data : Text) : Option (List Call) :=
  match (onMessage (fun data => (Json.parse D data).toOption) names topic data).run {} with
  | .ok _ s | .error (.thrown _) s => if s.calls.any isOta then none else some s.calls
  | .error _ _ => none

/-- The command of a call, if it has one. -/
def commandOf : Call → Option Command
  | .ota .. => none
  | .service name _ params _ =>
    if name = "property".toList then none else (command name params).toOption

/-- What a call of a service leaves in the queue. -/
def tasksOf (throws : Bool) (conf : Conf) : Call → List Task
  | .ota .. => []
  | .service name id params replyTo =>
    if name = "property".toList then [.property params id replyTo]
    else
      match command name params with
      | .error _ => [.result id replyTo (.error ())]
      | .ok c => ((result D throws conf c).map (Task.result id replyTo)).toList

/-- The thread runs a task: what it leaves in the queue, and what can be seen. -/
def runTask (throws : Bool) (conf : Conf) : Task → Option (List Task × List Output)
  | .message topic data =>
    (handled D topic data).map fun calls =>
      (calls.flatMap (tasksOf D throws conf), (calls.filterMap commandOf).map .called)
  | .property params id replyTo => some ([.result id replyTo (property params)], [])
  | .result id replyTo (.ok data) =>
    some ([], [.published id replyTo (replyTopic productKey deviceName replyTo)
      (Json.print D (reply D data 200 id))])
  | .result id replyTo (.error _) => some ([], [.failed id replyTo])

/-- One event. The state is `none` once the thread has come to an end. -/
def step (queue : Option (List Task)) : Event → Option (List Task) × List Output
  | .arrive topic data => (queue.map (· ++ [.message topic data]), [])
  | .poll throws conf =>
    match queue with
    | none | some [] => (queue, [])
    | some (task :: queue) =>
      match runTask D productKey deviceName throws conf task with
      | none => (none, [])
      | some (tasks, out) => (some (queue ++ tasks), out)

/-- The thread as a machine. -/
def machine : Machine (Option (List Task)) Event Output := ⟨step D productKey deviceName⟩

/-! ## Requests -/

/-- The requests of a call that are to be answered: those of every service but `reboot`. -/
def requestOf : Call → Option (Text × ReplyTo)
  | .ota .. => none
  | .service name id _ replyTo => if name = "reboot".toList then none else some (id, replyTo)

/-- The requests of a message that are to be answered. -/
def requests (topic data : Text) : List (Text × ReplyTo) :=
  ((handled D topic data).getD []).filterMap requestOf

/-- The commands of a message. -/
def commands (topic data : Text) : List Command :=
  ((handled D topic data).getD []).filterMap commandOf

end

/-- The request that an output answers. -/
def Output.answered : Output → Option (Text × ReplyTo)
  | .called _ => none
  | .published id replyTo .. => some (id, replyTo)
  | .failed id replyTo => some (id, replyTo)

/-- The command of an output. -/
def Output.command : Output → Option Command
  | .called c => some c
  | _ => none

/-! ## What is owed -/

section
variable (D : Doubles)

/-- The requests that a task is to answer. -/
def owed : Task → List (Text × ReplyTo)
  | .message topic data => requests D topic data
  | .property _ id replyTo => [(id, replyTo)]
  | .result id replyTo _ => [(id, replyTo)]

/-- The commands that a task is to call. -/
def pending : Task → List Command
  | .message topic data => commands D topic data
  | .property .. | .result .. => []

variable {D} {productKey deviceName : Text} {throws : Bool} {conf : Conf}

/-- A property of the calls, kept by code that handles a message, and one of its results. -/
def Keeps {α : Type} (P : AliIotDevice → Prop) (m : Dispatch α) (Q : α → Prop) : Prop :=
  ∀ s, P s →
    match m.run s with
    | .ok a s' => P s' ∧ Q a
    | .error _ s' => P s'

section
variable {α β : Type} {P : AliIotDevice → Prop} {Q : α → Prop} {R : β → Prop}

theorem Keeps.bind {m : Dispatch α} {f : α → Dispatch β} (hm : Keeps P m Q)
    (hf : ∀ a, Q a → Keeps P (f a) R) :
    Keeps P (m >>= f) R := by
  intro s hs
  have hrun := hm s hs
  rw [EStateM.run_bind]
  cases h : m.run s with
  | ok a s' =>
    rw [h] at hrun
    exact hf a hrun.2 s' hrun.1
  | error e s' =>
    rw [h] at hrun
    exact hrun

theorem Keeps.pure {a : α} (ha : Q a) : Keeps P (pure a : Dispatch α) Q := fun _ hs => ⟨hs, ha⟩

theorem Keeps.modify {f : AliIotDevice → AliIotDevice} (hf : ∀ s, P s → P (f s)) :
    Keeps P (modify f : Dispatch Unit) fun _ => True := fun s hs => ⟨hf s hs, trivial⟩

theorem Keeps.ite {c : Prop} [Decidable c] {m m' : Dispatch α} (hm : Keeps P m Q)
    (hm' : Keeps P m' Q) :
    Keeps P (if c then m else m') Q := by
  split
  · exact hm
  · exact hm'

end

/-- The id of a task holds no NUL, and its result can be printed and read back. -/
def Good (D : Doubles) : Task → Prop
  | .message .. => True
  | .property _ id _ => '\x00' ∉ id
  | .result id _ r => '\x00' ∉ id ∧ ∀ data, r = .ok data → Printable D data

end

end ChargingPile.AliCloud
