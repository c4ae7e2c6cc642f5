import ChargingPile.Lib.Link
import ChargingPile.Ota.Basic

/-!
# The download of the lower end

`OtaLowerModule::start` (`components/ota_lower_module.cxx`) runs on the upper MCU and fills the
download partition of the lower one by remote calls: one `Erase`, then one `Write` for each chunk,
repeated until it is acknowledged. `OtaLower` (`components/ota_lower.cxx`) serves the calls. The
state below holds both ends and the link between them.

* The module's callback `cb` is posted to the Low thread, so a call that has been answered or has
  timed out is a task of that thread (`tasks`), and `pc` says what the thread is doing between two
  tasks.
* `Rpc` (`components/rpc.hxx`) keeps the calls that wait for an answer in `pendings`, under an id
  of eight bits that starts over when it has counted to 256 and when the upper end boots. An answer
  is handed to whatever call has its id, and dropped if there is none. A call that finds too many
  others pending fails at once; those others belong to other callers, so whether it does is part of
  the event, and so is that they take ids.
* The link keeps the order of messages and may lose any of them. It numbers the calls; no code
  keeps these numbers.

`OtaLower` does not look at the result of `fal_partition_write`: the answer of a `Write` carries it
in `stored`, a field that is not sent and that nothing reads.
-/

namespace ChargingPile.Ota

variable {V : Type}

namespace Lower

/-- `OtaLowerModule::kBufSize`. -/
def kBufSize : Nat := 128

/-- `Rpcs::Ota::Erase` and `Rpcs::Ota::Write`. -/
inductive Request
  | erase (size : Int) (offset : Nat)
  | write (addr : Nat) (data : List UInt8)

/-- `Response` (`ok`) or `Failure` of a call, and whether the flash did what was asked. -/
structure Answer where
  ok : Bool
  stored : Bool

/-- Whose callback it is: the one given with `Erase`, or `cb`, given with every `Write`. -/
inductive Callback
  | erase
  | write
deriving DecidableEq

/-- A call that waits for its answer: its id, and the number that the link has given it. -/
structure Pending where
  id : UInt8
  number : Nat
  cb : Callback
deriving DecidableEq

/-- What the Low thread is doing for the module. -/
inductive Pc
  | idle
  | starting
  | fetching
  | sending
deriving DecidableEq

/-- How the flash of the lower end fares with a request: it does it, it fails and leaves arbitrary
bytes, or the power of the lower end fails in the middle. -/
inductive Outcome
  | success
  | fault (junk : Nat → UInt8)
  | torn (junk : Nat → UInt8)

/-- What happens next. `otherCall` is a call of another caller of the `Rpc`, which takes an id, and
`otherAnswer` an answer to one. -/
inductive Event (V : Type)
  | start (version : V) (size : Int) (currVer : Option V)
  | otherCall
  | otherAnswer (id : UInt8) (ok : Bool)
  | invoke (busy : Bool)
  | runTask
  | fetch (n : Nat)
  | raise
  | seekFails
  | respond
  | timeout (id : UInt8)
  | serve (outcome : Outcome)
  | loseRequest (n : Nat)
  | loseAnswer (n : Nat)
  | powerFails

end Lower

/-- `OtaLowerModule`. -/
structure OtaLowerModule (V : Type) extends OtaModule V where
  buf : List UInt8
  recvedLen : Nat

/-- Both ends during downloads of the lower module: the download partition of the lower end, the
checkpoint in the storage of the upper end, the module if a download is under way, the state of its
remote calls and the link. No code keeps `last`, the version of the download that was started
last. -/
structure Lower (V : Type) where
  bytes : Nat → UInt8
  spec : Option (ModuleSpec V)
  last : Option V
  mod : Option (OtaLowerModule V)
  pc : Lower.Pc
  curId : UInt8
  pendings : List Lower.Pending
  tasks : List (Lower.Callback × Bool)
  link : Link (UInt8 × Lower.Request) (UInt8 × Lower.Answer)

namespace Lower

/-- Both ends before the first download. -/
def boot (bytes : Nat → UInt8) : Lower V := ⟨bytes, none, none, none, .idle, 0, [], [], .empty⟩

/-- The range of the partition that a request works on. -/
def Request.range : Request → Nat × Nat
  | .erase size offset => (offset, size.toNat)
  | .write addr data => (addr, addr + data.length)

/-- The partition after a request that was done. -/
def Request.apply (bytes : Nat → UInt8) : Request → Nat → UInt8
  | .erase size offset => overwrite bytes offset size.toNat fun _ => 0xff
  | .write addr data => program bytes addr data

/-- What the flash of the lower end reports for a request. -/
def Request.report : Request → Bool → Output V
  | .erase size offset, ok => .erased offset (size - offset) ok
  | .write addr data, ok => .wrote addr data.length ok

/-- What `OtaLower` answers, given the result of the flash: a failed erase is a failure, a failed
write is not. -/
def Request.answer : Request → Bool → Answer
  | .erase .., ok => ⟨ok, ok⟩
  | .write .., ok => ⟨true, ok⟩

/-- The download is over, or the upper end has lost power: no callback of the module is left. -/
def close (t : Lower V) : Lower V :=
  { t with mod := none, pc := .idle, pendings := [], tasks := [] }

/-- `rpc->invoke`: the request goes out, and the callback waits for its answer. -/
def call (t : Lower V) (r : Request) (cb : Callback) : Lower V :=
  { t with
    pc := .idle
    curId := t.curId + 1
    pendings := t.pendings ++ [⟨t.curId, t.link.nextId, cb⟩]
    link := t.link.send (t.curId, r) }

/-- The callback of a pending call is taken out and posted to the Low thread. -/
def post (t : Lower V) (p : Pending) (ok : Bool) : Lower V :=
  { t with pendings := t.pendings.filter (·.id ≠ p.id), tasks := t.tasks ++ [(p.cb, ok)] }

/-- An answer with an id arrives, or the call with this id times out: the call that is found is
taken out, whatever call was answered. -/
def deliver (t : Lower V) (id : UInt8) (ok : Bool) : Lower V × List (Output V) :=
  match t.pendings.find? (·.id = id) with
  | none => (t, [])
  | some p => (t.post p ok, if p.cb = .write ∧ ok then [.acknowledged p.number] else [])

theorem deliver_link (t : Lower V) (id : UInt8) (ok : Bool) :
    (t.deliver id ok).1.link = t.link := by
  unfold deliver
  split <;> rfl

/-- The link has no part in it. -/
theorem deliver_withLink (t : Lower V) (l : Link (UInt8 × Request) (UInt8 × Answer)) (id : UInt8)
    (ok : Bool) : { t with link := l }.deliver id ok =
      ({ (t.deliver id ok).1 with link := l }, (t.deliver id ok).2) := by
  unfold deliver
  dsimp only
  split <;> rfl

/-- Nothing happens when no call has the id. -/
theorem deliver_none {t : Lower V} {id : UInt8} (h : ∀ p ∈ t.pendings, p.id ≠ id) (ok : Bool) :
    t.deliver id ok = (t, []) := by
  have hnone : t.pendings.find? (·.id = id) = none := by simpa [List.find?_eq_none] using h
  rw [deliver, hnone]

theorem deliver_pc (t : Lower V) (id : UInt8) (ok : Bool) : (t.deliver id ok).1.pc = t.pc := by
  unfold deliver
  split <;> rfl

theorem deliver_mod (t : Lower V) (id : UInt8) (ok : Bool) : (t.deliver id ok).1.mod = t.mod := by
  unfold deliver
  split <;> rfl

/-- An answer that is handed over emits an acknowledgement at most. -/
theorem deliver_outputs (t : Lower V) (id : UInt8) (ok : Bool) :
    (t.deliver id ok).2 = [] ∨ ∃ n, (t.deliver id ok).2 = [.acknowledged n] := by
  unfold deliver
  split
  · exact .inl rfl
  · dsimp only
    split
    · exact .inr ⟨_, rfl⟩
    · exact .inl rfl

theorem not_done_deliver (t : Lower V) (id : UInt8) (ok : Bool) :
    .done ∉ (t.deliver id ok).2 := by
  rcases deliver_outputs t id ok with h | ⟨n, h⟩ <;> simp [h]

/-- The part of `cb` for a call that succeeded, up to the next fetch. -/
def proceed (t : Lower V) (m : OtaLowerModule V) : Lower V × List (Output V) :=
  let u := m.advance t.spec m.recvedLen
  ({ t with spec := u.spec, mod := some { m with toOtaModule := u.mod }, pc := .fetching },
    u.outputs)

/-- The task of a callback on the Low thread. -/
def task (t : Lower V) (m : OtaLowerModule V) : Callback → Bool → Lower V × List (Output V)
  | .erase, false => (t.close, [.error .updateFailed "分区擦除失败"])
  | .write, false => ({ t with pc := .sending }, [])
  | _, true => t.proceed m

section
variable [DecidableEq V]

/-- One step of the two ends. -/
def step (image : V → Image) (t : Lower V) : Event V → Lower V × List (Output V)
  | .start version size currVer =>
    match t.mod, Ota.start t.spec version size currVer with
    | none, some m =>
      ({ t with last := some version, mod := some ⟨m, List.replicate kBufSize 0, 0⟩
                pc := .starting }, [])
    | _, _ => (t, [])
  | .otherCall => ({ t with curId := t.curId + 1 }, [])
  | .otherAnswer id ok => t.deliver id ok
  | .invoke busy =>
    match t.mod, t.pc with
    | some m, .starting =>
      if busy then (t.close, [.error .updateFailed "分区擦除失败"])
      else (t.call (.erase m.size m.offset) .erase, [])
    | some m, .sending =>
      if busy then (t, [])
      else (t.call (.write m.currPos m.buf) .write,
        [.invoked t.link.nextId m.currPos m.buf.length])
    | _, _ => (t, [])
  | .runTask =>
    match t.mod, t.pc, t.tasks with
    | some m, .idle, (cb, ok) :: tasks => { t with tasks := tasks }.task m cb ok
    | _, _, _ => (t, [])
  | .fetch n =>
    match t.mod, t.pc with
    | some m, .fetching =>
      let buf := (image m.version).readData m.streamPos kBufSize n
      if buf.length = 0 then (t.close, [m.finish])
      else
        ({ t with mod := some { m with streamPos := m.streamPos + buf.length, buf := buf,
                                       recvedLen := buf.length }
                  pc := .sending }, [])
    | _, _ => (t, [])
  | .raise =>
    match t.mod, t.pc with
    | some m, .fetching => ({ t with mod := some { m with toOtaModule := m.rollback } }, [])
    | _, _ => (t, [])
  | .seekFails =>
    match t.mod, t.pc with
    | some _, .fetching => (t.close, [.error .downloadFailed "下载失败"])
    | _, _ => (t, [])
  | .respond =>
    match t.link.answers with
    | [] => (t, [])
    | (_, id, a) :: _ => { t with link := t.link.loseAnswer 0 }.deliver id a.ok
  | .timeout id => t.deliver id false
  | .serve outcome =>
    match t.link.requests, outcome with
    | (_, id, r) :: _, .success =>
      ({ t with bytes := r.apply t.bytes, link := t.link.serve (id, r.answer true) },
        [r.report true])
    | (_, id, r) :: _, .fault junk =>
      ({ t with
          bytes := overwrite t.bytes r.range.1 r.range.2 junk
          link := t.link.serve (id, r.answer false) }, [r.report false])
    | (_, _, r) :: _, .torn junk =>
      ({ t with
          bytes := overwrite t.bytes r.range.1 r.range.2 junk
          link := t.link.loseRequest 0 }, [])
    | [], _ => (t, [])
  | .loseRequest n => ({ t with link := t.link.loseRequest n }, [])
  | .loseAnswer n => ({ t with link := t.link.loseAnswer n }, [])
  | .powerFails => ({ t.close with curId := 0 }, [])

/-- The two ends as a machine. -/
def machine (image : V → Image) : Machine (Lower V) (Event V) (Output V) := ⟨step image⟩

@[simp] theorem machine_step (image : V → Image) (t : Lower V) (e : Event V) :
    (machine image).step t e = step image t e := rfl

end

end Lower

end ChargingPile.Ota
