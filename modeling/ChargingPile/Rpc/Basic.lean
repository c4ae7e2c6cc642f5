import Mathlib.Data.List.Basic
import ChargingPile.Lib.Machine

/-!
# Remote calls

`Rpc` (`components/rpc.hxx`, `components/rpc.cxx`) gives every call an id of eight bits, keeps its
callback in `pendings` under that id until an answer or a timeout comes, and sends a `Request`. The
members are guarded by one recursive mutex. What a thread does while it holds the mutex is one step
here, and what it does after that is a step of its own:

* `invoke` runs in any thread. The `Request` is emitted after the mutex was released (`sending`),
  and so is the callback called when too many calls are pending (`calling`).
* `arrive` is the handler of a `Response` or a `Failure`. It takes the entry out of `pendings` and
  calls the callback after it released the mutex (`calling`).
* The timer holds the mutex while it goes through `pendings`, also while a callback runs
  (`TimerState.emitting`). That callback may invoke again, all other threads wait.

The lower end is compiled without exceptions. There a timeout, a `Failure` and a call beyond the
limit never reach the callback (`exceptions`).

No code keeps the number of an invocation, which tells the invocations apart.
-/

namespace ChargingPile

namespace Rpc

/-- A call of `Rpc::invoke`. -/
structure Invocation (T : Type) where
  number : Nat
  type : T

/-- `PendingImpl`. -/
structure Pending (T : Type) extends Invocation T where
  createdTick : UInt32
  timeout : UInt32

/-- `Request`, less its data. -/
structure Request (T : Type) where
  id : UInt8
  invocation : Invocation T

/-- `Response` and `Failure`. -/
structure Answer (T D : Type) where
  id : UInt8
  type : T
  failure : Bool
  data : D

/-- What a callback is called with: the data of an answer, or a `timeout_error`. -/
inductive Result (T D : Type)
  | answer (a : Answer T D)
  | timeout

/-- What the timer is doing: nothing, going through `pendings` behind the key `last`, or running
the callback of the entry `id`. -/
inductive TimerState
  | idle
  | scanning (currTick : UInt32) (last : Option UInt8)
  | emitting (currTick : UInt32) (id : UInt8)
deriving DecidableEq

/-- The entry whose callback the timer is running. -/
def TimerState.emits : TimerState → Option UInt8
  | .emitting _ id => some id
  | _ => none

/-- The timer goes through `pendings`, and every other thread waits for the mutex. -/
def TimerState.scans : TimerState → Bool
  | .scanning _ _ => true
  | _ => false

/-- `Rpc::kMaxParallel`. -/
def kMaxParallel : Nat := 2

/-- The events. `call` and `send` are the steps of a thread that has released the mutex, `timerRun`
locks it, `timerStep` looks at one entry and `timerReturn` is the end of a callback that the timer
called. -/
inductive Event (T D : Type)
  | invoke (type : T) (timeout : UInt32)
  | arrive (a : Answer T D)
  | call (n : Nat)
  | send (n : Nat)
  | timerRun
  | timerStep
  | timerReturn
  | advance (ticks : UInt32)

/-- A callback that is called, and a `Request` that is sent. -/
inductive Output (T D : Type)
  | called (i : Invocation T) (r : Result T D)
  | request (r : Request T)

end Rpc

/-- `Rpc`, with the threads that have released its mutex and the system tick. -/
structure Rpc (T D : Type) where
  pendings : Std.TreeMap UInt8 (Rpc.Pending T) := {}
  registeredType : List T := []
  curId : UInt8 := 0
  tick : UInt32 := 0
  timer : Rpc.TimerState := .idle
  calling : List (Rpc.Invocation T × Rpc.Result T D) := []
  sending : List (Rpc.Request T) := []
  count : Nat := 0

namespace Rpc

variable {T D : Type} (exceptions : Bool)

section
variable [DecidableEq T]

/-- `Rpc::invoke` up to the release of the mutex. -/
def invoke (s : Rpc T D) (type : T) (timeout : UInt32) : Rpc T D :=
  match s.timer with
  | .scanning _ _ => s
  | .idle | .emitting _ _ =>
    let i : Invocation T := ⟨s.count, type⟩
    let s := { s with registeredType := s.registeredType.insert type, count := s.count + 1 }
    if s.pendings.size > kMaxParallel then
      if exceptions then { s with calling := s.calling ++ [(i, .timeout)] } else s
    else
      { s with
        pendings := s.pendings.insertIfNew s.curId ⟨i, s.tick, timeout⟩
        curId := s.curId + 1
        sending := s.sending ++ [⟨s.curId, i⟩] }

/-- The handlers of `Response` and `Failure` up to the release of the mutex. A type that was never
invoked has no handler. -/
def arrive (s : Rpc T D) (a : Answer T D) : Rpc T D :=
  match s.timer with
  | .scanning _ _ | .emitting _ _ => s
  | .idle =>
    if a.type ∈ s.registeredType then
      match s.pendings[a.id]? with
      -- "wild resp"
      | none => s
      | some p =>
        let s := { s with pendings := s.pendings.erase a.id }
        if a.failure && !exceptions then s
        else { s with calling := s.calling ++ [(p.toInvocation, .answer a)] }
    else s

/-- A callback is called after the mutex was released. -/
def call (s : Rpc T D) (n : Nat) : Rpc T D × List (Output T D) :=
  match s.calling[n]? with
  | none => (s, [])
  | some (i, r) => ({ s with calling := s.calling.eraseIdx n }, [.called i r])

/-- `packet->emit<Request<T>>` after the mutex was released. -/
def send (s : Rpc T D) (n : Nat) : Rpc T D × List (Output T D) :=
  match s.sending[n]? with
  | none => (s, [])
  | some r => ({ s with sending := s.sending.eraseIdx n }, [.request r])

/-- The timer locks the mutex and reads the system tick. -/
def timerRun (s : Rpc T D) : Rpc T D :=
  match s.timer with
  | .idle => { s with timer := .scanning s.tick none }
  | .scanning _ _ | .emitting _ _ => s

/-- The entry of `pendings` behind the key `last`. -/
def next (s : Rpc T D) (last : Option UInt8) : Option (UInt8 × Pending T) :=
  s.pendings.toList.find? fun e => last.all (· < e.1)

/-- One round of the timer's loop up to the callback, or its end. -/
def timerStep (s : Rpc T D) : Rpc T D × List (Output T D) :=
  match s.timer with
  | .idle | .emitting _ _ => (s, [])
  | .scanning currTick last =>
    match s.next last with
    | none => ({ s with timer := .idle }, [])
    | some (id, p) =>
      if currTick - p.createdTick > p.timeout then
        ({ s with timer := .emitting currTick id },
          if exceptions then [.called p.toInvocation .timeout] else [])
      else ({ s with timer := .scanning currTick (some id) }, [])

/-- The rest of the round: `it = pendings.erase(it)`. -/
def timerReturn (s : Rpc T D) : Rpc T D :=
  match s.timer with
  | .idle | .scanning _ _ => s
  | .emitting currTick id =>
    { s with pendings := s.pendings.erase id, timer := .scanning currTick (some id) }

/-- One event. -/
def step (s : Rpc T D) : Event T D → Rpc T D × List (Output T D)
  | .invoke type timeout => (s.invoke exceptions type timeout, [])
  | .arrive a => (s.arrive exceptions a, [])
  | .call n => s.call n
  | .send n => s.send n
  | .timerRun => (s.timerRun, [])
  | .timerStep => s.timerStep exceptions
  | .timerReturn => (s.timerReturn, [])
  | .advance n => ({ s with tick := s.tick + n }, [])

/-- The end of the link as a machine. -/
def machine : Machine (Rpc T D) (Event T D) (Output T D) := ⟨step exceptions⟩

@[simp] theorem machine_step (s : Rpc T D) (e : Event T D) :
    (machine exceptions).step s e = s.step exceptions e := rfl

end

/-- The numbers of the callbacks that were called. -/
def calledOf (l : List (Output T D)) : List Nat :=
  l.filterMap fun o => match o with
    | .called i _ => some i.number
    | .request _ => none

/-- The requests that were sent. -/
def requestsOf (l : List (Output T D)) : List (Request T) :=
  l.filterMap fun o => match o with
    | .called _ _ => none
    | .request r => some r

@[simp] theorem calledOf_nil : calledOf ([] : List (Output T D)) = [] := rfl

@[simp] theorem requestsOf_nil : requestsOf ([] : List (Output T D)) = [] := rfl

@[simp] theorem calledOf_append (l m : List (Output T D)) :
    calledOf (l ++ m) = calledOf l ++ calledOf m :=
  List.filterMap_append ..

@[simp] theorem requestsOf_append (l m : List (Output T D)) :
    requestsOf (l ++ m) = requestsOf l ++ requestsOf m :=
  List.filterMap_append ..

/-! ## What one event does -/

variable {exceptions}

/-- **What one event does** to the calls and to the timer's hold on them. -/
inductive Effect [DecidableEq T] (exceptions : Bool) (s : Rpc T D) :
    Event T D → Rpc T D × List (Output T D) → Prop
  /-- The clock, or a step of the timer that calls nobody. -/
  | quiet (e : Event T D) (tick : UInt32) (timer : TimerState) (hs : s.timer.emits = none)
      (ht : timer.emits = none) :
        Effect exceptions s e ({ s with tick := tick, timer := timer }, [])
  /-- A thread that waits, and what finds nothing to do. -/
  | waits (e : Event T D) (tick : UInt32) : Effect exceptions s e ({ s with tick := tick }, [])
  /-- A call that is sent. -/
  | accepts (type : T) (timeout : UInt32) (hs : s.timer.scans = false)
      (hsize : s.pendings.size ≤ kMaxParallel) :
      Effect exceptions s (.invoke type timeout) ({ s with
        registeredType := s.registeredType.insert type
        count := s.count + 1
        pendings := s.pendings.insertIfNew s.curId ⟨⟨s.count, type⟩, s.tick, timeout⟩
        curId := s.curId + 1
        sending := s.sending ++ [⟨s.curId, ⟨s.count, type⟩⟩] }, [])
  /-- A call beyond the limit, which gets a callback only from a build with exceptions. -/
  | refuses (type : T) (timeout : UInt32) (hs : s.timer.scans = false)
      (hsize : s.pendings.size > kMaxParallel) (calls : List (Invocation T × Result T D))
      (hcalls : calls = if exceptions then [(⟨s.count, type⟩, .timeout)] else []) :
      Effect exceptions s (.invoke type timeout) ({ s with
        registeredType := s.registeredType.insert type
        count := s.count + 1
        calling := s.calling ++ calls }, [])
  /-- An answer finds an entry with its id. -/
  | takes (a : Answer T D) (p : Pending T) (hs : s.timer = .idle)
      (htype : a.type ∈ s.registeredType) (hp : s.pendings[a.id]? = some p)
      (calls : List (Invocation T × Result T D))
      (hcalls : calls = if a.failure && !exceptions then [] else [(p.toInvocation, .answer a)]) :
      Effect exceptions s (.arrive a)
        ({ s with pendings := s.pendings.erase a.id, calling := s.calling ++ calls }, [])
  /-- A callback is called. -/
  | calls (n : Nat) (c : Invocation T × Result T D) (hc : s.calling[n]? = some c) :
      Effect exceptions s (.call n)
        ({ s with calling := s.calling.eraseIdx n }, [.called c.1 c.2])
  /-- A request is sent. -/
  | sends (n : Nat) (r : Request T) (hr : s.sending[n]? = some r) :
      Effect exceptions s (.send n) ({ s with sending := s.sending.eraseIdx n }, [.request r])
  /-- The timer calls the callback of an entry. -/
  | expires (currTick : UInt32) (last : Option UInt8) (id : UInt8) (p : Pending T)
      (hs : s.timer = .scanning currTick last) (hp : s.pendings[id]? = some p)
      (hexp : currTick - p.createdTick > p.timeout) :
      Effect exceptions s .timerStep ({ s with timer := .emitting currTick id },
        if exceptions then [.called p.toInvocation .timeout] else [])
  /-- The timer removes the entry. -/
  | removes (currTick : UInt32) (id : UInt8) (hs : s.timer = .emitting currTick id) :
      Effect exceptions s .timerReturn ({ s with
        pendings := s.pendings.erase id, timer := .scanning currTick (some id) }, [])

theorem getElem?_of_next {s : Rpc T D} {last : Option UInt8} {id : UInt8} {p : Pending T}
    (h : s.next last = some (id, p)) : s.pendings[id]? = some p :=
  Std.TreeMap.mem_toList_iff_getElem?_eq_some.1 (List.mem_of_find?_eq_some h)

theorem step_effect [DecidableEq T] (s : Rpc T D) (e : Event T D) :
    Effect exceptions s e (s.step exceptions e) := by
  cases e with
  | invoke type timeout =>
    simp only [step, invoke]
    split
    · exact .waits _ s.tick
    all_goals
      rename_i htimer
      have hs : s.timer.scans = false := by rw [htimer]; rfl
      split
      · rename_i hsize
        have hr := Effect.refuses (s := s) type timeout hs hsize _
          (rfl : _ = if exceptions then _ else _)
        cases exceptions with
        | true => exact hr
        | false => simpa using hr
      · exact .accepts type timeout hs (by omega)
  | arrive a =>
    simp only [step, arrive]
    split
    · exact .waits _ s.tick
    · exact .waits _ s.tick
    · rename_i hidle
      split
      · rename_i htype
        split
        · exact .waits _ s.tick
        · rename_i p hp
          have ht := Effect.takes a p hidle htype hp _
            (rfl : _ = if a.failure && !exceptions then _ else _)
          split
          · rename_i hf
            simpa [hf] using ht
          · rename_i hf
            simpa [hf] using ht
      · exact .waits _ s.tick
  | call n =>
    simp only [step, call]
    split
    · exact .waits _ s.tick
    · rename_i i r hc
      exact .calls n (i, r) hc
  | send n =>
    simp only [step, send]
    split
    · exact .waits _ s.tick
    · rename_i r hr
      exact .sends n r hr
  | timerRun =>
    simp only [step, timerRun]
    split
    · rename_i hidle
      exact .quiet _ s.tick _ (by rw [hidle]; rfl) rfl
    all_goals exact .waits _ s.tick
  | timerStep =>
    simp only [step, timerStep]
    split
    · exact .waits _ s.tick
    · exact .waits _ s.tick
    · rename_i currTick last hscan
      have hemits : s.timer.emits = none := by rw [hscan]; rfl
      split
      · exact .quiet _ s.tick _ hemits rfl
      · rename_i id p hnext
        split
        · rename_i hexp
          exact .expires currTick last id p hscan (getElem?_of_next hnext) hexp
        · exact .quiet _ s.tick _ hemits rfl
  | timerReturn =>
    simp only [step, timerReturn]
    split
    · exact .waits _ s.tick
    · exact .waits _ s.tick
    · rename_i currTick id hemit
      exact .removes currTick id hemit
  | advance n => exact .waits _ _

end Rpc

end ChargingPile
