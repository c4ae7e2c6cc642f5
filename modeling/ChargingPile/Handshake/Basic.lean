import ChargingPile.Lib.Machine
import ChargingPile.Thing.Port

/-!
# The handshake

Both ends run the same `Handshake` (`components/handshake.cxx`). Every second its timer sends a
handshake packet. The first one after a packet of the other end was received has the flag `sync`
set, and only that one. A received `sync` sets `connected`. A packet of another type is ignored.

`Ends` are the two ends with the packets under way between them. The link may deliver packets in
any order, lose them and duplicate them, and an end may reboot.

Nothing initialises `connected`: the default constructor of `Observable` leaves its value alone,
and the object is on the heap. Its content after a boot is therefore a parameter.
-/

namespace ChargingPile

/-- `HandshakeType`. -/
inductive HandshakeType
  | major | ota
deriving DecidableEq, Repr

/-- `Packets::Handshake`. -/
structure HandshakePacket where
  sync : Bool
  type : HandshakeType
deriving DecidableEq, Repr

/-- `Handshake`. -/
structure Handshake where
  type : HandshakeType
  responsed : Bool := false
  once : Bool := false
  connected : Slot Bool

namespace Handshake

/-- A `Handshake` after its constructor, with the content of the memory it was constructed in. -/
def boot (type : HandshakeType) (junk : Bool) : Handshake where
  type := type
  connected := ⟨junk, false⟩

/-- `connected = value`, and the values its observers are told. -/
def setConnected (h : Handshake) (value : Bool) : Handshake × List Bool :=
  if h.connected.val = value then (h, []) else ({ h with connected := .set value }, [value])

/-- The handler of `Packets::Handshake`, and what the observers of `connected` are told. -/
def handle (h : Handshake) (p : HandshakePacket) : Handshake × List Bool :=
  if p.type ≠ h.type then (h, [])
  else
    let h := { h with responsed := true }
    if p.sync then
      let r := h.setConnected false
      let r' := r.1.setConnected true
      (r'.1, r.2 ++ r'.2)
    else (h, [])

/-- The timer: the packet it emits. -/
def timerRun (h : Handshake) : Handshake × HandshakePacket :=
  let cond := !h.once && h.responsed
  ({ h with once := h.once || cond }, ⟨cond, h.type⟩)

variable {h : Handshake} {p : HandshakePacket}

@[simp] theorem timerRun_type : h.timerRun.1.type = h.type := rfl
@[simp] theorem timerRun_responsed : h.timerRun.1.responsed = h.responsed := rfl
@[simp] theorem timerRun_connected : h.timerRun.1.connected = h.connected := rfl

@[simp] theorem handle_type : (h.handle p).1.type = h.type := by
  simp only [handle, setConnected]
  split
  · rfl
  · split
    · split <;> split <;> rfl
    · rfl

@[simp] theorem handle_once : (h.handle p).1.once = h.once := by
  simp only [handle, setConnected]
  split
  · rfl
  · split
    · split <;> split <;> rfl
    · rfl

theorem handle_responsed : (h.handle p).1.responsed = (h.responsed || p.type == h.type) := by
  simp only [handle, setConnected]
  split
  · simp_all
  · split
    · split <;> split <;> simp_all
    · simp_all

/-- A `sync` of the end's own type connects it, whatever `connected` held before, and its observers
are told `true` last. -/
theorem handle_sync (hsync : p.sync = true) (htype : p.type = h.type) :
    (h.handle p).1.connected = .set true ∧ true ∈ (h.handle p).2 := by
  cases hval : h.connected.val <;> simp [handle, setConnected, hsync, htype, hval, Slot.set]

/-- No other packet touches `connected`. -/
theorem handle_other (hp : p.sync = true → p.type ≠ h.type) :
    (h.handle p).1.connected = h.connected ∧ (h.handle p).2 = [] := by
  simp only [handle]
  split
  · exact ⟨rfl, rfl⟩
  · rename_i htype
    rw [if_neg fun hsync => htype (hp hsync)]
    exact ⟨rfl, rfl⟩

end Handshake

/-- The two ends. -/
inductive Side
  | upper | lower
deriving DecidableEq, Repr

/-- The end at the other side of the link. -/
def Side.other : Side → Side
  | upper => lower
  | lower => upper

@[simp] theorem Side.other_other (s : Side) : s.other.other = s := by cases s <;> rfl

theorem Side.other_ne (s : Side) : s.other ≠ s := by cases s <;> nofun

/-- Both ends. `link s` are the packets under way to the end `s`. -/
structure Ends where
  ends : Side → Handshake
  link : Side → List HandshakePacket := fun _ => []

namespace Ends

/-- The events: the timer of an end, the delivery, loss and duplication of a packet under way to an
end, and a reboot of an end with what is then in the memory of `connected`. -/
inductive Event
  | tick (s : Side)
  | deliver (s : Side) (n : Nat)
  | lose (s : Side) (n : Nat)
  | duplicate (s : Side) (n : Nat)
  | reboot (s : Side) (junk : Bool)
deriving DecidableEq, Repr

/-- What an end sends and receives. -/
inductive Output
  | sent (s : Side) (p : HandshakePacket)
  | received (s : Side) (p : HandshakePacket)
deriving DecidableEq, Repr

/-- One event. -/
def step (t : Ends) : Event → Ends × List Output
  | .tick s =>
    let r := (t.ends s).timerRun
    ({ ends := Function.update t.ends s r.1
       link := Function.update t.link s.other (t.link s.other ++ [r.2]) }, [.sent s r.2])
  | .deliver s n =>
    match (t.link s)[n]? with
    | none => (t, [])
    | some p =>
      ({ ends := Function.update t.ends s ((t.ends s).handle p).1
         link := Function.update t.link s ((t.link s).eraseIdx n) }, [.received s p])
  | .lose s n => ({ t with link := Function.update t.link s ((t.link s).eraseIdx n) }, [])
  | .duplicate s n =>
    match (t.link s)[n]? with
    | none => (t, [])
    | some p => ({ t with link := Function.update t.link s (t.link s ++ [p]) }, [])
  | .reboot s junk =>
    ({ t with ends := Function.update t.ends s (.boot (t.ends s).type junk) }, [])

/-- Both ends and the link as a machine. -/
def machine : Machine Ends Event Output := ⟨step⟩

@[simp] theorem machine_step (t : Ends) (e : Event) : machine.step t e = t.step e := rfl

/-- Both ends after their first boot. -/
def boot (type : Side → HandshakeType) (junk : Side → Bool) : Ends where
  ends s := .boot (type s) (junk s)

/-- An end keeps its type. -/
theorem step_type (t : Ends) (e : Event) (s : Side) :
    ((t.step e).1.ends s).type = (t.ends s).type := by
  have hupdate : ∀ (s' : Side) (h : Handshake), h.type = (t.ends s').type →
      (Function.update t.ends s' h s).type = (t.ends s).type := by
    intro s' h hh
    by_cases hs : s = s'
    · rw [hs, Function.update_self, hh]
    · rw [Function.update_of_ne hs]
  cases e with
  | tick s' => exact hupdate s' _ rfl
  | deliver s' n =>
    simp only [step]
    split
    · rfl
    · exact hupdate s' _ Handshake.handle_type
  | lose => rfl
  | duplicate s' n =>
    simp only [step]
    split <;> rfl
  | reboot s' junk => exact hupdate s' _ rfl

theorem run_type (t : Ends) (es : List Event) (s : Side) :
    ((machine.run t es).ends s).type = (t.ends s).type :=
  Machine.run_inv (C := fun _ _ => True) (I := fun u : Ends => (u.ends s).type = (t.ends s).type)
    (fun u e h _ => (step_type u e s).trans h) (Machine.along_of_mem fun _ _ _ => trivial) rfl

end Ends

end ChargingPile
