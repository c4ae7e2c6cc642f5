import ChargingPile.Handshake.Basic

/-!
# The port states at the upper end

The upper end keeps a copy of the state of every port in `AppState`. Each `LocalStateStore`
of the lower end sends a `State` packet when its state changes, and sends its state again
whenever `connected` becomes true. `Packet::emit` drops a `State` packet while the lower
end is not connected.

`Mirror` is both ends with the link between them, which delivers in order and loses nothing until
the upper end reboots. Once the lower end has handled a `sync` of the upper end's current boot, the
two ends agree up to the `State` packets under way (`Mirror.port_states_mirrored`).
-/

namespace ChargingPile

/-- `AppState`. -/
structure AppState where
  portStates : InnerPort → State := fun _ => .loadNotInsert

namespace AppState

/-- The handler of `Packets::State`. -/
def handle (a : AppState) (port : InnerPort) (value : State) : AppState :=
  { a with portStates := Function.update a.portStates port value }

/-- `AppState::getPortState`. -/
def getPortState (a : AppState) (port : InnerPort) : State := a.portStates port

@[simp] theorem getPortState_handle_self (a : AppState) (port : InnerPort) (value : State) :
    (a.handle port value).getPortState port = value :=
  Function.update_self ..

theorem getPortState_handle_of_ne (a : AppState) {port i : InnerPort} (value : State)
    (h : i ≠ port) : (a.handle port value).getPortState i = a.getPortState i :=
  Function.update_of_ne h ..

end AppState

/-- Both ends, with the packets under way to the lower end (`down`) and to the upper end (`up`). -/
structure Mirror where
  lower : Handshake
  upper : Handshake
  /-- the `state` of each `LocalStateStore` -/
  states : InnerPort → Option State := fun _ => none
  appState : AppState := {}
  down : List HandshakePacket := []
  up : List (HandshakePacket ⊕ InnerPort × State) := []

namespace Mirror

/-- The events. A reboot of the upper end comes with what is then in the memory of `connected`. -/
inductive Event
  | change (port : InnerPort) (value : State)
  | lowerTick
  | upperTick
  | deliverDown
  | deliverUp
  | rebootUpper (junk : Bool)
deriving DecidableEq, Repr

/-- What an observer of the link and of the power supply sees. -/
inductive Output
  | lowerHandled (p : HandshakePacket)
  | upperRebooted
deriving DecidableEq, Repr

/-- `LocalStateStore::send`: `Packet::emit` with its check of `connected`. -/
def send (t : Mirror) (port : InnerPort) (value : State) : Mirror :=
  if t.lower.connected.val then { t with up := t.up ++ [.inr (port, value)] } else t

/-- The observer of `connected` of a `LocalStateStore`. -/
def onConnected (t : Mirror) (value : Bool) (port : InnerPort) : Mirror :=
  if value then
    match t.states port with
    | none => t
    | some state => t.send port state
  else t

/-- The `LocalStateStore`s are told of a new value of `connected`. -/
def notify (t : Mirror) (value : Bool) : Mirror :=
  (List.finRange kPortNum).foldl (onConnected · value) t

/-- One event. -/
def step (t : Mirror) : Event → Mirror × List Output
  | .change port value =>
    -- `Observable::operator=` tells its observers only of a new value
    if t.states port = some value then (t, [])
    else (({ t with states := Function.update t.states port (some value) }).send port value, [])
  | .lowerTick =>
    let r := t.lower.timerRun
    ({ t with lower := r.1, up := t.up ++ [.inl r.2] }, [])
  | .upperTick =>
    let r := t.upper.timerRun
    ({ t with upper := r.1, down := t.down ++ [r.2] }, [])
  | .deliverDown =>
    match t.down with
    | [] => (t, [])
    | p :: down =>
      let r := t.lower.handle p
      (r.2.foldl notify { t with lower := r.1, down := down }, [.lowerHandled p])
  | .deliverUp =>
    match t.up with
    | [] => (t, [])
    | .inl p :: up => ({ t with upper := (t.upper.handle p).1, up := up }, [])
    | .inr (port, value) :: up =>
      ({ t with appState := t.appState.handle port value, up := up }, [])
  | .rebootUpper junk =>
    ({ t with upper := .boot t.upper.type junk, appState := {}, down := [], up := [] },
      [.upperRebooted])

/-- Both ends as a machine. -/
def machine : Machine Mirror Event Output := ⟨step⟩

@[simp] theorem machine_step (t : Mirror) (e : Event) : machine.step t e = t.step e := rfl

/-- Both ends after their first boot. -/
def boot (type : Side → HandshakeType) (junk : Side → Bool) : Mirror where
  lower := .boot (type .lower) (junk .lower)
  upper := .boot (type .upper) (junk .upper)

/-- The lower end, of the type `type`, has handled a `sync` since the last reboot of
the upper end. -/
def Synced (type : HandshakeType) (tr : List Output) : Prop :=
  ∃ l m, tr = l ++ m ∧ .upperRebooted ∉ m ∧ ∃ p, .lowerHandled p ∈ m ∧ p.sync = true ∧
    p.type = type

/-- The last output decides whether the lower end is still, or now, synced. -/
theorem synced_concat {type : HandshakeType} {tr : List Output} {o : Output}
    (h : Synced type (tr ++ [o])) :
    o ≠ .upperRebooted ∧
      (Synced type tr ∨ ∃ p, o = .lowerHandled p ∧ p.sync = true ∧ p.type = type) := by
  obtain ⟨l, m, heq, hm, p, hp, hsync, htype⟩ := h
  cases m using List.reverseRecOn with
  | nil => cases hp
  | append_singleton m o' =>
    rw [← List.append_assoc] at heq
    obtain ⟨rfl, ho⟩ := List.append_inj' heq rfl
    cases ho
    simp only [List.mem_append, List.mem_singleton, not_or] at hm hp
    refine ⟨fun ho => hm.2 ho.symm, ?_⟩
    rcases hp with hp | rfl
    · exact .inl ⟨l, m, rfl, hm.1, p, hp, hsync, htype⟩
    · exact .inr ⟨p, rfl, hsync, htype⟩

/-- What a packet under way makes of `AppState`. -/
def absorb (a : AppState) : HandshakePacket ⊕ InnerPort × State → AppState
  | .inl _ => a
  | .inr (port, value) => a.handle port value

/-- `AppState` once everything under way has arrived. -/
def settled (t : Mirror) : AppState := t.up.foldl absorb t.appState

/-- The upper end is going to have the right state of the port. -/
def Agrees (i : InnerPort) (t : Mirror) : Prop :=
  ∀ s, t.states i = some s → t.settled.getPortState i = s

/-- The lower end sends nothing but states of its ports. If it is connected, the upper end is going
to have the state of the port `i` that it has already or that is sent (`P`). -/
structure Sends (i : InnerPort) (P : Prop) (t t' : Mirror) : Prop where
  lower : t'.lower = t.lower
  states : t'.states = t.states
  agrees : t.lower.connected.val = true → P ∨ t.Agrees i → t'.Agrees i

theorem Sends.foldl {β : Type} {i : InnerPort} {P : β → Prop} {f : Mirror → β → Mirror}
    (hf : ∀ t b, Sends i (P b) t (f t b)) (l : List β) (t : Mirror) :
    Sends i (∃ b ∈ l, P b) t (l.foldl f t) := by
  induction l generalizing t with
  | nil => exact ⟨rfl, rfl, fun _ h => by simpa using h⟩
  | cons b l ih =>
    have hb := hf t b
    have hl := ih (f t b)
    refine ⟨hl.lower.trans hb.lower, hl.states.trans hb.states, ?_⟩
    intro hc h
    simp only [List.mem_cons, exists_eq_or_imp] at h
    refine hl.agrees (hb.lower ▸ hc) ?_
    rcases h with (h | h) | h
    · exact .inr (hb.agrees hc (.inl h))
    · exact .inl h
    · exact .inr (hb.agrees hc (.inr h))

@[simp] theorem send_lower (t : Mirror) (port : InnerPort) (value : State) :
    (t.send port value).lower = t.lower := by
  rw [send]
  split <;> rfl

@[simp] theorem send_states (t : Mirror) (port : InnerPort) (value : State) :
    (t.send port value).states = t.states := by
  rw [send]
  split <;> rfl

theorem settled_send {t : Mirror} (hc : t.lower.connected.val = true) (port : InnerPort)
    (value : State) : (t.send port value).settled = t.settled.handle port value := by
  simp [send, hc, settled, absorb]

/-- The state that is sent is the one of its port. -/
theorem agrees_send {t : Mirror} (hc : t.lower.connected.val = true) {i port : InnerPort}
    {value : State} (hport : t.states port = some value)
    (hi : i ≠ port → ∀ s, t.states i = some s → t.settled.getPortState i = s) :
    (t.send port value).Agrees i := by
  intro s hs
  rw [send_states] at hs
  rw [settled_send hc]
  rcases eq_or_ne i port with rfl | hne
  · rw [AppState.getPortState_handle_self]
    exact Option.some.inj (hport.symm.trans hs)
  · rw [AppState.getPortState_handle_of_ne _ _ hne]
    exact hi hne s hs

theorem onConnected_sends (i : InnerPort) (t : Mirror) (value : Bool) (port : InnerPort) :
    Sends i (value = true ∧ i = port) t (t.onConnected value port) := by
  cases value with
  | false => exact ⟨rfl, rfl, by simp [onConnected]⟩
  | true =>
    cases hs : t.states port with
    | none =>
      simp only [onConnected, hs, if_true]
      refine ⟨rfl, rfl, ?_⟩
      rintro - (⟨-, rfl⟩ | h)
      · intro s hi
        rw [hs] at hi
        cases hi
      · exact h
    | some state =>
      simp only [onConnected, hs, if_true]
      refine ⟨send_lower .., send_states .., fun hc h => agrees_send hc hs fun hne => ?_⟩
      exact h.resolve_left fun h => hne h.2

theorem notify_sends (i : InnerPort) (t : Mirror) (value : Bool) :
    Sends i (value = true) t (t.notify value) := by
  have h := Sends.foldl (fun t port => onConnected_sends i t value port) (List.finRange kPortNum) t
  exact ⟨h.lower, h.states, fun hc hi =>
    h.agrees hc (hi.imp_left fun hv => ⟨i, List.mem_finRange i, hv, rfl⟩)⟩

/-- What holds along every run. -/
structure Inv (type : HandshakeType) (tr : List Output) (t : Mirror) : Prop where
  lowerType : t.lower.type = type
  synced : Synced type tr → t.lower.connected.val = true ∧ ∀ i, t.Agrees i

theorem step_inv {type : HandshakeType} {tr : List Output} {t : Mirror} (h : Inv type tr t)
    (e : Event) : Inv type (tr ++ (t.step e).2) (t.step e).1 := by
  cases e with
  | change port value =>
    simp only [step]
    split
    · rwa [List.append_nil]
    · rw [List.append_nil]
      set u : Mirror := { t with states := Function.update t.states port (some value) }
      have hlower : (u.send port value).lower = t.lower := send_lower ..
      refine ⟨hlower ▸ h.lowerType, ?_⟩
      intro hs
      obtain ⟨hc, hagrees⟩ := h.synced hs
      refine ⟨hlower ▸ hc, fun i => ?_⟩
      refine agrees_send (show u.lower.connected.val = true from hc) (Function.update_self ..) ?_
      intro hne s hi
      exact hagrees i s ((Function.update_of_ne hne _ _).symm.trans hi)
  | lowerTick =>
    simp only [step, List.append_nil]
    refine ⟨h.lowerType, fun hs => ⟨(h.synced hs).1, ?_⟩⟩
    intro i s hi
    simp only [settled, List.foldl_append, List.foldl_cons, List.foldl_nil, absorb]
    exact (h.synced hs).2 i s hi
  | upperTick =>
    simp only [step, List.append_nil]
    exact ⟨h.lowerType, h.synced⟩
  | deliverDown =>
    simp only [step]
    split
    · rwa [List.append_nil]
    · rename_i p down hdown
      set u : Mirror := { t with lower := (t.lower.handle p).1, down := down }
      have hsends := fun i => Sends.foldl (notify_sends i) (t.lower.handle p).2 u
      have hlower := (hsends 0).lower
      refine ⟨?_, ?_⟩
      · rw [hlower, Handshake.handle_type, h.lowerType]
      · intro hs
        rw [hlower]
        by_cases hp : p.sync = true ∧ p.type = t.lower.type
        · -- the lower end is connected now, and every `LocalStateStore` is told so
          obtain ⟨hconn, htold⟩ := Handshake.handle_sync hp.1 hp.2
          have hc : u.lower.connected.val = true := by rw [hconn]; rfl
          exact ⟨hc, fun i => (hsends i).agrees hc (.inl ⟨true, htold, rfl⟩)⟩
        · obtain ⟨hconn, htold⟩ := Handshake.handle_other fun hy ht => hp ⟨hy, ht⟩
          have hold : Synced type tr := by
            refine (synced_concat hs).2.resolve_right ?_
            rintro ⟨q, hq, hsync, htype⟩
            cases hq
            exact hp ⟨hsync, htype.trans h.lowerType.symm⟩
          obtain ⟨hc, hagrees⟩ := h.synced hold
          have hc' : u.lower.connected.val = true := by rw [hconn, hc]
          exact ⟨hc', fun i => (hsends i).agrees hc' (.inr (hagrees i))⟩
  | deliverUp =>
    simp only [step]
    split
    · rwa [List.append_nil]
    all_goals
      rename_i hup
      rw [List.append_nil]
      refine ⟨h.lowerType, fun hs => ⟨(h.synced hs).1, fun i s hi => ?_⟩⟩
      have := (h.synced hs).2 i s hi
      rw [settled, hup] at this
      exact this
  | rebootUpper junk =>
    exact ⟨h.lowerType, fun hs => absurd rfl (synced_concat hs).1⟩

/-- **Port states are mirrored.** Whatever the order of state changes, ticks, deliveries and
reboots of the upper end: when the lower end has handled a `sync` of the upper end's current boot
and no `State` packet is under way, `AppState` has the state of every port whose state is set. -/
theorem port_states_mirrored (type : Side → HandshakeType) (junk : Side → Bool) (es : List Event)
    (hsynced : Synced (type .lower) (machine.trace (boot type junk) es))
    (hup : ∀ port value, .inr (port, value) ∉ (machine.run (boot type junk) es).up)
    (i : InnerPort) (s : State) (hs : (machine.run (boot type junk) es).states i = some s) :
    (machine.run (boot type junk) es).appState.getPortState i = s := by
  have hinv : Inv (type .lower) (machine.trace (boot type junk) es)
      (machine.run (boot type junk) es) := by
    refine Machine.trace_inv (C := fun _ _ => True) (Machine.along_of_mem fun _ _ _ => trivial) ?_
      (fun _ _ e h _ => step_inv h e)
    refine ⟨rfl, ?_⟩
    rintro ⟨l, m, heq, -, p, hp, -⟩
    rw [(List.append_eq_nil_iff.1 heq.symm).2] at hp
    cases hp
  rw [← (hinv.synced hsynced).2 i s hs, settled]
  -- the packets under way are handshakes
  generalize (machine.run (boot type junk) es).up = up at hup
  generalize (machine.run (boot type junk) es).appState = a
  induction up generalizing a with
  | nil => rfl
  | cons p up ih =>
    obtain p | ⟨port, value⟩ := p
    · exact ih (fun port value h => hup port value (.tail _ h)) a
    · exact absurd (.head _) (hup port value)

/-- A state that changed before the lower end was connected arrives after the `sync`. -/
theorem port_states_mirrored_resent :
    (machine.run (boot (fun _ => .major) fun _ => false)
      [.change 3 .charging, .lowerTick, .deliverUp, .upperTick, .deliverDown,
        .deliverUp]).appState.getPortState 3 = .charging :=
  port_states_mirrored (fun _ => .major) (fun _ => false)
    [.change 3 .charging, .lowerTick, .deliverUp, .upperTick, .deliverDown, .deliverUp]
    ⟨[], [.lowerHandled ⟨true, .major⟩], by decide, by decide, ⟨true, .major⟩, .head _, rfl, rfl⟩
    (fun port value => List.not_mem_nil) 3 .charging (by decide)

end Mirror

end ChargingPile
