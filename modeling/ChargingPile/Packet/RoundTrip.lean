import ChargingPile.Packet.Basic

/-!
# The frame stream round trip

`frame` is what `emit` puts on the wire (`emit_eq`), and the readers of the absorber invert what
the emitter has written, byte by byte and CRC included. `receive_emit` assembles this to streams:
the receive loop hands the messages of a stream of frames to their callbacks, in order.
-/

namespace ChargingPile

/-- Data bytes as they are on the wire. -/
abbrev stuffed (l : List UInt8) : List UInt8 := stuff ControlChar.head ControlChar.escape l

theorem stuffed_append (l m : List UInt8) : stuffed (l ++ m) = stuffed l ++ stuffed m :=
  stuff_append l m

theorem length_le_stuffed (l : List UInt8) : l.length ≤ (stuffed l).length := length_le_stuff l

namespace Emitter

theorem writeByte_eq (e : Emitter) (b : UInt8) :
    e.writeByte b =
      { sent := e.sent ++ stuffOne ControlChar.head ControlChar.escape b
        crc := Crc16.updates e.crc (stuffOne ControlChar.head ControlChar.escape b) } := by
  unfold writeByte stuffOne
  split <;> simp [writeAtom]

/-- The emitter sends stuffed data and keeps the CRC of what it has sent. -/
theorem writeData_eq (e : Emitter) (data : List UInt8) :
    e.writeData data = { sent := e.sent ++ stuffed data
                         crc := Crc16.updates e.crc (stuffed data) } := by
  induction data generalizing e with
  | nil => simp [writeData]
  | cons b data ih =>
    have hstep : e.writeData (b :: data) = (e.writeByte b).writeData data := rfl
    rw [hstep, ih, writeByte_eq]
    simp

end Emitter

namespace Packet

variable {T : Type} (P : Protocol T)

/-- The bytes of a frame that the CRC covers, unstuffed and without the head. -/
def content (t : T) (m : P.Msg t) : List UInt8 := leBytes 4 (P.hash t).toNat ++ P.build t m

/-- The CRC register after the head and the content. -/
def contentCrc (t : T) (m : P.Msg t) : UInt16 :=
  Crc16.updates (Crc16.update Crc16.initVal ControlChar.head) (stuffed (content P t m))

/-- The bytes of a frame after the head, unstuffed. -/
def body (t : T) (m : P.Msg t) : List UInt8 :=
  content P t m ++ leBytes 2 (Crc16.get (contentCrc P t m)).toNat

/-- The frame of a message. -/
def frame (t : T) (m : P.Msg t) : List UInt8 := ControlChar.head :: stuffed (body P t m)

/-- `emit` puts the frame of the message on the wire, if it may send it. -/
theorem emit_eq (handshake : T) (connected : Bool) (t : T) (m : P.Msg t) :
    emit P handshake connected t m =
      if connected ∨ P.hash t = P.hash handshake then frame P t m else [] := by
  unfold emit
  by_cases h : connected = true ∨ P.hash t = P.hash handshake
  · rw [if_pos h, if_neg (by rcases h with h | h <;> simp [h])]
    simp [Emitter.writeData_eq, Emitter.writeAtom, frame, body, content, contentCrc]
  · rw [if_neg h, if_pos (by simpa [not_or] using h)]

end Packet

/-! ## Reading what was written -/

namespace Absorber

variable {B : Build} {w : List UInt8} {c : UInt16}

@[simp] theorem isInvalid_run (s : Absorber) : isInvalid.run s = .ok s.invalid s := rfl

@[simp] theorem readAtom_run_cons (b : UInt8) (w : List UInt8) (c : UInt16) (i : Bool) :
    readAtom.run ⟨b :: w, c, i⟩ = .ok b ⟨w, Crc16.update c b, i⟩ := rfl

theorem readByte_head :
    (readByte B).run ⟨ControlChar.head :: w, c, false⟩ =
      .ok .head ⟨w, Crc16.update c ControlChar.head, false⟩ := rfl

/-- A stuffed byte is read as the byte. -/
theorem readByte_stuffOne (b : UInt8) :
    (readByte B).run ⟨stuffOne ControlChar.head ControlChar.escape b ++ w, c, false⟩ =
      .ok (.data b)
        ⟨w, Crc16.updates c (stuffOne ControlChar.head ControlChar.escape b), false⟩ := by
  unfold stuffOne
  split
  · rename_i h
    rcases h with rfl | rfl <;> rfl
  · rename_i h
    rw [not_or] at h
    simp [readByte, h.1, h.2]

/-- The read loop on as many stuffed bytes as the buffer has room for. -/
theorem readLoop_stuffed (l : List UInt8) {data rest : List UInt8} (h : rest.length = l.length) :
    (readLoop B data rest).run ⟨stuffed l ++ w, c, false⟩ =
      .ok (data ++ l) ⟨w, Crc16.updates c (stuffed l), false⟩ := by
  induction l generalizing data rest c with
  | nil =>
    obtain rfl := List.eq_nil_of_length_eq_zero h
    simp [readLoop]
  | cons b l ih =>
    cases rest with
    | nil => simp at h
    | cons old rest =>
      simp only [stuffed, stuff_cons, List.append_assoc, readLoop, EStateM.run_bind,
        readByte_stuffOne, isInvalid_run, Bool.false_eq_true, if_false]
      rw [ih (by simpa using h)]
      simp

theorem readData_stuffed (l : List UInt8) :
    (readData B l.length).run ⟨stuffed l ++ w, c, false⟩ =
      .ok l ⟨w, Crc16.updates c (stuffed l), false⟩ := by
  simp only [readData, EStateM.run_bind, EStateM.run_get, isInvalid_run, Bool.false_eq_true,
    if_false]
  exact readLoop_stuffed l (B.length_garbage _ _)

/-- What the read loop ends with when it meets an unescaped head. -/
def cut (B : Build) : Halt := if B.exceptions then .thrown .badVariantAccess else .aborted

/-- The read loop on fewer stuffed bytes than the buffer has room for, and a head after them: the
head is consumed. -/
theorem readLoop_cut (l : List UInt8) {data rest : List UInt8} (h : l.length < rest.length) :
    ∃ c', (readLoop B data rest).run ⟨stuffed l ++ ControlChar.head :: w, c, false⟩ =
      .error (cut B) ⟨w, c', false⟩ := by
  induction l generalizing data rest c with
  | nil =>
    cases rest with
    | nil => simp at h
    | cons old rest =>
      refine ⟨Crc16.update c ControlChar.head, ?_⟩
      simp only [stuff_nil, List.nil_append, readLoop, EStateM.run_bind, readByte_head,
        isInvalid_run, Bool.false_eq_true, if_false, cut]
      split <;> rfl
  | cons b l ih =>
    cases rest with
    | nil => simp at h
    | cons old rest =>
      simp only [stuffed, stuff_cons, List.append_assoc, readLoop, EStateM.run_bind,
        readByte_stuffOne, isInvalid_run, Bool.false_eq_true, if_false]
      exact ih (Nat.lt_of_succ_lt_succ h)

theorem readData_cut {l : List UInt8} {n : Nat} (h : l.length < n) :
    ∃ c', (readData B n).run ⟨stuffed l ++ ControlChar.head :: w, c, false⟩ =
      .error (cut B) ⟨w, c', false⟩ := by
  simp only [readData, EStateM.run_bind, EStateM.run_get, isInvalid_run, Bool.false_eq_true,
    if_false]
  exact readLoop_cut l (by rwa [B.length_garbage])

/-- The absorber is about to read the data `l`, then `w`; `C` is the CRC register after `l`. -/
def Serves (w : List UInt8) (C : UInt16) (l : List UInt8) (s : Absorber) : Prop :=
  ∃ c, s = ⟨stuffed l ++ w, c, false⟩ ∧ Crc16.updates c (stuffed l) = C

theorem Serves.readData {C : UInt16} {n : Nat} {l : List UInt8} {s : Absorber}
    (h : Serves w C l s) (hn : n ≤ l.length) :
    ∃ s', (readData B n).run s = .ok (l.take n) s' ∧ Serves w C (l.drop n) s' := by
  obtain ⟨c, rfl, hC⟩ := h
  have hsplit : stuffed l = stuffed (l.take n) ++ stuffed (l.drop n) := by
    rw [← stuffed_append, List.take_append_drop]
  have hread := readData_stuffed (B := B) (c := c) (w := stuffed (l.drop n) ++ w) (l.take n)
  rw [List.length_take, Nat.min_eq_left hn, ← List.append_assoc, ← hsplit] at hread
  refine ⟨_, hread, _, rfl, ?_⟩
  rw [← hC, hsplit, Crc16.updates_append]

theorem Serves.isInvalid {C : UInt16} {l : List UInt8} {s : Absorber} (h : Serves w C l s) :
    isInvalid.run s = .ok false s := by
  obtain ⟨c, rfl, -⟩ := h
  rfl

/-- The constructor reads the hash at the beginning of a frame. -/
theorem construct_run (hash : UInt32) (w : List UInt8) (c : UInt16) :
    (construct B).run ⟨ControlChar.head :: (stuffed (leBytes 4 hash.toNat) ++ w), c, false⟩ =
      .ok hash ⟨w, Crc16.updates (Crc16.update c ControlChar.head)
        (stuffed (leBytes 4 hash.toNat)), false⟩ := by
  have hword : UInt32.ofNat (ofLeBytes (leBytes 4 hash.toNat)) = hash := by
    have hlt : hash.toNat < 256 ^ 4 := hash.toNat_lt
    rw [ofLeBytes_leBytes, Nat.mod_eq_of_lt hlt, UInt32.ofNat_toNat]
  have hread := readData_stuffed (B := B) (c := Crc16.update c ControlChar.head) (w := w)
    (leBytes 4 hash.toNat)
  rw [length_leBytes] at hread
  simp only [construct, EStateM.run_bind, readByte_head, EStateM.run_pure, isInvalid_run,
    Bool.false_eq_true, if_false, hread, hword]

/-- The check compares the CRC register with the next two bytes. -/
theorem check_stuffed {k : List UInt8} (hk : k.length = 2) (w : List UInt8) (c : UInt16) :
    ∃ c', (check B).run ⟨stuffed k ++ w, c, false⟩ =
      .ok (decide (Crc16.get c = UInt16.ofNat (ofLeBytes k))) ⟨w, c', false⟩ := by
  have hread := readData_stuffed (B := B) (c := c) (w := w) k
  rw [hk] at hread
  refine ⟨Crc16.updates c (stuffed k), ?_⟩
  simp only [check, EStateM.run_bind, EStateM.run_get, hread, EStateM.run_pure]

theorem ofNat_ofLeBytes_crc (c : UInt16) :
    UInt16.ofNat (ofLeBytes (leBytes 2 (Crc16.get c).toNat)) = Crc16.get c := by
  have hlt : (Crc16.get c).toNat < 256 ^ 2 := (Crc16.get c).toNat_lt
  rw [ofLeBytes_leBytes, Nat.mod_eq_of_lt hlt, UInt16.ofNat_toNat]

/-- The CRC at the end of a frame passes the check. -/
theorem check_run (w : List UInt8) (c : UInt16) :
    ∃ c', (check B).run ⟨stuffed (leBytes 2 (Crc16.get c).toNat) ++ w, c, false⟩ =
      .ok true ⟨w, c', false⟩ := by
  obtain ⟨c', hcheck⟩ := check_stuffed (B := B) (length_leBytes 2 (Crc16.get c).toNat) w c
  rw [ofNat_ofLeBytes_crc, decide_eq_true rfl] at hcheck
  exact ⟨c', hcheck⟩

end Absorber

/-! ## Frames -/

namespace Packet

variable {T : Type} (P : Protocol T) (B : Build) (typeInfos : List T)

theorem find_of_mem {t : T} (h : t ∈ typeInfos) : find P typeInfos (P.hash t) = some t := by
  cases hf : find P typeInfos (P.hash t) with
  | none =>
    have := List.find?_eq_none.1 hf t h
    simp at this
  | some t' =>
    have heq : P.hash t' = P.hash t := by simpa using List.find?_some hf
    rw [P.hash_injective heq]

/-- The deserializer on the absorber reads what it reads from the data. -/
theorem parse_stuffed {t : T} {m : P.Msg t} {l : List UInt8} (h : (P.parse t).run l = some (m, []))
    (w : List UInt8) (c : UInt16) :
    ((P.parse t).interp (Absorber.readData B) Absorber.isInvalid).run ⟨stuffed l ++ w, c, false⟩ =
      .ok m ⟨w, Crc16.updates c (stuffed l), false⟩ := by
  have hserves : Absorber.Serves w (Crc16.updates c (stuffed l)) l ⟨stuffed l ++ w, c, false⟩ :=
    ⟨c, rfl, rfl⟩
  obtain ⟨s, hparse, c', rfl, hc⟩ := Reader.interp_of_run
    (fun _ _ _ hs hn => hs.readData (B := B) hn) (fun _ _ hs => hs.isInvalid) h hserves
  rw [hparse, ← hc]
  rfl

/-- The deserializer on the absorber reads the message that was serialized. -/
theorem parse_run (t : T) (m : P.Msg t) (w : List UInt8) (c : UInt16) :
    ((P.parse t).interp (Absorber.readData B) Absorber.isInvalid).run
        ⟨stuffed (P.build t m) ++ w, c, false⟩ =
      .ok m ⟨w, Crc16.updates c (stuffed (P.build t m)), false⟩ :=
  parse_stuffed P B (P.parse_build t m) w c

/-- After the head and the hash of a registered type the rest of the frame is read. -/
theorem absorbFrame_run {t : T} (ht : t ∈ typeInfos) (w : List UInt8) (c : UInt16) :
    (absorbFrame P B typeInfos).run
        ⟨ControlChar.head :: (stuffed (leBytes 4 (P.hash t).toNat) ++ w), c, false⟩ =
      (absorbMessage P B t).run ⟨w, Crc16.updates (Crc16.update c ControlChar.head)
        (stuffed (leBytes 4 (P.hash t).toNat)), false⟩ := by
  simp only [absorbFrame, EStateM.run_bind, Absorber.construct_run, Absorber.isInvalid_run,
    Bool.false_eq_true, if_false, find_of_mem P typeInfos ht]

/-- `handleFrame` on a frame of a registered type invokes the callback and consumes the frame. -/
theorem handleFrame_frame {t : T} (ht : t ∈ typeInfos) (m : P.Msg t) (w : List UInt8) :
    handleFrame P B typeInfos (frame P t m ++ w) = (.called t m, w) := by
  have hframe : frame P t m ++ w = ControlChar.head :: (stuffed (leBytes 4 (P.hash t).toNat) ++
      (stuffed (P.build t m) ++
        (stuffed (leBytes 2 (Crc16.get (contentCrc P t m)).toNat) ++ w))) := by
    simp [frame, body, content]
  have hcrc : Crc16.updates (Crc16.updates (Crc16.update Crc16.initVal ControlChar.head)
      (stuffed (leBytes 4 (P.hash t).toNat))) (stuffed (P.build t m)) = contentCrc P t m := by
    simp [contentCrc, content]
  obtain ⟨c', hcheck⟩ := Absorber.check_run (B := B) w (contentCrc P t m)
  rw [handleFrame, hframe, absorbFrame_run P B typeInfos ht]
  simp only [absorbMessage, EStateM.run_bind, parse_run, hcrc, hcheck, if_true, EStateM.run_pure]

/-! ## Streams of frames -/

theorem handleFrame_nil : handleFrame P B typeInfos [] = (.halted .blocked, []) := rfl

/-- One call that does not end the loop. -/
theorem receive_cons {o : Outcome P} {wire rest : List UInt8} (n : Nat)
    (h : handleFrame P B typeInfos wire = (o, rest)) (hb : o ≠ .halted .blocked)
    (ha : o ≠ .halted .aborted) :
    receive P B typeInfos (n + 1) wire =
      (o :: (receive P B typeInfos n rest).1, (receive P B typeInfos n rest).2) := by
  rw [receive, h]
  split
  · rename_i heq
    cases heq
    exact absurd rfl hb
  · rename_i heq
    cases heq
    exact absurd rfl ha
  · rename_i heq
    cases heq
    rfl

/-- A message with the state of the sender's connection when it is emitted. -/
structure Emission where
  connected : Bool
  type : T
  msg : P.Msg type

/-- The bytes that a sequence of emissions puts on the wire. -/
def emitAll (handshake : T) (es : List (Emission P)) : List UInt8 :=
  es.flatMap fun e => emit P handshake e.connected e.type e.msg

/-- The messages that `emit` sends: all of them once the ends are connected, and before only
handshake messages. -/
def sent (handshake : T) (es : List (Emission P)) : List (Emission P) :=
  es.filter fun e => e.connected || P.hash e.type == P.hash handshake

/-- **The frame stream round trip.** The receive loop on the bytes that a sequence of messages of
registered types puts on the wire invokes the callbacks with exactly the messages sent, in order
and without an exception, consumes every byte and then waits for the next frame. -/
theorem receive_emitAll (handshake : T) (es : List (Emission P))
    (hreg : ∀ e ∈ es, e.type ∈ typeInfos) (n : Nat) (hn : es.length < n) :
    receive P B typeInfos n (emitAll P handshake es) =
      ((sent P handshake es).map (fun e => .called e.type e.msg) ++ [.halted .blocked], []) := by
  induction es generalizing n with
  | nil =>
    obtain ⟨n, rfl⟩ := Nat.exists_eq_add_of_lt hn
    rfl
  | cons e es ih =>
    have hreg' : ∀ e ∈ es, e.type ∈ typeInfos := fun f hf => hreg f (.tail _ hf)
    have hall : emitAll P handshake (e :: es) =
        emit P handshake e.connected e.type e.msg ++ emitAll P handshake es := rfl
    rw [hall, emit_eq]
    by_cases hs : e.connected = true ∨ P.hash e.type = P.hash handshake
    · obtain ⟨n, rfl⟩ : ∃ k, n = k + 1 := ⟨n - 1, by omega⟩
      have hsent : sent P handshake (e :: es) = e :: sent P handshake es :=
        List.filter_cons_of_pos (by simpa using hs)
      rw [if_pos hs, hsent, receive_cons P B typeInfos n
        (handleFrame_frame P B typeInfos (hreg e (.head _)) e.msg _) nofun nofun,
        ih hreg' n (Nat.lt_of_succ_lt_succ hn)]
      rfl
    · have hsent : sent P handshake (e :: es) = sent P handshake es :=
        List.filter_cons_of_neg (by simpa using hs)
      rw [if_neg hs, hsent, List.nil_append, ih hreg' n (Nat.lt_of_succ_lt hn)]

end Packet

/-! ## An instance -/

/-- A protocol with two message types, of one byte each. -/
def Protocol.pair : Protocol Bool where
  Msg _ := UInt8
  hash t := if t then 0x1234a5ff else 0x00000002
  build _ m := [m]
  parse _ := .read 1 fun l => .done (l.headD 0)
  hash_injective := by
    intro a b h
    cases a <;> cases b <;> simp_all
  parse_build _ _ := rfl

/-- The build of the upper end. -/
def Build.upper : Build where
  exceptions := true
  garbage _ n := List.replicate n 0
  length_garbage _ _ := List.length_replicate

/-- Two messages, the second of which has to be escaped. -/
theorem Packet.receive_emitAll_pair :
    receive .pair .upper [true, false] 3
        (emitAll .pair true [⟨true, true, (7 : UInt8)⟩, ⟨true, false, (0xa5 : UInt8)⟩]) =
      ([.called true (7 : UInt8), .called false (0xa5 : UInt8), .halted .blocked], []) :=
  receive_emitAll .pair .upper [true, false] true
    [⟨true, true, (7 : UInt8)⟩, ⟨true, false, (0xa5 : UInt8)⟩] (by simp) 3 (by decide)

end ChargingPile
