import ChargingPile.Lib.Wire

/-!
# The packet layer

`Packet` (`components/packet.cxx`) sends one message per frame: the byte `0xa5`, the hash of the
message's type in four bytes, the serialized message and a CRC in two bytes. Data bytes `0xa5` and
`0xff` are preceded by `0xff`, and the CRC is computed over the bytes as they are on the wire.

The upper end is compiled with exceptions, the lower end without (`Build`). Without exceptions a
reader that meets an invalid escape marks the absorber invalid, and every later read returns
what its buffer happened to hold; an unescaped `0xa5` in the data ends in `abort`, since
`std::get` cannot throw.
-/

namespace ChargingPile

/-! ## Crc16 -/

/-- `crc16_table` for the polynomial `0xA001`. -/
def crc16Table : Array UInt16 := #[
  0x0000, 0xC0C1, 0xC181, 0x0140, 0xC301, 0x03C0, 0x0280, 0xC241, 0xC601, 0x06C0, 0x0780, 0xC741,
  0x0500, 0xC5C1, 0xC481, 0x0440, 0xCC01, 0x0CC0, 0x0D80, 0xCD41, 0x0F00, 0xCFC1, 0xCE81, 0x0E40,
  0x0A00, 0xCAC1, 0xCB81, 0x0B40, 0xC901, 0x09C0, 0x0880, 0xC841, 0xD801, 0x18C0, 0x1980, 0xD941,
  0x1B00, 0xDBC1, 0xDA81, 0x1A40, 0x1E00, 0xDEC1, 0xDF81, 0x1F40, 0xDD01, 0x1DC0, 0x1C80, 0xDC41,
  0x1400, 0xD4C1, 0xD581, 0x1540, 0xD701, 0x17C0, 0x1680, 0xD641, 0xD201, 0x12C0, 0x1380, 0xD341,
  0x1100, 0xD1C1, 0xD081, 0x1040, 0xF001, 0x30C0, 0x3180, 0xF141, 0x3300, 0xF3C1, 0xF281, 0x3240,
  0x3600, 0xF6C1, 0xF781, 0x3740, 0xF501, 0x35C0, 0x3480, 0xF441, 0x3C00, 0xFCC1, 0xFD81, 0x3D40,
  0xFF01, 0x3FC0, 0x3E80, 0xFE41, 0xFA01, 0x3AC0, 0x3B80, 0xFB41, 0x3900, 0xF9C1, 0xF881, 0x3840,
  0x2800, 0xE8C1, 0xE981, 0x2940, 0xEB01, 0x2BC0, 0x2A80, 0xEA41, 0xEE01, 0x2EC0, 0x2F80, 0xEF41,
  0x2D00, 0xEDC1, 0xEC81, 0x2C40, 0xE401, 0x24C0, 0x2580, 0xE541, 0x2700, 0xE7C1, 0xE681, 0x2640,
  0x2200, 0xE2C1, 0xE381, 0x2340, 0xE101, 0x21C0, 0x2080, 0xE041, 0xA001, 0x60C0, 0x6180, 0xA141,
  0x6300, 0xA3C1, 0xA281, 0x6240, 0x6600, 0xA6C1, 0xA781, 0x6740, 0xA501, 0x65C0, 0x6480, 0xA441,
  0x6C00, 0xACC1, 0xAD81, 0x6D40, 0xAF01, 0x6FC0, 0x6E80, 0xAE41, 0xAA01, 0x6AC0, 0x6B80, 0xAB41,
  0x6900, 0xA9C1, 0xA881, 0x6840, 0x7800, 0xB8C1, 0xB981, 0x7940, 0xBB01, 0x7BC0, 0x7A80, 0xBA41,
  0xBE01, 0x7EC0, 0x7F80, 0xBF41, 0x7D00, 0xBDC1, 0xBC81, 0x7C40, 0xB401, 0x74C0, 0x7580, 0xB541,
  0x7700, 0xB7C1, 0xB681, 0x7640, 0x7200, 0xB2C1, 0xB381, 0x7340, 0xB101, 0x71C0, 0x7080, 0xB041,
  0x5000, 0x90C1, 0x9181, 0x5140, 0x9301, 0x53C0, 0x5280, 0x9241, 0x9601, 0x56C0, 0x5780, 0x9741,
  0x5500, 0x95C1, 0x9481, 0x5440, 0x9C01, 0x5CC0, 0x5D80, 0x9D41, 0x5F00, 0x9FC1, 0x9E81, 0x5E40,
  0x5A00, 0x9AC1, 0x9B81, 0x5B40, 0x9901, 0x59C0, 0x5880, 0x9841, 0x8801, 0x48C0, 0x4980, 0x8941,
  0x4B00, 0x8BC1, 0x8A81, 0x4A40, 0x4E00, 0x8EC1, 0x8F81, 0x4F40, 0x8D01, 0x4DC0, 0x4C80, 0x8C41,
  0x4400, 0x84C1, 0x8581, 0x4540, 0x8701, 0x47C0, 0x4680, 0x8641, 0x8201, 0x42C0, 0x4380, 0x8341,
  0x4100, 0x81C1, 0x8081, 0x4040]

namespace Crc16

/-- `CRC16_INIT_VAL`. -/
def initVal : UInt16 := 0xFFFF

/-- `Crc16::update`, one byte of `crc16_cyc_cal`. -/
def update (val : UInt16) (dat : UInt8) : UInt16 :=
  (val >>> 8) ^^^ crc16Table.getD (val.toUInt8 ^^^ dat).toNat 0

/-- `Crc16::get`. -/
def get (val : UInt16) : UInt16 := val ^^^ initVal

/-- A list of bytes in order. -/
def updates (val : UInt16) (l : List UInt8) : UInt16 := l.foldl update val

@[simp] theorem updates_nil (val : UInt16) : updates val [] = val := rfl

@[simp] theorem updates_cons (val : UInt16) (b : UInt8) (l : List UInt8) :
    updates val (b :: l) = updates (update val b) l := rfl

@[simp] theorem updates_append (val : UInt16) (l m : List UInt8) :
    updates val (l ++ m) = updates (updates val l) m :=
  List.foldl_append

end Crc16

/-! ## Message types -/

/-- The message types of the two ends: the type hash, and the serializer and the deserializer of
each type. The hashes are distinct, and parsing the serialized bytes gives the message back and
leaves nothing. -/
structure Protocol (T : Type) where
  Msg : T → Type
  hash : T → UInt32
  build : (t : T) → Msg t → List UInt8
  parse : (t : T) → Reader UInt8 (Msg t)
  hash_injective : Function.Injective hash
  parse_build : ∀ t m, (parse t).run (build t m) = some (m, [])

/-! ## Emitter -/

/-- `ControlChar::Head`. -/
def ControlChar.head : UInt8 := 0xa5

/-- `ControlChar::Escape`. -/
def ControlChar.escape : UInt8 := 0xff

/-- `Packet::Emitter`, with the bytes it has sent. -/
structure Emitter where
  sent : List UInt8 := []
  crc : UInt16 := Crc16.initVal

namespace Emitter

/-- `Emitter::writeAtom`. -/
def writeAtom (e : Emitter) (b : UInt8) : Emitter where
  sent := e.sent ++ [b]
  crc := Crc16.update e.crc b

/-- `Emitter::writeByte` of a data byte. -/
def writeByte (e : Emitter) (b : UInt8) : Emitter :=
  if b = ControlChar.head ∨ b = ControlChar.escape then
    (e.writeAtom ControlChar.escape).writeAtom b
  else e.writeAtom b

/-- `Emitter::writeData`. -/
def writeData (e : Emitter) (data : List UInt8) : Emitter := data.foldl writeByte e

end Emitter

/-- `Packet::emit`: the bytes sent for a message. The constructor of `Emitter` writes the head,
unescaped, and the hash, the destructor writes the CRC. Before the handshake only handshake
messages are sent. -/
def Packet.emit {T : Type} (P : Protocol T) (handshake : T) (connected : Bool) (t : T)
    (m : P.Msg t) : List UInt8 :=
  if !connected ∧ P.hash t ≠ P.hash handshake then []
  else
    let e := Emitter.writeAtom {} ControlChar.head
    let e := e.writeData (leBytes 4 (P.hash t).toNat)
    let e := e.writeData (P.build t m)
    (e.writeData (leBytes 2 (Crc16.get e.crc).toNat)).sent

/-! ## Absorber -/

/-- The exceptions that a frame can end with. -/
inductive PacketError
  | invalidFrame | invalidEscape | typeInfoNotFound | badVariantAccess
deriving DecidableEq, Repr

/-- How `handleFrame` can end other than by returning: it waits for a byte that has not come, an
exception reaches the receive loop, or the program aborts. -/
inductive Halt
  | blocked
  | thrown (e : PacketError)
  | aborted
deriving DecidableEq, Repr

/-- `Packet::Absorber`, with the bytes of the link that are still to be received. -/
structure Absorber where
  wire : List UInt8
  crc : UInt16 := Crc16.initVal
  invalid : Bool := false

/-- How the source is compiled: with exceptions or without, and the content of a buffer that
nothing has written. -/
structure Build where
  exceptions : Bool
  garbage : Absorber → Nat → List UInt8
  length_garbage : ∀ s n, (garbage s n).length = n

/-- What `Absorber::readByte` returns. -/
inductive Token
  | data (b : UInt8) | head | invalid

/-- Code that reads from an absorber. What it has consumed stays consumed when it ends early. -/
abbrev Absorb := EStateM Halt Absorber

namespace Absorber

variable (B : Build)

/-- `Absorber::isInvalid`. -/
def isInvalid : Absorb Bool := return (← get).invalid

/-- `Absorber::invalidate`. -/
def invalidate : Absorb Unit := modify fun s => { s with invalid := true }

/-- `Absorber::readAtom`. -/
def readAtom : Absorb UInt8 := do
  match (← get).wire with
  | [] => throw .blocked
  | b :: w =>
    modify fun s => { s with wire := w, crc := Crc16.update s.crc b }
    return b

/-- `Absorber::readByte`. -/
def readByte : Absorb Token := do
  if ← isInvalid then return .invalid
  let b ← readAtom
  if b = ControlChar.head then return .head
  if b = ControlChar.escape then
    let b ← readAtom
    if b ≠ ControlChar.head ∧ b ≠ ControlChar.escape then
      if B.exceptions then throw (.thrown .invalidEscape)
      invalidate
    return .data b
  return .data b

/-- The loop of `Absorber::readData`: `data` is what it has written, `rest` the old content of the
buffer behind it. -/
def readLoop (data : List UInt8) : List UInt8 → Absorb (List UInt8)
  | [] => return data
  | old :: rest => do
    let d ← readByte B
    if ← isInvalid then return data ++ old :: rest
    match d with
    | .data b => readLoop (data ++ [b]) rest
    | _ => if B.exceptions then throw (.thrown .badVariantAccess) else throw .aborted

/-- `Absorber::readData` into a fresh buffer of `len` bytes. -/
def readData (len : Nat) : Absorb (List UInt8) := do
  let buffer := B.garbage (← get) len
  if ← isInvalid then return buffer
  readLoop B [] buffer

/-- The constructor of `Absorber`: it reads the head and the hash, and returns the hash. -/
def construct : Absorb UInt32 := do
  match ← readByte B with
  | .head => pure ()
  | _ =>
    if B.exceptions then throw (.thrown .invalidFrame)
    invalidate
  if ← isInvalid then return UInt32.ofNat (ofLeBytes (B.garbage (← get) 4))
  return UInt32.ofNat (ofLeBytes (← readData B 4))

/-- `Absorber::check`. -/
def check : Absorb Bool := do
  let crcExpect := Crc16.get (← get).crc
  let crcActual := UInt16.ofNat (ofLeBytes (← readData B 2))
  return crcExpect = crcActual

end Absorber

/-! ## The receive loop -/

namespace Packet

variable {T : Type} (P : Protocol T) (B : Build) (typeInfos : List T)

/-- `typeInfos.find(hash)`, over the types that were registered with `Packet::on`. -/
def find (hash : UInt32) : Option T := typeInfos.find? fun t => P.hash t == hash

/-- `Packet::handleFrame` after the look-up: the type and the message the callback is invoked with,
if it is. -/
def absorbMessage (t : T) : Absorb (Option (Σ t, P.Msg t)) := do
  let p ← (P.parse t).interp (Absorber.readData B) Absorber.isInvalid
  if ← Absorber.check B then return some ⟨t, p⟩
  if B.exceptions then throw (.thrown .invalidFrame) else return none

/-- `Packet::handleFrame` on the absorber it makes. -/
def absorbFrame : Absorb (Option (Σ t, P.Msg t)) := do
  let hash ← Absorber.construct B
  if ← Absorber.isInvalid then return none
  match find P typeInfos hash with
  | none => if B.exceptions then throw (.thrown .typeInfoNotFound) else return none
  | some t => absorbMessage P B t

/-- What one call of `handleFrame` comes to. -/
inductive Outcome (P : Protocol T)
  | called (t : T) (m : P.Msg t)
  | returned
  | halted (h : Halt)

/-- `Packet::handleFrame` with the link's bytes: its outcome and the bytes it leaves. -/
def handleFrame (wire : List UInt8) : Outcome P × List UInt8 :=
  match (absorbFrame P B typeInfos).run { wire := wire } with
  | .ok (some a) s => (.called a.1 a.2, s.wire)
  | .ok none s => (.returned, s.wire)
  | .error h s => (.halted h, s.wire)

/-- The receive loop of `Packet::Packet`, for at most the given number of calls. It goes on after
an exception, and ends when a call waits for a byte or aborts. -/
def receive : Nat → List UInt8 → List (Outcome P) × List UInt8
  | 0, wire => ([], wire)
  | n + 1, wire =>
    match handleFrame P B typeInfos wire with
    | (.halted .blocked, rest) => ([.halted .blocked], rest)
    | (.halted .aborted, rest) => ([.halted .aborted], rest)
    | (o, rest) =>
      let r := receive n rest
      (o :: r.1, r.2)

end Packet

end ChargingPile
