import ChargingPile.Eeprom.Cache
import ChargingPile.Lib.Wire

/-!
# Persistent objects on an EEPROM

`PersistentStorage` (`components/persistent_storage.hxx`, `components/persistent_stoarge.cxx`)
keeps one object of each type on the device. At address 0 it has a `Meta` with a magic number and
the lists of idle blocks, of allocated blocks and of types; a type has a list of objects. The lists
are rings of nodes.

An `Idx` on the stack holds its object from its first access to the end of its scope (`hold`). One
that is part of an object is its address here: that it may hold the object too only delays when
that is written back.
-/

namespace ChargingPile.Eeprom

/-- Code on a store that may throw, or have no result. -/
abbrev M : Type → Type := ExceptT Exception (StateT Store Option)

/-- The result of a code and the store afterwards. -/
def exec {α : Type} (p : M α) (s : Store) : Option (Except Exception α × Store) := p.run.run s

/-! ## Access to objects -/

/-- The first access to an object through an `Idx`. -/
def access (addr size : Nat) : M Unit := ExceptT.mk fun s =>
  match s.getPtr addr size with
  | .error e => some (.error e, s)
  | .ok s => some (.ok (), s)

/-- An `Idx` that is accessed now and has its end after `p`. -/
def hold {α : Type} (addr size : Nat) (p : M α) : M α := ExceptT.mk fun s =>
  match s.getPtr addr size with
  | .error e => some (.error e, s)
  | .ok s => (exec p s).map fun (r, s) => (r, s.dispose addr size)

/-- A number of `n` bytes in an object that is held. -/
def load (addr off n : Nat) : M Nat := ExceptT.mk fun s =>
  (s.data addr).map fun d => (.ok (ofLeBytes ((d.current.drop off).take n)), s)

/-- Bytes are written to an object that is held. -/
def storeBytes (addr off : Nat) (bytes : List UInt8) : M Unit := ExceptT.mk fun s =>
  (s.data addr).map fun d =>
    let current := d.current.take off ++ bytes ++ d.current.drop (off + bytes.length)
    (.ok (), { s with data := Function.update s.data addr (some { d with current }) })

/-- A number of `n` bytes is written to an object that is held. -/
def store (addr off n x : Nat) : M Unit := storeBytes addr off (leBytes n x)

/-- `getCtxGuard`, with its scope. The guard of the thread is shared. -/
def withCtx {α : Type} (p : M α) : M α := ExceptT.mk fun s =>
  if s.ctx then exec p s
  else (exec p { s with ctx := true }).map fun (r, s) => (r, { s with ctx := false })

/-- A loop that does not come to an end. -/
def diverge {α : Type} : M α := ExceptT.mk fun _ => none

/-! ## Lists -/

/-- The size of a node, and where it has its links. -/
structure Node where
  size : Nat
  prev : Nat
  next : Nat

/-- `HeapNode`: `size`, `prev`, `next`. -/
def heapNode : Node := ⟨6, 2, 4⟩

/-- `TypeNode`: `hash`, `obj`, `prev`, `next`. -/
def typeNode : Node := ⟨12, 6, 8⟩

/-- `ObjNode`: `prev`, `next`. -/
def objNode : Node := ⟨4, 0, 2⟩

/-- `sizeof(Meta)`, where `magic`, `idle`, `alloc` and `type` are at 0, 4, 6 and 8. -/
def metaSize : Nat := 12

/-- `List::add`, for the list whose `front` is at `off` in the object `obj`. -/
def add (T : Node) (obj off node : Nat) : M Unit := hold node T.size do
  let front ← load obj off 2
  if front = null then
    store obj off 2 node
    store node T.next 2 node
    store node T.prev 2 node
  else hold front T.size do
    let rear ← load front T.prev 2
    hold rear T.size do
      store rear T.next 2 node
      store node T.prev 2 rear
      store front T.prev 2 node
      store node T.next 2 front

/-- What `List::remove` does to `front`. -/
def removeFront (T : Node) (obj off node : Nat) : M Unit := do
  let front ← load obj off 2
  if front = node then hold front T.size do
    let next ← load front T.next 2
    if front = next then store obj off 2 null else store obj off 2 next
  else pure ()

/-- `List::remove`. -/
def remove (T : Node) (obj off node : Nat) : M Unit := hold node T.size do
  removeFront T obj off node
  let nodePrev ← load node T.prev 2
  let nodeNext ← load node T.next 2
  hold nodePrev T.size do
    store nodePrev T.next 2 nodeNext
    hold nodeNext T.size (store nodeNext T.prev 2 nodePrev)

/-! ## Blocks -/

/-- `HeapNode::create`. -/
def createHeapNode (node size : Nat) : M Unit := do
  store node 0 2 0
  store node 2 2 null
  store node 4 2 null
  store node 0 2 size

/-- `TypeNode::create`. -/
def createTypeNode (node : Nat) (hash : UInt32) : M Unit := do
  store node 0 4 0
  store node 4 2 null
  store node 6 2 null
  store node 8 2 null
  store node 0 4 hash.toNat

/-- `ObjNode{}`. -/
def createObjNode (node : Nat) : M Unit := do
  store node 0 2 null
  store node 2 2 null

/-- A storage: `TypeId<Meta>::get()` and the size of the device. -/
structure Config where
  magic : UInt32
  deviceSize : Nat

namespace Config

variable (cfg : Config)

/-- `Meta::create`. The size of the first block is a `size_t` that is cut to 16 bits. -/
def createMeta : M Unit := do
  store 0 0 4 cfg.magic.toNat
  store 0 4 2 null
  store 0 6 2 null
  store 0 8 2 null
  hold metaSize heapNode.size do
    createHeapNode metaSize ((cfg.deviceSize + 4294967296 - metaSize - heapNode.size) % 65536)
    add heapNode 0 4 metaSize

/-- `PersistentStorage::format`, which is `Meta::make`. -/
def format : M Unit := withCtx (hold 0 metaSize cfg.createMeta)

/-- `Meta::get`, and what is done with the `Idx` it returns. -/
def withMeta {α : Type} (p : M α) : M α := hold 0 metaSize do
  let magic ← load 0 0 4
  if magic ≠ cfg.magic.toNat then throw (.runtimeError "invalid meta") else p

/-- Which of two idle blocks is the better one: `minDiffNode`, or `curIdle` with its size. -/
def better (allocSize curIdle curSize minDiffNode : Nat) : M Nat :=
  if minDiffNode = null then return if allocSize ≤ curSize then curIdle else minDiffNode
  else if allocSize ≤ curSize then do
    let minSize ← hold minDiffNode heapNode.size (load minDiffNode 0 2)
    return if curSize < minSize then curIdle else minDiffNode
  else return minDiffNode

/-- One turn of the loop of `alloc`: the best block so far, and the next one. -/
def lookAt (allocSize curIdle minDiffNode : Nat) : M (Nat × Nat) := hold curIdle heapNode.size do
  let curSize ← load curIdle 0 2
  let minDiffNode ← better allocSize curIdle curSize minDiffNode
  let next ← load curIdle heapNode.next 2
  return (minDiffNode, next)

/-- The loop of `alloc`. -/
def bestFit (allocSize : Nat) : Nat → Nat → Nat → M Nat
  | 0, _, _ => diverge
  | fuel + 1, curIdle, minDiffNode => do
    let (minDiffNode, curIdle) ← lookAt allocSize curIdle minDiffNode
    let front ← load 0 4 2
    if curIdle ≠ front then bestFit allocSize fuel curIdle minDiffNode else return minDiffNode

/-- What `alloc` does with the block it has chosen. What the block does not need is a new idle
block, whose size is computed as a `size_t` and cut to 16 bits. -/
def takeBlock (size minDiffNode : Nat) : M Nat := hold minDiffNode heapNode.size do
  let minDiffNodeOriSize ← load minDiffNode 0 2
  store minDiffNode 0 2 size
  remove heapNode 0 4 minDiffNode
  add heapNode 0 6 minDiffNode
  let newIdleNode := (minDiffNode + heapNode.size + size) % 65536
  hold newIdleNode heapNode.size do
    createHeapNode newIdleNode ((minDiffNodeOriSize + 8589934592 - size - heapNode.size) % 65536)
    add heapNode 0 4 newIdleNode
  return (minDiffNode + heapNode.size) % 65536

/-- `PersistentStorage::alloc`. The size with that of the header is a `size_t`. -/
def alloc (fuel size : Nat) : M Nat := withCtx (cfg.withMeta do
  let front ← load 0 4 2
  let minDiffNode ← bestFit ((size + heapNode.size) % 4294967296) fuel front null
  if minDiffNode = null then throw (.runtimeError "alloc failed") else takeBlock size minDiffNode)

/-! ## Objects -/

/-- `find_if` on the list of types from a node on. -/
def findType (hash : UInt32) (front : Nat) : Nat → Nat → M (Option Nat)
  | 0, _ => diverge
  | fuel + 1, node => do
    let nodeHash ← hold node typeNode.size (load node 0 4)
    if nodeHash = hash.toNat then return some node
    else
      let next ← hold node typeNode.size (load node typeNode.next 2)
      if next = front then return none else findType hash front fuel next

/-- The object of a type, and whether it was there. -/
def makeObject (fuel size node : Nat) : M (Bool × Nat) := do
  let front ← load node 4 2
  if front = null then
    let addr ← cfg.alloc fuel (objNode.size + size)
    hold addr objNode.size do
      createObjNode addr
      add objNode node 4 addr
    return (false, (addr + objNode.size) % 65536)
  else return (true, (front + objNode.size) % 65536)

/-- What `makeInternal` does once the list of types has been searched. -/
def makeType (fuel : Nat) (hash : UInt32) (size : Nat) : Option Nat → M (Bool × Nat)
  | none => do
    let addr ← cfg.alloc fuel typeNode.size
    hold addr typeNode.size do
      createTypeNode addr hash
      add typeNode 0 8 addr
      cfg.makeObject fuel size addr
  | some node => hold node typeNode.size (cfg.makeObject fuel size node)

/-- `PersistentStorage::makeInternal`. -/
def makeInternal (fuel : Nat) (hash : UInt32) (size : Nat) : M (Bool × Nat) := cfg.withMeta do
  let magic ← load 0 0 4
  (if magic ≠ cfg.magic.toNat then cfg.format else pure ())
  let front ← load 0 8 2
  let found ← (if front = null then pure none else findType hash front fuel front)
  cfg.makeType fuel hash size found

/-- `PersistentStorage::make`, for a type with the given hash and the bytes of its initial value.
The `Idx` that it returns holds the object. -/
def make (fuel : Nat) (hash : UInt32) (initial : List UInt8) : M Nat := withCtx do
  let (created, addr) ← cfg.makeInternal fuel hash initial.length
  access addr initial.length
  (if created then pure () else storeBytes addr 0 initial)
  return addr

end Config

end ChargingPile.Eeprom
