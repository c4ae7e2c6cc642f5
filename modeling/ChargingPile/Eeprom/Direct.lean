import ChargingPile.Eeprom.Make
import ChargingPile.Lib.Machine

/-!
# The heap on the device itself

The functions of `PersistentStorage` (`components/persistent_stoarge.cxx`) that keep the heap, if
every access to an object reads and writes the device directly: `List::add` and `List::remove`,
`format`, and `alloc` with its search for the best block. Addresses and the sizes in the headers
have 16 bits, the sizes that `alloc` computes with have 32 (`std::size_t`).
-/

namespace ChargingPile.Eeprom.Direct

/-! ## Lists -/

/-- `List::add`, for the list whose `front` is at `list`. -/
def add (T : Node) (v : Nat → UInt8) (list node : Nat) : Nat → UInt8 :=
  let front := peek v list 2
  if front = null then single T v list node
  else
    let rear := peek v (front + T.prev) 2
    linked T v front rear node

/-- What `List::remove` does to `front`. -/
def removeFront (T : Node) (v : Nat → UInt8) (list node : Nat) : Nat → UInt8 :=
  let front := peek v list 2
  if front = node then
    let next := peek v (front + T.next) 2
    if front = next then poke v list 2 null else poke v list 2 next
  else v

/-- `List::remove`. -/
def remove (T : Node) (v : Nat → UInt8) (list node : Nat) : Nat → UInt8 :=
  let v := removeFront T v list node
  let nodePrev := peek v (node + T.prev) 2
  let nodeNext := peek v (node + T.next) 2
  poke (poke v (nodePrev + T.next) 2 nodeNext) (nodeNext + T.prev) 2 nodePrev

/-! ## Blocks -/

/-- `PersistentStorage::format`, which is `Meta::create` at address 0. -/
def format (cfg : Config) (v : Nat → UInt8) : Nat → UInt8 :=
  let v := blankMeta cfg v
  let v := header v metaSize ((cfg.deviceSize + 4294967296 - metaSize - heapNode.size) % 65536)
  add heapNode v 4 metaSize

/-- Which of two idle blocks is the better one, `minDiffNode` or `curIdle`. -/
def better (v : Nat → UInt8) (allocSize minDiffNode curIdle : Nat) : Nat :=
  if minDiffNode = null then
    if allocSize ≤ peek v curIdle 2 then curIdle else minDiffNode
  else if allocSize ≤ peek v curIdle 2 ∧ peek v curIdle 2 < peek v minDiffNode 2 then curIdle
  else minDiffNode

/-- The loop of `alloc`, `none` if it does not end in the given number of turns. -/
def bestFit (v : Nat → UInt8) (allocSize : Nat) : Nat → Nat → Nat → Option Nat
  | 0, _, _ => none
  | fuel + 1, curIdle, minDiffNode =>
    let minDiffNode := better v allocSize minDiffNode curIdle
    let curIdle := peek v (curIdle + heapNode.next) 2
    if curIdle ≠ peek v 4 2 then bestFit v allocSize fuel curIdle minDiffNode else some minDiffNode

/-- What `alloc` does with the block it has chosen. -/
def takeBlock (v : Nat → UInt8) (size minDiffNode : Nat) : Nat → UInt8 :=
  let minDiffNodeOriSize := peek v minDiffNode 2
  let v := poke v minDiffNode 2 size
  let v := remove heapNode v 4 minDiffNode
  let v := add heapNode v 6 minDiffNode
  let newIdleNode := (minDiffNode + heapNode.size + size) % 65536
  let v := header v newIdleNode ((minDiffNodeOriSize + 8589934592 - size - heapNode.size) % 65536)
  add heapNode v 4 newIdleNode

/-- `PersistentStorage::alloc`. -/
def alloc (cfg : Config) (fuel size : Nat) (v : Nat → UInt8) :
    Option (Except Exception Nat × (Nat → UInt8)) :=
  if peek v 0 4 ≠ cfg.magic.toNat then some (.error (.runtimeError "invalid meta"), v)
  else
    let allocSize := (size + heapNode.size) % 4294967296
    (bestFit v allocSize fuel (peek v 4 2) null).map fun minDiffNode =>
      if minDiffNode = null then (.error (.runtimeError "alloc failed"), v)
      else (.ok ((minDiffNode + heapNode.size) % 65536), takeBlock v size minDiffNode)

/-- A call of `alloc` that fails has changed nothing. -/
theorem alloc_error {cfg : Config} {fuel size : Nat} {v w : Nat → UInt8} {e : Exception}
    (h : alloc cfg fuel size v = some (.error e, w)) : w = v := by
  rw [alloc] at h
  split at h
  next =>
    obtain ⟨-, rfl⟩ := Prod.mk.inj (Option.some.inj h)
    rfl
  next =>
    obtain ⟨b, -, hb⟩ := Option.map_eq_some_iff.1 h
    split at hb
    next =>
      obtain ⟨-, rfl⟩ := Prod.mk.inj hb
      rfl
    next => cases (Prod.mk.inj hb).1

/-! ## Runs -/

/-- A call of `alloc`: the size that is requested, and what it returns or throws, `none` if
it does not end. -/
abbrev Call := UInt32 × Option (Except Exception Nat)

/-- The device, under calls of `alloc`. -/
def machine (cfg : Config) (fuel : Nat) : Machine (Nat → UInt8) UInt32 Call where
  step v size :=
    match alloc cfg fuel size.toNat v with
    | none => (v, [(size, none)])
    | some (r, w) => (w, [(size, some r)])

/-- The region that a call has returned: its address and the size that was requested. -/
def Call.region : Call → Option (Nat × Nat)
  | (size, some (.ok addr)) => some (addr, size.toNat)
  | _ => none

/-- The regions that the calls have returned. -/
def granted (tr : List Call) : List (Nat × Nat) := tr.filterMap Call.region

end ChargingPile.Eeprom.Direct
