import ChargingPile.Idx.Asset

/-!
# `Idx` objects

An `Idx` (`utilities/idx.hxx`) has an address; whether it has been accessed, and which buffer it
then got, is kept in the map `field` under the place of the `Idx` in memory. The objects here are
those of one type without members that are `Idx` themselves, and one owner has the device. The last
user of an object who gives it back goes through all other `Idx` (`mark`) to find those that cannot
be reached any more. With such a type there are none, but each `Idx` that counts as accessed is
accessed once more on the way.

`dispose` gives the object of an `Idx` back and leaves `current` as it is if the `Idx` was the last
user of the object: it still counts as accessed, with a buffer that is no longer shared. `Stale`
says that an `Idx` is in this state, and `Fresh` which events do not suffer from it.
-/

namespace ChargingPile.Idx

open Eeprom (Exception)

/-- The parameters of `Idx` and the size of the type of the objects. -/
structure Params extends Space where
  size : Nat
  size_pos : 0 < size

/-- `IdxAsset::Field`. -/
structure Field where
  owner : Bool
  current : Option Nat

/-- A program that throws in a destructor is terminated. -/
inductive Status
  | running
  | terminated
  | undefined
  deriving DecidableEq

/-- The `Idx` that are alive, given by their places in memory, with their addresses and their
fields. `ctx` says whether the thread has an owner. -/
structure State where
  asset : Asset
  alive : List Nat
  addr : Nat → Nat
  field : Nat → Option Field
  ctx : Bool
  status : Status

/-- What can be seen: the buffer an access yielded together with the one that is shared under the
address at that time, a write through an `Idx`, and an exception. -/
inductive Output
  | yielded (ptr : Nat) (shared : Option Nat)
  | wrote (addr off : Nat) (bytes : List UInt8)
  | threw (e : Exception)

/-- The operations on `Idx`. Those that may give an object back have the order in which
`unordered_map` goes through its entries. -/
inductive Event (T : Params)
  | ctx (b : Bool)
  | create (this addr : Nat)
  | copy (this other : Nat)
  | assign (this addr : Nat) (order : List Nat)
  | assignIdx (this other : Nat) (order : List Nat)
  | assignNull (this : Nat) (order : List Nat)
  | deref (this : Nat)
  | write (this off : Nat) (bytes : List UInt8) (fits : off + bytes.length ≤ T.size)
  | destroy (this : Nat) (order : List Nat)

/-! ## The code -/

namespace State
variable (T : Params)

/-- `field[this].current`, without an entry it is null. -/
def current (s : State) (this : Nat) : Option Nat := (s.field this).bind Field.current

def setField (s : State) (this : Nat) (f : Option Field) : State :=
  { s with field := Function.update s.field this f }

/-- `IdxAsset::getPtr` with the entry of the `Idx`, which is made at the first access. -/
def getPtr (s : State) (this : Nat) : Except Exception Nat × State :=
  let f := (s.field this).getD ⟨s.ctx, none⟩
  let r := s.asset.getPtr T.toSpace f.owner f.current (s.addr this) T.size
  match r.1 with
  | .ok ptr => (.ok ptr, { s with asset := r.2 }.setField this (some ⟨f.owner, some ptr⟩))
  | .error e => (.error e, { s with asset := r.2 }.setField this (some f))

/-- `Idx::getIdxFieldPtrs` of the roots, one after the other. There are no members to
go on with. -/
def mark (s : State) : List Nat → Option Exception × State
  | [] => (none, s)
  | this :: order =>
    match s.current this with
    | none => mark s order
    | some _ =>
      match s.getPtr T this with
      | (.ok _, s) => mark s order
      | (.error e, s) => (some e, s)

/-- `Idx::dispose`. -/
def dispose (s : State) (this : Nat) (order : List Nat) : Option Exception × State :=
  match s.field this with
  | none => (none, s)
  | some f =>
    match f.current with
    | none => (none, s)
    | some _ =>
      let r := s.asset.dispose (s.addr this) T.size
      match r.1 with
      | .ignored => (none, s)
      | .released => (none, { s with asset := r.2 }.setField this (some ⟨f.owner, none⟩))
      | .last _ => mark T { s with asset := r.2 } (order.filter (· ≠ this))
      | .undefined => (none, { s with status := .undefined })

def setAddr (s : State) (this addr : Nat) : State :=
  { s with addr := Function.update s.addr this addr }

/-- What `operator*` and `operator->` give. -/
def yielded (s : State) (this ptr : Nat) : Output :=
  .yielded ptr ((s.asset.data (s.addr this)).map Data.current)

/-- The constructor from an address. -/
def create (s : State) (this addr : Nat) : State :=
  { s.setAddr this addr with alive := this :: s.alive }

/-- The copy constructor. When it throws there is no object, but the entry remains. -/
def copy (s : State) (this other : Nat) : State × List Output :=
  let s' := s.create this (s.addr other)
  match s'.current other with
  | none => (s', [])
  | some _ =>
    match s'.getPtr T this with
    | (.ok _, s') => (s', [])
    | (.error e, s') => ({ s' with alive := s.alive }, [.threw e])

/-- `operator=` with an address, and with null, where the addresses are not compared. -/
def assign (s : State) (this addr : Nat) (order : List Nat) : State × List Output :=
  match s.dispose T this order with
  | (none, s) => (s.setAddr this addr, [])
  | (some e, s) => (s, [.threw e])

/-- `operator=` with another `Idx`. -/
def assignIdx (s : State) (this other : Nat) (order : List Nat) : State × List Output :=
  match s.dispose T this order with
  | (some e, s) => (s, [.threw e])
  | (none, s) =>
    let s := s.setAddr this (s.addr other)
    match s.current other with
    | none => (s, [])
    | some _ =>
      match s.getPtr T this with
      | (.ok _, s) => (s, [])
      | (.error e, s) => (s, [.threw e])

def deref (s : State) (this : Nat) : State × List Output :=
  match s.getPtr T this with
  | (.ok ptr, s) => (s, [s.yielded this ptr])
  | (.error e, s) => (s, [.threw e])

/-- A write through `operator*` or `operator->`. -/
def write (s : State) (this off : Nat) (bytes : List UInt8) : State × List Output :=
  match s.getPtr T this with
  | (.ok ptr, s) =>
    ({ s with asset := s.asset.write ptr off bytes },
      [s.yielded this ptr, .wrote (s.addr this) off bytes])
  | (.error e, s) => (s, [.threw e])

/-- The destructor. -/
def destroy (s : State) (this : Nat) (order : List Nat) : State :=
  match s.dispose T this order with
  | (none, s) => { s with alive := s.alive.erase this }.setField this none
  | (some _, s) => { s with status := .terminated }

/-- One operation. Only `Idx` that are alive are used, and only others are constructed. -/
def step (s : State) : Event T → State × List Output
  | .ctx b => ({ s with ctx := b }, [])
  | .create this addr => (if this ∈ s.alive then s else s.create this addr, [])
  | .copy this other =>
    if this ∈ s.alive ∨ other ∉ s.alive then (s, []) else s.copy T this other
  | .assign this addr order =>
    if this ∉ s.alive ∨ s.addr this = addr then (s, []) else s.assign T this addr order
  | .assignIdx this other order =>
    if this ∉ s.alive ∨ other ∉ s.alive ∨ s.addr this = s.addr other then (s, [])
    else s.assignIdx T this other order
  | .assignNull this order => if this ∉ s.alive then (s, []) else s.assign T this T.null order
  | .deref this => if this ∉ s.alive then (s, []) else s.deref T this
  | .write this off bytes _ => if this ∉ s.alive then (s, []) else s.write T this off bytes
  | .destroy this order => (if this ∉ s.alive then s else s.destroy T this order, [])

end State

/-- The program, as long as it runs. -/
def system (T : Params) : Machine State (Event T) Output where
  step s e := if s.status = .running then s.step T e else (s, [])

/-- Before the first `Idx`. -/
def State.init (T : Params) (device : Nat → UInt8) : State where
  asset := Asset.init T.toSpace device
  alive := []
  addr := fun _ => T.null
  field := fun _ => none
  ctx := false
  status := .running

/-! ## Coherence -/

/-- The device with everything written on it that was written through an `Idx`, at its address. -/
def memory (device : Nat → UInt8) : List Output → Nat → UInt8
  | [] => device
  | .wrote addr off bytes :: tr => memory (program device (addr + off) bytes) tr
  | .yielded _ _ :: tr => memory device tr
  | .threw _ :: tr => memory device tr

/-- The count recorded for an address. -/
def Asset.recorded (a : Asset) (addr : Nat) : Nat := Idx.deref a.count (a.range.idxOf addr)

/-- How many `Idx` that are alive have the address and the buffer. -/
def State.users (s : State) (addr ptr : Nat) : Nat :=
  s.alive.countP fun this => s.addr this = addr ∧ s.current this = some ptr

/-- The program runs, the count recorded for each object in memory is the number of its users,
every access has yielded the object that is in memory under the address, and without `Idx` the
device has everything that was written. -/
structure Coherent (device : Nat → UInt8) (tr : List Output) (s : State) : Prop where
  running : s.status = .running
  counts : ∀ addr d, s.asset.data addr = some d → s.asset.recorded addr = s.users addr d.current
  yields : ∀ ptr shared, Output.yielded ptr shared ∈ tr → shared = some ptr
  stored : s.alive = [] → s.asset.device = memory device tr

/-- The `Idx` counts as accessed, but not with the buffer of the object in memory. -/
def Stale (s : State) (this : Nat) : Prop :=
  ∃ ptr, s.current this = some ptr ∧ (s.asset.data (s.addr this)).map Data.current ≠ some ptr

/-- The `Idx` can be accessed: it is not stale, or it gets a new buffer. -/
def Accessible (T : Params) (s : State) (this : Nat) : Prop :=
  this ∈ s.alive → Stale s this → s.addr this ≠ T.null → ¬ s.asset.Present (s.addr this) T.size

/-- The address is the last bound of the table, and `dispose` takes what is behind it
for an object. -/
def PastEnd (T : Params) (s : State) (this : Nat) : Prop :=
  s.addr this = T.max + 1 ∧ s.asset.range.length = T.max + 1 + T.size

/-- The `Idx` can be given back: it is not stale, or no two `Idx` use the object
under its address. -/
def Disposable (T : Params) (s : State) (this : Nat) : Prop :=
  this ∈ s.alive → Stale s this →
    (∀ d, s.asset.data (s.addr this) = some d → s.users (s.addr this) d.current ≤ 1) ∧
      ¬ PastEnd T s this

/-- Two objects are the same or do not overlap. -/
def Params.Apart (T : Params) (x y : Nat) : Prop := x = y ∨ x + T.size ≤ y ∨ y + T.size ≤ x

/-- The address of the `Idx` is in the space, and its object overlaps none that is in use. -/
def Free (T : Params) (s : State) (used : Nat → Prop) (this : Nat) : Prop :=
  s.addr this ≠ T.null ∧ s.addr this + T.size ≤ T.max + 1 ∧
    ∀ addr, used addr → T.Apart (s.addr this) addr

/-- The `Idx` of a pass that count as accessed can be accessed once more, one after the other: they
are free, and their objects do not overlap one another. -/
def Passable (T : Params) (s : State) (used : Nat → Prop) (order : List Nat) : Prop :=
  (∀ this ∈ order, s.current this ≠ none → Free T s used this) ∧
    order.Pairwise fun this that =>
      s.current this ≠ none → s.current that ≠ none → T.Apart (s.addr this) (s.addr that)

/-- The `Idx` counts as accessed, and the object under its address has one user. -/
def State.LastUser (s : State) (this : Nat) : Prop :=
  s.current this ≠ none ∧
    ∃ d, s.asset.data (s.addr this) = some d ∧ s.users (s.addr this) d.current = 1

/-- The `Idx` can be destroyed: if its object goes back to the device, the other `Idx`
can be accessed. -/
def Destructible (T : Params) (s : State) (this : Nat) (order : List Nat) : Prop :=
  this ∈ s.alive → s.LastUser this →
    Passable T s (fun addr => addr ≠ s.addr this ∧ (s.asset.data addr).isSome)
      (order.filter (· ≠ this))

/-- The event does not suffer from an `Idx` that is stale. -/
def Fresh (T : Params) (s : State) (e : Event T) : Prop :=
  s.status = .running →
    match e with
    | .assign this addr _ => s.addr this ≠ addr → Disposable T s this
    | .assignIdx this other _ => other ∈ s.alive → s.addr this ≠ s.addr other → Disposable T s this
    | .assignNull this _ => Disposable T s this
    | .deref this => Accessible T s this
    | .write this _ _ _ => Accessible T s this
    | .destroy this order => Disposable T s this ∧ Destructible T s this order
    | _ => True

end ChargingPile.Idx
