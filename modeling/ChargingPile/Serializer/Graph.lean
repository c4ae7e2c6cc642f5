import ChargingPile.Lib.Memory
import ChargingPile.Lib.StateReader
import ChargingPile.Serializer

/-!
# Serializing object graphs

Objects that are held by `shared_ptr` or `weak_ptr` are numbered in the order in which
`Serializer::build` meets them, starting with 1. A pointer is written as the number of its object,
and at the first meeting the object's body follows. `Deserializer::parse` makes an object when it
meets a number for the first time, and enters it into its table before it reads the body, so that
pointers back to an object under construction find it.

The objects of a graph may hold each other in cycles, so both functions recurse through pointers
with a given amount of fuel. `Graph.round_trip` says that fuel for each object is enough, that each
body is written once, and that an isomorphic graph is read back, provided that no container has
more than 65535 elements.
-/

namespace ChargingPile.Graph

/-- Types with pointers in them, where `N` are the types of the objects that are pointed to. A map
has plain keys, and an array is written like the fields of an aggregate. A weak pointer is given by
what `lock` returns, so an expired one is null. -/
inductive PTy (N : Type) : Kind → Type → Type 1
  | plain {α : Type} (t : Ty .value α) : PTy N .value α
  | shared (n : N) : PTy N .value Addr
  | weak (n : N) : PTy N .value Addr
  | nil : PTy N .fields Unit
  | field {α β : Type} (t : PTy N .value α) (ts : PTy N .fields β) : PTy N .fields (α × β)
  | aggregate {α β : Type} (tie : α ≃ β) (init : α) (ts : PTy N .fields β) : PTy N .value α
  | cont {α : Type} (t : PTy N .value α) : PTy N .value (List α)
  | optional {α : Type} (t : PTy N .value α) : PTy N .value (Option α)
  | map {κ β : Type} (c : Less κ) (key : Ty .value κ) (mapped : PTy N .value β) :
      PTy N .value (SortedMap c β)

/-- The types of the objects: the bodies, and the one that `make_shared` starts with. -/
structure Schema (N : Type) where
  Body : N → Type
  init : ∀ n, Body n
  ty : ∀ n, PTy N .value (Body n)

/-- The objects in memory, by type and address. -/
abbrev Heap {N : Type} (S : Schema N) : Type := (n : N) → Addr → Option (S.Body n)

variable {N : Type} {S : Schema N}

/-! ## Serializer -/

/-- `Serializer`: its tables, the bytes that it has written, and the objects whose bodies it has
begun to write. -/
structure Serializer where
  storedPtr : Std.TreeMap Addr UInt8 := (∅ : Std.TreeMap Addr UInt8).insert 0 0
  next : UInt8 := 1
  bytes : List UInt8 := []
  bodies : List Addr := []

namespace Serializer

/-- `OStream::write`. -/
def write (s : Serializer) (l : List UInt8) : Serializer := { s with bytes := s.bytes ++ l }

/-- An object that was not met before gets the next number, and its body is due. -/
def enter (s : Serializer) (a : Addr) : Serializer where
  storedPtr := s.storedPtr.insert a s.next
  next := s.next + 1
  bytes := s.bytes ++ Scalar.uint8.write s.next
  bodies := s.bodies ++ [a]

/-- `build` of a pointer, where `content` builds a body. -/
def pointer (content : N → Addr → Serializer → Option Serializer) (n : N) (a : Addr)
    (s : Serializer) : Option Serializer :=
  match s.storedPtr[a]? with
  | some idx => some (s.write (Scalar.uint8.write idx))
  | none => content n a (s.enter a)

/-- `build`, where `node` builds a pointer. -/
def buildWith (node : N → Addr → Serializer → Option Serializer) {k : Kind} {α : Type} :
    PTy N k α → α → Serializer → Option Serializer
  | .plain t, a, s => some (s.write (ChargingPile.Serializer.build t a))
  | .shared n, a, s => node n a s
  | .weak n, a, s => node n a s
  | .nil, _, s => some s
  | .field t ts, (a, b), s => (buildWith node t a s).bind (buildWith node ts b)
  | .aggregate tie _ ts, a, s => buildWith node ts (tie a) s
  | .cont t, l, s => l.foldlM (fun s a => buildWith node t a s)
      (s.write (ChargingPile.Serializer.buildSize l.length))
  | .optional _, none, s => some (s.write (Scalar.bool.write false))
  | .optional t, some a, s => buildWith node t a (s.write (Scalar.bool.write true))
  | .map _ key mapped, m, s => m.entries.foldlM
      (fun s e => buildWith node mapped e.2 (s.write (ChargingPile.Serializer.build key e.1)))
      (s.write (ChargingPile.Serializer.buildSize m.entries.length))

/-- `build` of a pointer to an object in `H`, with fuel for nested bodies. -/
def buildPtr (H : Heap S) : Nat → N → Addr → Serializer → Option Serializer
  | 0 => pointer fun _ _ _ => none
  | fuel + 1 => pointer fun n a s => (H n a).bind fun v => buildWith (buildPtr H fuel) (S.ty n) v s

end Serializer

/-! ## Deserializer -/

/-- `Deserializer`: its table of the objects it holds, and the memory with the objects it made. -/
structure Deserializer (S : Schema N) where
  ptrs : Std.TreeMap UInt8 Addr := ∅
  allocated : List Addr := []
  heap : Heap S := fun _ _ => none

namespace Deserializer

open ChargingPile.Deserializer (checked parseScalar parseSize)

/-- A reader of the deserializer. -/
abbrev Parse (S : Schema N) (α : Type) : Type := StateReader UInt8 (Deserializer S) α

variable {α : Type}

/-- The check that `parse` starts with. -/
def check (init : α) (p : Parse S α) : Parse S α := fun d => checked (some (init, d)) (p d)

section
variable [DecidableEq N]

/-- `*t = ...` -/
def store (d : Deserializer S) (n : N) (b : Addr) (v : S.Body n) : Deserializer S :=
  { d with heap := Function.update d.heap n (Function.update (d.heap n) b (some v)) }

/-- A new object is made, by `make_shared`, and entered into the table. -/
def register (d : Deserializer S) (idx : UInt8) (n : N) (b : Addr) : Deserializer S :=
  { d with ptrs := d.ptrs.insert idx b, allocated := d.allocated ++ [b] }.store n b (S.init n)

/-- The object of a number. One that is new is made, and `content` reads its body. -/
def follow (A : Allocator) (content : (n : N) → Parse S (S.Body n)) (n : N) (idx : UInt8) :
    Parse S Addr := fun d =>
  if idx = 0 then StateReader.pure 0 d
  else match d.ptrs[idx]? with
    | some b => StateReader.pure b d
    | none =>
      let b := A.make d.allocated
      (content n).bind (fun v d => StateReader.pure b (d.store n b v)) (d.register idx n b)

/-- `parse` of a pointer, where `content` reads a body. -/
def pointer (A : Allocator) (content : (n : N) → Parse S (S.Body n)) (n : N) : Parse S Addr :=
  check 0 ((StateReader.lift (parseScalar .uint8)).bind (follow A content n))

end

/-- `parse`, where `node` reads a pointer. -/
def parseWith (node : N → Parse S Addr) {k : Kind} {α : Type} : PTy N k α → Parse S α
  | .plain t => .lift (ChargingPile.Deserializer.parse t)
  | .shared n => node n
  | .weak n => node n
  | .nil => .pure ()
  | .field t ts => (parseWith node t).bind fun a => (parseWith node ts).bind fun b => .pure (a, b)
  | .aggregate tie init ts => check init ((parseWith node ts).bind fun b => .pure (tie.symm b))
  | .cont t => check [] ((StateReader.lift parseSize).bind fun size =>
      (parseWith node t).loop (fun l a => l ++ [a]) size [])
  | .optional t => check none ((StateReader.lift (parseScalar .bool)).bind fun hasValue =>
      if hasValue then (parseWith node t).bind fun a => .pure (some a) else .pure none)
  | .map _ key mapped => check .empty ((StateReader.lift parseSize).bind fun size =>
      ((StateReader.lift (ChargingPile.Deserializer.parse key)).bind fun k =>
        (parseWith node mapped).bind fun v => .pure (k, v)).loop
          (fun m e => m.assign e.1 e.2) size .empty)

/-- `parse` of a pointer, with fuel for nested bodies. -/
def parsePtr [DecidableEq N] (A : Allocator) : Nat → N → Parse S Addr
  | 0 => pointer A fun _ => .fail
  | fuel + 1 => pointer A fun n => parseWith (parsePtr A fuel) (S.ty n)

end Deserializer

end ChargingPile.Graph
