import ChargingPile.Lib.SortedMap
import ChargingPile.Lib.Wire
import Mathlib.Logic.Equiv.Defs

/-!
# Serializing plain data

`Serializer::build` and `Deserializer::parse` (`utilities/serializer.hxx`,
`utilities/deserializer.hxx`) are overloaded over types: an arithmetic or enum type is written as
its object representation, an aggregate as its fields in order, a string, vector, list or map as
the number of its elements in 16 bits and then the elements, an optional as a flag and then its
value. The types are nested without bound, so a type is itself a value here, a `Ty`, and both
functions are recursive over it.

A container of more than 65535 elements loses the upper bits of its size. All other data is read
back from its bytes, whatever follows them (`deserialize_serialize`).
-/

namespace ChargingPile

/-! ## Types -/

/-- An arithmetic or enum type: its object representation of `size` bytes, read as a number. A
value is determined by its representation, and `T{}` is represented by zero. -/
structure Scalar (α : Type) where
  size : Nat
  toBits : α → Nat
  ofBits : Nat → α
  toBits_lt : ∀ a, toBits a < 256 ^ size
  ofBits_toBits : ∀ a, ofBits (toBits a) = a

namespace Scalar

/-- `rt_uint8_t`, and `char` with it. -/
def uint8 : Scalar UInt8 where
  size := 1
  toBits := UInt8.toNat
  ofBits := UInt8.ofNat
  toBits_lt := UInt8.toNat_lt
  ofBits_toBits _ := UInt8.ofNat_toNat

/-- `rt_uint16_t`. -/
def uint16 : Scalar UInt16 where
  size := 2
  toBits := UInt16.toNat
  ofBits := UInt16.ofNat
  toBits_lt := UInt16.toNat_lt
  ofBits_toBits _ := UInt16.ofNat_toNat

/-- `int`. -/
def int : Scalar Int32 where
  size := 4
  toBits n := n.toUInt32.toNat
  ofBits n := (UInt32.ofNat n).toInt32
  toBits_lt n := n.toUInt32.toNat_lt
  ofBits_toBits n := by simp

/-- `bool`. -/
def bool : Scalar Bool where
  size := 1
  toBits := Bool.toNat
  ofBits n := UInt8.ofNat n != 0
  toBits_lt b := by cases b <;> decide
  ofBits_toBits b := by cases b <;> rfl

end Scalar

/-- `std::less` of `rt_uint8_t`. -/
def Less.uint8 : Less UInt8 where
  lt a b := a < b
  irrefl a := by simp
  trans hab hbc := by
    simp only [decide_eq_true_eq] at hab hbc ⊢
    exact UInt8.lt_trans hab hbc

/-- A type, or the fields of an aggregate. -/
inductive Kind
  | value | fields

/-- The types of plain data. An aggregate is tied to the tuple of its fields, as `boost::pfr` does,
and comes with what `T{}` is, which depends on its member initialisers. -/
inductive Ty : Kind → Type → Type 1
  | scalar {α : Type} (s : Scalar α) : Ty .value α
  | nil : Ty .fields Unit
  | field {α β : Type} (t : Ty .value α) (ts : Ty .fields β) : Ty .fields (α × β)
  | aggregate {α β : Type} (tie : α ≃ β) (init : α) (ts : Ty .fields β) : Ty .value α
  | cont {α : Type} (t : Ty .value α) : Ty .value (List α)
  | optional {α : Type} (t : Ty .value α) : Ty .value (Option α)
  | map {κ β : Type} (c : Less κ) (key : Ty .value κ) (mapped : Ty .value β) :
      Ty .value (SortedMap c β)

namespace Ty

variable {α : Type}

/-- `std::vector`. -/
def vector (t : Ty .value α) : Ty .value (List α) := cont t

/-- `std::list`. -/
def list (t : Ty .value α) : Ty .value (List α) := cont t

/-- `std::string`. -/
def string : Ty .value (List UInt8) := cont (scalar .uint8)

end Ty

/-! ## Serializer and deserializer -/

namespace Scalar

variable {α : Type}

/-- `OStream::write`. -/
def write (s : Scalar α) (a : α) : List UInt8 := leBytes s.size (s.toBits a)

/-- `IStream::read`. -/
def read (s : Scalar α) : Reader UInt8 α := .read s.size fun l => .done (s.ofBits (ofLeBytes l))

theorem run_read_write (s : Scalar α) (a : α) (rest : List UInt8) :
    s.read.run (s.write a ++ rest) = some (a, rest) := by
  have hlen : (s.write a).length = s.size := length_leBytes ..
  have hval : s.ofBits (ofLeBytes (s.write a)) = a := by
    rw [write, ofLeBytes_leBytes, Nat.mod_eq_of_lt (s.toBits_lt a), s.ofBits_toBits]
  rw [read, Reader.run_read hlen, hval]
  rfl

end Scalar

/-- `build<prefix_len_t>(t.size())`. -/
def Serializer.buildSize (size : Nat) : List UInt8 := Scalar.uint16.write (UInt16.ofNat size)

/-- `Serializer::build`: the bytes it writes. -/
def Serializer.build {k : Kind} {α : Type} : Ty k α → α → List UInt8
  | .scalar s, a => s.write a
  | .nil, _ => []
  | .field t ts, (a, b) => build t a ++ build ts b
  | .aggregate tie _ ts, a => build ts (tie a)
  | .cont t, l => buildSize l.length ++ l.flatMap (build t)
  | .optional _, none => Scalar.bool.write false
  | .optional t, some a => Scalar.bool.write true ++ build t a
  | .map _ key mapped, m =>
    buildSize m.entries.length ++ m.entries.flatMap fun e => build key e.1 ++ build mapped e.2

namespace Deserializer

variable {α : Type}

/-- The check that every overload of `parse` starts with: an invalid stream gives `T{}`. -/
def checked (init : α) (r : Reader UInt8 α) : Reader UInt8 α :=
  .ask fun invalid => if invalid then .done init else r

@[simp] theorem run_checked (init : α) (r : Reader UInt8 α) (l : List UInt8) :
    (checked init r).run l = r.run l := rfl

/-- `parse` of an arithmetic or enum type. -/
def parseScalar (s : Scalar α) : Reader UInt8 α := checked (s.ofBits 0) s.read

theorem run_parseScalar (s : Scalar α) (a : α) (rest : List UInt8) :
    (parseScalar s).run (s.write a ++ rest) = some (a, rest) :=
  s.run_read_write a rest

/-- `parse<prefix_len_t>()`. -/
def parseSize : Reader UInt8 Nat := (parseScalar .uint16).bind fun size => .done size.toNat

theorem run_parseSize {size : Nat} (h : size ≤ 65535) (rest : List UInt8) :
    parseSize.run (Serializer.buildSize size ++ rest) = some (size, rest) := by
  rw [parseSize, Serializer.buildSize, Reader.run_bind_of_run (run_parseScalar ..),
    UInt16.toNat_ofNat_of_lt' (Nat.lt_succ_of_le h)]
  rfl

/-- `Deserializer::parse`. The elements of a container take the places of the `value_type{}` that
it was made of. -/
def parse {k : Kind} {α : Type} : Ty k α → Reader UInt8 α
  | .scalar s => parseScalar s
  | .nil => .done ()
  | .field t ts => (parse t).bind fun a => (parse ts).bind fun b => .done (a, b)
  | .aggregate tie init ts => checked init ((parse ts).bind fun b => .done (tie.symm b))
  | .cont t => checked [] (parseSize.bind fun size =>
      .iterate size (fun l => (parse t).bind fun a => .done (l ++ [a])) [])
  | .optional t => checked none ((parseScalar .bool).bind fun hasValue =>
      if hasValue then (parse t).bind fun a => .done (some a) else .done none)
  | .map _ key mapped => checked .empty (parseSize.bind fun size =>
      .iterate size (fun m => (parse key).bind fun k => (parse mapped).bind fun v =>
        .done (m.assign k v)) .empty)

end Deserializer

/-! ## The round trip -/

namespace Ty

/-- All containers have at most 65535 elements. -/
def Fits {k : Kind} {α : Type} : Ty k α → α → Prop
  | scalar _, _ => True
  | nil, _ => True
  | field t ts, (a, b) => t.Fits a ∧ ts.Fits b
  | aggregate tie _ ts, a => ts.Fits (tie a)
  | cont t, l => l.length ≤ 65535 ∧ ∀ a ∈ l, t.Fits a
  | optional t, o => ∀ a ∈ o, t.Fits a
  | map _ key mapped, m =>
    m.entries.length ≤ 65535 ∧ ∀ e ∈ m.entries, key.Fits e.1 ∧ mapped.Fits e.2

instance decidableFits {k : Kind} {α : Type} : (t : Ty k α) → (a : α) → Decidable (t.Fits a)
  | scalar _, _ => .isTrue trivial
  | nil, _ => .isTrue trivial
  | field t ts, (a, b) =>
    have := decidableFits t a
    have := decidableFits ts b
    inferInstanceAs (Decidable (_ ∧ _))
  | aggregate tie _ ts, a => decidableFits ts (tie a)
  | cont t, l =>
    have := fun a => decidableFits t a
    inferInstanceAs (Decidable (l.length ≤ 65535 ∧ ∀ a ∈ l, t.Fits a))
  | optional t, o =>
    have := fun a => decidableFits t a
    inferInstanceAs (Decidable (∀ a ∈ o, t.Fits a))
  | map _ key mapped, m =>
    have := fun a => decidableFits key a
    have := fun a => decidableFits mapped a
    inferInstanceAs (Decidable
      (m.entries.length ≤ 65535 ∧ ∀ e ∈ m.entries, key.Fits e.1 ∧ mapped.Fits e.2))

end Ty

namespace Deserializer

/-- By induction on the type. A container and a map are read by a loop whose rounds are the
induction hypotheses, and what follows the bytes of one element is arbitrary there. -/
theorem run_parse {k : Kind} {α : Type} (t : Ty k α) {a : α} (h : t.Fits a) (rest : List UInt8) :
    (parse t).run (Serializer.build t a ++ rest) = some (a, rest) := by
  induction t generalizing rest with
  | scalar s => exact run_parseScalar s a rest
  | nil => rfl
  | field t ts ih ihs =>
    obtain ⟨a, b⟩ := a
    rw [parse, Serializer.build, List.append_assoc, Reader.run_bind_of_run (ih h.1 _),
      Reader.run_bind_of_run (ihs h.2 _)]
    rfl
  | aggregate tie init ts ih =>
    rw [parse, Serializer.build, run_checked, Reader.run_bind_of_run (ih h _),
      tie.symm_apply_apply]
    rfl
  | cont t ih =>
    have hround : ∀ b ∈ a, ∀ l rest, ((parse t).bind fun b => .done (l ++ [b])).run
        (Serializer.build t b ++ rest) = some (l ++ [b], rest) := by
      intro b hb l rest
      rw [Reader.run_bind_of_run (ih (h.2 b hb) rest)]
      rfl
    rw [parse, Serializer.build, run_checked, List.append_assoc,
      Reader.run_bind_of_run (run_parseSize h.1 _), Reader.run_iterate hround,
      List.foldl_append_eq_append, ← List.flatMap_def, List.flatMap_singleton', List.nil_append]
  | optional t ih =>
    cases a with
    | none => rfl
    | some a =>
      rw [parse, Serializer.build, run_checked, List.append_assoc,
        Reader.run_bind_of_run (run_parseScalar ..), if_pos rfl,
        Reader.run_bind_of_run (ih (h a rfl) rest)]
      rfl
  | map c key mapped ihk ihm =>
    have hround : ∀ e ∈ a.entries, ∀ (m : SortedMap c _) rest,
        ((parse key).bind fun k => (parse mapped).bind fun v => .done (m.assign k v)).run
          ((Serializer.build key e.1 ++ Serializer.build mapped e.2) ++ rest) =
        some (m.assign e.1 e.2, rest) := by
      intro e he m rest
      rw [List.append_assoc, Reader.run_bind_of_run (ihk (h.2 e he).1 _),
        Reader.run_bind_of_run (ihm (h.2 e he).2 rest)]
      rfl
    rw [parse, Serializer.build, run_checked, List.append_assoc,
      Reader.run_bind_of_run (run_parseSize h.1 _), Reader.run_iterate hround,
      SortedMap.foldl_assign]

/-- **Round trip.** A value of plain data whose containers have at most 65535 elements is read back
from its bytes, and the reader stops right behind them. -/
theorem deserialize_serialize {α : Type} (t : Ty .value α) (a : α) (h : t.Fits a)
    (rest : List UInt8) :
    (parse t).run (Serializer.build t a ++ rest) = some (a, rest) :=
  run_parse t h rest

/-- A structure of a string, an optional list and a map from bytes to vectors. -/
theorem deserialize_serialize_nested :
    (parse (.aggregate (Equiv.refl _) ([], none, .empty, ())
      (.field .string (.field (.optional (.list (.scalar .int)))
        (.field (.map .uint8 (.scalar .uint8) (.vector (.scalar .uint16))) .nil))))).run
      (Serializer.build (.aggregate (Equiv.refl _) ([], none, .empty, ())
        (.field .string (.field (.optional (.list (.scalar .int)))
          (.field (.map .uint8 (.scalar .uint8) (.vector (.scalar .uint16))) .nil))))
        ([0x61, 0x62], some [-1, 300], .assign (.assign .empty 9 [1000, 2]) 4 [], ()) ++ [0xa5]) =
    some (([0x61, 0x62], some [-1, 300], .assign (.assign .empty 9 [1000, 2]) 4 [], ()), [0xa5]) :=
  deserialize_serialize _ _ (by decide) _

end Deserializer

/-! ## Types of a fixed size -/

/-- The number of bytes of a type's values, if it is the same for all of them: there are no
containers and no optionals in the type. -/
def Ty.size {k : Kind} {α : Type} : Ty k α → Option Nat
  | .scalar s => some s.size
  | .nil => some 0
  | .field t ts => t.size.bind fun n => ts.size.map (n + ·)
  | .aggregate _ _ ts => ts.size
  | .cont _ | .optional _ | .map _ _ _ => none

theorem Ty.size_field {α β : Type} {t : Ty .value α} {ts : Ty .fields β} {n : Nat}
    (h : (Ty.field t ts).size = some n) :
    ∃ i j, t.size = some i ∧ ts.size = some j ∧ n = i + j := by
  obtain ⟨i, hi, h⟩ := Option.bind_eq_some_iff.1 h
  obtain ⟨j, hj, rfl⟩ := Option.map_eq_some_iff.1 h
  exact ⟨i, j, hi, hj, rfl⟩

theorem Serializer.length_build {k : Kind} {α : Type} {t : Ty k α} {n : Nat} (h : t.size = some n)
    (a : α) : (build t a).length = n := by
  induction t generalizing n with
  | scalar s => exact (length_leBytes ..).trans (Option.some.inj h)
  | nil => exact Option.some.inj h
  | field t ts ih ihs =>
    obtain ⟨i, j, hi, hj, rfl⟩ := Ty.size_field h
    rw [build, List.length_append, ih hi, ihs hj]
  | aggregate tie init ts ih => exact ih h (tie a)
  | cont | optional | map => cases h

/-- Any bytes of the right number are read as a value. -/
theorem Deserializer.run_parse_of_size {k : Kind} {α : Type} {t : Ty k α} {n : Nat}
    (h : t.size = some n) {l : List UInt8} (hl : l.length = n) (rest : List UInt8) :
    ∃ a, (parse t).run (l ++ rest) = some (a, rest) := by
  induction t generalizing n l rest with
  | scalar s =>
    exact ⟨s.ofBits (ofLeBytes l), Reader.run_read (hl.trans (Option.some.inj h).symm)
      (fun l => .done (s.ofBits (ofLeBytes l))) rest⟩
  | nil =>
    obtain rfl : l = [] := List.eq_nil_of_length_eq_zero (hl.trans (Option.some.inj h).symm)
    exact ⟨(), rfl⟩
  | field t ts ih ihs =>
    obtain ⟨i, j, hi, hj, rfl⟩ := Ty.size_field h
    obtain ⟨a, ha⟩ := ih hi (l := l.take i) (by simp [hl]) (l.drop i ++ rest)
    obtain ⟨b, hb⟩ := ihs hj (l := l.drop i) (by simp [hl]) rest
    rw [← List.append_assoc, List.take_append_drop] at ha
    refine ⟨(a, b), ?_⟩
    rw [parse, Reader.run_bind_of_run ha, Reader.run_bind_of_run hb]
    rfl
  | aggregate tie init ts ih =>
    obtain ⟨b, hb⟩ := ih h hl rest
    refine ⟨tie.symm b, ?_⟩
    rw [parse, run_checked, Reader.run_bind_of_run hb]
    rfl
  | cont | optional | map => cases h

/-! ## In memory -/

/-- `MemoryIOStream`. -/
structure MemoryIOStream where
  buf : List UInt8 := []

namespace MemoryIOStream

/-- Taking the front of an empty `std::deque`, which is undefined. -/
inductive Undefined
  | front

/-- `MemoryIOStream::readData`. -/
def readData : Nat → EStateM Undefined MemoryIOStream (List UInt8)
  | 0 => pure []
  | len + 1 => do
    match (← get).buf with
    | [] => throw .front
    | b :: buf =>
      set (⟨buf⟩ : MemoryIOStream)
      return b :: (← readData len)

/-- `MemoryIOStream::writeData`. -/
def writeData (s : MemoryIOStream) (data : List UInt8) : MemoryIOStream := ⟨s.buf ++ data⟩

/-- `IStream::isInvalid`, which the stream does not override. -/
def isInvalid : EStateM Undefined MemoryIOStream Bool := pure false

/-- The stream holds the bytes `l`. -/
def Serves (l : List UInt8) (s : MemoryIOStream) : Prop := s.buf = l

theorem Serves.readData {n : Nat} {l : List UInt8} {s : MemoryIOStream} (hs : Serves l s)
    (h : n ≤ l.length) :
    ∃ s', (readData n).run s = .ok (l.take n) s' ∧ Serves (l.drop n) s' := by
  induction n generalizing l s with
  | zero => exact ⟨s, rfl, hs⟩
  | succ n ih =>
    obtain ⟨-⟩ : s.buf = l := hs
    obtain ⟨buf⟩ := s
    cases buf with
    | nil => exact absurd h (Nat.not_succ_le_zero n)
    | cons b buf =>
      obtain ⟨s', hread, hs'⟩ := ih (l := buf) (s := ⟨buf⟩) rfl (Nat.le_of_succ_le_succ h)
      refine ⟨s', ?_, hs'⟩
      simp only [MemoryIOStream.readData, EStateM.run_bind, EStateM.run_get, EStateM.run_set,
        hread, EStateM.run_pure]
      rfl

/-- A stream with too few bytes is read beyond its end. -/
theorem Serves.readData_short {n : Nat} {l : List UInt8} {s : MemoryIOStream} (hs : Serves l s)
    (h : l.length < n) : ∃ s', (MemoryIOStream.readData n).run s = .error .front s' ∧
    Serves [] s' := by
  induction n generalizing l s with
  | zero => exact absurd h (Nat.not_lt_zero _)
  | succ n ih =>
    obtain ⟨-⟩ : s.buf = l := hs
    obtain ⟨buf⟩ := s
    cases buf with
    | nil => exact ⟨⟨[]⟩, rfl, rfl⟩
    | cons b buf =>
      obtain ⟨s', hread, hs'⟩ := ih (l := buf) (s := ⟨buf⟩) rfl (Nat.lt_of_succ_lt_succ h)
      refine ⟨s', ?_, hs'⟩
      simp only [MemoryIOStream.readData, EStateM.run_bind, EStateM.run_get, EStateM.run_set,
        hread]

/-- What is serialized into an empty stream is deserialized from it, with later writes left. -/
theorem parse_written {α : Type} (t : Ty .value α) {a : α} (h : t.Fits a) (data : List UInt8) :
    ((Deserializer.parse t).interp readData isInvalid).run
      ((writeData {} (Serializer.build t a)).writeData data) = .ok a ⟨data⟩ := by
  have hserves : Serves (Serializer.build t a ++ data)
      ((writeData {} (Serializer.build t a)).writeData data) := rfl
  obtain ⟨⟨buf⟩, hparse, ⟨-⟩⟩ := Reader.interp_of_run (fun _ _ _ hs hn => hs.readData hn)
    (fun _ _ _ => rfl) (Deserializer.run_parse t h data) hserves
  exact hparse

end MemoryIOStream

end ChargingPile
