import ChargingPile.Serializer

/-!
# Settings in the flash

`FalPersistentStorage` (`components/fal_persistent_storage.hxx`) keeps a value of each type in a
key-value database, under the hash of the type and as the bytes that `Serializer` makes of it.
`read` copies the bytes into a `MemoryIOStream` and parses them. The database does not know which
version of the type wrote a record, `Deserializer` trusts the sizes and flags in it, and
`MemoryIOStream` takes the front of its queue without asking whether there is one. So a record that
was written by `write` for the same definition of the type is read back (`read_write`), and any
other record is read safely exactly if it begins with bytes in the layout of the type
(`read_defined_iff`).
-/

namespace ChargingPile

/-- `T{}`. -/
def Ty.init {k : Kind} {α : Type} : Ty k α → α
  | .scalar s => s.ofBits 0
  | .nil => ()
  | .field t ts => (t.init, ts.init)
  | .aggregate _ init _ => init
  | .cont _ => []
  | .optional _ => none
  | .map _ _ _ => .empty

/-- The bytes are laid out as those of a type: the fields one behind the other, a container as its
size and as many elements, an optional as a flag and a value if the flag is set. -/
def Ty.Layout {k : Kind} {α : Type} : Ty k α → List UInt8 → Prop
  | .scalar s, l => l.length = s.size
  | .nil, l => l = []
  | .field t ts, l => ∃ p q, t.Layout p ∧ ts.Layout q ∧ l = p ++ q
  | .aggregate _ _ ts, l => ts.Layout l
  | .cont t, l => ∃ (size : List UInt8) (es : List (List UInt8)), size.length = 2 ∧
      es.length = ofLeBytes size ∧ (∀ e ∈ es, t.Layout e) ∧ l = size ++ es.flatten
  | .optional t, l => l = [0] ∨ ∃ flag p, flag ≠ 0 ∧ t.Layout p ∧ l = flag :: p
  | .map _ key mapped, l => ∃ (size : List UInt8) (es : List (List UInt8)), size.length = 2 ∧
      es.length = ofLeBytes size ∧
      (∀ e ∈ es, ∃ p q, key.Layout p ∧ mapped.Layout q ∧ e = p ++ q) ∧ l = size ++ es.flatten

namespace Deserializer

open Reader

/-- The size of a container and as many elements. -/
theorem takes_sized {σ : Type} {step : σ → Reader UInt8 σ} {L : List UInt8 → Prop}
    (h : ∀ s, Takes (step s) L) (s : σ) :
    Takes (parseSize.bind fun size => .iterate size step s) fun l =>
      ∃ (size : List UInt8) (es : List (List UInt8)), size.length = 2 ∧
        es.length = ofLeBytes size ∧ (∀ e ∈ es, L e) ∧ l = size ++ es.flatten := by
  have hsize : ∀ p : List UInt8, p.length = 2 →
      (UInt16.ofNat (ofLeBytes p)).toNat = ofLeBytes p := by
    intro p hp
    have hlt := ofLeBytes_lt p
    rw [hp] at hlt
    exact UInt16.toNat_ofNat_of_lt' hlt
  have hread : Takes (.read 2 fun p => .iterate (UInt16.ofNat (ofLeBytes p)).toNat step s) fun l =>
      ∃ p q, p.length = 2 ∧ (∃ es : List (List UInt8), es.length = ofLeBytes p ∧
        (∀ e ∈ es, L e) ∧ q = es.flatten) ∧ l = p ++ q :=
    takes_read fun p hp => by
      rw [hsize p hp]
      exact takes_iterate h _ s
  refine (takes_ask hread).congr fun l => ?_
  constructor
  · rintro ⟨p, _, hp, ⟨es, hn, hes, rfl⟩, rfl⟩
    exact ⟨p, es, hp, hn, hes, rfl⟩
  · rintro ⟨p, es, hp, hn, hes, rfl⟩
    exact ⟨p, _, hp, ⟨es, hn, hes, rfl⟩, rfl⟩

/-- A flag and what is read if it is set. -/
theorem takes_flagged {α : Type} {r : Reader UInt8 α} {L : List UInt8 → Prop} (h : Takes r L)
    (init : α) :
    Takes ((parseScalar .bool).bind fun hasValue => if hasValue then r else .done init) fun l =>
      l = [0] ∨ ∃ flag p, flag ≠ 0 ∧ L p ∧ l = flag :: p := by
  have hread : Takes (.read 1 fun p => if Scalar.bool.ofBits (ofLeBytes p) then r else .done init)
      fun l => ∃ p q, p.length = 1 ∧ (if p.headD 0 = 0 then q = [] else L q) ∧ l = p ++ q := by
    refine takes_read fun p _ => ?_
    have hflag : Scalar.bool.ofBits (ofLeBytes p) = (p.headD 0 != 0) :=
      congrArg (· != 0) (ofNat_ofLeBytes p)
    rw [hflag]
    by_cases h0 : p.headD 0 = 0
    · simp only [h0, bne_self_eq_false, if_true]
      exact takes_done init
    · simp only [h0, if_false]
      rw [if_pos (bne_iff_ne.2 h0)]
      exact h
  refine (takes_ask hread).congr fun l => ?_
  constructor
  · rintro ⟨p, q, hp, hq, rfl⟩
    obtain ⟨flag, rfl⟩ := List.length_eq_one_iff.1 hp
    by_cases h0 : flag = 0
    · left
      rw [List.headD_cons, if_pos h0] at hq
      rw [hq, h0, List.append_nil]
    · right
      rw [List.headD_cons, if_neg h0] at hq
      exact ⟨flag, q, h0, hq, rfl⟩
  · rintro (rfl | ⟨flag, p, h0, hp, rfl⟩)
    · exact ⟨[0], [], rfl, rfl, rfl⟩
    · exact ⟨[flag], p, rfl, by rwa [List.headD_cons, if_neg h0], rfl⟩

/-- **What `parse` takes**, by induction on the type. -/
theorem takes_parse {k : Kind} {α : Type} (t : Ty k α) : Takes (parse t) t.Layout := by
  induction t with
  | scalar s =>
    have hread : Takes s.read fun l => ∃ p q, p.length = s.size ∧ q = [] ∧ l = p ++ q :=
      takes_read fun p _ => takes_done _
    refine (takes_ask hread).congr fun l => ?_
    simp [Ty.Layout]
  | nil => exact takes_done ()
  | field t ts ih ihs =>
    exact ih.bind fun a => ihs.map fun b => (a, b)
  | aggregate tie init ts ih => exact takes_ask (ih.map tie.symm)
  | cont t ih => exact takes_ask (takes_sized (fun l => ih.map fun a => l ++ [a]) [])
  | optional t ih => exact takes_ask (takes_flagged (ih.map some) none)
  | map c key mapped ihk ihm =>
    have hround : ∀ m : SortedMap c _, Takes
        ((parse key).bind fun k => (parse mapped).bind fun v => .done (m.assign k v))
        fun l => ∃ p q, key.Layout p ∧ mapped.Layout q ∧ l = p ++ q :=
      fun m => ihk.bind fun k => ihm.map fun v => m.assign k v
    exact takes_ask (takes_sized hround SortedMap.empty)

end Deserializer

/-- `FalPersistentStorage`: the records of the database by their key, the hash of a type. -/
structure FalPersistentStorage where
  db : UInt32 → Option (List UInt8)

namespace FalPersistentStorage

variable {α : Type}

/-- `FalPersistentStorage::read<T>`, for the type `t` with the hash `typeId`. -/
def read (s : FalPersistentStorage) (typeId : UInt32) (t : Ty .value α) :
    Except MemoryIOStream.Undefined α :=
  match s.db typeId with
  | none => .ok t.init
  | some value =>
    match ((Deserializer.parse t).interp MemoryIOStream.readData MemoryIOStream.isInvalid).run
      (MemoryIOStream.writeData {} value) with
    | .ok a _ => .ok a
    | .error e _ => .error e

/-- `FalPersistentStorage::write<T>`. -/
def write (s : FalPersistentStorage) (typeId : UInt32) (t : Ty .value α) (a : α) :
    FalPersistentStorage :=
  ⟨fun key => if key = typeId then some (Serializer.build t a) else s.db key⟩

/-- What is written is read back. -/
theorem read_write (s : FalPersistentStorage) (typeId : UInt32) {t : Ty .value α} {a : α}
    (h : t.Fits a) : (s.write typeId t a).read typeId t = .ok a := by
  have hparse := MemoryIOStream.parse_written t h []
  simp only [MemoryIOStream.writeData, List.append_nil] at hparse
  simp only [read, write, if_true, MemoryIOStream.writeData, hparse]

/-- A record is read as the deserializer reads its bytes, and beyond its end if they
are too few. -/
theorem read_some {s : FalPersistentStorage} {typeId : UInt32} {value : List UInt8}
    (hdb : s.db typeId = some value) (t : Ty .value α) :
    s.read typeId t = match (Deserializer.parse t).run value with
      | some (a, _) => .ok a
      | none => .error .front := by
  have hserves : MemoryIOStream.Serves value (MemoryIOStream.writeData {} value) := rfl
  rw [read, hdb]
  cases hrun : (Deserializer.parse t).run value with
  | none =>
    obtain ⟨s', hparse, -⟩ : ∃ s', ((Deserializer.parse t).interp MemoryIOStream.readData
        MemoryIOStream.isInvalid).run (MemoryIOStream.writeData {} value) = .error .front s' ∧
        MemoryIOStream.Serves [] s' :=
      Reader.interp_of_none (fun _ _ _ hs hn => hs.readData hn)
        (fun _ _ _ hs hn => hs.readData_short hn) (fun _ _ _ => rfl) hrun hserves
    simp only [hparse]
  | some r =>
    obtain ⟨a, rest⟩ := r
    obtain ⟨s', hparse, -⟩ : ∃ s', ((Deserializer.parse t).interp MemoryIOStream.readData
        MemoryIOStream.isInvalid).run (MemoryIOStream.writeData {} value) = .ok a s' ∧
        MemoryIOStream.Serves rest s' :=
      Reader.interp_of_run (fun _ _ _ hs hn => hs.readData hn) (fun _ _ _ => rfl) hrun hserves
    simp only [hparse]

/-- **Reading a record.** `read` takes no byte from an exhausted stream exactly if there is no
record or the record begins with bytes in the layout of the type, and then it returns a value. -/
theorem read_defined_iff (s : FalPersistentStorage) (typeId : UInt32) (t : Ty .value α) :
    (s.read typeId t ≠ .error .front ↔
      ∀ value, s.db typeId = some value → ∃ l, t.Layout l ∧ l <+: value) ∧
    (s.read typeId t ≠ .error .front → ∃ a, s.read typeId t = .ok a) := by
  cases hdb : s.db typeId with
  | none =>
    have hread : s.read typeId t = .ok t.init := by rw [read, hdb]
    rw [hread]
    exact ⟨⟨by simp, by simp⟩, fun _ => ⟨_, rfl⟩⟩
  | some value =>
    have htakes := (Deserializer.takes_parse t).run_ne_none_iff value
    rw [read_some hdb t]
    cases hrun : (Deserializer.parse t).run value with
    | none =>
      rw [hrun] at htakes
      simpa using htakes
    | some r =>
      rw [hrun] at htakes
      simpa using htakes

end FalPersistentStorage

/-! ## A setting that has grown -/

/-- `Config::AliIotDevice`. -/
structure Config.AliIotDevice where
  deviceName : List UInt8 := []
  productKey : List UInt8 := []
  deviceSecret : List UInt8 := []

/-- `Config::AliIotDevice` as plain data. -/
def Config.AliIotDevice.ty : Ty .value AliIotDevice :=
  .aggregate ⟨fun c => (c.deviceName, c.productKey, c.deviceSecret, ()),
    fun p => ⟨p.1, p.2.1, p.2.2.1⟩, fun _ => rfl, fun _ => rfl⟩ {}
    (.field .string (.field .string (.field .string .nil)))

/-- A record of firmware in which the structure had no `deviceSecret` is read beyond its end. -/
theorem FalPersistentStorage.read_shorter_record :
    (FalPersistentStorage.write ⟨fun _ => none⟩ 7
      (.aggregate (Equiv.refl (List UInt8 × List UInt8 × Unit)) ([], [], ())
        (.field .string (.field .string .nil))) ([0x61, 0x62], [0x63], ())).read 7
          Config.AliIotDevice.ty = .error .front := by
  rfl

end ChargingPile
