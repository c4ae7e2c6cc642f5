import ChargingPile.Lib.Flash
import ChargingPile.Lib.Intervals
import Mathlib.Logic.Function.Basic

/-!
# Objects of the EEPROM in memory

An `Idx` (`utilities/idx.hxx`) refers to an object on the device by its address. The first access
reads the object to memory, where all `Idx` of the same address share it, and the last of them to
go writes it back if it has changed. `range` and `count` divide the address space into objects
that are in use and idle ranges between them, so that objects never overlap. The ranges stand for
intervals (`ranges`), and what is proved here is what each function does to those: an object is
cut out of an idle interval, its count is changed, and an interval that becomes idle is joined
with its neighbours.
-/

namespace ChargingPile.Eeprom

/-- What is thrown, with its text. -/
inductive Exception
  | outOfRange (what : String)
  | runtimeError (what : String)
  | notImplemented (what : String)

/-- An element of `OwnerSpec::range` and the one of `OwnerSpec::count` that belongs to it. The
range ends where the next one begins. -/
structure Range where
  start : Nat
  count : Nat

/-- `OwnerSpec::Data`. -/
structure Data where
  current : List UInt8
  backup : List UInt8

/-- The device, the `OwnerSpec` of its owner, and whether the thread has the owner. -/
structure Store where
  device : Nat → UInt8
  range : List Range
  data : Nat → Option Data
  ctx : Bool

/-- `Max + 1`. -/
def limit : Nat := 2048

/-- `Null`. -/
def null : Nat := 0xffff

/-- Where a range ends, given the ranges behind it. -/
def stop : List Range → Nat
  | [] => limit
  | r :: _ => r.start

/-! ## The code -/

/-- How `createNode` divides the range in which the object lies, `none` if it crosses
another object. -/
def split (addr rightAddr : Nat) : List Range → Option (List Range)
  | [] => none
  | r :: rest =>
    if stop rest ≤ addr then (split addr rightAddr rest).map (r :: ·)
    else if stop rest < rightAddr ∨ r.count ≠ 0 then none
    else
      -- the parts of the range on both sides of the object remain idle
      let right := if stop rest = rightAddr then rest else ⟨rightAddr, 0⟩ :: rest
      some (if r.start = addr then ⟨addr, 1⟩ :: right else r :: ⟨addr, 1⟩ :: right)

/-- One more `Idx` for an object that is in use. -/
def retain (addr size : Nat) : List Range → Except Exception (List Range)
  | [] => .error (.runtimeError "range size mismatch")
  | r :: rest =>
    if r.start = addr then
      if stop rest - addr ≠ size then .error (.runtimeError "range size mismatch")
      else if r.count = 0 then .error (.runtimeError "range count error")
      else .ok (⟨addr, r.count + 1⟩ :: rest)
    else (retain addr size rest).map (r :: ·)

/-- The count and the length of the range that begins at an address. -/
def lookup (addr : Nat) : List Range → Option (Nat × Nat)
  | [] => none
  | r :: rest => if r.start = addr then some (r.count, stop rest - addr) else lookup addr rest

/-- The count of the range that begins at an address is set. -/
def setCount (addr count : Nat) : List Range → List Range
  | [] => []
  | r :: rest => if r.start = addr then ⟨addr, count⟩ :: rest else r :: setCount addr count rest

/-- An idle range at the front goes. -/
def dropIdle : List Range → List Range
  | [] => []
  | r :: rest => if r.count = 0 then rest else r :: rest

/-- The idle range that begins at an address is joined with its idle neighbours. -/
def join (addr : Nat) : List Range → List Range
  | [] => []
  | r :: rest =>
    if r.start = addr then r :: dropIdle rest
    else
      match join addr rest with
      | [] => [r]
      | t :: rest => if t.start = addr ∧ r.count = 0 then r :: rest else r :: t :: rest

namespace Store

/-- A device before the first access. -/
def fresh (content : Nat → UInt8) : Store := ⟨content, [⟨0, 0⟩], fun _ => none, false⟩

/-- `IdxAsset::createNode`. -/
def createNode (s : Store) (addr size : Nat) : Except Exception Store :=
  match split addr (addr + size) s.range with
  | none => .error (.notImplemented "cross detected")
  | some range =>
    let bytes := slice s.device addr size
    .ok { s with range, data := Function.update s.data addr (some ⟨bytes, bytes⟩) }

/-- `IdxAsset::getPtr`, for an `Idx` that has not been accessed. -/
def getPtr (s : Store) (addr size : Nat) : Except Exception Store :=
  if addr = null then .error (.outOfRange "nullptr")
  else if limit ≤ addr + size - 1 then .error (.outOfRange "out of addr space")
  else if !s.ctx then .error (.runtimeError "ctx not provided")
  else
    match s.data addr with
    | some _ => (retain addr size s.range).map fun range => { s with range }
    | none => s.createNode addr size

/-- `IdxAsset::dispose`, for an `Idx` that has been accessed. -/
def dispose (s : Store) (addr size : Nat) : Store :=
  match lookup addr s.range with
  | none => s
  | some (count, length) =>
    if count = 0 ∨ length ≠ size then s
    else if count ≠ 1 then { s with range := setCount addr (count - 1) s.range }
    else
      let range := join addr (setCount addr 0 s.range)
      match s.data addr with
      | none => { s with range }
      | some d =>
        let device := if d.current ≠ d.backup then program s.device addr d.current else s.device
        { s with device, range, data := Function.update s.data addr none }

end Store

/-! ## The ranges -/

open Intervals

/-- The ranges that stand for intervals of the address space. -/
def ranges (l : List Interval) : List Range := l.map fun i => ⟨i.start, i.count⟩

section
variable {p addr size rightAddr : Nat} {l l₁ l₂ : List Interval} {i : Interval}

theorem stop_ranges (h : Path p l limit) : stop (ranges l) = p := by
  cases l with
  | nil => exact Eq.symm h
  | cons i l => exact h.1

/-- The ranges behind the first one, and that it begins in front of a later one. -/
theorem path_ranges {j : Interval} (h : Path p (j :: (l₁ ++ i :: l₂)) limit) :
    Path j.stop (l₁ ++ i :: l₂) limit ∧ stop (ranges (l₁ ++ i :: l₂)) = j.stop ∧
      j.start < i.start ∧ j.stop ≤ i.start := by
  obtain ⟨rfl, hlt, h⟩ := h
  have hle := (path_split.1 h).1.le
  exact ⟨h, stop_ranges h, Nat.lt_of_lt_of_le hlt hle, hle⟩

/-- `createNode` cuts the object out of the interval in which it begins. -/
theorem split_ranges (h : Path p (l₁ ++ i :: l₂) limit) (hstart : i.start ≤ addr)
    (hstop : addr < i.stop) :
    split addr rightAddr (ranges (l₁ ++ i :: l₂)) =
      if i.stop < rightAddr ∨ i.count ≠ 0 then none
      else some (ranges (l₁ ++ (cut i addr rightAddr ++ l₂))) := by
  induction l₁ generalizing p with
  | nil =>
    obtain ⟨-, -, h₂⟩ := h
    change split addr rightAddr (⟨i.start, i.count⟩ :: ranges l₂) = _
    rw [split, stop_ranges h₂, if_neg (by omega)]
    split
    next => rfl
    next hfree =>
      obtain ⟨start, stop, count⟩ := i
      obtain ⟨hle, hidle⟩ := not_or.1 hfree
      obtain rfl : count = 0 := not_not.1 hidle
      simp only [cut, List.nil_append] at hstart hstop hle ⊢
      split_ifs <;> first | rfl | omega
  | cons j l₁ ih =>
    obtain ⟨h', hstop', -, hle⟩ := path_ranges h
    change split addr rightAddr (⟨j.start, j.count⟩ :: ranges (l₁ ++ i :: l₂)) = _
    rw [split, hstop', if_pos (by omega), ih h']
    split_ifs <;> rfl

/-- One more user for the object of an interval. -/
theorem retain_ranges (h : Path p (l₁ ++ i :: l₂) limit) (size : Nat) :
    retain i.start size (ranges (l₁ ++ i :: l₂)) =
      if i.stop ≠ i.start + size then .error (.runtimeError "range size mismatch")
      else if i.count = 0 then .error (.runtimeError "range count error")
      else .ok (ranges (l₁ ++ ⟨i.start, i.stop, i.count + 1⟩ :: l₂)) := by
  induction l₁ generalizing p with
  | nil =>
    obtain ⟨rfl, hlt, h₂⟩ := h
    change retain i.start size (⟨i.start, i.count⟩ :: ranges l₂) = _
    rw [retain, if_pos rfl, stop_ranges h₂]
    split_ifs <;> first | rfl | omega
  | cons j l₁ ih =>
    obtain ⟨h', -, hlt, -⟩ := path_ranges h
    change retain i.start size (⟨j.start, j.count⟩ :: ranges (l₁ ++ i :: l₂)) = _
    rw [retain, if_neg (Nat.ne_of_lt hlt), ih h']
    split_ifs <;> rfl

theorem lookup_ranges (h : Path p (l₁ ++ i :: l₂) limit) :
    lookup i.start (ranges (l₁ ++ i :: l₂)) = some (i.count, i.stop - i.start) := by
  induction l₁ generalizing p with
  | nil =>
    obtain ⟨-, -, h₂⟩ := h
    change lookup i.start (⟨i.start, i.count⟩ :: ranges l₂) = _
    rw [lookup, if_pos rfl, stop_ranges h₂]
  | cons j l₁ ih =>
    obtain ⟨h', -, hlt, -⟩ := path_ranges h
    change lookup i.start (⟨j.start, j.count⟩ :: ranges (l₁ ++ i :: l₂)) = _
    rw [lookup, if_neg (Nat.ne_of_lt hlt), ih h']

theorem lookup_ranges_none (h : ∀ i ∈ l, i.start ≠ addr) : lookup addr (ranges l) = none := by
  induction l with
  | nil => rfl
  | cons i l ih =>
    obtain ⟨hi, hl⟩ := List.forall_mem_cons.1 h
    change lookup addr (⟨i.start, i.count⟩ :: ranges l) = _
    rw [lookup, if_neg hi, ih hl]

theorem setCount_ranges (h : Path p (l₁ ++ i :: l₂) limit) (count : Nat) :
    setCount i.start count (ranges (l₁ ++ i :: l₂)) =
      ranges (l₁ ++ ⟨i.start, i.stop, count⟩ :: l₂) := by
  induction l₁ generalizing p with
  | nil =>
    change setCount i.start count (⟨i.start, i.count⟩ :: ranges l₂) = _
    rw [setCount, if_pos rfl]
    rfl
  | cons j l₁ ih =>
    obtain ⟨h', -, hlt, -⟩ := path_ranges h
    change setCount i.start count (⟨j.start, j.count⟩ :: ranges (l₁ ++ i :: l₂)) = _
    rw [setCount, if_neg (Nat.ne_of_lt hlt), ih h']
    rfl

theorem dropIdle_ranges (hidle : i.count = 0) (l : List Interval) :
    ⟨i.start, i.count⟩ :: dropIdle (ranges l) = ranges (absorb i l) := by
  cases l with
  | nil => rfl
  | cons k l =>
    change _ :: dropIdle (⟨k.start, k.count⟩ :: ranges l) = _
    rw [dropIdle, absorb]
    split
    next => rw [hidle]; rfl
    next => rfl

/-- An interval that has become idle is joined with its neighbours. -/
theorem join_ranges (h : Path p (l₁ ++ i :: l₂) limit) (hidle : i.count = 0) :
    join i.start (ranges (l₁ ++ i :: l₂)) = ranges (merge l₁ i l₂) := by
  induction l₁ generalizing p with
  | nil =>
    change join i.start (⟨i.start, i.count⟩ :: ranges l₂) = _
    rw [join, if_pos rfl]
    exact dropIdle_ranges hidle l₂
  | cons j l₁ ih =>
    obtain ⟨h', -, hlt, -⟩ := path_ranges h
    change join i.start (⟨j.start, j.count⟩ :: ranges (l₁ ++ i :: l₂)) = _
    rw [join, if_neg (Nat.ne_of_lt hlt), ih h']
    cases l₁ with
    | nil =>
      -- the interval in front takes the idle one over if it is idle too
      obtain ⟨i', m, heq, hstart, hidle'⟩ := absorb_eq_cons hidle l₂
      rw [merge, merge, heq, absorb, if_pos hidle']
      change (if i'.start = i.start ∧ j.count = 0 then _ else _) = _
      rcases eq_or_ne j.count 0 with hj | hj
      · rw [if_pos ⟨hstart, hj⟩, if_pos hj, hj]
        rfl
      · rw [if_neg fun hboth => hj hboth.2, if_neg hj]
        rfl
    | cons k l₁ =>
      obtain ⟨-, -, hlt', -⟩ := path_ranges h'
      obtain ⟨k', m, heq, hstart⟩ := merge_eq_cons k l₁ i l₂
      rw [merge, heq]
      change (if k'.start = i.start ∧ j.count = 0 then _ else _) = _
      rw [if_neg fun hboth => Nat.ne_of_lt (hstart ▸ hlt') hboth.1]
      rfl

/-- The ranges stand for intervals of the whole space, no two idle ones of which are neighbours. -/
structure Tiled (range : List Range) (l : List Interval) : Prop where
  range : range = ranges l
  path : Path 0 l limit
  separated : Separated l

variable {range : List Range}

/-- A range that does not overlap any object is cut out of an idle one. -/
theorem Tiled.split (h : Tiled range l) (hsize : 0 < size) (hle : addr + size ≤ limit)
    (hapart : ∀ i ∈ l, i.count ≠ 0 → addr + size ≤ i.start ∨ i.stop ≤ addr) :
    ∃ range' l', split addr (addr + size) range = some range' ∧ Tiled range' l' ∧
      Gains l l' addr (addr + size) := by
  obtain ⟨rfl, hpath, hsep⟩ := h
  have hlt : addr < addr + size := Nat.lt_add_of_pos_right hsize
  obtain ⟨i, hi, hstart, hstop, hbusy⟩ := (hpath.fits_iff hsep hlt (Nat.zero_le _) hle).2
    fun i hi hcount => .inr (hapart i hi hcount)
  have hidle : i.count = 0 := not_not.1 fun hcount => by
    have := hapart i hi hcount
    have := hbusy hcount
    omega
  obtain ⟨l₁, l₂, rfl⟩ := List.append_of_mem hi
  refine ⟨_, _, ?_, ⟨rfl, hpath.cut hstart hlt hstop, hsep.cut hidle⟩, gains_cut hidle⟩
  rw [split_ranges hpath hstart (by omega), if_neg (by omega)]

/-- The interval of an object in use. -/
theorem Tiled.exists_interval (h : Tiled range l) (hheld : held l addr (addr + size) ≠ 0) :
    ∃ l₁ i l₂, l = l₁ ++ i :: l₂ ∧ i.start = addr ∧ i.stop = addr + size ∧
      i.count = held l addr (addr + size) ∧ i.count ≠ 0 := by
  obtain ⟨i, hi, rfl, hstop, hcount⟩ := exists_of_held hheld
  obtain ⟨l₁, l₂, rfl⟩ := List.append_of_mem hi
  refine ⟨l₁, i, l₂, rfl, rfl, hstop, ?_, hcount⟩
  rw [h.path.held_start, if_pos hstop]

/-- The count of an interval in use is changed, and it stays in use. -/
theorem Tiled.recount (h : Tiled range (l₁ ++ i :: l₂)) {n : Nat} (hn : n ≠ 0) :
    Tiled (ranges (l₁ ++ ⟨i.start, i.stop, n⟩ :: l₂)) (l₁ ++ ⟨i.start, i.stop, n⟩ :: l₂) := by
  obtain ⟨h₁, hlt, h₂⟩ := path_split.1 h.path
  exact ⟨rfl, path_split.2 ⟨h₁, hlt, h₂⟩, h.separated.recount hn⟩

/-- An object in use gets one more user. -/
theorem Tiled.retain (h : Tiled range l) (hheld : held l addr (addr + size) ≠ 0) :
    ∃ range' l', retain addr size range = .ok range' ∧ Tiled range' l' ∧
      Gains l l' addr (addr + size) := by
  obtain ⟨l₁, i, l₂, rfl, rfl, hstop, -, hcount⟩ := h.exists_interval hheld
  refine ⟨_, _, ?_, h.recount (Nat.succ_ne_zero i.count), hstop ▸ Gains.recount rfl rfl rfl⟩
  rw [h.range, retain_ranges h.path, if_neg (not_not.2 hstop), if_neg hcount]

theorem Tiled.lookup (h : Tiled range l) (hheld : held l addr (addr + size) ≠ 0) :
    lookup addr range = some (held l addr (addr + size), size) := by
  obtain ⟨l₁, i, l₂, rfl, rfl, hstop, hcount, -⟩ := h.exists_interval hheld
  rw [h.range, lookup_ranges h.path, ← hcount, hstop, Nat.add_sub_cancel_left]

/-- One of several users of an object goes. -/
theorem Tiled.release (h : Tiled range l) (hheld : 1 < held l addr (addr + size)) :
    ∃ l', Tiled (setCount addr (held l addr (addr + size) - 1) range) l' ∧
      Gains l' l addr (addr + size) := by
  have hne : held l addr (addr + size) ≠ 0 := by omega
  obtain ⟨l₁, i, l₂, rfl, rfl, hstop, hcount, -⟩ := h.exists_interval hne
  rw [← hcount] at hheld ⊢
  rw [h.range, setCount_ranges h.path]
  have hsucc : i.count = i.count - 1 + 1 := (Nat.sub_add_cancel (Nat.le_of_lt hheld)).symm
  exact ⟨_, h.recount (by omega), hstop ▸ Gains.recount rfl rfl hsucc⟩

/-- The last user of an object goes, and the object becomes part of an idle range. -/
theorem Tiled.join (h : Tiled range l) (hheld : held l addr (addr + size) = 1) :
    ∃ l', Tiled (join addr (setCount addr 0 range)) l' ∧ Gains l' l addr (addr + size) := by
  obtain ⟨l₁, i, l₂, rfl, rfl, hstop, hcount, -⟩ := h.exists_interval (hheld ▸ Nat.one_ne_zero)
  obtain ⟨h₁, hlt, h₂⟩ := path_split.1 h.path
  obtain ⟨hsep₁, hsep₂, -⟩ := separated_split h.separated
  have hpath : Path 0 (l₁ ++ ⟨i.start, i.stop, 0⟩ :: l₂) limit := path_split.2 ⟨h₁, hlt, h₂⟩
  have hjoin : Eeprom.join i.start (ranges (l₁ ++ ⟨i.start, i.stop, 0⟩ :: l₂)) = _ :=
    join_ranges hpath rfl
  rw [h.range, setCount_ranges h.path, hjoin]
  exact ⟨_, ⟨rfl, hpath.merge, separated_merge hsep₁ hsep₂⟩, hstop ▸ gains_merge rfl (by omega)⟩

end

end ChargingPile.Eeprom
