import ChargingPile.Eeprom.Cache
import ChargingPile.Lib.Intervals
import ChargingPile.Lib.Machine

/-!
# The range table of `Idx`

`IdxAsset` (`utilities/idx.hxx`) keeps, for the owner of a device, the objects that are in memory:
`range` has the bounds of the intervals into which the address space is divided, `count` how many
`Idx` use the object of each interval, and `data` the objects themselves. `createNode` divides an
idle interval to make room for an object, `getPtr` looks an object up or has it created, and
`dispose` gives it back and joins an interval that has become idle with its neighbours.

The functions work at places of the two lists, as the iterators of the source do. Each of them gets
one specification, over the list of intervals that the two lists stand for (`Rep`). The table is
then valid after every sequence of operations.
-/

namespace ChargingPile.Idx

open Eeprom (Exception)
open Intervals

/-! ## The code -/

/-- The parameters `Null` and `Max` of the templates. -/
structure Space where
  null : Nat
  max : Nat

/-- `OwnerSpec::Data`: the buffer that the `Idx` share, and what was read from the device. -/
structure Data where
  current : Nat
  backup : List UInt8

/-- The device, the buffers that have been allocated, and the `OwnerSpec` of the owner of the
device. A buffer is given by its number. -/
structure Asset where
  device : Nat → UInt8
  buffers : List (List UInt8)
  range : List Nat
  count : List Nat
  data : Nat → Option Data

/-- An `OwnerSpec` as it is created. -/
def Asset.init (sp : Space) (device : Nat → UInt8) : Asset where
  device := device
  buffers := []
  range := [0, sp.max + 1]
  count := [0]
  data := fun _ => none

/-- What an iterator at a place refers to. `dispose` also looks at the count behind the last
one, which the standard leaves undefined. The `std::list` of libstdc++ has the number of its
elements there. -/
def deref (l : List Nat) (i : Nat) : Nat := l.getD i l.length

/-- The bytes of a buffer from a place on are replaced. -/
def splice (buffer : List UInt8) (off : Nat) (bytes : List UInt8) : List UInt8 :=
  buffer.take off ++ bytes ++ buffer.drop (off + bytes.length)

def cross : Exception := .notImplemented "cross detected"

/-- What `IdxAsset::dispose` did: the `Idx` does not use the object, others still use it, or it
was the last. In what is undefined, a count outside the list or an object that is not there
would be changed. -/
inductive Disposed
  | ignored
  | released
  | last (obj : Nat)
  | undefined

namespace Asset

/-- A write to an object in memory. -/
def write (a : Asset) (ptr off : Nat) (bytes : List UInt8) : Asset :=
  { a with buffers := a.buffers.modify ptr fun buffer => splice buffer off bytes }

/-- The end of `IdxAsset::createNode`: the object is read. -/
def read (a : Asset) (addr size : Nat) : Except Exception Nat × Asset :=
  let bytes := slice a.device addr size
  (.ok a.buffers.length,
    { a with
      buffers := a.buffers ++ [bytes]
      data := Function.update a.data addr (some ⟨a.buffers.length, bytes⟩) })

/-- `IdxAsset::createNode`. -/
def createNode (a : Asset) (addr size : Nat) : Except Exception Nat × Asset :=
  let front := a.range.findIdx (addr ≤ ·)
  let rightAddr := addr + size
  if deref a.range front ≠ addr then
    if deref a.range front < rightAddr then (.error cross, a)
    else if deref a.count (front - 1) ≠ 0 then (.error cross, a)
    else if rightAddr = deref a.range front then
      { a with
        range := a.range.insertIdx front addr
        count := a.count.insertIdx front 1 }.read addr size
    else
      { a with
        range := (a.range.insertIdx front addr).insertIdx (front + 1) rightAddr
        count := (a.count.insertIdx front 1).insertIdx (front + 1) 0 }.read addr size
  else
    let back := front + 1
    if deref a.range back < rightAddr then (.error cross, a)
    else if deref a.count front ≠ 0 then (.error cross, a)
    else
      let count := a.count.modify front (· + 1)
      if rightAddr ≠ deref a.range back then
        { a with
          range := a.range.insertIdx back rightAddr
          count := count.insertIdx back 0 }.read addr size
      else { a with count }.read addr size

/-- The place of an object that is in memory, if it is in use and has the size. -/
def checked (a : Asset) (addr size : Nat) : Except Exception Nat :=
  let found := a.range.idxOf addr
  if deref a.range (found + 1) - addr ≠ size then .error (.runtimeError "range size mismatch")
  else if deref a.count found = 0 then .error (.runtimeError "range count error")
  else .ok found

/-- An interval begins at the address and has the size. -/
def Present (a : Asset) (addr size : Nat) : Prop :=
  let found := a.range.idxOf addr
  found ≠ a.range.length ∧ found + 1 ≠ a.range.length ∧
    deref a.range (found + 1) - deref a.range found = size

instance (a : Asset) (addr size : Nat) : Decidable (a.Present addr size) :=
  inferInstanceAs (Decidable (_ ∧ _ ∧ _))

/-- The part of `IdxAsset::getPtr` behind the checks, given the `current` of the `Idx`. An `Idx`
that has been accessed before gets the buffer it has if there is an interval for its object. -/
def access (a : Asset) (current : Option Nat) (addr size : Nat) : Except Exception Nat × Asset :=
  match current with
  | none =>
    match a.data addr with
    | some data =>
      match a.checked addr size with
      | .error e => (.error e, a)
      | .ok place => (.ok data.current, { a with count := a.count.modify place (· + 1) })
    | none => a.createNode addr size
  | some ptr => if ¬ a.Present addr size then a.createNode addr size else (.ok ptr, a)

/-- `IdxAsset::getPtr`, given the `owner` and the `current` of the `Idx`. -/
def getPtr (sp : Space) (a : Asset) (owner : Bool) (current : Option Nat) (addr size : Nat) :
    Except Exception Nat × Asset :=
  if addr = sp.null then (.error (.outOfRange "nullptr"), a)
  else if sp.max < addr + size - 1 then (.error (.outOfRange "out of addr space"), a)
  else if !owner then (.error (.runtimeError "ctx not provided"), a)
  else a.access current addr size

/-- `IdxAsset::getRefCount`. -/
def getRefCount (a : Asset) (addr size : Nat) : Except Exception Nat :=
  match a.data addr with
  | none => .error (.runtimeError "not prepared")
  | some _ => (a.checked addr size).map (deref a.count)

/-- The interval behind the one at a place is joined with it if it is idle. -/
def mergeAfter (a : Asset) (place : Nat) : Asset :=
  if deref a.count (place + 1) = 0 then
    { a with range := a.range.eraseIdx (place + 1), count := a.count.eraseIdx (place + 1) }
  else a

/-- The interval at a place is joined with the one in front of it if that is idle. -/
def mergeBefore (a : Asset) (place : Nat) : Asset :=
  if place ≠ 0 ∧ deref a.count (place - 1) = 0 then
    { a with range := a.range.eraseIdx place, count := a.count.eraseIdx place }
  else a

/-- The end of `IdxAsset::dispose`: the object is written to the device if it has changed. -/
def writeBack (a : Asset) (addr : Nat) : Disposed × Asset :=
  match a.data addr with
  | none => (.undefined, a)
  | some d =>
    let bytes := a.buffers.getD d.current []
    (.last d.current,
      { a with
        device := if bytes ≠ d.backup then program a.device addr bytes else a.device
        data := Function.update a.data addr none })

/-- `IdxAsset::dispose`, for an `Idx` that has been accessed. -/
def dispose (a : Asset) (addr size : Nat) : Disposed × Asset :=
  let found := a.range.idxOf addr
  if found = a.range.length then (.ignored, a)
  else if deref a.count found = 0 ∨ deref a.range (found + 1) - addr ≠ size then (.ignored, a)
  else if found = a.count.length then (.undefined, a)
  else
    let count := a.count.modify found (· - 1)
    if deref count found ≠ 0 then (.released, { a with count })
    else ((mergeAfter { a with count } found).mergeBefore found).writeBack addr

end Asset

/-! ## The intervals -/

/-- The two lists of the table, from the intervals they stand for. -/
def Asset.withTable (a : Asset) (l : List Interval) (hi : Nat) : Asset :=
  { a with range := bounds l hi, count := l.map Interval.count }

/-- The table stands for the intervals up to an address. -/
structure Rep (hi : Nat) (l : List Interval) (a : Asset) : Prop where
  path : Path 0 l hi
  separated : Separated l
  table : a.withTable l hi = a
  keys : ∀ addr, (a.data addr).isSome ↔ Busy l addr

section
variable {hi addr size : Nat} {l l₁ l₂ : List Interval} {i : Interval} {a : Asset}

theorem deref_append (l₁ l₂ : List Nat) (x : Nat) : deref (l₁ ++ x :: l₂) l₁.length = x := by
  simp [deref]

theorem deref_append_succ (l₁ l₂ : List Nat) (x y : Nat) :
    deref (l₁ ++ x :: y :: l₂) (l₁.length + 1) = y := by
  simp [deref]

theorem findIdx_append_length {l₁ l₂ : List Nat} {x : Nat} (h : ∀ y ∈ l₁, y < addr)
    (hx : addr ≤ x) :
    (l₁ ++ x :: l₂).findIdx (addr ≤ ·) = l₁.length := by
  induction l₁ with
  | nil => simp [List.findIdx_cons, hx]
  | cons y l₁ ih =>
    obtain ⟨hy, hl⟩ := List.forall_mem_cons.1 h
    simp [List.findIdx_cons, Nat.not_le.2 hy, ih hl]

/-- The table with some intervals between others. -/
theorem withTable_between (a : Asset) (m : List Interval) {r : Nat} (h : Path r l₂ hi) :
    a.withTable (l₁ ++ (m ++ l₂)) hi =
      { a with
        range := l₁.map Interval.start ++ (m.map Interval.start ++ r :: l₂.map Interval.stop)
        count := l₁.map Interval.count ++ (m.map Interval.count ++ l₂.map Interval.count) } := by
  have happend : bounds ((l₁ ++ m) ++ l₂) hi = _ := bounds_append h
  rw [List.append_assoc, List.map_append, List.append_assoc] at happend
  simp only [Asset.withTable, happend, List.map_append]

/-- The table around an interval. -/
theorem withTable_split (a : Asset) (i : Interval) (h : Path i.stop l₂ hi) :
    a.withTable (l₁ ++ i :: l₂) hi =
      { a with
        range := l₁.map Interval.start ++ i.start :: i.stop :: l₂.map Interval.stop
        count := l₁.map Interval.count ++ i.count :: l₂.map Interval.count } :=
  withTable_between a [i] h

/-- A write to an object changes nothing of the table. -/
theorem Rep.write (h : Rep hi l a) (ptr off : Nat) (bytes : List UInt8) :
    Rep hi l (a.write ptr off bytes) :=
  ⟨h.path, h.separated, congrArg (Asset.write · ptr off bytes) h.table, h.keys⟩

/-! ## Creating an object -/

section
variable {L R C D : List Nat} {x y c : Nat}

/-- The object begins inside of an interval. -/
theorem createNode_inside (hrange : a.range = L ++ x :: y :: R) (hcount : a.count = C ++ c :: D)
    (hlen : L.length = C.length) (hL : ∀ z ∈ L, z < addr) (hx : x < addr) (hy : addr < y) :
    a.createNode addr size =
      if y < addr + size ∨ c ≠ 0 then (.error cross, a)
      else if addr + size = y then
        { a with range := L ++ x :: addr :: y :: R, count := C ++ c :: 1 :: D }.read addr size
      else
        { a with
          range := L ++ x :: addr :: (addr + size) :: y :: R
          count := C ++ c :: 1 :: 0 :: D }.read addr size := by
  have hL' : ∀ z ∈ L ++ [x], z < addr :=
    List.forall_mem_append.2 ⟨hL, List.forall_mem_singleton.2 hx⟩
  have hfront : a.range.findIdx (addr ≤ ·) = L.length + 1 := by
    rw [hrange, List.append_cons, findIdx_append_length hL' (Nat.le_of_lt hy), List.length_append]
    rfl
  have hat : deref a.range (L.length + 1) = y := by rw [hrange, deref_append_succ]
  have hat' : deref a.count L.length = c := by rw [hcount, hlen, deref_append]
  have hinsert : a.range.insertIdx (L.length + 1) addr = L ++ x :: addr :: y :: R := by
    rw [hrange, insertIdx_append_succ]
  have hinsert' : a.count.insertIdx (L.length + 1) 1 = C ++ c :: 1 :: D := by
    rw [hcount, hlen, insertIdx_append_succ]
  have hsecond : (L ++ x :: addr :: y :: R).insertIdx (L.length + 1 + 1) (addr + size) =
      L ++ x :: addr :: (addr + size) :: y :: R := by
    simpa using insertIdx_append_succ (L ++ [x]) (y :: R) addr (addr + size)
  have hsecond' : (C ++ c :: 1 :: D).insertIdx (L.length + 1 + 1) 0 = C ++ c :: 1 :: 0 :: D := by
    simpa [hlen] using insertIdx_append_succ (C ++ [c]) D 1 0
  have hne : y ≠ addr := Nat.ne_of_gt hy
  simp only [Asset.createNode, hfront, hat, hne, ne_eq, not_false_eq_true, if_true,
    Nat.add_sub_cancel, hat', hinsert, hinsert', hsecond, hsecond']
  split_ifs <;> first | rfl | omega

/-- The object begins where an interval does. -/
theorem createNode_start (hrange : a.range = L ++ addr :: y :: R) (hcount : a.count = C ++ c :: D)
    (hlen : L.length = C.length) (hL : ∀ z ∈ L, z < addr) :
    a.createNode addr size =
      if y < addr + size ∨ c ≠ 0 then (.error cross, a)
      else if addr + size = y then { a with count := C ++ (c + 1) :: D }.read addr size
      else
        { a with
          range := L ++ addr :: (addr + size) :: y :: R
          count := C ++ (c + 1) :: 0 :: D }.read addr size := by
  have hfront : a.range.findIdx (addr ≤ ·) = L.length := by
    rw [hrange, findIdx_append_length hL (Nat.le_refl addr)]
  have hat : deref a.range L.length = addr := by rw [hrange, deref_append]
  have hback : deref a.range (L.length + 1) = y := by rw [hrange, deref_append_succ]
  have hat' : deref a.count L.length = c := by rw [hcount, hlen, deref_append]
  have hmodify : a.count.modify L.length (· + 1) = C ++ (c + 1) :: D := by
    rw [hcount, hlen, modify_append_length]
  have hinsert : a.range.insertIdx (L.length + 1) (addr + size) =
      L ++ addr :: (addr + size) :: y :: R := by
    rw [hrange, insertIdx_append_succ]
  have hinsert' : (C ++ (c + 1) :: D).insertIdx (L.length + 1) 0 = C ++ (c + 1) :: 0 :: D := by
    rw [hlen, insertIdx_append_succ]
  simp only [Asset.createNode, hfront, hat, hback, ne_eq, not_true_eq_false, if_false, hat',
    hmodify, hinsert, hinsert']
  split_ifs <;> first | rfl | omega

end

/-- An object is cut out of the idle interval in which it lies. -/
theorem createNode_eq (a : Asset) (size : Nat) (h : Path 0 (l₁ ++ i :: l₂) hi)
    (hstart : i.start ≤ addr) (hstop : addr < i.stop) :
    (a.withTable (l₁ ++ i :: l₂) hi).createNode addr size =
      if i.stop < addr + size ∨ i.count ≠ 0 then (.error cross, a.withTable (l₁ ++ i :: l₂) hi)
      else (a.withTable (l₁ ++ (cut i addr (addr + size) ++ l₂)) hi).read addr size := by
  obtain ⟨h₁, hlt, h₂⟩ := path_split.1 h
  have hlen : (l₁.map Interval.start).length = (l₁.map Interval.count).length := by simp
  have hbelow : ∀ z ∈ l₁.map Interval.start, z < addr := fun z hz =>
    Nat.lt_of_lt_of_le (h₁.start_lt hz) hstart
  rw [withTable_between a _ h₂, withTable_split a i h₂]
  split
  next hcross =>
    rcases Nat.eq_or_lt_of_le hstart with rfl | hstart
    · rw [createNode_start rfl rfl hlen hbelow, if_pos hcross]
    · rw [createNode_inside rfl rfl hlen hbelow hstart hstop, if_pos hcross]
  next hfree =>
    obtain ⟨hle, hidle⟩ := not_or.1 hfree
    have hidle : i.count = 0 := not_not.1 hidle
    rcases Nat.eq_or_lt_of_le (Nat.not_lt.1 hle) with hfit | hfit
    · rcases Nat.eq_or_lt_of_le hstart with rfl | hstart
      · rw [createNode_start rfl rfl hlen hbelow, if_neg hfree, if_pos hfit]
        simp [cut, hfit, hidle]
      · rw [createNode_inside rfl rfl hlen hbelow hstart hstop, if_neg hfree, if_pos hfit]
        simp [cut, hfit, hidle, hstart]
    · rcases Nat.eq_or_lt_of_le hstart with rfl | hstart
      · rw [createNode_start rfl rfl hlen hbelow, if_neg hfree, if_neg (Nat.ne_of_lt hfit)]
        simp [cut, hfit, hidle]
      · rw [createNode_inside rfl rfl hlen hbelow hstart hstop, if_neg hfree,
          if_neg (Nat.ne_of_lt hfit)]
        simp [cut, hfit, hidle, hstart]

theorem isSome_read (a : Asset) (addr size x : Nat) :
    ((a.read addr size).2.data x).isSome ↔ addr = x ∨ (a.data x).isSome := by
  rcases eq_or_ne x addr with rfl | hne
  · simp [Asset.read]
  · simp [Asset.read, Function.update_of_ne hne, hne.symm]

/-- `createNode` throws, or the object was not in memory, gets an interval of its own
and is read. -/
theorem Rep.createNode (h : Rep hi l a) (hsize : 0 < size) (hfits : addr + size ≤ hi) :
    a.createNode addr size = (.error cross, a) ∨
      ∃ l', a.createNode addr size = (a.withTable l' hi).read addr size ∧
        Rep hi l' (a.createNode addr size).2 ∧ Gains l l' addr (addr + size) ∧
        a.data addr = none := by
  obtain ⟨l₁, i, l₂, rfl, hstart, hstop⟩ := h.path.exists_mem (Nat.zero_le addr) (by omega)
  have heq := createNode_eq a size h.path hstart hstop
  rw [h.table] at heq
  split at heq
  next hcross => exact .inl heq
  next hfree =>
    obtain ⟨hle, hidle⟩ := not_or.1 hfree
    have hidle : i.count = 0 := not_not.1 hidle
    have hle : addr + size ≤ i.stop := Nat.not_lt.1 hle
    obtain ⟨h₁, -, h₂⟩ := path_split.1 h.path
    refine .inr ⟨_, heq, ?_, gains_cut hidle, ?_⟩
    · rw [heq]
      constructor
      · exact h.path.cut hstart (Nat.lt_add_of_pos_right hsize) hle
      · exact h.separated.cut hidle
      · rfl
      · intro x
        have hkeys := h.keys x
        rw [isSome_read, busy_append, busy_append, busy_cut]
        rw [busy_append, busy_cons] at hkeys
        simp only [Asset.withTable, hkeys, hidle]
        tauto
    · have hnot := h.path.not_busy_of_idle hidle hstart hstop
      rw [← h.keys] at hnot
      exact Option.not_isSome_iff_eq_none.1 hnot

/-! ## Looking an object up -/

/-- An interval begins at the address, or it is none of the bounds. -/
theorem Rep.find (h : Rep hi l a) (haddr : addr < hi) :
    (∃ l₁ i l₂, l = l₁ ++ i :: l₂ ∧ i.start = addr) ∨
      a.range.idxOf addr = a.range.length ∧ ∀ i ∈ l, i.start ≠ addr := by
  rcases Classical.em (∃ i ∈ l, i.start = addr) with ⟨i, hi, rfl⟩ | hno
  · obtain ⟨l₁, l₂, rfl⟩ := List.append_of_mem hi
    exact .inl ⟨l₁, i, l₂, rfl, rfl⟩
  · have hno : ∀ i ∈ l, i.start ≠ addr := fun i hi heq => hno ⟨i, hi, heq⟩
    refine .inr ⟨List.idxOf_eq_length_iff.2 fun hmem => ?_, hno⟩
    rw [← h.table] at hmem
    rcases List.mem_append.1 hmem with hmem | hmem
    · obtain ⟨i, hi, rfl⟩ := List.mem_map.1 hmem
      exact hno i hi rfl
    · rw [List.mem_singleton.1 hmem] at haddr
      exact Nat.lt_irrefl _ haddr

/-- The place of an interval, and what is there. -/
theorem Rep.place (h : Rep hi (l₁ ++ i :: l₂) a) :
    a.range.idxOf i.start = l₁.length ∧ deref a.range l₁.length = i.start ∧
      deref a.range (l₁.length + 1) = i.stop ∧ deref a.count l₁.length = i.count ∧
      l₁.length + 1 < a.range.length ∧ l₁.length < a.count.length := by
  obtain ⟨h₁, -, h₂⟩ := path_split.1 h.path
  have hstart : l₁.length = (l₁.map Interval.start).length := by simp
  have hcount : l₁.length = (l₁.map Interval.count).length := by simp
  have hnot : i.start ∉ l₁.map Interval.start := fun hmem => Nat.lt_irrefl _ (h₁.start_lt hmem)
  rw [← h.table, withTable_split a i h₂]
  refine ⟨?_, ?_, ?_, ?_, by simp, by simp⟩
  · rw [List.idxOf_append_of_notMem hnot, List.idxOf_cons_self, Nat.add_zero, hstart]
  · rw [hstart]
    exact deref_append ..
  · rw [hstart]
    exact deref_append_succ ..
  · rw [hcount]
    exact deref_append ..

/-- The interval of an object that is in memory. -/
theorem Rep.busy (h : Rep hi l a) {d : Data} (hd : a.data addr = some d) :
    ∃ l₁ i l₂, l = l₁ ++ i :: l₂ ∧ i.start = addr ∧ i.count ≠ 0 := by
  obtain ⟨i, hi, hstart, hcount⟩ := (h.keys addr).1 (by rw [hd]; rfl)
  obtain ⟨l₁, l₂, rfl⟩ := List.append_of_mem hi
  exact ⟨l₁, i, l₂, rfl, hstart, hcount⟩

/-- An interval that is found. -/
theorem Rep.present_iff (h : Rep hi l a) (hsize : 0 < size) :
    a.Present addr size ↔ ∃ i ∈ l, i.start = addr ∧ i.stop = addr + size := by
  constructor
  · rintro ⟨hfound, hnext, hdiff⟩
    have hmem : addr ∈ l.map Interval.start := by
      rw [← h.table] at hfound hnext
      refine not_not.1 fun hnot => ?_
      simp only [Asset.withTable, bounds, List.idxOf_append_of_notMem hnot, List.length_append,
        List.length_singleton] at hfound hnext
      rcases eq_or_ne addr hi with rfl | hne
      · exact hnext (by simp)
      · exact hfound (by rw [List.idxOf_of_notMem (by simpa using hne), List.length_singleton])
    obtain ⟨i, hi, rfl⟩ := List.mem_map.1 hmem
    obtain ⟨l₁, l₂, rfl⟩ := List.append_of_mem hi
    obtain ⟨hplace, hstart, hstop, -, -, -⟩ := h.place
    rw [hplace, hstart, hstop] at hdiff
    exact ⟨i, hi, rfl, by omega⟩
  · rintro ⟨i, hi, rfl, hlen⟩
    obtain ⟨l₁, l₂, rfl⟩ := List.append_of_mem hi
    obtain ⟨hplace, hstart, hstop, -, hlt, -⟩ := h.place
    refine ⟨by omega, by omega, ?_⟩
    rw [hplace, hstart, hstop]
    omega

/-- An interval that is found lies in the address space. -/
theorem Rep.present_le (h : Rep hi l a) (hsize : 0 < size) (hpresent : a.Present addr size) :
    addr + size ≤ hi := by
  obtain ⟨i, hi, rfl, hstop⟩ := (h.present_iff hsize).1 hpresent
  have := h.path.mem_bounds hi
  omega

/-- The check succeeds for the size that the object has. -/
theorem Rep.checked (h : Rep hi (l₁ ++ i :: l₂) a) (hcount : i.count ≠ 0) (size : Nat) :
    a.checked i.start size =
      if i.stop = i.start + size then .ok l₁.length
        else .error (.runtimeError "range size mismatch") := by
  obtain ⟨hfound, -, hstop, hat, -, -⟩ := h.place
  obtain ⟨-, hlt, -⟩ := path_split.1 h.path
  simp only [Asset.checked, hfound, hstop, hat, hcount, if_false]
  split_ifs <;> first | rfl | omega

theorem deref_modify {L : List Nat} {n : Nat} (hn : n < L.length) (f : Nat → Nat) :
    deref (L.modify n f) n = f (deref L n) := by
  simp [deref, hn]

theorem Rep.modify_eq (h : Rep hi (l₁ ++ i :: l₂) a) (f : Nat → Nat) :
    { a with count := a.count.modify l₁.length f } =
      a.withTable (l₁ ++ ⟨i.start, i.stop, f i.count⟩ :: l₂) hi := by
  have hlen : l₁.length = (l₁.map Interval.count).length := by simp
  rw [← h.table]
  simp only [Asset.withTable, bounds, List.map_append, List.map_cons, hlen, modify_append_length]

/-- The count of an interval is changed, and it is as much in use as before. -/
theorem Rep.recount (h : Rep hi (l₁ ++ i :: l₂) a) {n : Nat} (hcount : i.count ≠ 0) (hn : n ≠ 0) :
    Rep hi (l₁ ++ ⟨i.start, i.stop, n⟩ :: l₂)
      (a.withTable (l₁ ++ ⟨i.start, i.stop, n⟩ :: l₂) hi) := by
  obtain ⟨h₁, hlt, h₂⟩ := path_split.1 h.path
  refine ⟨path_split.2 ⟨h₁, hlt, h₂⟩, h.separated.recount hn, rfl, fun x => ?_⟩
  have hkeys := h.keys x
  simp only [busy_append, busy_cons] at hkeys ⊢
  simp only [Asset.withTable, hkeys, hcount, hn, ne_eq, not_false_eq_true]

/-- `getPtr` checks the address and the owner before it looks at the table. -/
theorem getPtr_cases (sp : Space) (a : Asset) (owner : Bool) (current : Option Nat) (addr : Nat)
    (hsize : 0 < size) :
    (∃ e, a.getPtr sp owner current addr size = (.error e, a)) ∨
      (owner = true ∧ addr ≠ sp.null ∧ addr + size ≤ sp.max + 1) ∧
        a.getPtr sp owner current addr size = a.access current addr size := by
  unfold Asset.getPtr
  split
  next => exact .inl ⟨_, rfl⟩
  next hnull =>
    split
    next => exact .inl ⟨_, rfl⟩
    next hfits =>
      cases owner with
      | false => exact .inl ⟨_, rfl⟩
      | true => exact .inr ⟨⟨rfl, hnull, by omega⟩, rfl⟩

/-- An `Idx` that has not been accessed becomes one more user of an object that is in memory,
unless the object has another size. -/
theorem Rep.access_shared (h : Rep hi l a) {d : Data} (hd : a.data addr = some d) (size : Nat) :
    held l addr (addr + size) = 0 ∧
        a.access none addr size = (.error (.runtimeError "range size mismatch"), a) ∨
      ∃ l', a.access none addr size = (.ok d.current, a.withTable l' hi) ∧
        Rep hi l' (a.withTable l' hi) ∧ Gains l l' addr (addr + size) := by
  obtain ⟨l₁, i, l₂, rfl, rfl, hcount⟩ := h.busy hd
  have hchecked := h.checked hcount size
  split at hchecked
  next hstop =>
    refine .inr ⟨l₁ ++ ⟨i.start, i.stop, i.count + 1⟩ :: l₂, ?_, ?_, ?_⟩
    · simp only [Asset.access, hd, hchecked]
      rw [h.modify_eq]
    · exact h.recount hcount (Nat.succ_ne_zero _)
    · exact hstop ▸ Gains.recount rfl rfl rfl
  next hstop =>
    refine .inl ⟨?_, ?_⟩
    · rw [h.path.held_start, if_neg hstop]
    · simp only [Asset.access, hd, hchecked]

/-- An `Idx` that has not been accessed creates an object that is not in memory. -/
theorem access_new (size : Nat) (hd : a.data addr = none) :
    a.access none addr size = a.createNode addr size := by
  simp only [Asset.access, hd]

/-- `getPtr` throws and changes nothing, or it returns the buffer that the `Idx` has, or the object
is created, or the `Idx` becomes one more user of it. -/
theorem Rep.getPtr {sp : Space} (h : Rep (sp.max + 1) l a) (owner : Bool) (current : Option Nat)
    (addr : Nat) (hsize : 0 < size) :
    (∃ e, a.getPtr sp owner current addr size = (.error e, a)) ∨
      (owner = true ∧ addr ≠ sp.null) ∧
        ((∃ ptr, current = some ptr ∧ a.Present addr size ∧
            a.getPtr sp owner current addr size = (.ok ptr, a)) ∨
          ∃ l', Gains l l' addr (addr + size) ∧
          Rep (sp.max + 1) l' (a.getPtr sp owner current addr size).2 ∧
            (a.data addr = none ∧
                a.getPtr sp owner current addr size =
                  (a.withTable l' (sp.max + 1)).read addr size ∨
              ∃ d, a.data addr = some d ∧ current = none ∧
                a.getPtr sp owner current addr size =
                  (.ok d.current, a.withTable l' (sp.max + 1)))) := by
  rcases getPtr_cases sp a owner current addr hsize with herror | ⟨⟨howner, hnull, hfits⟩, hget⟩
  · exact .inl herror
  · have hcreate (heq : a.access current addr size = a.createNode addr size) :
        (∃ e, a.access current addr size = (.error e, a)) ∨
          ∃ l', Gains l l' addr (addr + size) ∧
            Rep (sp.max + 1) l' (a.access current addr size).2 ∧
            a.data addr = none ∧
            a.access current addr size = (a.withTable l' (sp.max + 1)).read addr size := by
      rw [heq]
      rcases h.createNode hsize hfits with herror | ⟨l', heq', hrep, hgains, hnone⟩
      · exact .inl ⟨_, herror⟩
      · exact .inr ⟨l', hgains, hrep, hnone, heq'⟩
    rw [hget]
    cases current with
    | none =>
      cases hd : a.data addr with
      | none =>
        rcases hcreate (access_new size hd) with herror | ⟨l', hgains, hrep, -, heq⟩
        · exact .inl herror
        · exact .inr ⟨⟨howner, hnull⟩, .inr ⟨l', hgains, hrep, .inl ⟨rfl, heq⟩⟩⟩
      | some d =>
        rcases h.access_shared hd size with ⟨-, herror⟩ | ⟨l', heq, hrep, hgains⟩
        · exact .inl ⟨_, herror⟩
        · exact .inr ⟨⟨howner, hnull⟩, .inr ⟨l', hgains, heq ▸ hrep, .inr ⟨d, rfl, rfl, heq⟩⟩⟩
    | some ptr =>
      rcases Classical.em (a.Present addr size) with hpresent | hnot
      · exact .inr ⟨⟨howner, hnull⟩, .inl ⟨ptr, rfl, hpresent, if_neg (not_not.2 hpresent)⟩⟩
      · rcases hcreate (if_pos hnot) with herror | ⟨l', hgains, hrep, hnone, heq⟩
        · exact .inl herror
        · exact .inr ⟨⟨howner, hnull⟩, .inr ⟨l', hgains, hrep, .inl ⟨hnone, heq⟩⟩⟩

/-- An access through an `Idx` that has been accessed before succeeds exactly if its
object fits. -/
theorem Rep.access_ok_iff (h : Rep hi l a) (hsize : 0 < size) (hfits : addr + size ≤ hi)
    (ptr : Nat) :
    (∃ ptr', (a.access (some ptr) addr size).1 = .ok ptr') ↔ Fits l addr (addr + size) := by
  obtain ⟨l₁, i, l₂, rfl, hstart, hstop⟩ := h.path.exists_mem (Nat.zero_le addr) (by omega)
  have hi : i ∈ l₁ ++ i :: l₂ := List.mem_append_right _ (.head _)
  have hcreate := createNode_eq a size h.path hstart hstop
  rw [h.table] at hcreate
  constructor
  · rintro ⟨ptr', hok⟩
    simp only [Asset.access] at hok
    split at hok
    next hnot =>
      rw [hcreate] at hok
      split at hok
      next => cases hok
      next hfree =>
        obtain ⟨hle, hidle⟩ := not_or.1 hfree
        exact ⟨i, hi, hstart, Nat.not_lt.1 hle, fun hcount => absurd hcount hidle⟩
    next hpresent =>
      obtain ⟨j, hj, hjstart, hjstop⟩ := (h.present_iff hsize).1 (not_not.1 hpresent)
      exact ⟨j, hj, Nat.le_of_eq hjstart, Nat.le_of_eq hjstop.symm, fun _ => ⟨hjstart, hjstop⟩⟩
  · rintro ⟨j, hj, hjstart, hjstop, hbusy⟩
    simp only [Asset.access]
    split
    next hnot =>
      -- the interval of the object is idle, so that it can be cut
      have hidle : j.count = 0 := not_not.1 fun hcount =>
        hnot ((h.present_iff hsize).2 ⟨j, hj, hbusy hcount⟩)
      obtain rfl : j = i := by
        rcases h.path.apart hj hi with heq | hapart
        · exact heq
        · omega
      rw [hcreate, if_neg (not_or.2 ⟨Nat.not_lt.2 hjstop, not_not.2 hidle⟩)]
      exact ⟨_, rfl⟩
    next => exact ⟨ptr, rfl⟩

/-! ## Giving an object back -/

theorem mergeAfter_withTable (a : Asset) (hidle : i.count = 0) (h : Path i.stop l₂ hi) :
    (a.withTable (l₁ ++ i :: l₂) hi).mergeAfter l₁.length =
      a.withTable (l₁ ++ absorb i l₂) hi := by
  have hstart : l₁.length = (l₁.map Interval.start).length := by simp
  have hcount : l₁.length = (l₁.map Interval.count).length := by simp
  cases l₂ with
  | nil =>
    -- the count behind the last one is read here
    rw [absorb, Asset.mergeAfter, if_neg]
    simp [Asset.withTable, deref]
  | cons k l₂ =>
    obtain ⟨-, -, h₂⟩ := id h
    have hat : deref (a.withTable (l₁ ++ i :: k :: l₂) hi).count (l₁.length + 1) = k.count := by
      simp only [Asset.withTable, List.map_append, List.map_cons]
      rw [hcount, deref_append_succ]
    rcases eq_or_ne k.count 0 with hzero | hne
    · have herase :
          ((l₁.map Interval.start) ++ i.start :: i.stop :: k.stop :: l₂.map Interval.stop).eraseIdx
          (l₁.length + 1) = l₁.map Interval.start ++ i.start :: k.stop ::
            l₂.map Interval.stop := by
        rw [hstart, eraseIdx_append_succ]
      have herase' : ((l₁.map Interval.count) ++ 0 :: k.count :: l₂.map Interval.count).eraseIdx
          (l₁.length + 1) = l₁.map Interval.count ++ 0 :: l₂.map Interval.count := by
        rw [hcount, eraseIdx_append_succ]
      rw [absorb, if_pos hzero, Asset.mergeAfter, if_pos (hat.trans hzero),
        withTable_split a ⟨i.start, k.stop, 0⟩ h₂, withTable_split a i h]
      simp only [List.map_cons, herase, herase', hidle]
    · rw [absorb, if_neg hne, Asset.mergeAfter, if_neg (hat ▸ hne)]

theorem mergeBefore_withTable (a : Asset) {j : Interval} (hidle : i.count = 0)
    (h : Path i.stop l₂ hi) :
    (a.withTable ((l₁ ++ [j]) ++ i :: l₂) hi).mergeBefore (l₁ ++ [j]).length =
      if j.count = 0 then a.withTable (l₁ ++ absorb j (i :: l₂)) hi
      else a.withTable ((l₁ ++ [j]) ++ i :: l₂) hi := by
  have hstart : (l₁ ++ [j]).length = ((l₁ ++ [j]).map Interval.start).length := by simp
  have hcount : (l₁ ++ [j]).length = ((l₁ ++ [j]).map Interval.count).length := by simp
  have hne : (l₁ ++ [j]).length ≠ 0 := by simp
  have hat : deref (a.withTable ((l₁ ++ [j]) ++ i :: l₂) hi).count ((l₁ ++ [j]).length - 1) =
      j.count := by
    simp [Asset.withTable, deref]
  simp only [Asset.mergeBefore, hat, hne, ne_eq, not_false_eq_true, true_and]
  refine ite_congr rfl (fun hj => ?_) fun _ => rfl
  rw [absorb, if_pos hidle, withTable_split a i h, withTable_split a ⟨j.start, i.stop, 0⟩ h,
    hstart, eraseIdx_append_length, ← hstart, hcount, eraseIdx_append_length]
  simp [hj]

/-- An interval that has become idle is joined with its neighbours. -/
theorem merge_withTable (a : Asset) (h : Path 0 (l₁ ++ i :: l₂) hi) (hidle : i.count = 0) :
    ((a.withTable (l₁ ++ i :: l₂) hi).mergeAfter l₁.length).mergeBefore l₁.length =
      a.withTable (merge l₁ i l₂) hi := by
  obtain ⟨h₁, hlt, h₂⟩ := path_split.1 h
  rw [mergeAfter_withTable a hidle h₂]
  rcases List.eq_nil_or_concat' l₁ with rfl | ⟨l₁, j, rfl⟩
  · rfl
  · obtain ⟨i', m, heq, -, hidle'⟩ := absorb_eq_cons hidle l₂
    have hpath : Path i.start (absorb i l₂) hi := path_absorb ⟨rfl, hlt, h₂⟩
    rw [heq] at hpath
    obtain ⟨-, -, hm⟩ := hpath
    rw [merge_concat, heq, mergeBefore_withTable a hidle' hm]
    split
    next => rfl
    next => rw [List.append_assoc, List.singleton_append]

/-- `dispose` at an interval that is idle or has another size. -/
theorem Rep.dispose_ignored (h : Rep hi (l₁ ++ i :: l₂) a)
    (hnot : i.count = 0 ∨ i.stop ≠ i.start + size) : a.dispose i.start size = (.ignored, a) := by
  obtain ⟨hfound, -, hstop, hat, hlt, -⟩ := h.place
  obtain ⟨-, hlt', -⟩ := path_split.1 h.path
  simp only [Asset.dispose, hfound, hstop, hat]
  rw [if_neg (by omega), if_pos (by omega)]

/-- `dispose` at an interval that others use too. -/
theorem Rep.dispose_shared (h : Rep hi (l₁ ++ i :: l₂) a) (hstop : i.stop = i.start + size)
    (hcount : 1 < i.count) :
    a.dispose i.start size =
      (.released, a.withTable (l₁ ++ ⟨i.start, i.stop, i.count - 1⟩ :: l₂) hi) := by
  obtain ⟨hfound, -, hat', hat, hlt, hlt'⟩ := h.place
  simp only [Asset.dispose, hfound, hat', hat, deref_modify hlt']
  rw [if_neg (by omega), if_neg (by omega), if_neg (by omega), if_pos (by omega), h.modify_eq]

/-- `dispose` at an interval that nobody else uses. -/
theorem Rep.dispose_last (h : Rep hi (l₁ ++ i :: l₂) a) (hstop : i.stop = i.start + size)
    (hcount : i.count = 1) :
    a.dispose i.start size =
      (a.withTable (merge l₁ ⟨i.start, i.stop, 0⟩ l₂) hi).writeBack i.start := by
  obtain ⟨hfound, -, hat', hat, hlt, hlt'⟩ := h.place
  obtain ⟨hpath₁, hlt'', hpath₂⟩ := path_split.1 h.path
  have hpath : Path 0 (l₁ ++ ⟨i.start, i.stop, 0⟩ :: l₂) hi := path_split.2 ⟨hpath₁, hlt'', hpath₂⟩
  simp only [Asset.dispose, hfound, hat', hat, deref_modify hlt']
  rw [if_neg (by omega), if_neg (by omega), if_neg (by omega), if_neg (by omega), h.modify_eq,
    hcount, merge_withTable a hpath rfl]

/-- What is left of the table then. -/
theorem Rep.merge (h : Rep hi (l₁ ++ i :: l₂) a) (hcount : i.count = 1) :
    Rep hi (merge l₁ ⟨i.start, i.stop, 0⟩ l₂)
      ((a.withTable (merge l₁ ⟨i.start, i.stop, 0⟩ l₂) hi).writeBack i.start).2 := by
  obtain ⟨hpath₁, hlt, hpath₂⟩ := path_split.1 h.path
  have hpath : Path 0 (l₁ ++ ⟨i.start, i.stop, 0⟩ :: l₂) hi := path_split.2 ⟨hpath₁, hlt, hpath₂⟩
  obtain ⟨hsep₁, hsep₂, -⟩ := separated_split h.separated
  have hsome : (a.data i.start).isSome := by
    rw [h.keys]
    exact ⟨i, List.mem_append_right _ (.head _), rfl, by omega⟩
  obtain ⟨d, hd⟩ := Option.isSome_iff_exists.1 hsome
  simp only [Asset.writeBack, Asset.withTable, hd]
  refine ⟨hpath.merge, separated_merge hsep₁ hsep₂, rfl, fun x => ?_⟩
  have hkeys := h.keys x
  rw [busy_merge rfl]
  rcases eq_or_ne x i.start with rfl | hne
  · simp [h.path.not_busy_others]
  · simp only [Function.update_of_ne hne, hkeys, busy_append, busy_cons, hne.symm, false_and,
      false_or]

/-- Behind the last interval there is nothing to be given back. The last bound is found though, and
`dispose` gets past its check where the table is as long as the end of the object. -/
theorem Rep.dispose_outside (h : Rep hi l a) (hhi : 0 < hi) (haddr : hi ≤ addr)
    (hsize : 0 < size) :
    a.dispose addr size =
      (if addr = hi ∧ a.range.length = hi + size then .undefined else .ignored, a) := by
  have hnot : addr ∉ l.map Interval.start := fun hmem =>
    absurd (h.path.start_lt hmem) (Nat.not_lt.2 haddr)
  have hne : l ≠ [] := by
    rintro rfl
    exact absurd h.path (Nat.ne_of_lt hhi)
  have hpos : 0 < l.length := List.length_pos_iff.2 hne
  rw [← h.table]
  simp only [Asset.dispose, Asset.withTable, bounds, List.idxOf_append_of_notMem hnot,
    List.length_append, List.length_map, List.length_singleton]
  rcases Nat.eq_or_lt_of_le haddr with rfl | hlt
  · have hlast : deref (l.map Interval.start ++ [hi]) (l.length + 1) = l.length + 1 := by
      simp [deref]
    have hcount : deref (l.map Interval.count) l.length = l.length := by simp [deref]
    simp only [List.idxOf_cons_self, Nat.add_zero, hlast, hcount, true_and]
    split_ifs <;> first | rfl | omega
  · rw [List.idxOf_of_notMem (by simpa using Nat.ne_of_gt hlt), List.length_singleton, if_pos rfl,
      if_neg fun heq => Nat.ne_of_gt hlt heq.1]

/-- `dispose` is ignored unless the object is in use. Otherwise it has one user less afterwards,
and the last one writes it back. -/
theorem Rep.dispose (h : Rep hi l a) (haddr : addr < hi) (size : Nat) :
    held l addr (addr + size) = 0 ∧ a.dispose addr size = (.ignored, a) ∨
      ∃ l', Rep hi l' (a.dispose addr size).2 ∧ Gains l' l addr (addr + size) ∧
        (1 < held l addr (addr + size) ∧ a.dispose addr size = (.released, a.withTable l' hi) ∨
          held l addr (addr + size) = 1 ∧
            a.dispose addr size = (a.withTable l' hi).writeBack addr) := by
  rcases h.find haddr with ⟨l₁, i, l₂, rfl, rfl⟩ | ⟨hfound, hno⟩
  · rw [h.path.held_start]
    rcases eq_or_ne i.stop (i.start + size) with hstop | hstop
    · rw [if_pos hstop]
      rcases Nat.lt_trichotomy i.count 1 with hcount | hcount | hcount
      · exact .inl ⟨by omega, h.dispose_ignored (.inl (by omega))⟩
      · have heq := h.dispose_last hstop hcount
        exact .inr ⟨_, heq ▸ h.merge hcount, hstop ▸ gains_merge rfl hcount, .inr ⟨hcount, heq⟩⟩
      · have heq := h.dispose_shared hstop hcount
        refine .inr ⟨_, ?_, ?_, .inl ⟨hcount, heq⟩⟩
        · rw [heq]
          exact h.recount (by omega) (by omega)
        · exact hstop ▸ Gains.recount rfl rfl (Nat.sub_add_cancel (Nat.le_of_lt hcount)).symm
    · rw [if_neg hstop]
      exact .inl ⟨rfl, h.dispose_ignored (.inr hstop)⟩
  · exact .inl ⟨held_eq_zero hno, if_pos hfound⟩

end

/-! ## The buffers -/

/-- The objects in memory after one has been read. -/
theorem data_read (a : Asset) (addr size addr' : Nat) (d : Data) :
    (a.read addr size).2.data addr' = some d ↔
      addr' = addr ∧ d = ⟨a.buffers.length, slice a.device addr size⟩ ∨
        addr' ≠ addr ∧ a.data addr' = some d := by
  rcases eq_or_ne addr' addr with rfl | hne
  · simp [Asset.read, eq_comm]
  · simp [Asset.read, hne]

/-- The objects in memory after one has been written back. -/
theorem data_writeBack {a : Asset} {addr : Nat} {d : Data} (hd : a.data addr = some d)
    (addr' : Nat) (d' : Data) :
    (a.writeBack addr).2.data addr' = some d' ↔ addr' ≠ addr ∧ a.data addr' = some d' := by
  rcases eq_or_ne addr' addr with rfl | hne
  · simp [Asset.writeBack, hd]
  · simp [Asset.writeBack, hd, hne]

/-- Each object in memory has a buffer of its own. -/
structure Owned (a : Asset) : Prop where
  ptr_lt : ∀ addr d, a.data addr = some d → d.current < a.buffers.length
  ptr_inj : ∀ addr d addr' d', a.data addr = some d → a.data addr' = some d' →
    d.current = d'.current → addr = addr'

section
variable {a : Asset} {addr : Nat}

theorem Owned.withTable (h : Owned a) (l : List Interval) (hi : Nat) : Owned (a.withTable l hi) :=
  ⟨h.ptr_lt, h.ptr_inj⟩

theorem Owned.read (h : Owned a) (addr size : Nat) : Owned (a.read addr size).2 := by
  constructor
  · intro addr' d hd
    simp only [Asset.read, List.length_append]
    rcases (data_read _ _ _ _ _).1 hd with ⟨-, rfl⟩ | ⟨-, hd⟩
    · exact Nat.lt_succ_self _
    · exact Nat.lt_succ_of_lt (h.ptr_lt addr' d hd)
  · intro addr₁ d₁ addr₂ d₂ hd₁ hd₂ heq
    rcases (data_read _ _ _ _ _).1 hd₁ with ⟨h₁, rfl⟩ | ⟨-, hd₁⟩ <;>
      rcases (data_read _ _ _ _ _).1 hd₂ with ⟨h₂, rfl⟩ | ⟨-, hd₂⟩
    · exact h₁.trans h₂.symm
    · exact absurd heq (Nat.ne_of_gt (h.ptr_lt _ _ hd₂))
    · exact absurd heq (Nat.ne_of_lt (h.ptr_lt _ _ hd₁))
    · exact h.ptr_inj _ _ _ _ hd₁ hd₂ heq

theorem buffers_writeBack (a : Asset) (addr : Nat) : (a.writeBack addr).2.buffers = a.buffers := by
  unfold Asset.writeBack
  cases a.data addr <;> rfl

theorem Owned.writeBack (h : Owned a) {d : Data} (hd : a.data addr = some d) :
    Owned (a.writeBack addr).2 := by
  have hdata := data_writeBack hd
  constructor
  · intro addr' d' hd'
    rw [buffers_writeBack]
    exact h.ptr_lt addr' d' ((hdata _ _).1 hd').2
  · intro addr₁ d₁ addr₂ d₂ hd₁ hd₂ heq
    exact h.ptr_inj _ _ _ _ ((hdata _ _).1 hd₁).2 ((hdata _ _).1 hd₂).2 heq

theorem Owned.write (h : Owned a) (ptr off : Nat) (bytes : List UInt8) :
    Owned (a.write ptr off bytes) := by
  refine ⟨fun addr d hd => ?_, h.ptr_inj⟩
  simpa [Asset.write] using h.ptr_lt addr d hd

end

/-! ## Sequences of operations -/

/-- An object inside of the address space. -/
structure Object (sp : Space) where
  addr : Nat
  size : Nat
  size_pos : 0 < size
  fits : addr + size ≤ sp.max + 1

/-- The operations on the table, and the writes to the objects between them. -/
inductive Op (sp : Space)
  | createNode (o : Object sp)
  | getPtr (owner : Bool) (current : Option Nat) (o : Object sp)
  | getRefCount (o : Object sp)
  | dispose (o : Object sp)
  | write (ptr off : Nat) (bytes : List UInt8)

def thrown : Except Exception Nat → List Exception
  | .ok _ => []
  | .error e => [e]

/-- What an operation throws is its output. -/
def machine (sp : Space) : Machine Asset (Op sp) Exception where
  step a
    | .createNode o =>
      let r := a.createNode o.addr o.size
      (r.2, thrown r.1)
    | .getPtr owner current o =>
      let r := a.getPtr sp owner current o.addr o.size
      (r.2, thrown r.1)
    | .getRefCount o => (a, thrown (a.getRefCount o.addr o.size))
    | .dispose o => ((a.dispose o.addr o.size).2, [])
    | .write ptr off bytes => (a.write ptr off bytes, [])

/-- The bounds increase from 0 to `Max + 1`, each interval has a count, no two neighbours are both
idle, and the objects in memory are those whose intervals are in use. -/
structure Valid (sp : Space) (a : Asset) : Prop where
  increasing : a.range.Pairwise (· < ·)
  first : a.range.head? = some 0
  last : a.range.getLast? = some (sp.max + 1)
  counts : a.range.length = a.count.length + 1
  separated : a.count.IsChain fun c d => c ≠ 0 ∨ d ≠ 0
  keys : ∀ addr, (a.data addr).isSome ↔ ∃ c, (addr, c) ∈ a.range.zip a.count ∧ 0 < c

section
variable {sp : Space} {l : List Interval} {a : Asset}

theorem zip_bounds (l : List Interval) (hi : Nat) :
    (bounds l hi).zip (l.map Interval.count) = l.map fun i => (i.start, i.count) := by
  induction l with
  | nil => rfl
  | cons i l ih => exact congrArg ((i.start, i.count) :: ·) ih

theorem Rep.valid (h : Rep (sp.max + 1) l a) : Valid sp a := by
  have hrange : a.range = bounds l (sp.max + 1) := by
    rw [← h.table]
    rfl
  have hcount : a.count = l.map Interval.count := by
    rw [← h.table]
    rfl
  constructor
  · rw [hrange]
    exact h.path.bounds_pairwise
  · rw [hrange, h.path.bounds_eq]
    rfl
  · rw [hrange, bounds, List.getLast?_concat]
  · simp [hrange, hcount, bounds]
  · rw [hcount]
    exact (List.isChain_map _).2 h.separated
  · intro addr
    rw [h.keys, hrange, hcount, zip_bounds]
    simp [Busy, Nat.pos_iff_ne_zero, and_assoc]

theorem rep_init (sp : Space) (device : Nat → UInt8) :
    Rep (sp.max + 1) [⟨0, sp.max + 1, 0⟩] (Asset.init sp device) := by
  refine ⟨⟨rfl, Nat.succ_pos _, rfl⟩, List.isChain_singleton _, rfl, fun addr => ?_⟩
  simp [Asset.init]

/-- An operation that returns a pointer keeps the table valid, and changes nothing if it throws. -/
def Keeps (sp : Space) (a : Asset) (r : Except Exception Nat × Asset) : Prop :=
  (∃ l, Rep (sp.max + 1) l r.2) ∧ (thrown r.1 ≠ [] → r.2 = a)

theorem keeps_of_eq {e : Except Exception Nat} (h : Rep (sp.max + 1) l a) : Keeps sp a (e, a) :=
  ⟨⟨l, h⟩, fun _ => rfl⟩

theorem keeps_of_ok {r : Except Exception Nat × Asset} {ptr : Nat} (h : Rep (sp.max + 1) l r.2)
    (hok : r.1 = .ok ptr) : Keeps sp a r := by
  refine ⟨⟨l, h⟩, fun hthrown => ?_⟩
  rw [hok] at hthrown
  exact absurd rfl hthrown

theorem Rep.keeps_createNode (h : Rep (sp.max + 1) l a) (o : Object sp) :
    Keeps sp a (a.createNode o.addr o.size) := by
  rcases h.createNode o.size_pos o.fits with heq | ⟨l', heq, hrep, -, -⟩
  · rw [heq]
    exact keeps_of_eq h
  · exact keeps_of_ok hrep (congrArg Prod.fst heq)

theorem Rep.keeps_getPtr (h : Rep (sp.max + 1) l a) (owner : Bool) (current : Option Nat)
    (o : Object sp) :
    Keeps sp a (a.getPtr sp owner current o.addr o.size) := by
  rcases h.getPtr owner current o.addr o.size_pos with ⟨e, heq⟩ |
    ⟨-, ⟨ptr, -, -, heq⟩ | ⟨l', -, hrep, heq⟩⟩
  · rw [heq]
    exact keeps_of_eq h
  · rw [heq]
    exact keeps_of_eq h
  · rcases heq with ⟨-, heq⟩ | ⟨d, -, -, heq⟩
    · exact keeps_of_ok hrep (congrArg Prod.fst heq)
    · exact keeps_of_ok hrep (congrArg Prod.fst heq)

/-- One step: the table stays valid, and a step that throws changes nothing. -/
theorem Rep.step (h : Rep (sp.max + 1) l a) (op : Op sp) :
    (∃ l', Rep (sp.max + 1) l' ((machine sp).step a op).1) ∧
      (((machine sp).step a op).2 ≠ [] → ((machine sp).step a op).1 = a) := by
  cases op with
  | createNode o => exact h.keeps_createNode o
  | getPtr owner current o => exact h.keeps_getPtr owner current o
  | getRefCount o => exact ⟨⟨l, h⟩, fun _ => rfl⟩
  | dispose o =>
    have haddr : o.addr < sp.max + 1 :=
      Nat.lt_of_lt_of_le (Nat.lt_add_of_pos_right o.size_pos) o.fits
    refine ⟨?_, fun hne => absurd rfl hne⟩
    rcases h.dispose haddr o.size with ⟨-, heq⟩ | ⟨l', hrep, -, -⟩
    · refine ⟨l, ?_⟩
      simpa only [machine, heq] using h
    · exact ⟨l', hrep⟩
  | write ptr off bytes => exact ⟨⟨l, h.write ptr off bytes⟩, fun hne => absurd rfl hne⟩

/-- **The table is valid after every sequence of operations**, and an operation that throws
changes nothing of it. -/
theorem table_valid (sp : Space) (device : Nat → UInt8) (ops : List (Op sp)) :
    let a := (machine sp).run (Asset.init sp device) ops
    Valid sp a ∧ ∀ op, ((machine sp).step a op).2 ≠ [] → ((machine sp).step a op).1 = a := by
  have hinv : ∃ l, Rep (sp.max + 1) l ((machine sp).run (Asset.init sp device) ops) :=
    Machine.run_inv (C := fun _ _ => True) (I := fun a => ∃ l, Rep (sp.max + 1) l a)
      (fun _ op ⟨_, h⟩ _ => (h.step op).1) (Machine.along_of_mem fun _ _ _ => trivial)
      ⟨_, rep_init sp device⟩
  obtain ⟨l, h⟩ := hinv
  exact ⟨h.valid, fun op => (h.step op).2⟩

end

end ChargingPile.Idx
