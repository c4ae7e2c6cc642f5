import ChargingPile.Lib.Flash
import ChargingPile.Lib.Machine
import Mathlib.Algebra.Group.Int.Defs
import Mathlib.Algebra.Group.Nat.Defs

/-!
# Firmware download: what both ends share

`Ota::start` opens a download for one module (`applications/ota.cxx`), at the checkpoint the
persistent storage holds for the module and version, and hands it to an `OtaModule`. The two
modules, `OtaUpperModule` and `OtaLowerModule`, differ in how they reach their flash; the
bookkeeping is the same and is modelled here: the checkpoint (`getLastOffset`, `updateProgress`),
the stream with its retries (`OtaModule.rollback`) and the end of the download
(`OtaModule.finish`).

A download is about one module, so the storage is the one entry `conf.offsets[module]`. Versions
are of any type `V`; what the server has for a version is an `Image`, whose size need not be the
size the download was announced with.
-/

namespace ChargingPile.Ota

variable {V : Type}

/-! ## Data -/

/-- `Config::OTA::ModuleSpec`: the checkpoint of a module. -/
structure ModuleSpec (V : Type) where
  version : V
  offset : Nat
deriving DecidableEq

/-- `OtaError`. -/
inductive OtaError
  | updateFailed
  | downloadFailed
deriving DecidableEq

/-- What the server's file for a version holds. -/
structure Image where
  size : Nat
  byte : Nat → UInt8

/-- An image for every version that is small enough to follow a download by hand. -/
def sample (_ : Bool) : Image := ⟨3, fun i => UInt8.ofNat (i + 7)⟩

/-- What a download does that can be seen from outside: calls of the flash with their results,
checkpoints, the signals `onProgress`, `onError` and `onDone`, and, for the lower end, the
`Write` invocations sent and acknowledged. -/
inductive Output (V : Type)
  | erased (addr : Nat) (len : Int) (ok : Bool)
  | wrote (addr len : Nat) (ok : Bool)
  | saved (version : V) (offset : Nat)
  | progress (pos : Nat) (value : Option Int)
  | error (e : OtaError) (desc : String)
  | done
  | invoked (id addr len : Nat)
  | acknowledged (id : Nat)
deriving DecidableEq

/-- `OtaModule`: the target of the download, the checkpoint made last, and the variables of its
loop with the position of its stream. -/
structure OtaModule (V : Type) where
  version : V
  size : Int
  lastProgress : Nat
  offset : Nat
  currPos : Nat
  streamPos : Nat

/-! ## `Ota` -/

/-- `kCheckSize` of `Ota::updateProgress`. -/
def kCheckSize : Nat := 10 * 1024

/-- `Ota::getLastOffset`. -/
def getLastOffset [DecidableEq V] (spec : Option (ModuleSpec V)) (version : V) : Nat :=
  match spec with
  | none => 0
  | some spec => if spec.version = version then spec.offset else 0

/-- `Ota::start`: the module that is set going, if the module's own version `currVer` could be
read (`some`) and is another one. -/
def start [DecidableEq V] (spec : Option (ModuleSpec V)) (version : V) (size : Int)
    (currVer : Option V) : Option (OtaModule V) :=
  match currVer with
  | none => none
  | some currVer =>
    if currVer = version then none
    else
      let offset := getLastOffset spec version
      some
        { version := version
          size := size
          lastProgress := 0
          offset := offset
          currPos := offset
          streamPos := offset }

/-- `100 * pos / target.size` in the arithmetic of `int`: undefined if the product does not fit or
the size is zero. -/
def percent (pos : Nat) (size : Int) : Option Int :=
  if 100 * pos < 2 ^ 31 ∧ size ≠ 0 then some ((100 * pos : Int).tdiv size) else none

/-- What an update of the progress leaves: the storage, the module and what it emitted. -/
structure Update (V : Type) where
  spec : Option (ModuleSpec V)
  mod : OtaModule V
  outputs : List (Output V)

/-- `Ota::updateProgress`. -/
def updateProgress (spec : Option (ModuleSpec V)) (m : OtaModule V) (pos : Nat) : Update V :=
  let progress := Output.progress pos (percent pos m.size)
  if kCheckSize ≤ pos - m.lastProgress then
    let savedPos := pos - pos % kCheckSize
    ⟨some ⟨m.version, savedPos⟩, { m with lastProgress := savedPos },
      [.saved m.version savedPos, progress]⟩
  else ⟨spec, m, [progress]⟩

/-! ## `OtaModule` -/

/-- `IStream::readData` for a buffer of `len` bytes: what the stream returns from `pos` on, if it
has `n` bytes ready. -/
def Image.readData (img : Image) (pos len n : Nat) : List UInt8 :=
  slice img.byte pos (min (min n len) (img.size - pos))

namespace OtaModule

/-- The handler in `OtaModule::retryFetch`: wherever the failed read left the stream, it is put
back to the current position. -/
def rollback (m : OtaModule V) : OtaModule V := { m with streamPos := m.currPos }

/-- `currPos += recvedLen; setProgress(currPos);` -/
def advance (spec : Option (ModuleSpec V)) (m : OtaModule V) (recvedLen : Nat) : Update V :=
  updateProgress spec { m with currPos := m.currPos + recvedLen } (m.currPos + recvedLen)

/-- The end of the stream: the download is complete if it has the announced size. -/
def finish (m : OtaModule V) : Output V :=
  if m.currPos = m.size then .done else .error .downloadFailed "下载失败"

end OtaModule

/-! ## What the functions above do -/

theorem Image.readData_eq (img : Image) (pos len n : Nat) :
    img.readData pos len n = slice img.byte pos (img.readData pos len n).length := by
  simp [readData]

/-- What a started module begins with. -/
theorem start_eq_some [DecidableEq V] {spec : Option (ModuleSpec V)} {version : V} {size : Int}
    {currVer : Option V} {m : OtaModule V} (h : start spec version size currVer = some m) :
    m = ⟨version, size, 0, getLastOffset spec version, getLastOffset spec version,
      getLastOffset spec version⟩ := by
  unfold start at h
  split at h
  · cases h
  · split at h
    · cases h
    · exact (Option.some.inj h).symm

/-- A checkpoint of the version is where its download begins. -/
theorem getLastOffset_self [DecidableEq V] (version : V) (offset : Nat) :
    getLastOffset (some ⟨version, offset⟩) version = offset := by
  simp [getLastOffset]

/-- A download that begins anywhere but at zero begins at the checkpoint of its version. -/
theorem getLastOffset_ne_zero [DecidableEq V] {spec : Option (ModuleSpec V)} {version : V}
    (h : getLastOffset spec version ≠ 0) : spec = some ⟨version, getLastOffset spec version⟩ := by
  unfold getLastOffset at h ⊢
  split at h
  · exact absurd rfl h
  next s =>
    split at h
    next hv => simp [← hv]
    · exact absurd rfl h

section
variable (spec : Option (ModuleSpec V)) (m : OtaModule V) (n : Nat)

/-- An advance changes the position and the checkpoint made last, nothing else of the module. -/
theorem advance_mod : ∃ l, (m.advance spec n).mod =
    { m with currPos := m.currPos + n, lastProgress := l } := by
  unfold OtaModule.advance updateProgress
  dsimp only
  split
  · exact ⟨_, rfl⟩
  · exact ⟨m.lastProgress, rfl⟩

/-- An advance leaves the storage or saves a checkpoint of its version, a multiple of `kCheckSize`
that is not above the new position. -/
theorem advance_spec : (m.advance spec n).spec = spec ∨
    ∃ offset, (m.advance spec n).spec = some ⟨m.version, offset⟩ ∧ kCheckSize ∣ offset ∧
      offset ≤ m.currPos + n ∧ .saved m.version offset ∈ (m.advance spec n).outputs := by
  unfold OtaModule.advance updateProgress
  dsimp only
  split
  · exact .inr ⟨_, rfl, Nat.dvd_sub_mod _, Nat.sub_le _ _, List.mem_cons_self⟩
  · exact .inl rfl

/-- What an advance emits: perhaps a checkpoint, and then the progress. -/
theorem advance_outputs : ∃ saved : List (Output V),
    (saved = [] ∨ ∃ o, saved = [.saved m.version o]) ∧
      (m.advance spec n).outputs =
        saved ++ [Output.progress (m.currPos + n) (percent (m.currPos + n) m.size)] := by
  unfold OtaModule.advance updateProgress
  dsimp only
  split
  · exact ⟨_, .inr ⟨_, rfl⟩, rfl⟩
  · exact ⟨[], .inl rfl, rfl⟩

/-- An advance emits checkpoints and progress only. -/
theorem mem_advance {x : Output V} (hx : x ∈ (m.advance spec n).outputs) :
    (∃ o, x = .saved m.version o) ∨ ∃ pos value, x = .progress pos value := by
  obtain ⟨saved, hsaved, hout⟩ := advance_outputs spec m n
  rw [hout, List.mem_append, List.mem_singleton] at hx
  rcases hsaved with rfl | ⟨o, rfl⟩ <;> rcases hx with hx | rfl
  · cases hx
  · exact .inr ⟨_, _, rfl⟩
  · exact .inl ⟨o, List.mem_singleton.1 hx⟩
  · exact .inr ⟨_, _, rfl⟩

/-- A download ends well exactly if its position is its size. -/
theorem finish_eq_done : m.finish = .done ↔ m.currPos = m.size := by
  unfold OtaModule.finish
  split <;> simp [*]

end

/-! ## Chunks that are not on the flash -/

/-- How an output changes the list of failed chunks, as address and length: a write that fails
adds its chunk, one that succeeds takes it away, and a successful erase starts over. -/
def Output.mark (failed : List (Nat × Nat)) : Output V → List (Nat × Nat)
  | .wrote addr len false => (addr, len) :: failed
  | .wrote addr len true => failed.filter (· ≠ (addr, len))
  | .erased _ _ true => []
  | _ => failed

/-- The chunks whose write has failed since the last erase and that have not been written since. -/
def failedChunks (tr : List (Output V)) : List (Nat × Nat) := tr.foldl Output.mark []

@[simp] theorem failedChunks_append (tr l : List (Output V)) :
    failedChunks (tr ++ l) = l.foldl Output.mark (failedChunks tr) := List.foldl_append

/-- An advance has nothing to do with failed chunks. -/
@[simp] theorem foldl_mark_advance (spec : Option (ModuleSpec V)) (m : OtaModule V) (n : Nat)
    (l : List (Nat × Nat)) : (m.advance spec n).outputs.foldl Output.mark l = l := by
  obtain ⟨saved, hsaved, hout⟩ := advance_outputs spec m n
  rw [hout]
  rcases hsaved with rfl | ⟨o, rfl⟩ <;> rfl

/-- Neither has the end of the stream. -/
@[simp] theorem mark_finish (m : OtaModule V) (l : List (Nat × Nat)) : m.finish.mark l = l := by
  unfold OtaModule.finish
  split <;> rfl

end ChargingPile.Ota
