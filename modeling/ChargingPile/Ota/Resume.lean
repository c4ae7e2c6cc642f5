import ChargingPile.Ota.Upper

/-!
# Erasing for a download that is resumed

A download of the upper end that is resumed at a checkpoint erases the partition from the
checkpoint on, and relies on what is below. Checkpoints are multiples of `kCheckSize`, ten
kibibytes; the flash erases whole sectors of four. So every other checkpoint lies inside a sector,
and the erase takes the bytes of that sector below the checkpoint with it.
-/

namespace ChargingPile.Ota

/-! ## The flash -/

/-- `struct fal_partition`: where the partition begins on its device, and how long it is. -/
structure Partition where
  offset : Nat
  len : Nat

/-- The partition `download` in `FAL_PART_TABLE` of the upper end. -/
def download : Partition := ⟨1024 * 1024, 1024 * 1024⟩

/-- `fal_partition_erase`: the address and the length with which the device is called, unless the
range is refused. The arguments are unsigned words, and so are the sums. -/
def falPartitionErase (part : Partition) (addr : Nat) (size : Int) : Option (Nat × Nat) :=
  let size := (size % 2 ^ 32).toNat
  if part.len < (addr + size) % 2 ^ 32 then none else some (part.offset + addr, size)

/-- The size of a sector of the NOR flash. -/
def sectorSize : Nat := 4096

/-- The size of the chip (`nor_flash0`). -/
def chipSize : Nat := 8 * 1024 * 1024

/-- `sfud_erase` erases every sector that the range of `len` bytes from `start` touches,
among them the one of `x`. The chip takes of an address what it has room for, so that a long
range goes around. -/
def SectorErased (start len x : Nat) : Prop :=
  ∃ i < len, x / sectorSize = (start + i) % chipSize / sectorSize

/-- Erasing `size` bytes of the download partition from `addr` on destroys its byte `x`. -/
def Destroys (addr : Nat) (size : Int) (x : Nat) : Prop :=
  ∃ start len, falPartitionErase download addr size = some (start, len) ∧
    SectorErased start len (download.offset + x)

/-- The erase leaves the bytes below its address alone: it is refused, it is empty, or it begins at
an even multiple of `kCheckSize` and its size, which becomes unsigned, is positive. -/
def ErasesAbove (addr : Nat) (size : Int) : Prop :=
  download.len < (addr + size) % 2 ^ 32 ∨ size = 0 ∨ addr % (2 * kCheckSize) = 0 ∧ 0 < size

/-- Which erases from a multiple of `kCheckSize` on leave alone what is below. -/
theorem erasesAbove_iff {addr : Nat} {size : Int} (hdvd : kCheckSize ∣ addr)
    (haddr : addr < 2 ^ 31) (hlo : -2 ^ 31 ≤ addr + size) (hhi : addr + size < 2 ^ 31) :
    (∀ x < addr, ¬ Destroys addr size x) ↔ ErasesAbove addr size := by
  obtain ⟨k, hk⟩ := hdvd
  obtain ⟨len, hlen⟩ : ∃ len : Nat, (size % 2 ^ 32).toNat = len := ⟨_, rfl⟩
  simp only [Destroys, ErasesAbove, SectorErased, falPartitionErase, download, sectorSize,
    chipSize, kCheckSize, hlen] at hk ⊢
  refine ⟨fun h => ?_, ?_⟩
  · refine Classical.byContradiction fun hcond => ?_
    have hcall : ¬ 1024 * 1024 < (addr + len) % 2 ^ 32 := by omega
    have hsafe : ∀ x < addr, ∀ i < len,
        (1024 * 1024 + x) / 4096 ≠ (1024 * 1024 + addr + i) % (8 * 1024 * 1024) / 4096 :=
      fun x hx i hi heq => h x hx ⟨_, _, if_neg hcall, i, hi, heq⟩
    obtain hneg | hpos := Int.lt_or_le size 0
    · -- as an unsigned word the length goes around the chip to the first byte
      exact hsafe 0 (by omega) (8 * 1024 * 1024 - addr % (8 * 1024 * 1024)) (by omega) (by omega)
    · -- the address lies inside a sector
      exact hsafe (addr - addr % 4096) (by omega) 0 (by omega) (by omega)
  · rintro hcond x hx ⟨start, len', hcall, i, hi, hsec⟩
    split at hcall
    · cases hcall
    · cases hcall
      omega

/-! ## The checkpoints -/

namespace Upper

variable {V : Type}

/-- Checkpoints are multiples of `kCheckSize` that were saved, and a download that does not begin
at zero begins at one. -/
structure Checkpoints (tr : List (Output V)) (t : Upper V) : Prop where
  spec : ∀ s, t.spec = some s → kCheckSize ∣ s.offset ∧ .saved s.version s.offset ∈ tr
  erasing : ∀ m, t.pc = .erasing m → m.offset ≠ 0 →
    kCheckSize ∣ m.offset ∧ .saved m.version m.offset ∈ tr

/-- Steps that leave the storage alone and do not begin a download keep the checkpoints. -/
theorem Checkpoints.keep {tr out : List (Output V)} {t t' : Upper V} (h : Checkpoints tr t)
    (hspec : t'.spec = t.spec) (hpc : ∀ m, t'.pc = .erasing m → t.pc = .erasing m) :
    Checkpoints (tr ++ out) t' := by
  refine ⟨fun s hs => ?_, fun m hm hne => ?_⟩
  · obtain ⟨hd, hmem⟩ := h.spec s (hspec ▸ hs)
    exact ⟨hd, List.mem_append_left _ hmem⟩
  · obtain ⟨hd, hmem⟩ := h.erasing m (hpc m hm) hne
    exact ⟨hd, List.mem_append_left _ hmem⟩

section
variable [DecidableEq V] {image : V → Image}

/-- Each step of the upper end keeps the checkpoints in order. -/
theorem step_checkpoints {tr : List (Output V)} {t : Upper V} (h : Checkpoints tr t)
    (e : Event V) :
    Checkpoints (tr ++ (step image t e).2) (step image t e).1 := by
  cases e with
  | start version size currVer =>
    simp only [step]
    split
    next m hpc hs =>
      obtain rfl := start_eq_some hs
      simp only [List.append_nil]
      refine ⟨h.spec, ?_⟩
      rintro _ ⟨rfl⟩ hne
      exact h.spec _ (getLastOffset_ne_zero hne)
    · exact h.keep rfl fun _ => id
  | advance =>
    simp only [step]
    split
    next m n ok hpc =>
      rcases advance_spec t.spec m n with hspec | ⟨offset, hspec, hdvd, -, hmem⟩
      · exact h.keep hspec (by simp)
      · refine ⟨fun s hs => ?_, by simp⟩
        obtain rfl := Option.some.inj (hspec.symm.trans hs)
        exact ⟨hdvd, List.mem_append_right _ hmem⟩
    · exact h.keep rfl fun _ => id
  | noPartition | erase | raise | seekFails | write =>
    simp only [step]
    split <;> first | exact h.keep rfl fun _ => id | exact h.keep rfl (by simp)
  | fetch =>
    simp only [step]
    split
    · split <;> exact h.keep rfl (by simp)
    · exact h.keep rfl fun _ => id
  | powerFails => exact h.keep rfl (by simp [step])

/-- The checkpoints are in order at the end of every run. -/
theorem run_checkpoints (image : V → Image) (bytes : Nat → UInt8) (es : List (Event V)) :
    Checkpoints ((machine image).trace (boot bytes) es) ((machine image).run (boot bytes) es) :=
  Machine.trace_inv (C := fun _ _ => True) (Machine.along_of_mem fun _ _ _ => trivial)
    ⟨nofun, nofun⟩ fun _ _ e h _ => step_checkpoints h e

/-- Only the beginning of a download erases, from its offset on. -/
theorem erased_step {t : Upper V} {e : Event V} {addr : Nat} {len : Int} {ok : Bool}
    (h : .erased addr len ok ∈ (step image t e).2) : ∃ m, t.pc = .erasing m ∧ m.offset = addr := by
  cases e with
  | erase fault =>
    simp only [step] at h
    split at h
    next m hpc =>
      simp only [List.mem_singleton, Output.erased.injEq] at h
      exact ⟨m, hpc, h.1.symm⟩
    next m junk hpc =>
      simp only [List.mem_cons, Output.erased.injEq, reduceCtorEq, List.not_mem_nil, or_false] at h
      exact ⟨m, hpc, h.1.symm⟩
    · cases h
  | fetch n =>
    simp only [step] at h
    split at h
    · split at h
      · unfold OtaModule.finish at h
        split at h <;> simp at h
      · cases h
    · cases h
  | advance =>
    simp only [step] at h
    split at h
    · rcases mem_advance _ _ _ h with ⟨_, h0⟩ | ⟨_, _, h0⟩ <;> cases h0
    · cases h
  | start | noPartition | raise | seekFails | write =>
    simp only [step] at h
    split at h <;> simp at h
  | powerFails => cases h

/-- **What the erase of a resumed download leaves alone.** Whenever a run of the upper end erases
from an address other than zero on, the address is a checkpoint that was saved before, and no byte
below it is destroyed exactly if the erase is refused or empty, or the checkpoint is an even
multiple of `kCheckSize` and the announced size is above it. -/
theorem resume_keeps_iff (image : V → Image) (bytes : Nat → UInt8) (es : List (Event V))
    (e : Event V) (addr : Nat) (len : Int) (ok : Bool)
    (herase : .erased addr len ok ∈ (step image ((machine image).run (boot bytes) es) e).2)
    (haddr : addr < 2 ^ 31) (hlo : -2 ^ 31 ≤ addr + len) (hhi : addr + len < 2 ^ 31) :
    (addr ≠ 0 → ∃ version, .saved version addr ∈ (machine image).trace (boot bytes) es) ∧
      ((∀ x < addr, ¬ Destroys addr len x) ↔ ErasesAbove addr len) := by
  obtain ⟨m, hpc, rfl⟩ := erased_step herase
  have hcheck := (run_checkpoints image bytes es).erasing m hpc
  refine ⟨fun hne => ⟨m.version, (hcheck hne).2⟩, erasesAbove_iff ?_ haddr hlo hhi⟩
  obtain h0 | hpos := Nat.eq_zero_or_pos m.offset
  · exact h0 ▸ Nat.dvd_zero _
  · exact (hcheck (Nat.ne_of_gt hpos)).1

end

/-- An image of thirty thousand bytes. -/
def long (_ : Bool) : Image := ⟨30000, fun _ => 1⟩

/-- A download that is interrupted after `n` chunks and resumed. -/
def resumed (n : Nat) : List (Event Bool) :=
  [.start true 30000 (some false), .erase none] ++
    (List.replicate n [.fetch 100, .write none, .advance]).flatten ++
    [.powerFails fun _ => 0, .start true 30000 (some false)]

/-- Resumed at the second checkpoint, the erase leaves alone what is below. -/
theorem resume_keeps_iff_second :
    .erased 20480 9520 true ∈
      (step long ((machine long).run (boot fun _ => 0) (resumed 205)) (.erase none)).2 ∧
    ∀ x < 20480, ¬ Destroys 20480 9520 x := by
  have herase : .erased 20480 9520 true ∈
      (step long ((machine long).run (boot fun _ => 0) (resumed 205)) (.erase none)).2 := by
    decide +kernel
  obtain ⟨-, hiff⟩ :=
    resume_keeps_iff long (fun _ => 0) (resumed 205) (.erase none) 20480 9520 true
    herase (by decide) (by decide) (by decide)
  exact ⟨herase, hiff.2 (.inr (.inr ⟨by decide, by decide⟩))⟩

/-- Resumed at the first checkpoint, the erase destroys the byte at 8192, which had been
downloaded. -/
theorem resume_destroys_sector :
    .saved true 10240 ∈ (machine long).trace (boot fun _ => 0) (resumed 103) ∧
    .erased 10240 19760 true ∈
      (step long ((machine long).run (boot fun _ => 0) (resumed 103)) (.erase none)).2 ∧
    ¬ ∀ x < 10240, ¬ Destroys 10240 19760 x := by
  refine ⟨by decide +kernel, by decide +kernel, fun h => ?_⟩
  exact h 8192 (by decide) ⟨1024 * 1024 + 10240, 19760, by decide, 0, by decide, by decide⟩

end Upper

end ChargingPile.Ota
