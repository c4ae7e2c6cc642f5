import ChargingPile.Idx.Basic

/-!
# The memory behind `Idx`

`Holds` says how the table, the buffers and the device together hold a memory: what is in
use is in its buffer, the rest is on the device. It is kept when an object is read, written
to and written back.
-/

namespace ChargingPile.Idx

open Intervals

/-- The objects in use are in their buffers, which are not shared between addresses. What is not in
use is on the device. -/
structure Holds (T : Params) (l : List Interval) (a : Asset) (mem : Nat → UInt8) : Prop where
  rep : Rep (T.max + 1) l a
  sized : ∀ addr d, a.data addr = some d → held l addr (addr + T.size) ≠ 0
  owned : Owned a
  buffer : ∀ addr d, a.data addr = some d → a.buffers.getD d.current [] = slice mem addr T.size
  backup : ∀ addr d, a.data addr = some d → d.backup = slice a.device addr T.size
  device : ∀ i, (∀ addr d, a.data addr = some d → i < addr ∨ addr + T.size ≤ i) →
    a.device i = mem i

section
variable {T : Params} {l l' : List Interval} {a : Asset} {mem : Nat → UInt8} {addr : Nat}
  {d : Data}

/-- Objects in use are apart. -/
theorem Holds.apart (h : Holds T l a mem) {addr' : Nat} {d' : Data} (hd : a.data addr = some d)
    (hd' : a.data addr' = some d') (hne : addr ≠ addr') :
    addr + T.size ≤ addr' ∨ addr' + T.size ≤ addr :=
  h.rep.path.apart_of_held (h.sized _ _ hd) (h.sized _ _ hd') hne

/-- An object that is not in memory has no count. -/
theorem Rep.held_eq_zero (h : Rep (T.max + 1) l a) (hnone : a.data addr = none) (b : Nat) :
    held l addr b = 0 := by
  refine held_of_not_busy fun hbusy => ?_
  rw [← h.keys, hnone] at hbusy
  cases hbusy

/-- The counts change, and what was in use remains so. -/
theorem Holds.withTable (h : Holds T l a mem)
    (hrep : Rep (T.max + 1) l' (a.withTable l' (T.max + 1)))
    (hsized : ∀ addr d, a.data addr = some d → held l' addr (addr + T.size) ≠ 0) :
    Holds T l' (a.withTable l' (T.max + 1)) mem :=
  ⟨hrep, hsized, h.owned.withTable l' (T.max + 1), h.buffer, h.backup, h.device⟩

/-- An object is read. -/
theorem Holds.read (h : Holds T l a mem) (hgains : Gains l l' addr (addr + T.size))
    (hnone : a.data addr = none)
    (hrep : Rep (T.max + 1) l' ((a.withTable l' (T.max + 1)).read addr T.size).2) :
    Holds T l' ((a.withTable l' (T.max + 1)).read addr T.size).2 mem := by
  have hheld : held l' addr (addr + T.size) ≠ 0 := by
    have := hgains addr (addr + T.size)
    simp at this
    omega
  have hsized : ∀ addr' d, a.data addr' = some d → held l' addr' (addr' + T.size) ≠ 0 := by
    intro addr' d hd
    have hold := h.sized addr' d hd
    have hnew := hgains addr' (addr' + T.size)
    omega
  have hne : ∀ {addr' d}, a.data addr' = some d → addr ≠ addr' := by
    rintro addr' d hd rfl
    rw [hnone] at hd
    cases hd
  -- the new object was on the device, apart from all that are in use
  have hslice : slice a.device addr T.size = slice mem addr T.size := by
    refine slice_congr fun i hi hi' => h.device i fun addr' d hd => ?_
    have := hrep.path.apart_of_held hheld (hsized addr' d hd) (hne hd)
    omega
  constructor
  · exact hrep
  · intro addr' d hd
    rcases (data_read _ _ _ _ _).1 hd with ⟨rfl, -⟩ | ⟨-, hd⟩
    · exact hheld
    · exact hsized addr' d hd
  · exact (h.owned.withTable l' (T.max + 1)).read addr T.size
  · intro addr' d hd
    rcases (data_read _ _ _ _ _).1 hd with ⟨rfl, rfl⟩ | ⟨-, hd⟩
    · simp [Asset.read, Asset.withTable, hslice]
    · have hlt := h.owned.ptr_lt addr' d hd
      have hbuffer := h.buffer addr' d hd
      simp only [Asset.read, Asset.withTable, List.getD_eq_getElem?_getD] at hbuffer ⊢
      rwa [List.getElem?_append_left hlt]
  · intro addr' d hd
    rcases (data_read _ _ _ _ _).1 hd with ⟨rfl, rfl⟩ | ⟨-, hd⟩
    · rfl
    · exact h.backup addr' d hd
  · intro i hi
    exact h.device i
      fun addr' d hd => hi addr' d ((data_read _ _ _ _ _).2 (.inr ⟨(hne hd).symm, hd⟩))

theorem device_writeBack {n : Nat} (hd : a.data addr = some d)
    (hbuffer : a.buffers.getD d.current [] = slice mem addr n)
    (hbackup : d.backup = slice a.device addr n) :
    (a.writeBack addr).2.device = overwrite a.device addr (addr + n) mem := by
  simp only [Asset.writeBack, hd, hbuffer, hbackup]
  split
  next => exact program_slice ..
  next heq =>
    funext i
    rw [overwrite]
    split
    next hi => exact (eq_of_slice_eq (not_not.1 heq) hi.1 hi.2).symm
    next => rfl

/-- An object is written back. -/
theorem Holds.writeBack (h : Holds T l a mem) (hd : a.data addr = some d)
    (hsized : ∀ addr' d, addr' ≠ addr → a.data addr' = some d → held l' addr' (addr' + T.size) ≠ 0)
    (hrep : Rep (T.max + 1) l' ((a.withTable l' (T.max + 1)).writeBack addr).2) :
    Holds T l' ((a.withTable l' (T.max + 1)).writeBack addr).2 mem := by
  have hd' : (a.withTable l' (T.max + 1)).data addr = some d := hd
  have hdata := data_writeBack hd'
  have hdevice := device_writeBack hd' (h.buffer addr d hd) (h.backup addr d hd)
  have hbuffers : ((a.withTable l' (T.max + 1)).writeBack addr).2.buffers = a.buffers :=
    buffers_writeBack ..
  constructor
  · exact hrep
  · intro addr' d' hd₁
    obtain ⟨hne, hd₁⟩ := (hdata _ _).1 hd₁
    exact hsized addr' d' hne hd₁
  · exact (h.owned.withTable l' (T.max + 1)).writeBack hd'
  · intro addr' d' hd₁
    rw [hbuffers]
    exact h.buffer addr' d' ((hdata _ _).1 hd₁).2
  · intro addr' d' hd₁
    obtain ⟨hne, hd₁⟩ := (hdata _ _).1 hd₁
    have hapart := h.apart hd hd₁ hne.symm
    rw [hdevice, h.backup addr' d' hd₁]
    refine slice_congr fun i hi hi' => ?_
    have houtside : ¬ (addr ≤ i ∧ i < addr + T.size) := by omega
    rw [overwrite, if_neg houtside]
    rfl
  · intro i hi
    rw [hdevice, overwrite]
    split
    next => rfl
    next houtside =>
      refine h.device i fun addr' d' hd₁ => ?_
      rcases eq_or_ne addr' addr with rfl | hne
      · omega
      · exact hi addr' d' ((hdata _ _).2 ⟨hne, hd₁⟩)

/-- What a write to an object does to its bytes in memory. -/
theorem splice_slice {off n : Nat} {bytes : List UInt8} (hfits : off + bytes.length ≤ n) :
    splice (slice mem addr n) off bytes = slice (program mem (addr + off) bytes) addr n := by
  obtain ⟨k, rfl⟩ := Nat.exists_eq_add_of_le hfits
  have htake : (slice mem addr (off + bytes.length + k)).take off = slice mem addr off := by
    rw [Nat.add_assoc, take_slice]
  rw [splice, htake, drop_slice, Nat.add_assoc, slice_program]

/-- An object in use is written to. -/
theorem Holds.write (h : Holds T l a mem) (hd : a.data addr = some d) {off : Nat}
    {bytes : List UInt8} (hfits : off + bytes.length ≤ T.size) :
    Holds T l (a.write d.current off bytes) (program mem (addr + off) bytes) := by
  constructor
  · exact h.rep.write ..
  · exact h.sized
  · exact h.owned.write d.current off bytes
  · intro addr' d' hd'
    have hlt := h.owned.ptr_lt addr' d' hd'
    have hbuffer := h.buffer addr' d' hd'
    rw [List.getD_eq_getElem?_getD] at hbuffer ⊢
    rcases eq_or_ne addr' addr with rfl | hne
    · obtain rfl : d = d' := Option.some.inj (hd.symm.trans hd')
      simp only [Asset.write, List.getElem?_modify_eq, List.getElem?_eq_getElem hlt,
        Option.map_eq_map, Option.map_some, Option.getD_some] at hbuffer ⊢
      rw [hbuffer, splice_slice hfits]
    · have hptr : d.current ≠ d'.current :=
        fun heq => hne (h.owned.ptr_inj _ _ _ _ hd' hd heq.symm)
      have hapart := h.apart hd hd' hne.symm
      rw [slice_program_of_apart (by omega), ← hbuffer]
      simp only [Asset.write, List.getElem?_modify_ne _ _ hptr]
  · exact h.backup
  · intro i hi
    have houtside := hi addr d hd
    rw [program_of_outside (by omega)]
    exact h.device i hi

end

end ChargingPile.Idx
