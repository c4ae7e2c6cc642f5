import ChargingPile.Ota.Basic

/-!
# The download of the upper end

`OtaUpperModule::start` (`components/ota_upper_module.cxx`) erases its own download partition from
the checkpoint on and then copies the stream into it chunk by chunk. The machine below runs it one
call at a time, so that the power can fail between any two of them and in the middle of a call.
What the flash and the stream answer is part of the event. The result of `fal_partition_write` is
kept in the state after the call, although the source drops it.

Downloads of one module follow each other: a start is taken when none is under way.
-/

namespace ChargingPile.Ota

variable {V : Type}

namespace Upper

/-- `OtaUpperModule::kBufSize`. -/
def kBufSize : Nat := 100

/-- Where the loop of `OtaUpperModule::start` stands. -/
inductive Pc (V : Type)
  | idle
  | erasing (m : OtaModule V)
  | fetching (m : OtaModule V)
  | writing (m : OtaModule V) (buf : List UInt8)
  | written (m : OtaModule V) (recvedLen : Nat) (ok : Bool)

/-- What happens next. A call of the flash that fails, or during which the power fails, leaves
arbitrary bytes in the range it works on. -/
inductive Event (V : Type)
  | start (version : V) (size : Int) (currVer : Option V)
  | noPartition
  | erase (fault : Option (Nat → UInt8))
  | fetch (n : Nat)
  | raise
  | seekFails
  | write (fault : Option (Nat → UInt8))
  | advance
  | powerFails (junk : Nat → UInt8)

end Upper

/-- The upper end: its download partition, the checkpoint in its storage, and the download under
way. No code keeps `last`, the version of the download that was started last. -/
structure Upper (V : Type) where
  bytes : Nat → UInt8
  spec : Option (ModuleSpec V)
  last : Option V
  pc : Upper.Pc V

namespace Upper

/-- The upper end before its first download. -/
def boot (bytes : Nat → UInt8) : Upper V := ⟨bytes, none, none, .idle⟩

/-- What the download does with the partition next: the range it works on. -/
def Pc.range : Pc V → Nat × Nat
  | .erasing m => (m.offset, m.size.toNat)
  | .writing m buf => (m.currPos, m.currPos + buf.length)
  | _ => (0, 0)

section
variable [DecidableEq V]

/-- One step of the upper end. -/
def step (image : V → Image) (t : Upper V) : Event V → Upper V × List (Output V)
  | .start version size currVer =>
    match t.pc, Ota.start t.spec version size currVer with
    | .idle, some m => ({ t with last := some version, pc := .erasing m }, [])
    | _, _ => (t, [])
  | .noPartition =>
    match t.pc with
    | .erasing _ => ({ t with pc := .idle }, [.error .updateFailed "分区不存在"])
    | _ => (t, [])
  | .erase fault =>
    match t.pc, fault with
    | .erasing m, none =>
      ({ t with
          bytes := overwrite t.bytes m.offset m.size.toNat fun _ => 0xff
          pc := .fetching m }, [.erased m.offset (m.size - m.offset) true])
    | .erasing m, some junk =>
      ({ t with bytes := overwrite t.bytes m.offset m.size.toNat junk, pc := .idle },
        [.erased m.offset (m.size - m.offset) false, .error .updateFailed "分区擦除失败"])
    | _, _ => (t, [])
  | .fetch n =>
    match t.pc with
    | .fetching m =>
      let buf := (image m.version).readData m.streamPos kBufSize n
      if buf.length = 0 then ({ t with pc := .idle }, [m.finish])
      else ({ t with pc := .writing { m with streamPos := m.streamPos + buf.length } buf }, [])
    | _ => (t, [])
  | .raise =>
    match t.pc with
    | .fetching m => ({ t with pc := .fetching m.rollback }, [])
    | _ => (t, [])
  | .seekFails =>
    match t.pc with
    | .fetching _ => ({ t with pc := .idle }, [.error .downloadFailed "下载失败"])
    | _ => (t, [])
  | .write fault =>
    match t.pc, fault with
    | .writing m buf, none =>
      ({ t with bytes := program t.bytes m.currPos buf, pc := .written m buf.length true },
        [.wrote m.currPos buf.length true])
    | .writing m buf, some junk =>
      ({ t with bytes := overwrite t.bytes m.currPos (m.currPos + buf.length) junk
                pc := .written m buf.length false }, [.wrote m.currPos buf.length false])
    | _, _ => (t, [])
  | .advance =>
    match t.pc with
    | .written m recvedLen _ =>
      let u := m.advance t.spec recvedLen
      ({ t with spec := u.spec, pc := .fetching u.mod }, u.outputs)
    | _ => (t, [])
  | .powerFails junk =>
    ({ t with bytes := overwrite t.bytes t.pc.range.1 t.pc.range.2 junk, pc := .idle }, [])

/-- The upper end as a machine. -/
def machine (image : V → Image) : Machine (Upper V) (Event V) (Output V) := ⟨step image⟩

@[simp] theorem machine_step (image : V → Image) (t : Upper V) (e : Event V) :
    (machine image).step t e = step image t e := rfl

end

/-! ## What holds while a download runs -/

/-- The download goes past a write only if the write has succeeded. The source does not look. -/
def WritesHold (t : Upper V) (e : Event V) : Prop :=
  e = .advance → ∀ m n, t.pc ≠ .written m n false

/-- What holds at each point of the loop, after the outputs `tr`: the stream is where the loop
thinks it is, what the loop has passed is on the partition, and a chunk that failed is the one in
hand. -/
def Stage (image : V → Image) (tr : List (Output V)) (t : Upper V) : Prop :=
  match t.pc with
  | .idle => True
  | .erasing m => m.currPos = m.offset ∧ m.streamPos = m.offset
  | .fetching m =>
    m.streamPos = m.currPos ∧ Agree t.bytes (image m.version).byte m.offset m.currPos ∧
      m.offset ≤ m.currPos ∧ failedChunks tr = []
  | .writing m buf =>
    m.streamPos = m.currPos + buf.length ∧
      buf = slice (image m.version).byte m.currPos buf.length ∧
      Agree t.bytes (image m.version).byte m.offset m.currPos ∧
      m.offset ≤ m.currPos ∧ failedChunks tr = [] ∧ buf ≠ []
  | .written m n ok =>
    m.streamPos = m.currPos + n ∧ m.offset ≤ m.currPos ∧ 0 < n ∧
      (ok = true → Agree t.bytes (image m.version).byte m.offset (m.currPos + n) ∧
        failedChunks tr = []) ∧
      (ok = false → failedChunks tr = [(m.currPos, n)])

/-- What a download has passed is on the partition. -/
theorem Stage.kept {image : V → Image} {tr : List (Output V)} {t : Upper V} {m : OtaModule V}
    (h : Stage image tr t) (hpc : t.pc = .fetching m) :
    Agree t.bytes (image m.version).byte m.offset m.currPos := by
  simp only [Stage, hpc] at h
  exact h.2.1

section
variable [DecidableEq V]

/-- Each step of the upper end keeps `Stage`. -/
theorem step_stage {image : V → Image} {tr : List (Output V)} {t : Upper V} {e : Event V}
    (h : Stage image tr t) (hc : WritesHold t e) :
    Stage image (tr ++ (step image t e).2) (step image t e).1 := by
  cases e with
  | start version size currVer =>
    simp only [step]
    split
    next hpc hs =>
      obtain rfl := start_eq_some hs
      exact ⟨rfl, rfl⟩
    · simpa using h
  | noPartition =>
    simp only [step]
    split
    · trivial
    · simpa using h
  | erase fault =>
    simp only [step]
    split
    next m hpc =>
      simp only [Stage, hpc] at h
      refine ⟨h.2.trans h.1.symm, h.1 ▸ .empty _ _ _, Nat.le_of_eq h.1.symm, ?_⟩
      simp [Output.mark]
    next m junk hpc => trivial
    · simpa using h
  | fetch n =>
    simp only [step]
    split
    next m hpc =>
      simp only [Stage, hpc] at h
      obtain ⟨hs, ha, hle, hf⟩ := h
      split
      · trivial
      next hne =>
        refine ⟨by rw [hs], ?_, ha, hle, by simpa using hf, fun h0 => hne (by simp [h0])⟩
        rw [hs]
        exact Image.readData_eq ..
    · simpa using h
  | raise =>
    simp only [step]
    split
    next m hpc =>
      simp only [Stage, hpc] at h
      exact ⟨rfl, h.2.1, h.2.2.1, by simpa using h.2.2.2⟩
    · simpa using h
  | seekFails =>
    simp only [step]
    split
    · trivial
    · simpa using h
  | write fault =>
    simp only [step]
    split
    next m buf hpc =>
      simp only [Stage, hpc] at h
      obtain ⟨hs, hbuf, ha, hle, hf, hne⟩ := h
      refine ⟨hs, hle, List.length_pos_of_ne_nil hne, fun _ => ⟨?_, ?_⟩, nofun⟩
      · show Agree (program t.bytes m.currPos buf) _ _ _
        rw [hbuf, program_slice, length_slice]
        exact (ha.overwrite_above (Nat.le_refl _)).append (.overwrite_self _ _ _ _)
      · simp [Output.mark, hf]
    next m buf junk hpc =>
      simp only [Stage, hpc] at h
      obtain ⟨hs, hbuf, ha, hle, hf, hne⟩ := h
      refine ⟨hs, hle, List.length_pos_of_ne_nil hne, nofun, fun _ => ?_⟩
      simp [Output.mark, hf]
    · simpa using h
  | advance =>
    simp only [step]
    split
    next m n ok hpc =>
      simp only [Stage, hpc] at h
      obtain ⟨hs, hle, _, htrue, _⟩ := h
      cases ok with
      | false => exact absurd hpc (hc rfl m n)
      | true =>
        obtain ⟨ha, hf⟩ := htrue rfl
        obtain ⟨l, hm⟩ := advance_mod t.spec m n
        simp only [Stage, hm]
        exact ⟨hs, ha, Nat.le_trans hle (Nat.le_add_right _ _), by simpa using hf⟩
    · simpa using h
  | powerFails junk => trivial

/-- `Stage` holds at the end of every run that goes past no failed write. -/
theorem run_stage {image : V → Image} {bytes : Nat → UInt8} {es : List (Event V)}
    (hc : (machine image).Along WritesHold (boot bytes) es) :
    Stage image ((machine image).trace (boot bytes) es) ((machine image).run (boot bytes) es) :=
  Machine.trace_inv hc trivial fun _ _ _ => step_stage

end

end Upper

end ChargingPile.Ota
