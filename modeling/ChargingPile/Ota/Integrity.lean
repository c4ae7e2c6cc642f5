import ChargingPile.Ota.Transfer
import ChargingPile.Ota.Upper

/-!
# The image on the partition

A checkpoint says up to where the image of its version is on the partition. It outlives the
download that saved it, and the partition is shared by all versions: a download of another version
erases the partition without touching the checkpoint until it saves one of its own. So a checkpoint
is worth something only to the version whose download was the last one.

`View` is what the two ends have in common for this argument, and `Sound` the invariant that ties
the checkpoint to the partition. Its rules are the actions of a download: to begin, to call the
flash, to do so while the flash has not answered yet, to advance, and to end. Both ends are
followed through these rules.
-/

namespace ChargingPile.Ota

variable {V : Type}

/-! ## Checkpoints and the partition -/

/-- A download partition with its checkpoint: `last` is the version of the download that was
started last, `mod` the module if that download is under way, and `busy` the addresses from which
on calls of the flash may still change the partition. -/
structure View (V : Type) where
  bytes : Nat → UInt8
  spec : Option (ModuleSpec V)
  last : Option V
  mod : Option (OtaModule V)
  busy : List Nat

/-- What the checkpoint and the offset of a download say about the partition. -/
structure Sound (image : V → Image) (v : View V) : Prop where
  size : ∀ m, v.mod = some m → m.size = (image m.version).size
  last : ∀ m, v.mod = some m → v.last = some m.version
  above : ∀ m o, v.mod = some m → v.spec = some ⟨m.version, o⟩ → o ≤ m.currPos
  base : ∀ m, v.mod = some m → m.offset ≠ 0 →
    Agree v.bytes (image m.version).byte 0 m.offset ∧ ∀ a ∈ v.busy, m.offset ≤ a
  kept : ∀ w o, v.last = some w → v.spec = some ⟨w, o⟩ → o ≠ 0 →
    Agree v.bytes (image w).byte 0 o ∧ ∀ a ∈ v.busy, o ≤ a

namespace Sound

variable {image : V → Image} {v : View V} {m m' : OtaModule V}

/-- With no checkpoint and no download there is nothing to show. -/
theorem boot (bytes : Nat → UInt8) : Sound image ⟨bytes, none, none, none, []⟩ :=
  ⟨nofun, nofun, nofun, nofun, nofun⟩

/-- A download begins, at zero or after one of the same version. -/
theorem start [DecidableEq V] (h : Sound image v) {version : V} {size : Int} {currVer : Option V}
    (hs : Ota.start v.spec version size currVer = some m) (hsize : size = (image version).size)
    (hown : m.offset = 0 ∨ v.last = some version) :
    Sound image { v with last := some version, mod := some m } := by
  obtain rfl := start_eq_some hs
  refine ⟨?_, ?_, ?_, ?_, ?_⟩
  · rintro _ ⟨rfl⟩
    exact hsize
  · rintro _ ⟨rfl⟩
    rfl
  · rintro _ o ⟨rfl⟩ hspec
    have hspec : v.spec = some ⟨version, o⟩ := hspec
    simp [hspec, getLastOffset_self]
  · rintro _ ⟨rfl⟩ hne
    exact h.kept version _ (hown.resolve_left hne) (getLastOffset_ne_zero hne) hne
  · rintro _ o ⟨rfl⟩ hspec hne
    have hspec : v.spec = some ⟨version, o⟩ := hspec
    refine h.kept version o (hown.resolve_left ?_) hspec hne
    simpa [hspec, getLastOffset_self] using hne

/-- A call of the flash changes the partition from its address on. -/
theorem touch (h : Sound image v) {a : Nat} (ha : a ∈ v.busy) {bytes : Nat → UInt8}
    (hb : ∀ i < a, bytes i = v.bytes i) : Sound image { v with bytes := bytes } := by
  refine ⟨h.size, h.last, h.above, ?_, ?_⟩
  · intro m hm hne
    obtain ⟨hag, hbusy⟩ := h.base m hm hne
    exact ⟨hag.congr_below fun i hi => hb i (Nat.lt_of_lt_of_le hi (hbusy a ha)), hbusy⟩
  · intro w o hw hspec hne
    obtain ⟨hag, hbusy⟩ := h.kept w o hw hspec hne
    exact ⟨hag.congr_below fun i hi => hb i (Nat.lt_of_lt_of_le hi (hbusy a ha)), hbusy⟩

/-- A download calls the flash, at its position or above. -/
theorem post (h : Sound image v) (hm : v.mod = some m) (hle : m.offset ≤ m.currPos) {a : Nat}
    (ha : m.currPos ≤ a) : Sound image { v with busy := v.busy ++ [a] } := by
  refine ⟨h.size, h.last, h.above, ?_, ?_⟩
  · intro m' hm' hne
    obtain rfl : m = m' := Option.some.inj (hm.symm.trans hm')
    obtain ⟨hag, hbusy⟩ := h.base m hm hne
    exact ⟨hag,
      List.forall_mem_append.2 ⟨hbusy, List.forall_mem_singleton.2 (Nat.le_trans hle ha)⟩⟩
  · intro w o hw hspec hne
    obtain ⟨hag, hbusy⟩ := h.kept w o hw hspec hne
    obtain rfl : m.version = w := Option.some.inj ((h.last m hm).symm.trans hw)
    have hle := Nat.le_trans (h.above m o hm hspec) ha
    exact ⟨hag, List.forall_mem_append.2 ⟨hbusy, List.forall_mem_singleton.2 hle⟩⟩

/-- Calls that are over or lost. -/
theorem shrink (h : Sound image v) {busy : List Nat} (hb : busy ⊆ v.busy) :
    Sound image { v with busy := busy } := by
  refine ⟨h.size, h.last, h.above, ?_, ?_⟩
  · intro m hm hne
    obtain ⟨hag, hbusy⟩ := h.base m hm hne
    exact ⟨hag, fun a ha => hbusy a (hb ha)⟩
  · intro w o hw hspec hne
    obtain ⟨hag, hbusy⟩ := h.kept w o hw hspec hne
    exact ⟨hag, fun a ha => hbusy a (hb ha)⟩

/-- A download ends. -/
theorem close (h : Sound image v) : Sound image { v with mod := none } :=
  ⟨nofun, nofun, nofun, nofun, h.kept⟩

/-- The stream of a download moves. -/
theorem seek (h : Sound image v) (hm : v.mod = some m) (streamPos : Nat) :
    Sound image { v with mod := some { m with streamPos := streamPos } } := by
  refine ⟨?_, ?_, ?_, ?_, h.kept⟩
  · rintro _ ⟨rfl⟩
    exact h.size m hm
  · rintro _ ⟨rfl⟩
    exact h.last m hm
  · rintro _ o ⟨rfl⟩ hspec
    exact h.above m o hm hspec
  · rintro _ ⟨rfl⟩ hne
    exact h.base m hm hne

/-- What a download has copied from its offset on continues what was there before. -/
theorem filled (h : Sound image v) (hm : v.mod = some m) {p : Nat}
    (hk : Agree v.bytes (image m.version).byte m.offset p) :
    Agree v.bytes (image m.version).byte 0 p := by
  obtain h0 | hpos := Nat.eq_zero_or_pos m.offset
  · exact h0 ▸ hk
  · exact (h.base m hm (Nat.ne_of_gt hpos)).1.append hk

/-- A download advances past a chunk that is on the partition, while no call is under way. -/
theorem advance (h : Sound image v) (hm : v.mod = some m) (hb : v.busy = []) {n : Nat}
    (hk : Agree v.bytes (image m.version).byte m.offset (m.currPos + n)) :
    Sound image
      { v with spec := (m.advance v.spec n).spec, mod := some (m.advance v.spec n).mod } := by
  have hfill := h.filled hm hk
  obtain ⟨l, hmod⟩ := advance_mod v.spec m n
  rw [hmod]
  refine ⟨?_, ?_, ?_, ?_, ?_⟩
  · rintro _ ⟨rfl⟩
    exact h.size m hm
  · rintro _ ⟨rfl⟩
    exact h.last m hm
  · rintro _ o ⟨rfl⟩ hspec
    rcases advance_spec v.spec m n with hs | ⟨offset, hs, -, hle, -⟩
    · exact Nat.le_trans (h.above m o hm (hs.symm.trans hspec)) (Nat.le_add_right _ _)
    · cases hs.symm.trans hspec
      exact hle
  · rintro _ ⟨rfl⟩ hne
    exact h.base m hm hne
  · intro w o hw hspec hne
    rcases advance_spec v.spec m n with hs | ⟨offset, hs, -, hle, -⟩
    · exact h.kept w o hw (hs.symm.trans hspec) hne
    · cases hs.symm.trans hspec
      exact ⟨hfill.mono hle, by simp [hb]⟩

end Sound

/-! ## The upper end -/

namespace Upper

/-- The module of the download under way. -/
def Pc.mod : Pc V → Option (OtaModule V)
  | .idle => none
  | .erasing m | .fetching m | .writing m _ | .written m _ _ => some m

/-- The upper end calls the flash itself: what it is about to change is all that may change. -/
def view (t : Upper V) : View V :=
  ⟨t.bytes, t.spec, t.last, t.pc.mod,
    match t.pc with
    | .erasing m => [m.offset]
    | .writing m _ => [m.currPos]
    | _ => []⟩

/-- Each download is announced with the size of its image, and the flash does what it is asked. -/
def Event.Nominal (image : V → Image) : Event V → Prop
  | .start version size _ => size = (image version).size
  | .erase fault | .write fault => fault = none
  | _ => True

instance (image : V → Image) : DecidablePred (Event.Nominal image)
  | .start version size _ => inferInstanceAs (Decidable (size = (image version).size))
  | .erase fault | .write fault => inferInstanceAs (Decidable (fault = none))
  | .noPartition | .fetch .. | .raise | .seekFails | .advance | .powerFails .. => .isTrue trivial

section
variable [DecidableEq V] {image : V → Image}

/-- A download that begins at a checkpoint is of the same version as the download before it. -/
def ResumesOwn (t : Upper V) : Event V → Prop
  | .start version size currVer =>
    ∀ m ∈ Ota.start t.spec version size currVer, m.offset = 0 ∨ t.last = some version
  | _ => True

instance (t : Upper V) : DecidablePred t.ResumesOwn
  | .start version size currVer => inferInstanceAs (Decidable
      (∀ m ∈ Ota.start t.spec version size currVer, m.offset = 0 ∨ t.last = some version))
  | .noPartition | .erase .. | .fetch .. | .raise | .seekFails | .write .. | .advance
  | .powerFails .. => .isTrue trivial

/-- While the flash does what it is asked, no download goes past a write that failed. -/
theorem writesHold_of_nominal {bytes : Nat → UInt8} {es : List (Event V)}
    (hn : ∀ e ∈ es, e.Nominal image) : (machine image).Along WritesHold (boot bytes) es := by
  have hnom : (machine image).Along (fun _ e => e.Nominal image) (boot bytes) es :=
    Machine.along_of_mem fun e he _ => hn e he
  refine hnom.imp (I := fun t : Upper V => ∀ m n, t.pc ≠ .written m n false) (D := WritesHold) ?_
    (fun t e hi _ _ => hi) nofun
  intro t e hi hn
  cases e with
  | write fault =>
    obtain rfl : fault = none := hn
    simp only [machine_step, step]
    split
    · simp
    · contradiction
    · exact hi
  | fetch =>
    simp only [machine_step, step]
    split
    · split <;> simp
    · exact hi
  | start | noPartition | erase | raise | seekFails | advance =>
    simp only [machine_step, step]
    split <;> first | exact hi | simp
  | powerFails => simp [step]

/-- Each step of the upper end keeps the checkpoint sound. -/
theorem step_sound {tr : List (Output V)} {t : Upper V} {e : Event V} (hs : Stage image tr t)
    (hw : WritesHold t e) (h : Sound image t.view) (hn : e.Nominal image) (ho : ResumesOwn t e) :
    Sound image (step image t e).1.view := by
  obtain ⟨bytes, spec, last, pc⟩ := t
  cases e with
  | start version size currVer =>
    cases pc with
    | idle =>
      cases hst : Ota.start spec version size currVer with
      | none => simpa only [step, hst] using h
      | some m =>
        have hm := start_eq_some hst
        simp only [step, hst]
        exact (h.start hst hn (ho m hst)).post rfl (by simp [hm]) (by simp [hm])
    | _ => exact h
  | noPartition =>
    cases pc with
    | erasing m => exact h.close.shrink (List.nil_subset _)
    | _ => exact h
  | erase fault =>
    obtain rfl : fault = none := hn
    cases pc with
    | erasing m =>
      exact (h.touch List.mem_cons_self fun i hi => overwrite_of_lt hi).shrink (List.nil_subset _)
    | _ => exact h
  | fetch n =>
    cases pc with
    | fetching m =>
      simp only [step]
      split
      · exact h.close
      · have hseek := h.seek rfl
          (m.streamPos + ((image m.version).readData m.streamPos kBufSize n).length)
        exact hseek.post rfl hs.2.2.1 (Nat.le_refl _)
    | _ => exact h
  | raise =>
    cases pc with
    | fetching m => exact h.seek rfl _
    | _ => exact h
  | seekFails =>
    cases pc with
    | fetching m => exact h.close
    | _ => exact h
  | write fault =>
    obtain rfl : fault = none := hn
    cases pc with
    | writing m buf =>
      exact (h.touch List.mem_cons_self fun i hi => program_of_lt hi).shrink (List.nil_subset _)
    | _ => exact h
  | advance =>
    cases pc with
    | written m n ok =>
      cases ok with
      | false => exact absurd rfl (hw rfl m n)
      | true => exact h.advance rfl rfl (hs.2.2.2.1 rfl).1
    | _ => exact h
  | powerFails junk =>
    cases pc with
    | erasing m | writing m buf =>
      exact (h.touch List.mem_cons_self fun i hi => overwrite_of_lt hi).close.shrink
        (List.nil_subset _)
    | idle | fetching m | written m n ok =>
      simp only [step, Pc.range, overwrite_empty]
      exact h.close

/-- The checkpoint is sound at the end of every run in which each download that begins at one
follows a download of its version. -/
theorem run_sound {bytes : Nat → UInt8} {es : List (Event V)} (hn : ∀ e ∈ es, e.Nominal image)
    (ho : (machine image).Along ResumesOwn (boot bytes) es) :
    Stage image ((machine image).trace (boot bytes) es) ((machine image).run (boot bytes) es) ∧
      Sound image ((machine image).run (boot bytes) es).view := by
  have hnom : (machine image).Along (fun _ e => e.Nominal image) (boot bytes) es :=
    Machine.along_of_mem fun e he _ => hn e he
  refine Machine.trace_inv (I := fun tr t => Stage image tr t ∧ Sound image t.view)
    ((writesHold_of_nominal hn).and (hnom.and ho)) ⟨trivial, .boot bytes⟩ ?_
  rintro tr t e ⟨hs, h⟩ ⟨hw, hn, ho⟩
  exact ⟨step_stage hs hw, step_sound hs hw h hn ho⟩

end

end Upper

/-! ## The lower end -/

namespace Lower

/-- The requests that are left to be served are all that may change the partition. -/
def view (t : Lower V) : View V :=
  ⟨t.bytes, t.spec, t.last, t.mod.map (·.toOtaModule), t.link.requests.map (·.2.2.range.1)⟩

/-- Each download is announced with the size of its image, and the flash does what it is asked. -/
def Event.Nominal (image : V → Image) : Event V → Prop
  | .start version size _ => size = (image version).size
  | .serve (.fault _) => False
  | _ => True

instance (image : V → Image) : DecidablePred (Event.Nominal image)
  | .start version size _ => inferInstanceAs (Decidable (size = (image version).size))
  | .serve (.fault _) => .isFalse id
  | .serve .success | .serve (.torn _) | .otherCall | .otherAnswer .. | .invoke .. | .runTask
  | .fetch .. | .raise | .seekFails | .respond | .timeout .. | .loseRequest .. | .loseAnswer ..
  | .powerFails => .isTrue trivial

/-- A request that is done leaves what is below its range. -/
theorem Request.apply_of_lt {r : Request} {bytes : Nat → UInt8} {i : Nat} (h : i < r.range.1) :
    r.apply bytes i = bytes i := by
  cases r with
  | erase size offset =>
    simp only [apply]
    exact overwrite_of_lt h
  | write addr data =>
    simp only [apply]
    exact program_of_lt h

/-- An answer that is handed over touches neither the partition nor the checkpoint. -/
theorem view_deliver (t : Lower V) (id : UInt8) (ok : Bool) :
    (t.deliver id ok).1.view = t.view := by
  unfold deliver
  split <;> rfl

section
variable [DecidableEq V] {image : V → Image}

/-- A download that begins at a checkpoint is of the same version as the download before it. -/
def ResumesOwn (t : Lower V) : Event V → Prop
  | .start version size currVer =>
    ∀ m ∈ Ota.start t.spec version size currVer, m.offset = 0 ∨ t.last = some version
  | _ => True

instance (t : Lower V) : DecidablePred t.ResumesOwn
  | .start version size currVer => inferInstanceAs (Decidable
      (∀ m ∈ Ota.start t.spec version size currVer, m.offset = 0 ∨ t.last = some version))
  | .serve .. | .otherCall | .otherAnswer .. | .invoke .. | .runTask | .fetch .. | .raise
  | .seekFails | .respond | .timeout .. | .loseRequest .. | .loseAnswer .. | .powerFails =>
    .isTrue trivial

/-- The lower end serves a request. -/
theorem serve_sound {t : Lower V} (h : Sound image t.view) (o : Outcome) :
    Sound image (step image t (.serve o)).1.view := by
  obtain ⟨bytes, spec, last, mod, pc, curId, pendings, tasks, nextId, requests, answers⟩ := t
  cases requests with
  | nil => exact h
  | cons q rs =>
    obtain ⟨i, id, r⟩ := q
    have htouch : ∀ bytes', (∀ i < r.range.1, bytes' i = bytes i) → Sound image
        ⟨bytes', spec, last, mod.map (·.toOtaModule), rs.map (·.2.2.range.1)⟩ := fun bytes' hb =>
      (h.touch List.mem_cons_self hb).shrink (List.subset_cons_self _ _)
    cases o with
    | success => exact htouch _ fun i hi => r.apply_of_lt hi
    | fault junk => exact htouch _ fun i hi => overwrite_of_lt hi
    | torn junk => exact htouch _ fun i hi => overwrite_of_lt hi

/-- Each step of the two ends keeps the checkpoint sound. -/
theorem step_sound {tr : List (Output V)} {t : Lower V} {e : Event V} (hi : Inv image tr t)
    (h : Sound image t.view) (hn : e.Nominal image) (ho : ResumesOwn t e) :
    Sound image (step image t e).1.view := by
  cases e with
  | start version size currVer =>
    simp only [step]
    split
    next m hm hst => exact h.start hst hn (ho m hst)
    · exact h
  | invoke busy =>
    simp only [step]
    split
    next m hm hpc =>
      obtain ⟨-, hf⟩ := hi.stage.of_starting hm hpc
      split
      · exact h.close
      · have hpost := h.post (m := m.toOtaModule) (by simp [view, hm]) (Nat.le_of_eq hf.pos.symm)
          (Nat.le_of_eq hf.pos)
        simpa [view, call, Link.send, Request.range] using hpost
    next m hm hpc =>
      obtain ⟨-, hl⟩ := hi.stage.of_sending hm hpc
      split
      · exact h
      · have hpost := h.post (m := m.toOtaModule) (by simp [view, hm]) hl.base (Nat.le_refl _)
        simpa [view, call, Link.send, Request.range] using hpost
    · exact h
  | runTask =>
    simp only [step]
    split
    next m cb ok tasks hm hpc ht =>
      have hmod : t.view.mod = some m.toOtaModule := by simp [view, hm]
      obtain ⟨rfl, -, ⟨rfl, hf, hok⟩ | ⟨rfl, hl, hok⟩⟩ := hi.stage.of_task hm ht
      · cases ok with
        | false => exact h.close
        | true =>
          refine h.advance hmod (by simp [view, (hok rfl).1]) ?_
          rw [hf.pos, hf.len]
          exact .empty _ _ _
      · cases ok with
        | false => exact h
        | true =>
          obtain ⟨hr, hst, -⟩ := hok rfl
          exact h.advance hmod (by simp [view, hr]) (hl.kept.append hst.chunk)
    · exact h
  | fetch n =>
    simp only [step]
    split
    next m hm hpc =>
      split
      · exact h.close
      · exact h.seek (by simp [view, hm]) _
    · exact h
  | raise =>
    simp only [step]
    split
    next m hm hpc => exact h.seek (by simp [view, hm]) _
    · exact h
  | seekFails =>
    simp only [step]
    split
    · exact h.close
    · exact h
  | respond =>
    simp only [step]
    split
    · exact h
    · rw [view_deliver]
      exact h
  | otherCall => exact h
  | otherAnswer id ok => exact (view_deliver t id ok).symm ▸ h
  | timeout id => exact (view_deliver t id false).symm ▸ h
  | serve o => exact serve_sound h o
  | loseRequest n => exact h.shrink ((List.eraseIdx_sublist _ _).map _).subset
  | loseAnswer n => exact h
  | powerFails => exact h.close

/-- The checkpoint is sound at the end of every run in which each download that begins at one
follows a download of its version, and each answer is handed to its own call. -/
theorem run_sound {bytes : Nat → UInt8} {es : List (Event V)} (hn : ∀ e ∈ es, e.Nominal image)
    (ho : (machine image).Along ResumesOwn (boot bytes) es)
    (hown : (machine image).Along OwnAnswers (boot bytes) es) :
    Inv image ((machine image).trace (boot bytes) es) ((machine image).run (boot bytes) es) ∧
      Sound image ((machine image).run (boot bytes) es).view := by
  have hnom : (machine image).Along (fun _ e => e.Nominal image) (boot bytes) es :=
    Machine.along_of_mem fun e he _ => hn e he
  have hflash : (machine image).Along FlashHolds (boot bytes) es := by
    refine Machine.along_of_mem fun e he _ junk h0 => ?_
    subst h0
    exact hn _ he
  refine Machine.trace_inv (I := fun tr t => Inv image tr t ∧ Sound image t.view)
    ((hown.and (answersHold_of_flashHolds hflash)).and (hnom.and ho))
    ⟨⟨.empty, .idle ⟨rfl, rfl, rfl, rfl⟩⟩, .boot bytes⟩ ?_
  rintro tr t e ⟨hi, h⟩ ⟨⟨hown, ha⟩, hn, ho⟩
  exact ⟨step_inv hi hown ha, step_sound hi h hn ho⟩

end

end Lower

/-! ## Downloads that are reported done -/

/-- Only the end of the stream ends a download of the upper end well. -/
theorem Upper.done_step [DecidableEq V] {image : V → Image} {t : Upper V} {e : Upper.Event V}
    (hd : .done ∈ (Upper.step image t e).2) :
    ∃ m, t.pc = .fetching m ∧ m.currPos = m.size ∧ (Upper.step image t e).1.bytes = t.bytes := by
  cases e with
  | fetch n =>
    simp only [step] at hd ⊢
    split at hd
    next m hpc =>
      split at hd
      next h0 =>
        refine ⟨m, hpc, (finish_eq_done _).1 (List.mem_singleton.1 hd).symm, ?_⟩
        rw [if_pos h0]
      · cases hd
    · cases hd
  | advance =>
    simp only [step] at hd
    split at hd
    · rcases mem_advance _ _ _ hd with ⟨_, h0⟩ | ⟨_, _, h0⟩ <;> cases h0
    · cases hd
  | start | noPartition | erase | raise | seekFails | write =>
    simp only [step] at hd
    split at hd <;> simp at hd
  | powerFails => cases hd

/-- **The image is on the partition when a download is reported done**, at either end, in every run
of downloads in which each one that begins at a checkpoint follows a download of its own version
and, for the lower end, each answer is handed to its own call. The downloads may be cut off at any
point. -/
theorem image_integrity [DecidableEq V] (image : V → Image) (bytes : Nat → UInt8) :
    (∀ (es : List (Upper.Event V)) (e : Upper.Event V), (∀ x ∈ es, x.Nominal image) →
      (Upper.machine image).Along Upper.ResumesOwn (.boot bytes) es →
      let t := (Upper.machine image).run (.boot bytes) es
      .done ∈ (Upper.step image t e).2 → ∃ m, t.pc.mod = some m ∧
        ∀ i < (image m.version).size,
          (Upper.step image t e).1.bytes i = (image m.version).byte i) ∧
    ∀ (es : List (Lower.Event V)) (e : Lower.Event V), (∀ x ∈ es, x.Nominal image) →
      (Lower.machine image).Along Lower.ResumesOwn (.boot bytes) es →
      (Lower.machine image).Along Lower.OwnAnswers (.boot bytes) es →
      let t := (Lower.machine image).run (.boot bytes) es
      .done ∈ (Lower.step image t e).2 → ∃ m, t.mod = some m ∧
        ∀ i < (image m.version).size,
          (Lower.step image t e).1.bytes i = (image m.version).byte i := by
  refine ⟨?_, ?_⟩
  · intro es e hn ho t hd
    obtain ⟨hs, h⟩ := Upper.run_sound hn ho
    obtain ⟨m, hpc, hsize, hbytes⟩ := Upper.done_step hd
    have hmod : t.view.mod = some m := by simp only [Upper.view, hpc, Upper.Pc.mod]
    have hfull := h.size m hmod
    refine ⟨m, hmod, fun i hlt => ?_⟩
    rw [hbytes]
    exact h.filled hmod (hs.kept hpc) i (Nat.zero_le _) (by omega)
  · intro es e hn ho hown t hd
    obtain ⟨hi, h⟩ := Lower.run_sound hn ho hown
    obtain ⟨n, m, rfl, hm, hpc, hsize, hbytes⟩ := Lower.done_step hd
    obtain ⟨-, hb⟩ := hi.stage.of_fetching hm hpc
    have hmod : t.view.mod = some m.toOtaModule := by simp [Lower.view, hm]
    have hfull := h.size _ hmod
    refine ⟨m, hm, fun i hlt => ?_⟩
    rw [hbytes]
    exact h.filled hmod hb.kept i (Nat.zero_le _) (by omega)

/-- Three versions whose images differ in every byte. -/
def versions (v : Nat) : Image := ⟨10300, fun _ => UInt8.ofNat v⟩

/-- A download of version 1 of the upper end, cut off after `n` chunks. -/
def cutOff (n : Nat) : List (Upper.Event Nat) :=
  [.start 1 10300 (some 0), .erase none] ++
    (List.replicate n [.fetch 100, .write none, .advance]).flatten ++ [.powerFails fun _ => 0]

/-- A download that goes on from the checkpoint. -/
def goOn : List (Upper.Event Nat) :=
  [.start 1 10300 (some 0), .erase none, .fetch 100, .write none, .advance]

/-- The download of version 1 is cut off and goes on from its checkpoint: it is reported done, and
the partition holds the image of version 1. A download of the lower end that has lost an answer is
reported done as well. -/
theorem image_integrity_resumed :
    (let t := (Upper.machine versions).run (.boot fun _ => 0) (cutOff 103 ++ goOn)
    ∃ m, t.pc.mod = some m ∧ ∀ i < (versions m.version).size,
      (Upper.step versions t (.fetch 100)).1.bytes i = (versions m.version).byte i) ∧
    let t := (Lower.machine sample).run (.boot fun _ => 0) Lower.lostAnswer
    ∃ m, t.mod = some m ∧ ∀ i < (sample m.version).size,
      (Lower.step sample t (.fetch 5)).1.bytes i = (sample m.version).byte i :=
  ⟨(image_integrity versions fun _ => 0).1 (cutOff 103 ++ goOn) (.fetch 100) (by decide +kernel)
      (by decide +kernel) (by decide +kernel),
    (image_integrity sample fun _ => 0).2 Lower.lostAnswer (.fetch 5) (by decide +kernel)
      (by decide +kernel) (by decide +kernel) (by decide +kernel)⟩

/-- A download of version 2, cut off before its first checkpoint, comes between: then the download
of version 1 is reported done as well, but the first byte of the partition is one of version 2. -/
theorem stale_checkpoint :
    let es := cutOff 103 ++ [.start 2 10300 (some 0), .erase none, .fetch 100, .write none,
      .advance, .powerFails fun _ => 0] ++ goOn
    let t := (Upper.machine versions).run (.boot fun _ => 0) es
    (∀ e ∈ es, e.Nominal versions) ∧ .done ∈ (Upper.step versions t (.fetch 100)).2 ∧
      t.pc.mod.map (·.version) = some 1 ∧
      (Upper.step versions t (.fetch 100)).1.bytes 0 ≠ (versions 1).byte 0 := by
  decide +kernel

end ChargingPile.Ota
