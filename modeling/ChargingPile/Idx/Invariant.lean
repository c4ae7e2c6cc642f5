import ChargingPile.Idx.Holds
import Mathlib.Data.List.Nodup

/-!
# The invariant of `Idx`

`Inv` adds the `Idx` to the memory they stand for: the count of an object is the number of those
that have its buffer, and a buffer that is shared is one of the address that the `Idx` has. The
small steps of the operations come first, each of which changes one `Idx` (`Others`): it gets a
buffer or lets go of one, its address changes, it is made or goes. Every access keeps the
invariant, also one through a stale `Idx`, and giving back keeps it unless a stale `Idx` takes the
count of another one.
-/

namespace ChargingPile.Idx

open Eeprom (Exception)
open Intervals

/-! ## The users of the objects -/

section
variable {T : Params} {l l' : List Interval} {s s' : State} {mem : Nat → UInt8}
  {this addr ptr : Nat}

/-- The buffer of an `Idx` has been allocated, and if it is shared then under the address of the
`Idx`. Only an `Idx` that is alive and has an owner has one. -/
structure Sound (s : State) (this : Nat) : Prop where
  ptr_lt : ∀ ptr, s.current this = some ptr → ptr < s.asset.buffers.length
  home : ∀ addr d, s.asset.data addr = some d → s.current this = some d.current →
    s.addr this = addr
  ghost : this ∉ s.alive → s.current this = none
  owner : ∀ f, s.field this = some f → f.current ≠ none → f.owner = true

/-- An `Idx` that has not been accessed. -/
theorem sound_of_none {s : State} {this : Nat} (h : s.current this = none) : Sound s this := by
  refine ⟨fun ptr hptr => ?_, fun addr d _ heq => ?_, fun _ => h, fun f hf hne => ?_⟩
  · rw [h] at hptr
    cases hptr
  · rw [h] at heq
    cases heq
  · rw [State.current, hf] at h
    exact absurd h hne

/-- The invariant. The count of an object and what is owed to it together are the number of its
users; nothing is owed as long as all goes well. -/
structure Inv (T : Params) (l : List Interval) (s : State) (mem : Nat → UInt8) (owed : Nat → Nat) :
    Prop where
  holds : Holds T l s.asset mem
  nodup : s.alive.Nodup
  sound : ∀ this, Sound s this
  counts : ∀ addr d, s.asset.data addr = some d →
    held l addr (addr + T.size) + owed addr = s.users addr d.current
  owed_some : ∀ addr, s.asset.data addr = none → owed addr = 0

/-- The `Idx` has no buffer that is shared. -/
def Loose (s : State) (this : Nat) : Prop :=
  ∀ addr d, s.asset.data addr = some d → s.current this ≠ some d.current

/-- A step of one `Idx` leaves the others as they are, and new objects get new buffers. -/
structure Others (s s' : State) (this : Nat) : Prop where
  alive : ∀ y, y ≠ this → (y ∈ s'.alive ↔ y ∈ s.alive)
  addr : ∀ y, y ≠ this → s'.addr y = s.addr y
  field : ∀ y, y ≠ this → s'.field y = s.field y
  data : ∀ addr d, s'.asset.data addr = some d →
    s.asset.data addr = some d ∨ s.asset.buffers.length ≤ d.current
  buffers : s.asset.buffers.length ≤ s'.asset.buffers.length

variable {owed : Nat → Nat} {that : Nat}

theorem Others.current (h : Others s s' this) (hne : that ≠ this) :
    s'.current that = s.current that := by
  rw [State.current, State.current, h.field that hne]

theorem Others.idx (h : Others s s' this) (y : Nat) (hne : y ≠ this) :
    s'.addr y = s.addr y ∧ s'.current y = s.current y :=
  ⟨h.addr y hne, h.current hne⟩

/-- The buffer of another `Idx` is shared only if it was so before. -/
theorem Others.shared (h : Others s s' this) (hne : that ≠ this) (hsound : Sound s that) {d : Data}
    (hd : s'.asset.data addr = some d) (heq : s'.current that = some d.current) :
    s.asset.data addr = some d ∧ s.current that = some d.current := by
  rw [h.current hne] at heq
  refine ⟨(h.data addr d hd).resolve_right fun hnew => ?_, heq⟩
  exact absurd (hsound.ptr_lt _ heq) (Nat.not_lt.2 hnew)

theorem Others.loose (h : Others s s' this) (hne : that ≠ this) (hsound : Sound s that)
    (hloose : Loose s that) : Loose s' that := by
  intro addr d hd heq
  obtain ⟨hd, heq⟩ := h.shared hne hsound hd heq
  exact hloose addr d hd heq

theorem Others.sound (h : Others s s' this) (hne : that ≠ this) (hsound : Sound s that) :
    Sound s' that := by
  constructor
  · intro ptr hptr
    rw [h.current hne] at hptr
    exact Nat.lt_of_lt_of_le (hsound.ptr_lt ptr hptr) h.buffers
  · intro addr d hd heq
    obtain ⟨hd, heq⟩ := h.shared hne hsound hd heq
    rw [h.addr that hne]
    exact hsound.home addr d hd heq
  · intro hnot
    rw [h.alive that hne] at hnot
    rw [h.current hne]
    exact hsound.ghost hnot
  · rw [h.field that hne]
    exact hsound.owner

/-- All `Idx` are sound if the one that has taken a step is. -/
theorem Inv.sound_step (h : Inv T l s mem owed) (hothers : Others s s' this)
    (hthis : Sound s' this) :
    ∀ that, Sound s' that := by
  intro y
  rcases eq_or_ne y this with heq | hne
  · exact heq ▸ hthis
  · exact hothers.sound hne (h.sound y)

theorem Inv.loose_of_stale (h : Inv T l s mem owed) (hstale : Stale s this) : Loose s this := by
  obtain ⟨ptr, hcurrent, hne⟩ := hstale
  intro addr d hd heq
  obtain rfl := (h.sound this).home addr d hd heq
  rw [hd, ← hcurrent, heq] at hne
  exact hne rfl

theorem loose_of_none (hnone : s.current this = none) : Loose s this := by
  intro addr d _ heq
  rw [hnone] at heq
  cases heq

/-- An `Idx` that is neither stale nor without a buffer uses the object under its address. -/
theorem exists_data_of_not_stale (hcurrent : s.current this = some ptr) (hstale : ¬ Stale s this) :
    ∃ d, s.asset.data (s.addr this) = some d ∧ d.current = ptr :=
  Option.map_eq_some_iff.1 (not_not.1 fun hne => hstale ⟨ptr, hcurrent, hne⟩)

/-! ## The small steps -/

section
variable (hidx : ∀ y, y ≠ this → s'.addr y = s.addr y ∧ s'.current y = s.current y)
include hidx

/-- The users of an object among the other `Idx`. -/
theorem countP_others {m : List Nat} (hm : this ∉ m) :
    m.countP (fun y => s'.addr y = addr ∧ s'.current y = some ptr) =
      m.countP fun y => s.addr y = addr ∧ s.current y = some ptr := by
  refine List.countP_congr fun y hy => ?_
  obtain ⟨haddr, hcurrent⟩ := hidx y fun heq => hm (heq ▸ hy)
  rw [haddr, hcurrent]

/-- An `Idx` uses an object after a step exactly if it did before. -/
theorem users_same (halive : s'.alive = s.alive)
    (hthis : s'.addr this = addr ∧ s'.current this = some ptr ↔
      s.addr this = addr ∧ s.current this = some ptr) :
    s'.users addr ptr = s.users addr ptr := by
  unfold State.users
  rw [halive]
  refine List.countP_congr fun y _ => ?_
  rcases eq_or_ne y this with rfl | hne
  · simpa using hthis
  · obtain ⟨haddr, hcurrent⟩ := hidx y hne
    rw [haddr, hcurrent]

/-- An `Idx` uses an object neither before a step nor after it. -/
theorem users_loose (halive : s'.alive = s.alive)
    (hbefore : s.addr this = addr → s.current this ≠ some ptr)
    (hafter : s'.addr this = addr → s'.current this ≠ some ptr) :
    s'.users addr ptr = s.users addr ptr :=
  users_same hidx halive ⟨fun hy => absurd hy.2 (hafter hy.1),
    fun hy => absurd hy.2 (hbefore hy.1)⟩

/-- An `Idx` becomes one more user of an object. -/
theorem users_gain (halive : s'.alive = s.alive) (hnodup : s.alive.Nodup) (hthis : this ∈ s.alive)
    (hbefore : ¬ (s.addr this = addr ∧ s.current this = some ptr))
    (hafter : s'.addr this = addr ∧ s'.current this = some ptr) :
    s'.users addr ptr = s.users addr ptr + 1 := by
  have hperm := List.perm_cons_erase hthis
  rw [State.users, State.users, halive, hperm.countP_eq, hperm.countP_eq,
    List.countP_cons_of_pos (by simpa using hafter),
    List.countP_cons_of_neg (by simpa using hbefore),
    countP_others hidx hnodup.not_mem_erase]

end

theorem others_setField (s : State) (this : Nat) (f : Option Field) :
    Others s (s.setField this f) this where
  alive _ _ := Iff.rfl
  addr _ _ := rfl
  field _ hne := Function.update_of_ne hne ..
  data _ _ hd := .inl hd
  buffers := Nat.le_refl _

theorem current_setField_self (s : State) (this : Nat) (f : Field) :
    (s.setField this (some f)).current this = f.current := by
  simp [State.current, State.setField]

/-- Only what is in an entry besides `current` changes. -/
theorem Inv.refield (h : Inv T l s mem owed) {f : Field} (hcurrent : f.current = s.current this)
    (howner : f.current ≠ none → f.owner = true) :
    Inv T l (s.setField this (some f)) mem owed := by
  have hothers := others_setField s this (some f)
  have hsame : (s.setField this (some f)).current this = s.current this :=
    (current_setField_self ..).trans hcurrent
  refine ⟨h.holds, h.nodup, h.sound_step hothers ?_, fun addr d hd => ?_, h.owed_some⟩
  · have hsound := h.sound this
    constructor
    · rw [hsame]
      exact hsound.ptr_lt
    · rw [hsame]
      exact hsound.home
    · rw [hsame]
      exact hsound.ghost
    · intro f' hf'
      simp only [State.setField, Function.update_self, Option.some.injEq] at hf'
      exact hf' ▸ howner
  · rw [h.counts addr d hd]
    refine Eq.symm (users_same hothers.idx rfl ?_)
    rw [hsame]
    rfl

/-- The `Idx` gets the buffer of an object under its address that is in memory
already, or is new. -/
theorem Inv.share (h : Inv T l s mem owed) (hthis : this ∈ s.alive) (hloose : Loose s this)
    {a : Asset} {d : Data} (hholds : Holds T l' a mem)
    (hgains : Gains l l' (s.addr this) (s.addr this + T.size)) (hd : a.data (s.addr this) = some d)
    (hdata : ∀ addr, addr ≠ s.addr this → a.data addr = s.asset.data addr)
    (hbuffers : s.asset.buffers.length ≤ a.buffers.length)
    (hold : s.asset.data (s.addr this) = some d ∨
      s.asset.data (s.addr this) = none ∧ d.current = s.asset.buffers.length)
    (hs' : s' = { s with asset := a }.setField this (some ⟨true, some d.current⟩)) :
    Others s s' this ∧ Inv T l' s' mem owed := by
  have hasset : s'.asset = a := by rw [hs']; rfl
  have halive : s'.alive = s.alive := by rw [hs']; rfl
  have haddr : s'.addr = s.addr := by rw [hs']; rfl
  have hfield : s'.field = Function.update s.field this (some ⟨true, some d.current⟩) := by
    rw [hs']; rfl
  have hcurrent : s'.current this = some d.current := by rw [hs', current_setField_self]
  have hothers : Others s s' this := by
    refine ⟨fun _ _ => by rw [halive], fun _ _ => by rw [haddr], fun that hne => ?_, ?_, ?_⟩
    · rw [hfield, Function.update_of_ne hne]
    · intro addr d' hd'
      rw [hasset] at hd'
      rcases eq_or_ne addr (s.addr this) with rfl | hne
      · obtain rfl : d = d' := Option.some.inj (hd.symm.trans hd')
        exact hold.imp_right fun hnew => Nat.le_of_eq hnew.2.symm
      · exact .inl ((hdata addr hne).symm.trans hd')
    · rw [hasset]
      exact hbuffers
  -- no `Idx` has the buffer of a new object
  have hold' : ∀ that, s.current that = some d.current → s.asset.data (s.addr this) = some d := by
    intro that heq
    refine hold.resolve_right fun ⟨_, hlen⟩ => ?_
    exact absurd ((h.sound that).ptr_lt _ heq) (hlen ▸ Nat.lt_irrefl _)
  have hbefore : held l (s.addr this) (s.addr this + T.size) + owed (s.addr this) =
      s.users (s.addr this) d.current := by
    rcases hold with hsome | ⟨hnone, hlen⟩
    · exact h.counts _ d hsome
    · rw [h.holds.rep.held_eq_zero hnone, h.owed_some _ hnone]
      refine Eq.symm (List.countP_eq_zero.2 fun y _ hy => ?_)
      have hsome := hold' y (of_decide_eq_true hy).2
      rw [hnone] at hsome
      cases hsome
  refine ⟨hothers, hasset ▸ hholds, halive ▸ h.nodup, h.sound_step hothers ?_, ?_, ?_⟩
  · constructor
    · intro ptr hptr
      rw [hcurrent] at hptr
      rw [hasset]
      exact Option.some.inj hptr ▸ hholds.owned.ptr_lt _ d hd
    · intro addr d' hd' hptr
      rw [hasset] at hd'
      rw [hcurrent] at hptr
      rw [haddr]
      exact hholds.owned.ptr_inj _ _ _ _ hd hd' (Option.some.inj hptr)
    · intro hnot
      exact absurd (halive ▸ hthis) hnot
    · intro f' hf' _
      rw [hfield, Function.update_self] at hf'
      exact Option.some.inj hf' ▸ rfl
  · intro addr d' hd'
    rw [hasset] at hd'
    have hgain := hgains addr (addr + T.size)
    rcases eq_or_ne addr (s.addr this) with rfl | hne
    · obtain rfl : d = d' := Option.some.inj (hd.symm.trans hd')
      rw [users_gain hothers.idx halive h.nodup hthis]
      · simp only [and_self, if_true] at hgain
        omega
      · rintro ⟨-, heq⟩
        exact hloose _ d (hold' this heq) heq
      · exact ⟨congrFun haddr this, hcurrent⟩
    · rw [users_loose hothers.idx halive (fun heq => absurd heq hne.symm) (fun heq => ?_),
        ← h.counts addr d' ((hdata addr hne).symm.trans hd'), hgain,
        if_neg fun heq => hne heq.1.symm]
      · omega
      · exact absurd ((congrFun haddr this).symm.trans heq) hne.symm
  · intro addr hnone
    rw [hasset] at hnone
    rcases eq_or_ne addr (s.addr this) with rfl | hne
    · exact absurd (hd.symm.trans hnone) (by simp)
    · exact h.owed_some addr ((hdata addr hne).symm.trans hnone)

/-- The address of an `Idx` without a shared buffer changes. -/
theorem Inv.setAddr (h : Inv T l s mem owed) (hloose : Loose s this) (addr : Nat) :
    Inv T l (s.setAddr this addr) mem owed := by
  have hothers : Others s (s.setAddr this addr) this :=
    ⟨fun _ _ => Iff.rfl, fun that hne => Function.update_of_ne hne .., fun _ _ => rfl,
      fun _ _ hd => .inl hd, Nat.le_refl _⟩
  refine ⟨h.holds, h.nodup, h.sound_step hothers ?_, fun addr' d hd => ?_, h.owed_some⟩
  · have hsound := h.sound this
    exact ⟨hsound.ptr_lt, fun addr' d hd heq => absurd heq (hloose addr' d hd), hsound.ghost,
      hsound.owner⟩
  · rw [h.counts addr' d hd]
    exact (users_loose hothers.idx rfl (fun _ => hloose addr' d hd)
      fun _ => hloose addr' d hd).symm

/-- An `Idx` without a shared buffer goes. -/
theorem Inv.remove (h : Inv T l s mem owed) {m : List Nat} (hperm : s.alive.Perm (this :: m))
    (hloose : Loose s this) (hothers : Others s s' this) (halive : s'.alive = m)
    (hasset : s'.asset = s.asset) (hcurrent : s'.current this = none) : Inv T l s' mem owed := by
  obtain ⟨hnot, hnodup⟩ := List.nodup_cons.1 (hperm.nodup_iff.1 h.nodup)
  refine ⟨hasset ▸ h.holds, halive ▸ hnodup, h.sound_step hothers ?_, fun addr d hd => ?_,
    hasset ▸ h.owed_some⟩
  · exact sound_of_none hcurrent
  · rw [hasset] at hd
    have hnone : ¬ (s.addr this = addr ∧ s.current this = some d.current) :=
      fun heq => hloose addr d hd heq.2
    rw [h.counts addr d hd, State.users, State.users, halive, hperm.countP_eq,
      List.countP_cons_of_neg (by simpa using hnone)]
    exact (countP_others hothers.idx hnot).symm

/-- A new `Idx`. -/
theorem Inv.create (h : Inv T l s mem owed) (hthis : this ∉ s.alive) (addr : Nat) :
    Inv T l (s.create this addr) mem owed := by
  have hothers : Others s (s.create this addr) this :=
    ⟨fun that hne => List.mem_cons.trans (or_iff_right hne),
      fun that hne => Function.update_of_ne hne ..,
      fun _ _ => rfl, fun _ _ hd => .inl hd, Nat.le_refl _⟩
  have hcurrent : (s.create this addr).current this = none := (h.sound this).ghost hthis
  refine ⟨h.holds, List.nodup_cons.2 ⟨hthis, h.nodup⟩, h.sound_step hothers ?_,
    fun addr' d hd => ?_, h.owed_some⟩
  · refine ⟨(h.sound this).ptr_lt, fun addr' d _ heq => ?_, fun _ => hcurrent,
      (h.sound this).owner⟩
    rw [hcurrent] at heq
    cases heq
  · have hnot : ¬ ((s.create this addr).addr this = addr' ∧
        (s.create this addr).current this = some d.current) := fun heq => by simp [hcurrent] at heq
    rw [h.counts addr' d hd, State.users, State.users]
    refine Eq.symm ((List.countP_cons_of_neg (by simpa using hnot)).trans ?_)
    exact countP_others hothers.idx hthis

/-- An object goes back to the device. -/
theorem Inv.giveBack (h : Inv T l s mem owed) {a : Asset} (hholds : Holds T l' a mem)
    (hbuffers : a.buffers = s.asset.buffers)
    (hdata : ∀ addr d, a.data addr = some d ↔ addr ≠ s.addr this ∧ s.asset.data addr = some d)
    (hheld : ∀ addr, addr ≠ s.addr this → held l' addr (addr + T.size) =
      held l addr (addr + T.size))
    (howed : owed (s.addr this) = 0) : Inv T l' { s with asset := a } mem owed := by
  refine ⟨hholds, h.nodup, fun that => ?_, fun addr d hd => ?_, fun addr hnone => ?_⟩
  · have hsound := h.sound that
    refine ⟨fun ptr hptr => ?_, fun addr d hd => ?_, hsound.ghost, hsound.owner⟩
    · have := hsound.ptr_lt ptr hptr
      rwa [← hbuffers] at this
    · exact hsound.home addr d ((hdata addr d).1 hd).2
  · obtain ⟨hne, hd⟩ := (hdata addr d).1 hd
    rw [hheld addr hne]
    exact h.counts addr d hd
  · rcases eq_or_ne addr (s.addr this) with rfl | hne
    · exact howed
    · refine h.owed_some addr (Option.eq_none_iff_forall_ne_some.2 fun d hd => ?_)
      have hsome : a.data addr = some d := (hdata addr d).2 ⟨hne, hd⟩
      rw [show a.data addr = none from hnone] at hsome
      cases hsome

/-- An `Idx` lets go of its buffer, and the count of the object under its address is lowered. -/
theorem Inv.release (h : Inv T l s mem owed) {owner : Bool}
    (hrep : Rep (T.max + 1) l' (s.asset.withTable l' (T.max + 1)))
    (hgains : Gains l' l (s.addr this) (s.addr this + T.size))
    (hheld : 1 < held l (s.addr this) (s.addr this + T.size))
    (hs' : s' = { s with asset := s.asset.withTable l' (T.max + 1) }.setField this
      (some ⟨owner, none⟩))
    {owed' : Nat → Nat} (howed : ∀ addr, addr ≠ s.addr this → owed' addr = owed addr)
    (hcount : ∀ d, s.asset.data (s.addr this) = some d → Others s s' this →
      s'.current this = none →
      held l' (s.addr this) (s.addr this + T.size) + owed' (s.addr this) =
        s'.users (s.addr this) d.current) :
    Inv T l' s' mem owed' ∧ Loose s' this := by
  have hdata : s'.asset.data = s.asset.data := by rw [hs']; rfl
  have halive : s'.alive = s.alive := by rw [hs']; rfl
  have haddr : s'.addr = s.addr := by rw [hs']; rfl
  have hcurrent : s'.current this = none := by rw [hs', current_setField_self]
  have hothers : Others s s' this := by
    refine ⟨fun _ _ => by rw [halive], fun _ _ => by rw [haddr], fun y hne => ?_, fun _ _ hd => ?_,
      ?_⟩
    · rw [hs']
      exact Function.update_of_ne hne ..
    · exact .inl (hdata ▸ hd)
    · rw [hs']
      exact Nat.le_refl _
  have hsame : ∀ addr, addr ≠ s.addr this →
      held l' addr (addr + T.size) = held l addr (addr + T.size) :=
        fun addr hne => (hgains.same hne).symm
  have hone := hgains (s.addr this) (s.addr this + T.size)
  simp only [and_self, if_true] at hone
  refine ⟨⟨?_, halive ▸ h.nodup, h.sound_step hothers ?_, fun addr d hd => ?_,
    fun addr hnone => ?_⟩, loose_of_none hcurrent⟩
  · rw [hs']
    refine h.holds.withTable hrep fun addr d hd => ?_
    have hpos := h.holds.sized addr d hd
    rcases eq_or_ne addr (s.addr this) with rfl | hne
    · omega
    · rwa [hsame addr hne]
  · exact sound_of_none hcurrent
  · rw [hdata] at hd
    rcases eq_or_ne addr (s.addr this) with rfl | hne
    · exact hcount d hd hothers hcurrent
    · rw [users_loose hothers.idx halive (fun heq => absurd heq hne.symm)
        fun _ => hcurrent ▸ nofun, ← h.counts addr d hd, hsame addr hne, howed addr hne]
  · rw [hdata] at hnone
    rcases eq_or_ne addr (s.addr this) with rfl | hne
    · rw [h.holds.rep.held_eq_zero hnone] at hheld
      omega
    · rw [howed addr hne]
      exact h.owed_some addr hnone

/-! ## Access -/

/-- The `Idx` that are alive, their addresses and the state of the program remain. -/
structure SameIdx (s s' : State) : Prop where
  alive : s'.alive = s.alive
  addr : s'.addr = s.addr
  status : s'.status = s.status

theorem SameIdx.trans {s'' : State} (h : SameIdx s s') (h' : SameIdx s' s'') : SameIdx s s'' :=
  ⟨h'.alive.trans h.alive, h'.addr.trans h.addr, h'.status.trans h.status⟩

theorem sameIdx_getPtr (T : Params) (s : State) (this : Nat) : SameIdx s (s.getPtr T this).2 := by
  unfold State.getPtr
  dsimp only
  split <;> exact ⟨rfl, rfl, rfl⟩

/-- **An access keeps the invariant**, also one through a stale `Idx`. What it returns is the
shared buffer of the address, or the one that the `Idx` had. -/
theorem Inv.getPtr (h : Inv T l s mem owed) (hthis : this ∈ s.alive) :
    ∃ l', Others s (s.getPtr T this).2 this ∧ Inv T l' (s.getPtr T this).2 mem owed ∧
      ∀ ptr, (s.getPtr T this).1 = .ok ptr →
        ((s.getPtr T this).2.asset.data (s.addr this)).map Data.current = some ptr ∨
          s.current this = some ptr ∧ s.addr this ≠ T.null ∧ s.asset.Present (s.addr this) T.size ∧
            (s.getPtr T this).2.asset = s.asset := by
  obtain ⟨f, hf⟩ : ∃ f, f = (s.field this).getD ⟨s.ctx, none⟩ := ⟨_, rfl⟩
  have hcurrent : f.current = s.current this := by
    rw [hf, State.current]
    cases s.field this <;> rfl
  have howner : f.current ≠ none → f.owner = true := by
    cases hfield : s.field this with
    | none => simp [hf, hfield]
    | some g => simpa [hf, hfield] using (h.sound this).owner g hfield
  simp only [State.getPtr, ← hf]
  rcases h.holds.rep.getPtr f.owner f.current (s.addr this) T.size_pos with
    ⟨e, heq⟩ | ⟨⟨hown, hnull⟩, ⟨ptr, hptr, hpresent, heq⟩ |
      ⟨l', hgains, hrep, ⟨hnone, heq⟩ | ⟨d, hd, hno, heq⟩⟩⟩
  · rw [heq]
    exact ⟨l, others_setField .., h.refield hcurrent howner, fun _ hok => by cases hok⟩
  · rw [heq]
    refine ⟨l, others_setField .., h.refield ?_ fun _ => hown, fun ptr' hok => ?_⟩
    · rw [← hcurrent, hptr]
    · cases hok
      exact .inr ⟨hcurrent.symm.trans hptr, hnull, hpresent, rfl⟩
  · -- the object is read to a new buffer
    have hloose : Loose s this := fun addr d hd hptr => by
      rw [(h.sound this).home addr d hd hptr, hd] at hnone
      cases hnone
    rw [heq] at hrep ⊢
    obtain ⟨hothers, hinv⟩ := h.share hthis hloose (h.holds.read hgains hnone hrep) hgains
      ((data_read _ _ _ _ _).2 (.inl ⟨rfl, rfl⟩)) (fun addr hne => Function.update_of_ne hne ..)
      (by simp [Asset.read, Asset.withTable]) (.inr ⟨hnone, rfl⟩) rfl
    rw [← hown] at hinv hothers
    refine ⟨l', hothers, hinv, fun ptr hok => .inl ?_⟩
    cases hok
    simp [Asset.read, State.setField]
  · -- the object is in memory
    have hloose : Loose s this := loose_of_none (hcurrent.symm.trans hno)
    rw [heq] at hrep ⊢
    have hholds : Holds T l' (s.asset.withTable l' (T.max + 1)) mem :=
      h.holds.withTable hrep fun addr d hd => by
        have hold := h.holds.sized addr d hd
        have hnew := hgains addr (addr + T.size)
        omega
    obtain ⟨hothers, hinv⟩ :=
      h.share hthis hloose hholds hgains hd (fun _ _ => rfl) (Nat.le_refl _)
      (.inl hd) rfl
    rw [← hown] at hinv hothers
    refine ⟨l', hothers, hinv, fun ptr hok => .inl ?_⟩
    cases hok
    exact congrArg (Option.map Data.current) hd

/-! ## Giving back -/

theorem Inv.mem_of_current (h : Inv T l s mem owed) (hcurrent : s.current this = some ptr) :
    this ∈ s.alive := not_not.1 fun hdead => by
  rw [(h.sound this).ghost hdead] at hcurrent
  cases hcurrent

/-- The `Idx` that are marked are accessed one after the other. -/
theorem Inv.mark (order : List Nat) (h : Inv T l s mem owed) (hloose : Loose s this)
    (hnot : this ∉ order) :
    ∃ l', Inv T l' (s.mark T order).2 mem owed ∧ Loose (s.mark T order).2 this ∧
      SameIdx s (s.mark T order).2 := by
  induction order generalizing s l with
  | nil => exact ⟨l, h, hloose, rfl, rfl, rfl⟩
  | cons y order ih =>
    obtain ⟨hne, hnot⟩ := List.ne_and_not_mem_of_not_mem_cons hnot
    rw [State.mark]
    cases hcurrent : s.current y with
    | none => exact ih h hloose hnot
    | some ptr =>
      obtain ⟨l', hothers, hinv, -⟩ := h.getPtr (h.mem_of_current hcurrent)
      have hloose' := hothers.loose hne (h.sound this) hloose
      have hsame := sameIdx_getPtr T s y
      rcases hget : s.getPtr T y with ⟨e | ptr', s₁⟩
      · rw [hget] at hinv hloose' hsame
        exact ⟨l', hinv, hloose', hsame⟩
      · rw [hget] at hinv hloose' hsame
        obtain ⟨l'', hinv', hloose'', hsame'⟩ := ih hinv hloose' hnot
        exact ⟨l'', hinv', hloose'', hsame.trans hsame'⟩

/-- The last user gives an object back. -/
theorem Inv.writeBack (h : Inv T l s mem owed) {d : Data}
    (hd : s.asset.data (s.addr this) = some d) (howed : owed (s.addr this) = 0)
    (hgains : Gains l' l (s.addr this) (s.addr this + T.size))
    (hrep : Rep (T.max + 1) l' ((s.asset.withTable l' (T.max + 1)).writeBack (s.addr this)).2) :
    Inv T l' { s with asset := ((s.asset.withTable l' (T.max + 1)).writeBack (s.addr this)).2 } mem
      owed ∧
      Loose { s with asset := ((s.asset.withTable l' (T.max + 1)).writeBack (s.addr this)).2 }
        this := by
  have hd' : (s.asset.withTable l' (T.max + 1)).data (s.addr this) = some d := hd
  have hsame : ∀ addr, addr ≠ s.addr this →
      held l' addr (addr + T.size) = held l addr (addr + T.size) :=
        fun addr hne => (hgains.same hne).symm
  have hholds :=
    h.holds.writeBack hd (fun addr d hne hd => hsame addr hne ▸ h.holds.sized addr d hd) hrep
  refine ⟨h.giveBack hholds ?_ (data_writeBack hd') hsame howed, fun addr d₁ hd₁ heq => ?_⟩
  · exact buffers_writeBack ..
  · obtain ⟨hne, hd₁⟩ := (data_writeBack hd' addr d₁).1 hd₁
    exact hne ((h.sound this).home addr d₁ hd₁ heq).symm

section
variable (owner : Bool) (hrep : Rep (T.max + 1) l' (s.asset.withTable l' (T.max + 1)))
  (hgains : Gains l' l (s.addr this) (s.addr this + T.size))
  (hheld : 1 < held l (s.addr this) (s.addr this + T.size))
include hrep hgains hheld

/-- An `Idx` that uses an object lets go of it. -/
theorem Inv.release_own (h : Inv T l s mem owed) (hthis : this ∈ s.alive) {d : Data}
    (hd : s.asset.data (s.addr this) = some d) (hcurrent : s.current this = some d.current) :
    Inv T l'
      ({ s with asset := s.asset.withTable l' (T.max + 1) }.setField this (some ⟨owner, none⟩))
      mem owed := by
  refine (h.release hrep hgains hheld rfl (fun _ _ => rfl) fun d' hd' hothers hnone => ?_).1
  obtain rfl : d = d' := Option.some.inj (hd.symm.trans hd')
  have hless := users_gain (fun y hne => (hothers.idx y hne).imp Eq.symm Eq.symm) rfl h.nodup hthis
    (fun huse => by simp [hnone] at huse) ⟨rfl, hcurrent⟩
  have hgain := hgains (s.addr this) (s.addr this + T.size)
  have hcount := h.counts _ d hd
  simp only [and_self, if_true] at hgain
  omega

/-- A stale `Idx` takes the count of another one. -/
theorem Inv.release_stale (h : Inv T l s mem fun _ => 0) (hstale : Stale s this) :
    Inv T l'
      ({ s with asset := s.asset.withTable l' (T.max + 1) }.setField this (some ⟨owner, none⟩))
      mem (Function.update (fun _ => 0) (s.addr this) 1) := by
  refine (h.release hrep hgains hheld rfl (fun addr hne => Function.update_of_ne hne ..)
    fun d hd hothers hnone => ?_).1
  have hloose := h.loose_of_stale hstale (s.addr this) d hd
  rw [users_loose hothers.idx rfl (fun _ => hloose) fun _ => by simp [hnone], ← h.counts _ d hd]
  have hgain := hgains (s.addr this) (s.addr this + T.size)
  simp only [and_self, if_true] at hgain
  rw [Function.update_self, hgain]

end

/-- An `Idx` that does not count as accessed has nothing to give back. -/
theorem dispose_of_none (hcurrent : s.current this = none) (order : List Nat) :
    s.dispose T this order = (none, s) := by
  cases hfield : s.field this with
  | none => simp only [State.dispose, hfield]
  | some f =>
    rw [State.current, hfield] at hcurrent
    have hf : f.current = none := hcurrent
    simp only [State.dispose, hfield, hf]

theorem exists_field (hcurrent : s.current this = some ptr) :
    ∃ f, s.field this = some f ∧ f.current = some ptr :=
  Option.bind_eq_some_iff.1 hcurrent

/-- What giving back does, by the number of users of the object under the address. -/
inductive GivesBack (T : Params) (l : List Interval) (s : State) (this : Nat) (order : List Nat) :
    Option Exception × State → Prop
  | ignored (hnone : s.asset.data (s.addr this) = none) (hend : ¬ PastEnd T s this) :
    GivesBack T l s this order (none, s)
  | released (l' : List Interval) (d : Data) (owner : Bool)
    (hd : s.asset.data (s.addr this) = some d) (husers : 1 < s.users (s.addr this) d.current)
    (hgains : Gains l' l (s.addr this) (s.addr this + T.size))
    (hrep : Rep (T.max + 1) l' (s.asset.withTable l' (T.max + 1))) :
    GivesBack T l s this order
      (none,
        { s with asset := s.asset.withTable l' (T.max + 1) }.setField this (some ⟨owner, none⟩))
  | last (l' : List Interval) (d : Data) (hd : s.asset.data (s.addr this) = some d)
    (husers : s.users (s.addr this) d.current = 1)
    (hgains : Gains l' l (s.addr this) (s.addr this + T.size))
    (hrep : Rep (T.max + 1) l' ((s.asset.withTable l' (T.max + 1)).writeBack (s.addr this)).2) :
    GivesBack T l s this order
      (State.mark T
        { s with asset := ((s.asset.withTable l' (T.max + 1)).writeBack (s.addr this)).2 }
        (order.filter (· ≠ this)))
  | undefined (hend : PastEnd T s this) :
    GivesBack T l s this order (none, { s with status := .undefined })

/-- An object in memory lies in the address space. -/
theorem Holds.addr_lt {a : Asset} (h : Holds T l a mem) {d : Data} (hd : a.data addr = some d) :
    addr < T.max + 1 := by
  obtain ⟨i, hi, rfl, -, -⟩ := exists_of_held (h.sized addr d hd)
  have := h.rep.path.mem_bounds hi
  omega

theorem Inv.givesBack (h : Inv T l s mem fun _ => 0) (hcurrent : s.current this = some ptr)
    (order : List Nat) : GivesBack T l s this order (s.dispose T this order) := by
  obtain ⟨f, hfield, hf⟩ := exists_field hcurrent
  have hnone (hheld : ∀ d, s.asset.data (s.addr this) ≠ some d) :
      s.asset.data (s.addr this) = none :=
    Option.eq_none_iff_forall_ne_some.2 hheld
  simp only [State.dispose, hfield, hf]
  rcases Nat.lt_or_ge (s.addr this) (T.max + 1) with hlt | hge
  · rcases h.holds.rep.dispose hlt T.size with
      ⟨hzero, heq⟩ | ⟨l', hrep, hgains, hcase⟩
    · rw [heq]
      exact .ignored (hnone fun d hd => h.holds.sized _ d hd hzero) fun hend => by
        have := hend.1
        omega
    · have hpos : held l (s.addr this) (s.addr this + T.size) ≠ 0 := by omega
      obtain ⟨i, hi, hstart, -, hcount⟩ := exists_of_held hpos
      have hsome := (h.holds.rep.keys _).2 ⟨i, hi, hstart, hcount⟩
      obtain ⟨d, hd⟩ := Option.isSome_iff_exists.1 hsome
      have husers := h.counts _ d hd
      rcases hcase with ⟨hheld, heq⟩ | ⟨hheld, heq⟩
      · rw [heq] at hrep ⊢
        exact .released l' d f.owner hd (by omega) hgains hrep
      · have hlast : (s.asset.withTable l' (T.max + 1)).writeBack (s.addr this) =
            (.last d.current, ((s.asset.withTable l' (T.max + 1)).writeBack (s.addr this)).2) := by
          simp only [Asset.writeBack, Asset.withTable, hd]
        rw [heq] at hrep
        rw [heq, hlast]
        exact .last l' d hd (by omega) hgains hrep
  · have hdata : s.asset.data (s.addr this) = none := hnone fun d hd => by
      have := h.holds.addr_lt hd
      omega
    rw [h.holds.rep.dispose_outside (Nat.succ_pos _) hge T.size_pos]
    rcases Classical.em (s.addr this = T.max + 1 ∧ s.asset.range.length = T.max + 1 + T.size) with
      hend | hend
    · rw [if_pos hend]
      exact .undefined hend
    · rw [if_neg hend]
      exact .ignored hdata hend

theorem stale_of_none (hcurrent : s.current this = some ptr)
    (hnone : s.asset.data (s.addr this) = none) : Stale s this :=
  ⟨ptr, hcurrent, by simp [hnone]⟩

/-- **Giving back keeps the invariant**, unless a stale `Idx` takes the count of another one. -/
theorem Inv.dispose (h : Inv T l s mem fun _ => 0) (hthis : this ∈ s.alive)
    (hdisp : Disposable T s this) (order : List Nat) :
    ∃ l', Inv T l' (s.dispose T this order).2 mem (fun _ => 0) ∧
      Loose (s.dispose T this order).2 this ∧ SameIdx s (s.dispose T this order).2 := by
  cases hcurrent : s.current this with
  | none =>
    rw [dispose_of_none hcurrent]
    exact ⟨l, h, loose_of_none hcurrent, rfl, rfl, rfl⟩
  | some ptr =>
    have hgives := h.givesBack hcurrent order
    generalize s.dispose T this order = r at hgives ⊢
    rcases hgives with ⟨hnone, -⟩ | ⟨l', d, owner, hd, husers, hgains, hrep⟩ |
      ⟨l', d, hd, -, hgains, hrep⟩ | hend
    · exact ⟨l, h, h.loose_of_stale (stale_of_none hcurrent hnone), rfl, rfl, rfl⟩
    · have hfresh : ¬ Stale s this := fun hstale =>
        absurd ((hdisp hthis hstale).1 _ hd) (Nat.not_le.2 husers)
      obtain ⟨d', hd', rfl⟩ := exists_data_of_not_stale hcurrent hfresh
      obtain rfl : d = d' := Option.some.inj (hd.symm.trans hd')
      have hheld := h.counts _ d hd
      have hinv := h.release_own owner hrep hgains (by omega) hthis hd hcurrent
      exact ⟨l', hinv, loose_of_none (current_setField_self ..), rfl, rfl, rfl⟩
    · obtain ⟨hinv, hloose⟩ := h.writeBack hd rfl hgains hrep
      obtain ⟨l'', hinv', hloose', hsame⟩ := hinv.mark (order.filter (· ≠ this)) hloose (by simp)
      exact ⟨l'', hinv', hloose', hsame.alive, hsame.addr, hsame.status⟩
    · have hstale : Stale s this := not_not.1 fun hfresh => by
        obtain ⟨d, hd, -⟩ := exists_data_of_not_stale hcurrent hfresh
        have := h.holds.addr_lt hd
        have := hend.1
        omega
      exact absurd hend (hdisp hthis hstale).2

end

end ChargingPile.Idx
