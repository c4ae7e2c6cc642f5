import ChargingPile.Idx.Mark

/-!
# Coherence of `Idx`

Each operation that is `Fresh` keeps the invariant and the program running, and one that is not
ends coherence at once. So a run is coherent throughout exactly if each of its events is
`Fresh` (`coherent_iff`).
-/

namespace ChargingPile.Idx

open Eeprom (Exception)
open Intervals

section
variable {T : Params} {l l' : List Interval} {s s' : State} {mem : Nat → UInt8}
  {this addr ptr : Nat} {owed : Nat → Nat}

/-! ## Failure -/

/-- The program does not run any more, or a count is lower than it should be. -/
def Broken (T : Params) (s : State) : Prop :=
  s.status ≠ .running ∨ ∃ l mem owed addr, Inv T l s mem owed ∧ owed addr ≠ 0

/-- A stale `Idx` that is not `Disposable` takes the count of another one, or the behaviour is
undefined. -/
theorem Inv.steal (h : Inv T l s mem fun _ => 0) (hbad : ¬ Disposable T s this)
    (order : List Nat) :
    ∃ s', s.dispose T this order = (none, s') ∧ this ∈ s'.alive ∧ s'.alive = s.alive ∧
      Loose s' this ∧ Broken T s' := by
  simp only [Disposable, Classical.not_imp, not_and_or, not_not, not_forall] at hbad
  obtain ⟨hthis, hstale, hbad⟩ := hbad
  have hloose := h.loose_of_stale hstale
  obtain ⟨ptr, hcurrent, -⟩ := id hstale
  have hgives := h.givesBack hcurrent order
  generalize s.dispose T this order = r at hgives ⊢
  have hend (hend : PastEnd T s this) {d : Data} (hd : s.asset.data (s.addr this) = some d) :
      False := by
    have := h.holds.addr_lt hd
    have := hend.1
    omega
  rcases hgives with ⟨hnone, hnot⟩ | ⟨l', d, owner, hd, husers, hgains, hrep⟩ |
    ⟨l', d, hd, husers, hgains, hrep⟩ | hpast
  · rcases hbad with ⟨d, hd, -⟩ | hpast
    · rw [hnone] at hd
      cases hd
    · exact absurd hpast hnot
  · have hheld := h.counts _ d hd
    have hinv := h.release_stale owner hrep hgains (by omega) hstale
    refine ⟨_, rfl, hthis, rfl, loose_of_none (current_setField_self ..),
      .inr ⟨l', mem, _, s.addr this, hinv, ?_⟩⟩
    simp
  · rcases hbad with ⟨d', hd', hle⟩ | hpast
    · obtain rfl : d = d' := Option.some.inj (hd.symm.trans hd')
      omega
    · exact (hend hpast hd).elim
  · exact ⟨_, rfl, hthis, rfl, hloose, .inl nofun⟩

theorem Broken.setAddr (h : Broken T s) (hloose : Loose s this) (addr : Nat) :
    Broken T (s.setAddr this addr) :=
  h.imp_right fun ⟨l, mem, owed, addr', hinv, howed⟩ =>
    ⟨l, mem, owed, addr', hinv.setAddr hloose addr, howed⟩

theorem Broken.getPtr (h : Broken T s) (hthis : this ∈ s.alive) :
    Broken T (s.getPtr T this).2 := by
  rcases h with h | ⟨l, mem, owed, addr, hinv, howed⟩
  · exact .inl ((sameIdx_getPtr T s this).status ▸ h)
  · obtain ⟨l', -, hinv', -⟩ := hinv.getPtr hthis
    exact .inr ⟨l', mem, owed, addr, hinv', howed⟩

theorem others_remove (s : State) (this : Nat) :
    Others s ({ s with alive := s.alive.erase this }.setField this none) this :=
  ⟨fun _ hne => List.mem_erase_of_ne hne, fun _ _ => rfl,
    fun _ hne => Function.update_of_ne hne .., fun _ _ hd => .inl hd, Nat.le_refl _⟩

theorem Inv.destroy (h : Inv T l s mem owed) (hthis : this ∈ s.alive) (hloose : Loose s this) :
    Inv T l ({ s with alive := s.alive.erase this }.setField this none) mem owed := by
  refine h.remove (List.perm_cons_erase hthis) hloose (others_remove s this) rfl rfl ?_
  simp [State.current, State.setField]

theorem Broken.destroy (h : Broken T s) (hthis : this ∈ s.alive) (hloose : Loose s this) :
    Broken T ({ s with alive := s.alive.erase this }.setField this none) :=
  h.imp_right fun ⟨l, mem, owed, addr, hinv, howed⟩ =>
    ⟨l, mem, owed, addr, hinv.destroy hthis hloose, howed⟩

/-- The count that is recorded for an object. -/
theorem Rep.recorded {a : Asset} (h : Rep (T.max + 1) l a) {n : Nat}
    (hheld : held l addr (addr + n) ≠ 0) :
    a.recorded addr = held l addr (addr + n) := by
  obtain ⟨i, hi, rfl, hstop, -⟩ := exists_of_held hheld
  obtain ⟨l₁, l₂, rfl⟩ := List.append_of_mem hi
  obtain ⟨hfound, -, -, hat, -, -⟩ := h.place
  rw [h.path.held_start, if_pos hstop, Asset.recorded, hfound, hat]

theorem Broken.not_coherent (h : Broken T s) {device : Nat → UInt8} {tr : List Output} :
    ¬ Coherent device tr s := by
  intro hco
  rcases h with h | ⟨l, mem, owed, addr, hinv, howed⟩
  · exact h hco.running
  · cases hd : s.asset.data addr with
    | none => exact howed (hinv.owed_some addr hd)
    | some d =>
      have hrecorded := hco.counts addr d hd
      rw [hinv.holds.rep.recorded (hinv.holds.sized addr d hd), ← hinv.counts addr d hd]
        at hrecorded
      omega

/-- A run that is coherent so far stays so under the invariant. -/
theorem Inv.coherent (h : Inv T l s mem fun _ => 0) {device : Nat → UInt8} {tr : List Output}
    (hrunning : s.status = .running) (hmem : mem = memory device tr)
    (hyields : ∀ ptr shared, Output.yielded ptr shared ∈ tr → shared = some ptr) :
    Coherent device tr s := by
  refine ⟨hrunning, fun addr d hd => ?_, hyields, fun hnone => ?_⟩
  · rw [h.holds.rep.recorded (h.holds.sized addr d hd)]
    exact h.counts addr d hd
  · funext i
    rw [← hmem]
    refine h.holds.device i fun addr d hd => ?_
    have hcount := h.counts addr d hd
    rw [State.users, hnone] at hcount
    exact absurd hcount (h.holds.sized addr d hd)

/-! ## The operations -/

/-- An operation keeps the invariant, with what it wrote, and what it yielded is shared. -/
def Good (T : Params) (mem : Nat → UInt8) (r : State × List Output) : Prop :=
  ∃ l, Inv T l r.1 (memory mem r.2) (fun _ => 0) ∧ r.1.status = .running ∧
    ∀ ptr shared, Output.yielded ptr shared ∈ r.2 → shared = some ptr

theorem good_nil (h : Inv T l s mem fun _ => 0) (hrunning : s.status = .running) :
    Good T mem (s, []) :=
  ⟨l, h, hrunning, nofun⟩

theorem good_threw (h : Inv T l s mem fun _ => 0) (hrunning : s.status = .running)
    (e : Exception) :
    Good T mem (s, [.threw e]) :=
  ⟨l, h, hrunning, fun _ _ hmem => by simp at hmem⟩

/-- The state of the program and of the thread are not part of the invariant. -/
theorem Inv.of_eq (h : Inv T l s mem owed) (hasset : s'.asset = s.asset)
    (halive : s'.alive = s.alive) (haddr : s'.addr = s.addr) (hfield : s'.field = s.field) :
    Inv T l s' mem owed := by
  obtain ⟨asset, alive, addr, field, ctx, status⟩ := s'
  obtain rfl : asset = _ := hasset
  obtain rfl : alive = _ := halive
  obtain rfl : addr = _ := haddr
  obtain rfl : field = _ := hfield
  refine ⟨h.holds, h.nodup, fun y => ?_, h.counts, h.owed_some⟩
  exact ⟨(h.sound y).ptr_lt, (h.sound y).home, (h.sound y).ghost, (h.sound y).owner⟩

/-- An access through an `Idx` that is `Accessible` yields the object that is in memory. -/
theorem Inv.yields (h : Inv T l s mem owed) (hthis : this ∈ s.alive) (hacc : Accessible T s this)
    (hok : (s.getPtr T this).1 = .ok ptr) :
    ((s.getPtr T this).2.asset.data (s.addr this)).map Data.current = some ptr := by
  obtain ⟨-, -, -, hptr⟩ := h.getPtr hthis
  rcases hptr ptr hok with hyields | ⟨hcurrent, hnull, hpresent, hasset⟩
  · exact hyields
  · have hfresh : ¬ Stale s this := fun hstale => hacc hthis hstale hnull hpresent
    obtain ⟨d, hd, hptr⟩ := exists_data_of_not_stale hcurrent hfresh
    rw [hasset, hd, ← hptr]
    rfl

theorem Inv.deref (h : Inv T l s mem fun _ => 0) (hrunning : s.status = .running)
    (hthis : this ∈ s.alive) (hacc : Accessible T s this) : Good T mem (s.deref T this) := by
  obtain ⟨l', -, hinv, -⟩ := h.getPtr hthis
  have hsame := sameIdx_getPtr T s this
  have hyields : ∀ ptr, (s.getPtr T this).1 = .ok ptr → _ := fun ptr => h.yields hthis hacc
  unfold State.deref
  rcases hget : s.getPtr T this with ⟨e | ptr, s'⟩
  · rw [hget] at hinv hsame
    exact good_threw hinv (hsame.status.trans hrunning) e
  · rw [hget] at hinv hsame hyields
    refine ⟨l', hinv, hsame.status.trans hrunning, fun ptr' shared hmem => ?_⟩
    obtain ⟨rfl, rfl⟩ := Output.yielded.inj (List.mem_singleton.1 hmem)
    rw [hsame.addr]
    exact hyields ptr' rfl

theorem Inv.write (h : Inv T l s mem owed) {d : Data} (hd : s.asset.data addr = some d) {off : Nat}
    {bytes : List UInt8} (hfits : off + bytes.length ≤ T.size) :
    Inv T l { s with asset := s.asset.write d.current off bytes }
      (program mem (addr + off) bytes) owed := by
  refine ⟨h.holds.write hd hfits, h.nodup, fun y => ?_, h.counts, h.owed_some⟩
  have hsound := h.sound y
  refine ⟨fun ptr hptr => ?_, hsound.home, hsound.ghost, hsound.owner⟩
  simpa [Asset.write] using hsound.ptr_lt ptr hptr

theorem Inv.writeThrough (h : Inv T l s mem fun _ => 0) (hrunning : s.status = .running)
    (hthis : this ∈ s.alive) (hacc : Accessible T s this) {off : Nat} {bytes : List UInt8}
    (hfits : off + bytes.length ≤ T.size) : Good T mem (s.write T this off bytes) := by
  obtain ⟨l', -, hinv, -⟩ := h.getPtr hthis
  have hsame := sameIdx_getPtr T s this
  have hyields : ∀ ptr, (s.getPtr T this).1 = .ok ptr → _ := fun ptr => h.yields hthis hacc
  unfold State.write
  rcases hget : s.getPtr T this with ⟨e | ptr, s'⟩
  · rw [hget] at hinv hsame
    exact good_threw hinv (hsame.status.trans hrunning) e
  · rw [hget] at hinv hsame hyields
    have hshared := hyields ptr rfl
    rw [← hsame.addr] at hshared
    obtain ⟨d, hd, rfl⟩ := Option.map_eq_some_iff.1 hshared
    refine ⟨l', hinv.write hd hfits, hsame.status.trans hrunning, fun ptr' shared hmem => ?_⟩
    rcases List.mem_cons.1 hmem with heq | hmem
    · obtain ⟨rfl, rfl⟩ := Output.yielded.inj heq
      exact hshared
    · simp at hmem

theorem Inv.assign (h : Inv T l s mem fun _ => 0) (hrunning : s.status = .running)
    (hthis : this ∈ s.alive) (hdisp : Disposable T s this) (addr : Nat) (order : List Nat) :
    Good T mem (s.assign T this addr order) := by
  obtain ⟨l', hinv, hloose, hsame⟩ := h.dispose hthis hdisp order
  unfold State.assign
  rcases hdispose : s.dispose T this order with ⟨_ | e, s'⟩
  · rw [hdispose] at hinv hloose hsame
    exact good_nil (hinv.setAddr hloose addr) (hsame.status.trans hrunning)
  · rw [hdispose] at hinv hsame
    exact good_threw hinv (hsame.status.trans hrunning) e

theorem Inv.assignIdx (h : Inv T l s mem fun _ => 0) (hrunning : s.status = .running)
    (hthis : this ∈ s.alive) (hdisp : Disposable T s this) (other : Nat) (order : List Nat) :
    Good T mem (s.assignIdx T this other order) := by
  obtain ⟨l', hinv, hloose, hsame⟩ := h.dispose hthis hdisp order
  unfold State.assignIdx
  rcases hdispose : s.dispose T this order with ⟨_ | e, s'⟩
  · rw [hdispose] at hinv hloose hsame
    have hinv := hinv.setAddr hloose (s'.addr other)
    have hrunning : s'.status = .running := hsame.status.trans hrunning
    dsimp only
    cases (s'.setAddr this (s'.addr other)).current other with
    | none => exact good_nil hinv hrunning
    | some ptr =>
      have hthis : this ∈ (s'.setAddr this (s'.addr other)).alive := hsame.alive ▸ hthis
      obtain ⟨l'', -, hinv', -⟩ := hinv.getPtr hthis
      have hsame' := sameIdx_getPtr T (s'.setAddr this (s'.addr other)) this
      rcases hget : (s'.setAddr this (s'.addr other)).getPtr T this with ⟨e | ptr', s''⟩
      · rw [hget] at hinv' hsame'
        exact good_threw hinv' (hsame'.status.trans hrunning) e
      · rw [hget] at hinv' hsame'
        exact good_nil hinv' (hsame'.status.trans hrunning)
  · rw [hdispose] at hinv hsame
    exact good_threw hinv (hsame.status.trans hrunning) e

/-- A failed access leaves the buffer of the `Idx` as it is. -/
theorem current_getPtr_error {e : Exception} (herror : s.getPtr T this = (.error e, s')) :
    s'.current this = s.current this := by
  simp only [State.getPtr] at herror
  split at herror
  · cases herror
  · cases herror
    rw [current_setField_self, State.current]
    cases s.field this <;> rfl

theorem Inv.copy (h : Inv T l s mem fun _ => 0) (hrunning : s.status = .running)
    (hthis : this ∉ s.alive) (other : Nat) : Good T mem (s.copy T this other) := by
  have hinv := h.create hthis (s.addr other)
  unfold State.copy
  dsimp only
  cases (s.create this (s.addr other)).current other with
  | none => exact good_nil hinv hrunning
  | some ptr =>
    obtain ⟨l', -, hinv', -⟩ := hinv.getPtr (List.mem_cons_self ..)
    have hsame := sameIdx_getPtr T (s.create this (s.addr other)) this
    rcases hget : (s.create this (s.addr other)).getPtr T this with ⟨e | ptr', s'⟩
    · rw [hget] at hinv' hsame
      have hcurrent : s'.current this = none :=
        (current_getPtr_error hget).trans ((h.sound this).ghost hthis)
      have halive : s'.alive = this :: s.alive := hsame.alive
      have hothers : Others s' { s' with alive := s.alive } this := by
        refine ⟨fun y hne => ?_, fun _ _ => rfl, fun _ _ => rfl, fun _ _ hd => .inl hd,
          Nat.le_refl _⟩
        rw [halive]
        exact (List.mem_cons.trans (or_iff_right hne)).symm
      have hinv'' :=
        hinv'.remove (halive ▸ List.Perm.refl _) (loose_of_none hcurrent) hothers rfl rfl hcurrent
      exact good_threw hinv'' (hsame.status.trans hrunning) e
    · rw [hget] at hinv' hsame
      exact good_nil hinv' (hsame.status.trans hrunning)

theorem Inv.destruct (h : Inv T l s mem fun _ => 0) (hrunning : s.status = .running)
    (hthis : this ∈ s.alive) (hdisp : Disposable T s this) {order : List Nat}
    (hquiet : Destructible T s this order) : Good T mem (s.destroy T this order, []) := by
  obtain ⟨l', hinv, hloose, hsame⟩ := h.dispose hthis hdisp order
  have hnone := (h.dispose_eq_none_iff hthis order).2 hquiet
  unfold State.destroy
  rcases hdispose : s.dispose T this order with ⟨r, s'⟩
  rw [hdispose] at hnone hinv hloose hsame
  obtain rfl : r = none := hnone
  exact good_nil (hinv.destroy (hsame.alive ▸ hthis) hloose) (hsame.status.trans hrunning)

/-- **One operation**: one that is `Fresh` keeps the invariant. -/
theorem Inv.step (h : Inv T l s mem fun _ => 0) (hrunning : s.status = .running) {e : Event T}
    (hfresh : Fresh T s e) : Good T mem (s.step T e) := by
  have hfresh := hfresh hrunning
  cases e with
  | ctx b => exact good_nil (h.of_eq rfl rfl rfl rfl) hrunning
  | create this addr =>
    simp only [State.step]
    split
    next => exact good_nil h hrunning
    next hthis => exact good_nil (h.create hthis addr) hrunning
  | copy this other =>
    simp only [State.step]
    split
    next => exact good_nil h hrunning
    next hboth => exact h.copy hrunning (not_or.1 hboth).1 other
  | assign this addr order =>
    simp only [State.step]
    split
    next => exact good_nil h hrunning
    next hboth =>
      obtain ⟨hthis, hne⟩ := not_or.1 hboth
      exact h.assign hrunning (not_not.1 hthis) (hfresh hne) addr order
  | assignIdx this other order =>
    simp only [State.step]
    split
    next => exact good_nil h hrunning
    next hall =>
      obtain ⟨hthis, hboth⟩ := not_or.1 hall
      obtain ⟨hother, hne⟩ := not_or.1 hboth
      exact h.assignIdx hrunning (not_not.1 hthis) (hfresh (not_not.1 hother) hne) other order
  | assignNull this order =>
    simp only [State.step]
    split
    next => exact good_nil h hrunning
    next hthis => exact h.assign hrunning (not_not.1 hthis) hfresh T.null order
  | deref this =>
    simp only [State.step]
    split
    next => exact good_nil h hrunning
    next hthis => exact h.deref hrunning (not_not.1 hthis) hfresh
  | write this off bytes hfits =>
    simp only [State.step]
    split
    next => exact good_nil h hrunning
    next hthis => exact h.writeThrough hrunning (not_not.1 hthis) hfresh hfits
  | destroy this order =>
    simp only [State.step]
    split
    next => exact good_nil h hrunning
    next hthis => exact h.destruct hrunning (not_not.1 hthis) hfresh.1 hfresh.2

/-- An access through a stale `Idx` that is not `Accessible` yields the buffer it had. -/
theorem Inv.getPtr_stale (h : Inv T l s mem owed) (hbad : ¬ Accessible T s this) :
    this ∈ s.alive ∧ ∃ ptr s', s.getPtr T this = (.ok ptr, s') ∧
      (s'.asset.data (s'.addr this)).map Data.current ≠ some ptr := by
  simp only [Accessible, Classical.not_imp, not_not] at hbad
  obtain ⟨hthis, ⟨ptr, hcurrent, hne⟩, hnull, hpresent⟩ := hbad
  obtain ⟨f, hfield, hf⟩ := exists_field hcurrent
  have howner : f.owner = true := (h.sound this).owner f hfield (by simp [hf])
  have hfits := h.holds.rep.present_le T.size_pos hpresent
  have hget : s.asset.getPtr T.toSpace f.owner f.current (s.addr this) T.size =
      (.ok ptr, s.asset) := by
    rw [Asset.getPtr, if_neg hnull, if_neg (by omega), howner, hf]
    exact if_neg (not_not.2 hpresent)
  refine ⟨hthis, ptr, s.setField this (some ⟨f.owner, some ptr⟩), ?_, hne⟩
  simp only [State.getPtr, hfield, Option.getD_some, hget]

theorem not_coherent_of_yielded {device : Nat → UInt8} {tr tr' : List Output} {shared : Option Nat}
    (hmem : Output.yielded ptr shared ∈ tr') (hne : shared ≠ some ptr) :
    ¬ Coherent device (tr ++ tr') s :=
  fun hco => hne (hco.yields ptr shared (List.mem_append_right _ hmem))

/-- What is broken when a stale `Idx` is given back is so after the operation. -/
theorem Inv.broken_assign (h : Inv T l s mem fun _ => 0) (hbad : ¬ Disposable T s this)
    (addr : Nat) (order : List Nat) : Broken T (s.assign T this addr order).1 := by
  obtain ⟨s', hdispose, -, -, hloose, hbroken⟩ := h.steal hbad order
  simp only [State.assign, hdispose]
  exact hbroken.setAddr hloose addr

theorem Inv.broken_assignIdx (h : Inv T l s mem fun _ => 0) (hbad : ¬ Disposable T s this)
    (other : Nat) (order : List Nat) : Broken T (s.assignIdx T this other order).1 := by
  obtain ⟨s', hdispose, hthis, -, hloose, hbroken⟩ := h.steal hbad order
  have hbroken := hbroken.setAddr hloose (s'.addr other)
  simp only [State.assignIdx, hdispose]
  cases (s'.setAddr this (s'.addr other)).current other with
  | none => exact hbroken
  | some ptr =>
    have hbroken' : Broken T ((s'.setAddr this (s'.addr other)).getPtr T this).2 :=
      hbroken.getPtr hthis
    rcases hget : (s'.setAddr this (s'.addr other)).getPtr T this with ⟨e | ptr', s''⟩
    · rw [hget] at hbroken'
      exact hbroken'
    · rw [hget] at hbroken'
      exact hbroken'

theorem Inv.broken_destroy (h : Inv T l s mem fun _ => 0) (hbad : ¬ Disposable T s this)
    (order : List Nat) : Broken T (s.destroy T this order) := by
  obtain ⟨s', hdispose, hthis, -, hloose, hbroken⟩ := h.steal hbad order
  simp only [State.destroy, hdispose]
  exact hbroken.destroy hthis hloose

/-- A destructor that throws terminates the program. -/
theorem Inv.terminated (h : Inv T l s mem fun _ => 0) (hthis : this ∈ s.alive) {order : List Nat}
    (hbad : ¬ Destructible T s this order) : Broken T (s.destroy T this order) := by
  rw [← h.dispose_eq_none_iff hthis] at hbad
  unfold State.destroy
  rcases hdispose : s.dispose T this order with ⟨_ | e, s'⟩
  · rw [hdispose] at hbad
    exact absurd rfl hbad
  · exact .inl nofun

/-- An operation that is not `Fresh` ends coherence. -/
theorem Inv.not_coherent (h : Inv T l s mem fun _ => 0) {e : Event T} (hbad : ¬ Fresh T s e)
    {device : Nat → UInt8} {tr : List Output} :
    ¬ Coherent device (tr ++ (s.step T e).2) (s.step T e).1 := by
  have halive {this : Nat} (hbad : ¬ Disposable T s this) : this ∈ s.alive := by
    simp only [Disposable, Classical.not_imp] at hbad
    exact hbad.1
  unfold Fresh at hbad
  rw [Classical.not_imp] at hbad
  obtain ⟨-, hbad⟩ := hbad
  cases e with
  | ctx | create | copy => exact absurd trivial hbad
  | assign this addr order =>
    obtain ⟨hne, hbad⟩ := Classical.not_imp.1 hbad
    rw [State.step, if_neg (not_or.2 ⟨not_not.2 (halive hbad), hne⟩)]
    exact (h.broken_assign hbad addr order).not_coherent
  | assignIdx this other order =>
    obtain ⟨hother, hbad⟩ := Classical.not_imp.1 hbad
    obtain ⟨hne, hbad⟩ := Classical.not_imp.1 hbad
    rw [State.step, if_neg (not_or.2 ⟨not_not.2 (halive hbad), not_or.2 ⟨not_not.2 hother, hne⟩⟩)]
    exact (h.broken_assignIdx hbad other order).not_coherent
  | assignNull this order =>
    rw [State.step, if_neg (not_not.2 (halive hbad))]
    exact (h.broken_assign hbad T.null order).not_coherent
  | deref this =>
    obtain ⟨hthis, ptr, s', hget, hne⟩ := h.getPtr_stale hbad
    rw [State.step, if_neg (not_not.2 hthis), State.deref, hget]
    exact not_coherent_of_yielded (List.mem_singleton_self _) hne
  | write this off bytes hfits =>
    obtain ⟨hthis, ptr, s', hget, hne⟩ := h.getPtr_stale hbad
    rw [State.step, if_neg (not_not.2 hthis), State.write, hget]
    exact not_coherent_of_yielded (List.mem_cons_self ..) hne
  | destroy this order =>
    rcases not_and_or.1 hbad with hbad | hbad
    · rw [State.step, if_neg (not_not.2 (halive hbad))]
      exact (h.broken_destroy hbad order).not_coherent
    · have hthis : this ∈ s.alive := (Classical.not_imp.1 hbad).1
      rw [State.step, if_neg (not_not.2 hthis)]
      exact (h.terminated hthis hbad).not_coherent

end

/-! ## Runs -/

section
variable (T : Params) (device : Nat → UInt8)

theorem memory_append (tr tr' : List Output) :
    memory device (tr ++ tr') = memory (memory device tr) tr' := by
  induction tr generalizing device with
  | nil => rfl
  | cons o tr ih => cases o <;> exact ih _

theorem inv_init : Inv T [⟨0, T.max + 1, 0⟩] (State.init T device) device fun _ => 0 := by
  have hholds : Holds T [⟨0, T.max + 1, 0⟩] (State.init T device).asset device :=
    ⟨rep_init T.toSpace device, nofun, ⟨nofun, nofun⟩, nofun, nofun, fun _ _ => rfl⟩
  exact ⟨hholds, List.nodup_nil, fun _ => ⟨nofun, nofun, fun _ => rfl, nofun⟩, nofun,
    fun _ _ => rfl⟩

variable {T device} {s : State} {tr : List Output}

theorem Good.coherent (h : Good T device (s, tr)) : Coherent device tr s := by
  obtain ⟨l, hinv, hrunning, hyields⟩ := h
  exact hinv.coherent hrunning rfl hyields

theorem Good.append (h : Good T device (s, tr)) {r : State × List Output}
    (hr : Good T (memory device tr) r) : Good T device (r.1, tr ++ r.2) := by
  obtain ⟨-, -, -, hyields⟩ := h
  obtain ⟨l, hinv, hrunning, hyields'⟩ := hr
  refine ⟨l, by rwa [memory_append], hrunning, fun ptr shared hmem => ?_⟩
  rcases List.mem_append.1 hmem with hmem | hmem
  · exact hyields ptr shared hmem
  · exact hyields' ptr shared hmem

/-- One step of the program. -/
theorem Good.step (h : Good T device (s, tr)) {e : Event T} (hfresh : Fresh T s e) :
    Good T device (((system T).step s e).1, tr ++ ((system T).step s e).2) := by
  obtain ⟨l, hinv, hrunning, -⟩ := id h
  have hrunning : s.status = .running := hrunning
  simp only [system, hrunning, if_true]
  exact h.append (hinv.step hrunning hfresh)

theorem Good.fresh (h : Good T device (s, tr)) {e : Event T}
    (hco : Coherent device (tr ++ ((system T).step s e).2) ((system T).step s e).1) :
    Fresh T s e := by
  obtain ⟨l, hinv, hrunning, -⟩ := h
  have hrunning : s.status = .running := hrunning
  simp only [system, hrunning, if_true] at hco
  exact not_not.1 fun hbad => hinv.not_coherent hbad hco

variable (T device)

/-- **Coherence.** A run of operations on `Idx` of one type is coherent throughout exactly if no
stale `Idx` is accessed while the table has an interval for its object, or given back while two
others use the object under its address, and if the other `Idx` can be accessed when the last user
of an object is destroyed. -/
theorem coherent_iff (es : List (Event T)) :
    (∀ pre post, es = pre ++ post →
      Coherent device ((system T).trace (State.init T device) pre)
        ((system T).run (State.init T device) pre)) ↔
      (system T).Along (Fresh T) (State.init T device) es := by
  have hgood : ∀ fs, (system T).Along (Fresh T) (State.init T device) fs →
      Good T device ((system T).run (State.init T device) fs,
      (system T).trace (State.init T device) fs) :=
    fun fs h => Machine.trace_inv (I := fun tr s => Good T device (s, tr)) h
      (good_nil (inv_init T device) rfl) fun tr s e hgood hfresh => hgood.step hfresh
  constructor
  · intro hco
    -- the events before one that is not fresh are, so that the invariant holds there
    induction es using List.reverseRecOn with
    | nil => trivial
    | append_singleton pre e ih =>
      have hpre := ih fun pre' post heq => hco pre' (post ++ [e]) (by rw [heq, List.append_assoc])
      have hlast := hco (pre ++ [e]) [] (List.append_nil _).symm
      rw [Machine.run_concat, Machine.trace_concat] at hlast
      exact (Machine.along_append _ _).2 ⟨hpre, (hgood pre hpre).fresh hlast, trivial⟩
  · rintro h pre post rfl
    exact (hgood pre h.left).coherent

end

/-- `TestIdx<TestStruct>` of the tests. -/
def testIdx : Params := ⟨⟨0xff, 0x1f⟩, 8, by decide⟩

/-- Two `Idx` have been accessed at different addresses. One of them is assigned the address of the
other, and what is written through it then is lost: it goes to the buffer of the old address, and
when both have gone the device does not have it. -/
theorem write_lost :
    let es : List (Event testIdx) :=
      [.ctx true, .create 1 0, .create 2 8, .deref 1, .deref 2, .assign 1 8 [2],
        .write 1 0 [7] (by decide), .destroy 2 [1], .destroy 1 []]
    let s := (system testIdx).run (State.init testIdx fun _ => 0) es
    let tr := (system testIdx).trace (State.init testIdx fun _ => 0) es
    (s.status = .running ∧ s.alive = [] ∧ memory (fun _ => 0) tr 8 = 7 ∧ s.asset.device 8 = 0) ∧
      ¬ Coherent (fun _ => 0) tr s := by
  intro es s tr
  have hlost : s.status = .running ∧ s.alive = [] ∧ memory (fun _ => 0) tr 8 = 7 ∧
      s.asset.device 8 = 0 := by decide
  refine ⟨hlost, fun hco => ?_⟩
  obtain ⟨-, hnone, hwritten, hdevice⟩ := hlost
  have hstored := congrFun (hco.stored hnone) 8
  rw [hwritten, hdevice] at hstored
  exact absurd hstored (by decide)

end ChargingPile.Idx
