import ChargingPile.Idx.Invariant

/-!
# The pass over the other `Idx`

The last user of an object accesses all other `Idx` once more. An access throws if the address is
null or outside of the space, or if the object overlaps one in use; an object that has been read in
the pass is in use from then on. So the pass is completed exactly if the `Idx` are `Passable`
(`Inv.mark_eq_none_iff`), and a destructor throws otherwise (`Inv.dispose_eq_none_iff`).
-/

namespace ChargingPile.Idx

open Eeprom (Exception)
open Intervals

section
variable {T : Params} {l : List Interval} {a : Asset} {s s' : State} {mem : Nat → UInt8}
  {this addr ptr : Nat} {owed : Nat → Nat} {used used' : Nat → Prop} {order : List Nat}

/-! ## Room in the table -/

/-- An interval in use has the size of the objects. -/
theorem Holds.stop_eq (h : Holds T l a mem) {i : Interval} (hi : i ∈ l) (hcount : i.count ≠ 0) :
    i.stop = i.start + T.size := by
  obtain ⟨d, hd⟩ := Option.isSome_iff_exists.1 ((h.rep.keys i.start).2 ⟨i, hi, rfl, hcount⟩)
  have hheld := h.sized _ d hd
  obtain ⟨l₁, l₂, rfl⟩ := List.append_of_mem hi
  rw [h.rep.path.held_start] at hheld
  exact not_not.1 fun hne => hheld (if_neg hne)

theorem Holds.fits_iff (h : Holds T l a mem) (hle : addr + T.size ≤ T.max + 1) :
    Fits l addr (addr + T.size) ↔ ∀ x, (a.data x).isSome → T.Apart addr x := by
  rw [h.rep.path.fits_iff h.rep.separated (Nat.lt_add_of_pos_right T.size_pos) (Nat.zero_le _) hle]
  constructor
  · intro hapart x hx
    obtain ⟨i, hi, rfl, hcount⟩ := (h.rep.keys x).1 hx
    have hstop := h.stop_eq hi hcount
    have := hapart i hi hcount
    unfold Params.Apart
    omega
  · intro hapart i hi hcount
    have hstop := h.stop_eq hi hcount
    have := hapart i.start ((h.rep.keys i.start).2 ⟨i, hi, rfl, hcount⟩)
    unfold Params.Apart at this
    omega

/-- An `Idx` that counts as accessed can be accessed exactly if it is free. -/
theorem Inv.getPtr_ok_iff (h : Inv T l s mem owed) (hcurrent : s.current this = some ptr) :
    (∃ ptr', (s.getPtr T this).1 = .ok ptr') ↔
      Free T s (fun addr => (s.asset.data addr).isSome) this := by
  obtain ⟨f, hfield, hf⟩ := exists_field hcurrent
  have howner : f.owner = true := (h.sound this).owner f hfield (by simp [hf])
  have hresult : (s.getPtr T this).1 =
      (s.asset.getPtr T.toSpace true (some ptr) (s.addr this) T.size).1 := by
    simp only [State.getPtr, hfield, Option.getD_some, howner, hf]
    split <;> simp_all
  have herror (e : Exception) : ¬ ∃ ptr', (Except.error e : Except Exception Nat) = .ok ptr' := by
    rintro ⟨_, hno⟩
    cases hno
  rw [hresult, Free, Asset.getPtr]
  split
  next hnull => exact iff_of_false (herror _) fun hfree => hfree.1 hnull
  next hnull =>
    split
    next hmax => exact iff_of_false (herror _) fun hfree => absurd hfree.2.1 (by omega)
    next hmax =>
      have hle : s.addr this + T.size ≤ T.max + 1 := by omega
      rw [← h.holds.fits_iff hle, ← h.holds.rep.access_ok_iff T.size_pos hle ptr]
      simp [hnull, hle]

/-- An access leaves the table as it is, with an interval of just the object, or the object is in
use from then on. -/
theorem Inv.getPtr_used (h : Inv T l s mem owed) (hcurrent : s.current this = some ptr)
    (hok : s.getPtr T this = (.ok addr, s')) :
    s'.asset = s.asset ∧ s.asset.Present (s.addr this) T.size ∨
      ∀ x, (s'.asset.data x).isSome ↔ s.addr this = x ∨ (s.asset.data x).isSome := by
  obtain ⟨f, hfield, hf⟩ := exists_field hcurrent
  simp only [State.getPtr, hfield, Option.getD_some] at hok
  rcases h.holds.rep.getPtr f.owner f.current (s.addr this) T.size_pos with
    ⟨e, heq⟩ | ⟨-, ⟨ptr, -, hpresent, heq⟩ | ⟨l', -, -, ⟨-, heq⟩ | ⟨d, -, hno, -⟩⟩⟩
  · rw [heq] at hok
    cases hok
  · rw [heq] at hok
    cases hok
    exact .inl ⟨rfl, hpresent⟩
  · rw [heq] at hok
    cases hok
    exact .inr fun x => isSome_read _ _ _ x
  · rw [hf] at hno
    cases hno

theorem current_getPtr_ok (hok : s.getPtr T this = (.ok ptr, s')) :
    s'.current this = some ptr := by
  simp only [State.getPtr] at hok
  split at hok
  · cases hok
    exact current_setField_self ..
  · cases hok

/-! ## The pass -/

theorem Params.Apart.symm {x y : Nat} (h : T.Apart x y) : T.Apart y x := by
  unfold Params.Apart at h ⊢
  omega

theorem passable_cons : Passable T s used (this :: order) ↔
    (s.current this ≠ none → Free T s used this ∧
      ∀ that ∈ order, s.current that ≠ none → T.Apart (s.addr this) (s.addr that)) ∧
    Passable T s used order := by
  constructor
  · rintro ⟨hfree, hapart⟩
    obtain ⟨hthis, hfree⟩ := List.forall_mem_cons.1 hfree
    obtain ⟨hothers, hapart⟩ := List.pairwise_cons.1 hapart
    exact ⟨fun hne => ⟨hthis hne, fun that hthat => hothers that hthat hne⟩, hfree, hapart⟩
  · rintro ⟨hthis, hfree, hapart⟩
    refine ⟨List.forall_mem_cons.2 ⟨fun hne => (hthis hne).1, hfree⟩, ?_⟩
    exact List.pairwise_cons.2 ⟨fun that hthat hne => (hthis hne).2 that hthat, hapart⟩

/-- What is free beside an interval of just one object is apart from it. -/
theorem Inv.apart_of_present (h : Inv T l s mem owed) (hpresent : s.asset.Present addr T.size)
    (hfree : Free T s (fun addr => (s.asset.data addr).isSome) this) :
    T.Apart addr (s.addr this) := by
  obtain ⟨i, hi, rfl, hstop⟩ := (h.holds.rep.present_iff T.size_pos).1 hpresent
  obtain ⟨j, hj, hjstart, hjstop, -⟩ := (h.holds.fits_iff hfree.2.1).2 hfree.2.2
  unfold Params.Apart
  rcases h.holds.rep.path.apart hi hj with rfl | hle | hle
  · omega
  · omega
  · omega

/-- A pass depends on the addresses and on which `Idx` count as accessed. -/
theorem passable_congr (haddr : s'.addr = s.addr)
    (haccessed : ∀ that, s'.current that ≠ none ↔ s.current that ≠ none) :
    Passable T s' used order ↔ Passable T s used order := by
  simp only [Passable, Free, haddr, haccessed]

/-- One more object is in use. -/
theorem passable_insert : Passable T s (fun x => addr = x ∨ used x) order ↔
    (∀ that ∈ order, s.current that ≠ none → T.Apart addr (s.addr that)) ∧
      Passable T s used order := by
  constructor
  · rintro ⟨hfree, hapart⟩
    refine ⟨fun that hthat hne => ?_, fun that hthat hne => ?_, hapart⟩
    · exact ((hfree that hthat hne).2.2 addr (.inl rfl)).symm
    · obtain ⟨hnull, hle, hused⟩ := hfree that hthat hne
      exact ⟨hnull, hle, fun x hx => hused x (.inr hx)⟩
  · rintro ⟨hnew, hfree, hapart⟩
    refine ⟨fun that hthat hne => ?_, hapart⟩
    obtain ⟨hnull, hle, hused⟩ := hfree that hthat hne
    refine ⟨hnull, hle, ?_⟩
    rintro x (rfl | hx)
    · exact (hnew that hthat hne).symm
    · exact hused x hx

/-- The rest of a pass, after the access of one `Idx`. -/
theorem Inv.passable_getPtr (h : Inv T l s mem owed) (hcurrent : s.current this = some ptr)
    (hok : s.getPtr T this = (.ok addr, s')) :
    Passable T s' (fun x => (s'.asset.data x).isSome) order ↔
      (∀ that ∈ order, s.current that ≠ none → T.Apart (s.addr this) (s.addr that)) ∧
        Passable T s (fun x => (s.asset.data x).isSome) order := by
  have haccessed : ∀ that, s'.current that ≠ none ↔ s.current that ≠ none := by
    obtain ⟨-, hothers, -, -⟩ := h.getPtr (h.mem_of_current hcurrent)
    rw [hok] at hothers
    intro that
    rcases eq_or_ne that this with rfl | hne
    · rw [hcurrent, current_getPtr_ok hok]
      simp
    · rw [hothers.current hne]
  have hsame := sameIdx_getPtr T s this
  rw [hok] at hsame
  rw [passable_congr hsame.addr haccessed]
  rcases h.getPtr_used hcurrent hok with ⟨hasset, hpresent⟩ | hused
  · rw [hasset]
    refine (and_iff_right_of_imp fun hpass that hthat hne => ?_).symm
    exact h.apart_of_present hpresent (hpass.1 that hthat hne)
  · simp only [hused]
    exact passable_insert

/-- **The pass** is completed exactly if the `Idx` are passable. -/
theorem Inv.mark_eq_none_iff (h : Inv T l s mem owed) (order : List Nat) :
    (s.mark T order).1 = none ↔ Passable T s (fun x => (s.asset.data x).isSome) order := by
  induction order generalizing s l with
  | nil => simp [State.mark, Passable]
  | cons this order ih =>
    rw [State.mark, passable_cons]
    cases hcurrent : s.current this with
    | none => simpa using ih h
    | some ptr =>
      have hfree := h.getPtr_ok_iff hcurrent
      obtain ⟨l', -, hinv, -⟩ := h.getPtr (h.mem_of_current hcurrent)
      rcases hget : s.getPtr T this with ⟨e | ptr', s'⟩
      · rw [hget] at hfree
        have hnot : ¬ Free T s (fun x => (s.asset.data x).isSome) this := fun hyes => by
          obtain ⟨_, hok⟩ := hfree.2 hyes
          cases hok
        simp [hnot]
      · rw [hget] at hfree hinv
        have hyes : Free T s (fun x => (s.asset.data x).isSome) this := hfree.1 ⟨ptr', rfl⟩
        simp only [ih hinv, h.passable_getPtr hcurrent hget, hyes, ne_eq, reduceCtorEq,
          not_false_eq_true, true_and, forall_const]

/-! ## Giving back -/

/-- Giving back does not throw exactly if the others can be accessed where the object goes back. -/
theorem Inv.dispose_eq_none_iff (h : Inv T l s mem fun _ => 0) (hthis : this ∈ s.alive)
    (order : List Nat) : (s.dispose T this order).1 = none ↔ Destructible T s this order := by
  cases hcurrent : s.current this with
  | none =>
    rw [dispose_of_none hcurrent]
    exact ⟨fun _ _ hlast => absurd hcurrent hlast.1, fun _ => rfl⟩
  | some ptr =>
    have hgives := h.givesBack hcurrent order
    generalize s.dispose T this order = r at hgives ⊢
    rcases hgives with ⟨hnone, -⟩ | ⟨-, d, -, hd, husers, -, -⟩ |
      ⟨l', d, hd, husers, hgains, hrep⟩ | hend
    · refine ⟨fun _ _ hlast => ?_, fun _ => rfl⟩
      obtain ⟨-, d, hd, -⟩ := hlast
      rw [hnone] at hd
      cases hd
    · refine ⟨fun _ _ hlast => ?_, fun _ => rfl⟩
      obtain ⟨-, d', hd', hone⟩ := hlast
      obtain rfl : d = d' := Option.some.inj (hd.symm.trans hd')
      omega
    · obtain ⟨hinv, -⟩ := h.writeBack hd rfl hgains hrep
      have hd' : (s.asset.withTable l' (T.max + 1)).data (s.addr this) = some d := hd
      have hused : ∀ x,
          (((s.asset.withTable l' (T.max + 1)).writeBack (s.addr this)).2.data x).isSome ↔
            x ≠ s.addr this ∧ (s.asset.data x).isSome := fun x => by
        simp only [Option.isSome_iff_exists, data_writeBack hd', exists_and_left]
        rfl
      have hlast : s.LastUser this := ⟨by simp [hcurrent], d, hd, husers⟩
      rw [hinv.mark_eq_none_iff]
      simp only [hused, Destructible, hthis, hlast, forall_const]
      exact passable_congr rfl fun _ => Iff.rfl
    · refine ⟨fun _ _ hlast => ?_, fun _ => rfl⟩
      obtain ⟨-, d, hd, -⟩ := hlast
      have := h.holds.addr_lt hd
      have := hend.1
      omega

end

end ChargingPile.Idx
