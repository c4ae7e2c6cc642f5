import ChargingPile.Eeprom.Basic
import Mathlib.Data.List.Count

/-!
# The objects in memory are those on the device

Seen through its objects, a store is a flat memory. `Shows` relates the two: what is in use has its
value in memory, and everything else is on the device. As long as a program only accesses objects
of a layout, in which no two overlap, every access succeeds, and taking an object into use or
giving it back changes nothing of the flat memory. `Runs` says what a program does to it, with one
rule for each operation.
-/

namespace ChargingPile.Eeprom

open Intervals

/-! ## Objects that do not overlap -/

/-- Two objects do not overlap. -/
def Apart (o o' : Nat × Nat) : Prop := o.1 + o.2 ≤ o'.1 ∨ o'.1 + o'.2 ≤ o.1

/-- Objects of the address space no two of which overlap. -/
structure Layout (L : List (Nat × Nat)) : Prop where
  bounds : ∀ o ∈ L, 0 < o.2 ∧ o.1 + o.2 ≤ limit
  apart : ∀ o ∈ L, ∀ o' ∈ L, o ≠ o' → Apart o o'

/-- The store shows the memory `v`, with the objects `opened` in use, each as often
as it is listed. -/
structure Shows (s : Store) (v : Nat → UInt8) (opened : List (Nat × Nat)) : Prop where
  ctx : s.ctx = true
  table : ∃ l, Tiled s.range l ∧ ∀ o : Nat × Nat, held l o.1 (o.1 + o.2) = opened.count o
  data : ∀ o ∈ opened, s.data o.1 = some ⟨slice v o.1 o.2, slice s.device o.1 o.2⟩
  unused : ∀ a, (∀ o ∈ opened, o.1 ≠ a) → s.data a = none
  device : ∀ i, (∀ o ∈ opened, i < o.1 ∨ o.1 + o.2 ≤ i) → s.device i = v i

section
variable {L opened : List (Nat × Nat)} {s : Store} {v : Nat → UInt8} {o : Nat × Nat}

/-- Objects of a layout that are not the same begin at different addresses. -/
theorem Layout.ne_of_ne (hL : Layout L) {o' : Nat × Nat} (ho : o ∈ L) (ho' : o' ∈ L)
    (hne : o' ≠ o) :
    o'.1 ≠ o.1 := by
  have hb := hL.bounds o ho
  have hb' := hL.bounds o' ho'
  rcases hL.apart o' ho' o ho hne with h | h
  · omega
  · omega

/-- The intervals count one more for an object. -/
theorem held_of_gains {l l' : List Interval} (hgains : Gains l l' o.1 (o.1 + o.2))
    (o' : Nat × Nat) :
    held l' o'.1 (o'.1 + o'.2) = held l o'.1 (o'.1 + o'.2) + if o == o' then 1 else 0 := by
  have hiff : (o.1 = o'.1 ∧ o.1 + o.2 = o'.1 + o'.2) ↔ o = o' := by
    rw [Prod.ext_iff]
    omega
  rw [hgains]
  simp only [hiff, beq_iff_eq]

/-- An interval in use is an object. -/
theorem Shows.mem_opened {l : List Interval} (htiled : Tiled s.range l)
    (hheld : ∀ o : Nat × Nat, held l o.1 (o.1 + o.2) = opened.count o) {i : Interval} (hi : i ∈ l)
    (hcount : i.count ≠ 0) : (i.start, i.stop - i.start) ∈ opened := by
  have hbounds := htiled.path.mem_bounds hi
  have hstop : i.start + (i.stop - i.start) = i.stop := by omega
  have hcount' := hheld (i.start, i.stop - i.start)
  obtain ⟨l₁, l₂, rfl⟩ := List.append_of_mem hi
  rw [hstop, htiled.path.held_start, if_pos rfl] at hcount'
  exact List.count_pos_iff.1 (hcount' ▸ Nat.pos_of_ne_zero hcount)

/-- An object is taken into use. -/
theorem Shows.getPtr (hL : Layout L) (hsub : opened ⊆ L) (ho : o ∈ L) (h : Shows s v opened) :
    ∃ s', s.getPtr o.1 o.2 = .ok s' ∧ Shows s' v (o :: opened) := by
  obtain ⟨hctx, ⟨l, htiled, hheld⟩, hdata, hunused, hdevice⟩ := h
  obtain ⟨hpos, hle⟩ := hL.bounds o ho
  have hlimit : limit = 2048 := rfl
  have hnull : o.1 ≠ null := by
    rw [null]
    omega
  rw [Store.getPtr, if_neg hnull, if_neg (by omega), if_neg (by simp [hctx])]
  by_cases hmem : o ∈ opened
  · -- it is in use already
    have hne : held l o.1 (o.1 + o.2) ≠ 0 := by
      rw [hheld]
      exact Nat.ne_of_gt (List.count_pos_iff.2 hmem)
    obtain ⟨range, l', hretain, htiled', hgains⟩ := htiled.retain hne
    rw [hdata o hmem]
    refine ⟨{ s with range }, ?_, hctx, ⟨l', htiled', fun o' => ?_⟩, ?_, fun a ha => ?_,
      fun i hi => ?_⟩
    · dsimp only
      rw [hretain]
      rfl
    · rw [held_of_gains hgains, hheld, List.count_cons]
    · exact List.forall_mem_cons.2 ⟨hdata o hmem, hdata⟩
    · exact hunused a fun o' ho' => ha o' (List.mem_cons_of_mem _ ho')
    · exact hdevice i fun o' ho' => hi o' (List.mem_cons_of_mem _ ho')
  · -- it is read from the device
    have hapart : ∀ o' ∈ opened, o' ≠ o ∧ Apart o' o := fun o' ho' => by
      have hne : o' ≠ o := ne_of_mem_of_not_mem ho' hmem
      exact ⟨hne, hL.apart o' (hsub ho') o ho hne⟩
    have hnone : s.data o.1 = none :=
      hunused o.1 fun o' ho' => hL.ne_of_ne ho (hsub ho') (hapart o' ho').1
    obtain ⟨range, l', hsplit, htiled', hgains⟩ := htiled.split hpos hle fun i hi hcount => by
      have hbounds := htiled.path.mem_bounds hi
      rcases (hapart _ (Shows.mem_opened htiled hheld hi hcount)).2 with h | h
      · exact .inr (by dsimp only at h; omega)
      · exact .inl h
    rw [hnone]
    dsimp only
    rw [Store.createNode, hsplit]
    have hslice : slice s.device o.1 o.2 = slice v o.1 o.2 := by
      refine slice_congr fun i hi hi' => hdevice i fun o' ho' => ?_
      rcases (hapart o' ho').2 with h | h
      · omega
      · omega
    refine ⟨_, rfl, hctx, ⟨l', htiled', fun o' => ?_⟩, ?_, fun a ha => ?_, fun i hi => ?_⟩
    · rw [held_of_gains hgains, hheld, List.count_cons]
    · refine List.forall_mem_cons.2 ⟨?_, fun o' ho' => ?_⟩
      · dsimp only
        rw [Function.update_self, hslice]
      · dsimp only
        rw [Function.update_of_ne (hL.ne_of_ne ho (hsub ho') (hapart o' ho').1), hdata o' ho']
    · obtain ⟨hne, ha⟩ := List.forall_mem_cons.1 ha
      dsimp only
      rw [Function.update_of_ne hne.symm]
      exact hunused a ha
    · exact hdevice i fun o' ho' => hi o' (List.mem_cons_of_mem _ ho')

/-- An object is written back: the device has what the object shows, and the rest is as it was. -/
theorem writeBack_eq (d v : Nat → UInt8) (a n : Nat) :
    (if slice v a n ≠ slice d a n then program d a (slice v a n) else d) =
      overwrite d a (a + n) v := by
  rw [← program_slice]
  split
  next => rfl
  next heq =>
    rw [program_slice]
    funext i
    rw [overwrite]
    split
    next hi => exact (eq_of_slice_eq (not_not.1 heq) hi.1 hi.2).symm
    next => rfl

/-- An object is given back. -/
theorem Shows.dispose (hL : Layout L) (hsub : o :: opened ⊆ L) (h : Shows s v (o :: opened)) :
    Shows (s.dispose o.1 o.2) v opened := by
  obtain ⟨hctx, ⟨l, htiled, hheld⟩, hdata, hunused, hdevice⟩ := h
  obtain ⟨hoL, hsub⟩ := List.cons_subset.1 hsub
  have hcount : held l o.1 (o.1 + o.2) = opened.count o + 1 := by
    rw [hheld, List.count_cons_self]
  have hcounts {l' : List Interval} (hgains : Gains l' l o.1 (o.1 + o.2)) (o' : Nat × Nat) :
      held l' o'.1 (o'.1 + o'.2) = opened.count o' := by
    have hone := held_of_gains hgains o'
    rw [hheld, List.count_cons] at hone
    omega
  have hne : held l o.1 (o.1 + o.2) ≠ 0 := by omega
  rw [Store.dispose, htiled.lookup hne]
  dsimp only
  rw [if_neg (by omega)]
  by_cases hmem : o ∈ opened
  · -- another one still holds it
    have hlt : 1 < held l o.1 (o.1 + o.2) := by
      have := List.count_pos_iff.2 hmem
      omega
    obtain ⟨l', htiled', hgains⟩ := htiled.release hlt
    rw [if_pos (by omega)]
    exact ⟨hctx, ⟨l', htiled', hcounts hgains⟩,
      fun o' ho' => hdata o' (List.mem_cons_of_mem _ ho'),
      fun a ha => hunused a (List.forall_mem_cons.2 ⟨ha o hmem, ha⟩),
      fun i hi => hdevice i (List.forall_mem_cons.2 ⟨hi o hmem, hi⟩)⟩
  · have hone : held l o.1 (o.1 + o.2) = 1 := by rw [hcount, List.count_eq_zero.2 hmem]
    obtain ⟨l', htiled', hgains⟩ := htiled.join hone
    rw [if_neg (by omega), hdata o List.mem_cons_self]
    dsimp only
    rw [writeBack_eq]
    have hapart : ∀ o' ∈ opened, o' ≠ o ∧ Apart o' o := fun o' ho' => by
      have hne : o' ≠ o := ne_of_mem_of_not_mem ho' hmem
      exact ⟨hne, hL.apart o' (hsub ho') o hoL hne⟩
    refine ⟨hctx, ⟨l', htiled', hcounts hgains⟩, fun o' ho' => ?_, fun a ha => ?_,
      fun i hi => ?_⟩
    · dsimp only
      rw [Function.update_of_ne (hL.ne_of_ne hoL (hsub ho') (hapart o' ho').1),
        hdata o' (List.mem_cons_of_mem _ ho')]
      refine congrArg (fun l => some (Data.mk _ l)) (slice_congr fun i hi hi' => ?_)
      rw [overwrite, if_neg]
      rcases (hapart o' ho').2 with h | h
      · omega
      · omega
    · dsimp only
      rcases eq_or_ne a o.1 with rfl | hne
      · exact Function.update_self ..
      · rw [Function.update_of_ne hne]
        exact hunused a (List.forall_mem_cons.2 ⟨hne.symm, ha⟩)
    · dsimp only
      rw [overwrite]
      split
      next => rfl
      next hout =>
        exact hdevice i (List.forall_mem_cons.2 ⟨by omega, hi⟩)

end

/-! ## Programs -/

theorem exec_bind {α β : Type} (p : M α) (f : α → M β) (s : Store) :
    exec (p >>= f) s = (exec p s).bind fun
      | (.ok a, s) => exec (f a) s
      | (.error e, s) => some (.error e, s) := by
  change (exec p s).bind _ = _
  refine congrArg _ (funext fun r => ?_)
  obtain ⟨r, s'⟩ := r
  cases r with
  | error e => rfl
  | ok a => rfl

theorem exec_bind_ok {α β : Type} {p : M α} {f : α → M β} {s s' : Store} {a : α}
    (h : exec p s = some (.ok a, s')) : exec (p >>= f) s = exec (f a) s' := by
  rw [exec_bind, h]
  rfl

theorem exec_bind_error {α β : Type} {p : M α} {f : α → M β} {s s' : Store} {e : Exception}
    (h : exec p s = some (.error e, s')) : exec (p >>= f) s = some (.error e, s') := by
  rw [exec_bind, h]
  rfl

theorem exec_access {addr size : Nat} {s s' : Store} (h : s.getPtr addr size = .ok s') :
    exec (access addr size) s = some (.ok (), s') := by
  rw [exec, access, ExceptT.run_mk, StateT.run, h]

theorem exec_hold {α : Type} {p : M α} {addr size : Nat} {s s₁ s₂ : Store} {r : Except Exception α}
    (h₁ : s.getPtr addr size = .ok s₁) (h₂ : exec p s₁ = some (r, s₂)) :
    exec (hold addr size p) s = some (r, s₂.dispose addr size) := by
  rw [exec, hold, ExceptT.run_mk, StateT.run, h₁]
  dsimp only
  rw [h₂]
  rfl

theorem exec_storeBytes {addr off : Nat} {bytes : List UInt8} {s : Store} {d : Data}
    (h : s.data addr = some d) :
    exec (storeBytes addr off bytes) s = some (.ok (), { s with
      data := Function.update s.data addr (some { d with
        current := d.current.take off ++ bytes ++ d.current.drop (off + bytes.length) }) }) := by
  rw [exec, storeBytes, ExceptT.run_mk, StateT.run, h]
  rfl

/-- In a layout, a program makes `w` of the memory `v` and ends with `r`, and the objects in use
are those it has found in use. -/
def Runs {α : Type} (L opened : List (Nat × Nat)) (v : Nat → UInt8) (p : M α)
    (r : Except Exception α) (w : Nat → UInt8) : Prop :=
  Layout L → opened ⊆ L → ∀ s, Shows s v opened → ∃ s', exec p s = some (r, s') ∧ Shows s' w opened

/-- A number in a memory. -/
def peek (v : Nat → UInt8) (a n : Nat) : Nat := ofLeBytes (slice v a n)

/-- A number is written to a memory. -/
def poke (v : Nat → UInt8) (a n x : Nat) : Nat → UInt8 := program v a (leBytes n x)

theorem peek_lt (v : Nat → UInt8) (a n : Nat) : peek v a n < 256 ^ n := by
  simpa [peek] using ofLeBytes_lt (slice v a n)

theorem peek_poke_self (v : Nat → UInt8) (a n x : Nat) :
    peek (poke v a n x) a n = x % 256 ^ n := by
  have h := slice_program_self v a (leBytes n x)
  rw [length_leBytes] at h
  rw [peek, poke, h, ofLeBytes_leBytes]

theorem peek_poke_of_apart {v : Nat → UInt8} {a n b k x : Nat} (h : a + n ≤ b ∨ b + k ≤ a) :
    peek (poke v b k x) a n = peek v a n := by
  rw [peek, poke, slice_program_of_apart (by rwa [length_leBytes]), peek]

namespace Runs

variable {α β : Type} {L opened : List (Nat × Nat)} {u v w : Nat → UInt8} {p : M α} {f : α → M β}
  {r : Except Exception α} {a : α} {addr size off n : Nat}

theorem pure : Runs L opened v (Pure.pure a) (.ok a) v :=
  fun _ _ s hs => ⟨s, rfl, hs⟩

theorem bind {r : Except Exception β} (hp : Runs L opened u p (.ok a) v)
    (hf : Runs L opened v (f a) r w) : Runs L opened u (p >>= f) r w := by
  intro hL hsub s hs
  obtain ⟨s₁, h₁, hs₁⟩ := hp hL hsub s hs
  obtain ⟨s₂, h₂, hs₂⟩ := hf hL hsub s₁ hs₁
  exact ⟨s₂, (exec_bind_ok h₁).trans h₂, hs₂⟩

theorem throw (e : Exception) : Runs L opened v (MonadExcept.throw e : M α) (.error e) v :=
  fun _ _ s hs => ⟨s, rfl, hs⟩

theorem hold (ho : (addr, size) ∈ L) (hp : Runs L ((addr, size) :: opened) v p r w) :
    Runs L opened v (Eeprom.hold addr size p) r w := by
  intro hL hsub s hs
  have hsub' := List.cons_subset.2 ⟨ho, hsub⟩
  obtain ⟨s₁, h₁, hs₁⟩ := hs.getPtr hL hsub ho
  obtain ⟨s₂, h₂, hs₂⟩ := hp hL hsub' s₁ hs₁
  exact ⟨_, exec_hold h₁ h₂, hs₂.dispose hL hsub'⟩

theorem withCtx (hp : Runs L opened v p r w) : Runs L opened v (Eeprom.withCtx p) r w := by
  intro hL hsub s hs
  obtain ⟨s', h, hs'⟩ := hp hL hsub s hs
  refine ⟨s', ?_, hs'⟩
  rw [exec, Eeprom.withCtx, ExceptT.run_mk, StateT.run, if_pos hs.ctx, h]

theorem load (ho : (addr, size) ∈ opened) (hoff : off + n ≤ size) :
    Runs L opened v (Eeprom.load addr off n) (.ok (peek v (addr + off) n)) v := by
  intro _ _ s hs
  refine ⟨s, ?_, hs⟩
  obtain ⟨k, rfl⟩ := Nat.exists_eq_add_of_le hoff
  rw [exec, Eeprom.load, ExceptT.run_mk, StateT.run, hs.data _ ho, Option.map_some]
  dsimp only
  rw [Nat.add_assoc, drop_slice, take_slice, peek]

/-- Bytes are written to an object that is held, and no other object changes. -/
theorem storeBytes (ho : (addr, size) ∈ opened) {bytes : List UInt8}
    (hoff : off + bytes.length ≤ size) :
    Runs L opened v (Eeprom.storeBytes addr off bytes) (.ok ())
      (program v (addr + off) bytes) := by
  intro hL hsub s hs
  obtain ⟨hctx, htable, hdata, hunused, hdevice⟩ := hs
  obtain ⟨k, rfl⟩ := Nat.exists_eq_add_of_le hoff
  refine ⟨_, exec_storeBytes (hdata _ ho), hctx, htable, fun o' ho' => ?_, fun a ha => ?_,
    fun i hi => ?_⟩
  · dsimp only
    rcases eq_or_ne o' (addr, off + bytes.length + k) with rfl | hne
    · dsimp only
      rw [Function.update_self, drop_slice, Nat.add_assoc, slice_program, take_slice]
    · have hapart := hL.apart o' (hsub ho') _ (hsub ho) hne
      rw [Function.update_of_ne (hL.ne_of_ne (hsub ho) (hsub ho') hne), hdata o' ho',
        slice_program_of_apart]
      rcases hapart with h | h
      · dsimp only at h
        omega
      · dsimp only at h
        omega
  · dsimp only
    rw [Function.update_of_ne (ha _ ho).symm]
    exact hunused a ha
  · rw [program_of_outside]
    · exact hdevice i hi
    · have := hi _ ho
      dsimp only at this
      omega

theorem store (ho : (addr, size) ∈ opened) (hoff : off + n ≤ size) (x : Nat) :
    Runs L opened v (Eeprom.store addr off n x) (.ok ()) (poke v (addr + off) n x) :=
  storeBytes ho (by rwa [length_leBytes])

end Runs

end ChargingPile.Eeprom
