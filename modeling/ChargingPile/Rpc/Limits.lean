import ChargingPile.Lib.Table
import ChargingPile.Rpc.Basic
import Mathlib.Algebra.GroupWithZero.Nat

/-!
# How many remote calls wait, and how long

`invoke` refuses a call when more than `kMaxParallel` calls are pending, before it adds its own. So
one call more than the limit can be pending, and the call that exceeds the limit is sent like any
other (`Rpc.parallel_limit_iff`).

The timer reads the system tick once and then goes through `pendings`. A callback that it calls may
make a call itself, and while callbacks run the tick advances. The entry of such a call is created
after the tick that the timer has read, the unsigned difference wraps around, and the timer takes
the new call for expired (`Rpc.nested_call_times_out`). Without such calls no timeout comes early
(`Rpc.timeout_not_early`).
-/

namespace ChargingPile.Rpc

variable {T D : Type} [DecidableEq T] {exceptions : Bool} {s : Rpc T D} {e : Event T D}

/-! ## The limit -/

/-- The event is a call that is made when the limit is reached. -/
def AtLimit (s : Rpc T D) : Event T D → Prop
  | .invoke _ _ => s.timer.scans = false ∧ kMaxParallel ≤ s.pendings.size
  | _ => False

/-- If the event is a call, it is answered with a timeout, and no request is made of it. -/
def Refused (exceptions : Bool) (s : Rpc T D) : Event T D → Prop
  | .invoke type timeout => (s.invoke exceptions type timeout).sending = s.sending ∧
      (s.invoke exceptions type timeout).calling = s.calling ++ [(⟨s.count, type⟩, .timeout)]
  | _ => True

/-- The table grows by accepted calls only. -/
theorem Effect.size_le {r : Rpc T D × List (Output T D)} (he : Effect exceptions s e r) :
    r.1.pendings.size ≤ s.pendings.size ∨
      (∃ type timeout, e = .invoke type timeout) ∧ s.timer.scans = false ∧
        s.pendings.size ≤ kMaxParallel ∧ r.1.pendings.size ≤ s.pendings.size + 1 := by
  cases he with
  | quiet | waits | refuses | calls | sends | expires => exact .inl (Nat.le_refl _)
  | accepts type timeout hs hsize =>
    exact .inr ⟨⟨type, timeout, rfl⟩, hs, hsize, Std.TreeMap.size_insertIfNew_le⟩
  | takes | removes => exact .inl Std.TreeMap.size_erase_le

/-- A call up to the limit is sent. -/
theorem invoke_sends (exceptions : Bool) (type : T) (timeout : UInt32) (hs : s.timer.scans = false)
    (hsize : s.pendings.size ≤ kMaxParallel) :
    (s.invoke exceptions type timeout).sending = s.sending ++ [⟨s.curId, ⟨s.count, type⟩⟩] := by
  rw [invoke]
  split
  · rename_i htimer
    rw [htimer] at hs
    cases hs
  all_goals rw [if_neg (Nat.not_lt.2 hsize)]

/-- A call beyond the limit is not sent. -/
theorem invoke_refused (exceptions : Bool) (type : T) (timeout : UInt32)
    (hs : s.timer.scans = false) (hsize : kMaxParallel < s.pendings.size) :
    (s.invoke exceptions type timeout).sending = s.sending ∧
      (s.invoke exceptions type timeout).calling =
        s.calling ++ if exceptions then [(⟨s.count, type⟩, .timeout)] else [] := by
  rw [invoke]
  split
  · rename_i htimer
    rw [htimer] at hs
    cases hs
  all_goals
    rw [if_pos hsize]
    cases exceptions with
    | true => exact ⟨rfl, rfl⟩
    | false => exact ⟨rfl, (List.append_nil _).symm⟩

/-- One call more than the limit can be pending. -/
theorem size_le_succ (exceptions : Bool) (es : List (Event T D)) :
    ((machine exceptions).run {} es).pendings.size ≤ kMaxParallel + 1 := by
  refine Machine.run_inv (M := machine exceptions) (C := fun _ _ => True)
    (I := fun s : Rpc T D => s.pendings.size ≤ kMaxParallel + 1) ?_
    (Machine.along_of_mem fun _ _ _ => trivial) (Nat.zero_le _)
  intro s e h _
  rcases (step_effect s e : Effect exceptions s e _).size_le with hle | ⟨-, -, hsize, hle⟩
  · exact Nat.le_trans hle h
  · exact Nat.le_trans hle (Nat.succ_le_succ hsize)

/-- Without a call at the limit, the limit is kept. -/
theorem size_le_of_along {es : List (Event T D)}
    (h : (machine exceptions).Along (fun s e => ¬ AtLimit s e) {} es) :
    ((machine exceptions).run {} es).pendings.size ≤ kMaxParallel := by
  refine Machine.run_inv (I := fun s : Rpc T D => s.pendings.size ≤ kMaxParallel) ?_ h
    (Nat.zero_le _)
  intro s e hs hlimit
  rcases (step_effect s e : Effect exceptions s e _).size_le with
    hle | ⟨⟨type, timeout, rfl⟩, hscan, -, hle⟩
  · exact Nat.le_trans hle hs
  · exact Nat.le_trans hle (Nat.lt_of_not_le fun hfull => hlimit ⟨hscan, hfull⟩)

/-- **The limit of parallel calls.** One call more than `kMaxParallel` can be pending, and only
with that many pending is a call not sent; a build with exceptions then answers it with a
timeout. The limit itself is kept, and calls at the limit are refused, exactly if no call is
made at the limit. -/
theorem parallel_limit_iff (exceptions : Bool) (es : List (Event T D)) :
    (((machine exceptions).run {} es).pendings.size ≤ kMaxParallel + 1 ∧
      ∀ e, AtLimit ((machine exceptions).run {} es) e →
        ((machine exceptions).run {} es).pendings.size ≠ kMaxParallel → exceptions = true →
        Refused exceptions ((machine exceptions).run {} es) e) ∧
    ((∀ pre post, es = pre ++ post →
        ((machine exceptions).run {} pre).pendings.size ≤ kMaxParallel) ∧
      (machine exceptions).Along (fun s e => AtLimit s e → Refused exceptions s e) {} es ↔
        (machine exceptions).Along (fun s e => ¬ AtLimit s e) {} es) := by
  refine ⟨⟨size_le_succ exceptions es, ?_⟩, ?_, ?_⟩
  · intro e he hne hexc
    cases e with
    | invoke type timeout =>
      obtain ⟨hscan, hfull⟩ := he
      obtain ⟨hsend, hcall⟩ := invoke_refused exceptions type timeout hscan
        (Nat.lt_of_le_of_ne hfull hne.symm)
      rw [hexc, if_pos rfl] at hcall
      exact ⟨hsend, hexc ▸ hcall⟩
    | _ => exact he.elim
  · rintro ⟨hsize, hrefused⟩
    refine Machine.along_of_forall ?_
    rintro pre e post rfl hat
    have hr := hrefused.here hat
    cases e with
    | invoke type timeout =>
      -- the call is at the limit and not beyond it, so its request goes out
      have hsend := invoke_sends exceptions type timeout hat.1 (hsize pre _ rfl)
      have hlen := congrArg List.length (hr.1.symm.trans hsend)
      simp at hlen
    | _ => exact hat
  · intro h
    constructor
    · rintro pre post rfl
      exact size_le_of_along h.left
    · refine Machine.along_of_forall ?_
      rintro pre e post rfl hat
      exact absurd hat h.here

/-- Three calls in a row are all sent. -/
theorem three_calls_pending :
    ((machine true).run ({} : Rpc Unit Unit)
      [.invoke () 100, .invoke () 100, .invoke () 100]).pendings.size = 3 ∧
    ((machine true).run ({} : Rpc Unit Unit)
      [.invoke () 100, .invoke () 100, .invoke () 100]).sending.map (·.id) = [0, 1, 2] := by
  decide +kernel

/-! ## Timeouts -/

/-- The ticks that an event takes. -/
def Event.ticks : Event T D → Nat
  | .advance n => n.toNat
  | _ => 0

/-- The ticks that a run takes. -/
def elapsed (es : List (Event T D)) : Nat :=
  (es.map Event.ticks).sum

omit [DecidableEq T] in
@[simp] theorem elapsed_append (es fs : List (Event T D)) :
    elapsed (es ++ fs) = elapsed es + elapsed fs := by
  simp [elapsed]

omit [DecidableEq T] in
@[simp] theorem elapsed_cons (e : Event T D) (es : List (Event T D)) :
    elapsed (e :: es) = e.ticks + elapsed es := by
  simp [elapsed]

/-- The tick that the timer has read. -/
def TimerState.currTick : TimerState → Option UInt32
  | .idle => none
  | .scanning currTick _ | .emitting currTick _ => some currTick

/-- A call that is made now is not made after the tick that the timer has read. -/
def Prompt (s : Rpc T D) : Prop :=
  ∀ currTick ∈ s.timer.currTick, s.tick = currTick

/-- What an event does to the clock, and to the tick that the timer has read: it keeps that tick
until it is done. -/
structure Clock (s : Rpc T D) (e : Event T D) (s' : Rpc T D) : Prop where
  tick : s'.tick = s.tick + .ofNat e.ticks
  read : ∀ k, s'.timer.currTick = some k →
    s.timer.currTick = some k ∨ s.timer.currTick = none ∧ k = s.tick ∧ e.ticks = 0

omit [DecidableEq T] in
theorem Clock.same {s s' : Rpc T D} {e : Event T D} (ht : s'.tick = s.tick) (he : e.ticks = 0)
    (htimer : s'.timer.currTick = s.timer.currTick) : Clock s e s' where
  tick := by rw [ht, he]; simp
  read k hk := .inl (htimer ▸ hk)

theorem step_clock (exceptions : Bool) (s : Rpc T D) (e : Event T D) :
    Clock s e (s.step exceptions e).1 := by
  cases e with
  | invoke type timeout =>
    simp only [step, invoke]
    split
    · exact .same rfl rfl rfl
    all_goals
      split
      · split <;> exact .same rfl rfl rfl
      · exact .same rfl rfl rfl
  | arrive a =>
    simp only [step, arrive]
    split
    · exact .same rfl rfl rfl
    · exact .same rfl rfl rfl
    · split
      · split
        · exact .same rfl rfl rfl
        · split <;> exact .same rfl rfl rfl
      · exact .same rfl rfl rfl
  | call n =>
    simp only [step, call]
    split <;> exact .same rfl rfl rfl
  | send n =>
    simp only [step, send]
    split <;> exact .same rfl rfl rfl
  | timerRun =>
    simp only [step, timerRun]
    split
    · rename_i hidle
      refine ⟨by simp [Event.ticks], ?_⟩
      intro k hk
      exact .inr ⟨by rw [hidle]; rfl, (Option.some.inj hk).symm, rfl⟩
    all_goals exact .same rfl rfl rfl
  | timerStep =>
    simp only [step, timerStep]
    split
    · exact .same rfl rfl rfl
    · exact .same rfl rfl rfl
    · rename_i currTick last hscan
      split
      · exact ⟨by simp [Event.ticks], fun k hk => by cases hk⟩
      · split
        all_goals exact .same rfl rfl (by rw [hscan]; rfl)
  | timerReturn =>
    simp only [step, timerReturn]
    split
    · exact .same rfl rfl rfl
    · exact .same rfl rfl rfl
    · rename_i currTick id hemit
      exact .same rfl rfl (by rw [hemit]; rfl)
  | advance n => exact ⟨by simp [step, Event.ticks], fun k hk => .inl hk⟩

/-- An entry of the table was there, or is that of a call that is made now. -/
theorem Effect.pending {r : Rpc T D × List (Output T D)} (he : Effect exceptions s e r)
    {id : UInt8} {p : Pending T} (hp : r.1.pendings[id]? = some p) :
    s.pendings[id]? = some p ∨ s.timer.scans = false ∧ ∃ type timeout,
      e = .invoke type timeout ∧ p = ⟨⟨s.count, type⟩, s.tick, timeout⟩ := by
  cases he with
  | quiet | waits | refuses | calls | sends | expires => exact .inl hp
  | accepts type timeout hs hsize =>
    rcases Table.getElem?_insert hp with hold | ⟨-, -, rfl⟩
    · exact .inl hold
    · exact .inr ⟨hs, type, timeout, rfl, rfl⟩
  | takes | removes => exact .inl (Table.getElem?_erase.1 hp).2

/-- The entry is that of a call of the run, and if the call was prompt, it was not made
after the time `c`. -/
def Made (exceptions : Bool) (t₀ : UInt32) (es : List (Event T D)) (c : Nat) (p : Pending T) :
    Prop :=
  ∃ a type timeout b, es = a ++ .invoke type timeout :: b ∧
    ((machine exceptions).run { tick := t₀ } a).timer.scans = false ∧
    p = ⟨⟨((machine exceptions).run { tick := t₀ } a).count, type⟩, t₀ + .ofNat (elapsed a),
      timeout⟩ ∧
    (Prompt ((machine exceptions).run { tick := t₀ } a) → elapsed a ≤ c)

/-- The clock shows the time of the run, and the timer has read it at the time `c`. -/
structure Timely (exceptions : Bool) (t₀ : UInt32) (es : List (Event T D)) (s : Rpc T D)
    (c : Nat) :
    Prop where
  tick : s.tick = t₀ + .ofNat (elapsed es)
  le : c ≤ elapsed es
  idle : s.timer.currTick = none → c = elapsed es
  read : ∀ k, s.timer.currTick = some k → k = t₀ + .ofNat c
  made : ∀ (id : UInt8) p, s.pendings[id]? = some p → Made exceptions t₀ es c p

theorem Made.concat {t₀ : UInt32} {es : List (Event T D)} {c c' : Nat} {p : Pending T}
    (h : Made exceptions t₀ es c p) (hc : c ≤ c') (e : Event T D) :
    Made exceptions t₀ (es ++ [e]) c' p := by
  obtain ⟨a, type, timeout, b, rfl, hscan, hp, hprompt⟩ := h
  exact ⟨a, type, timeout, b ++ [e], by simp, hscan, hp, fun h => Nat.le_trans (hprompt h) hc⟩

/-- Clocks with the same start that show the same are at the same time. -/
theorem ofNat_inj {t : UInt32} {m n : Nat} (hm : m < 2 ^ 32) (hn : n < 2 ^ 32)
    (h : t + .ofNat m = t + .ofNat n) : m = n := by
  have hofNat := congrArg UInt32.toNat ((UInt32.add_right_inj t).1 h)
  rwa [UInt32.toNat_ofNat_of_lt' hm, UInt32.toNat_ofNat_of_lt' hn] at hofNat

/-- The difference of two readings of a clock. -/
theorem toNat_sub_ofNat {t : UInt32} {m n : Nat} (hle : m ≤ n) (hn : n < 2 ^ 32) :
    (t + .ofNat n - (t + .ofNat m)).toNat = n - m := by
  have hsub : t + .ofNat n - (t + .ofNat m) = UInt32.ofNat (n - m) := by
    rw [UInt32.ofNat_sub hle]
    grind
  rw [hsub, UInt32.toNat_ofNat_of_lt' (Nat.lt_of_le_of_lt (Nat.sub_le n m) hn)]

/-- A call that is made now is made at the time that the timer has read, if it is prompt. -/
theorem Timely.elapsed_le {t₀ : UInt32} {es : List (Event T D)} {c : Nat}
    (h : Timely exceptions t₀ es s c) (hlt : elapsed es < 2 ^ 32) (hprompt : Prompt s) :
    elapsed es ≤ c := by
  cases hk : s.timer.currTick with
  | none => exact Nat.le_of_eq (h.idle hk).symm
  | some k =>
    have hticks : t₀ + .ofNat (elapsed es) = t₀ + .ofNat c := by
      rw [← h.tick, ← h.read k hk, hprompt k hk]
    exact Nat.le_of_eq (ofNat_inj hlt (Nat.lt_of_le_of_lt h.le hlt) hticks)

theorem Timely.concat {t₀ : UInt32} {es : List (Event T D)} {e : Event T D} {c : Nat}
    (h : Timely exceptions t₀ es ((machine exceptions).run { tick := t₀ } es) c)
    (hlt : elapsed es < 2 ^ 32) :
    ∃ c', Timely exceptions t₀ (es ++ [e])
      (((machine exceptions).run { tick := t₀ } es).step exceptions e).1 c' := by
  have hclock := step_clock exceptions ((machine exceptions).run { tick := t₀ } es) e
  have htick : (((machine exceptions).run { tick := t₀ } es).step exceptions e).1.tick =
      t₀ + .ofNat (elapsed (es ++ [e])) := by
    rw [hclock.tick, h.tick, elapsed_append, elapsed_cons, UInt32.add_assoc, ← UInt32.ofNat_add]
    rfl
  have hmade : ∀ c', c ≤ c' → ∀ (id : UInt8) p,
      (((machine exceptions).run { tick := t₀ } es).step exceptions e).1.pendings[id]? = some p →
      Made exceptions t₀ (es ++ [e]) c' p := by
    intro c' hc id p hp
    rcases (step_effect _ e : Effect exceptions _ e _).pending hp with
      hold | ⟨hscan, type, timeout, rfl, rfl⟩
    · exact (h.made id p hold).concat hc e
    · refine ⟨es, type, timeout, [], rfl, hscan, by rw [h.tick], ?_⟩
      intro hprompt
      exact Nat.le_trans (h.elapsed_le hlt hprompt) hc
  have hle : elapsed es ≤ elapsed (es ++ [e]) := by
    rw [elapsed_append]
    exact Nat.le_add_right _ _
  cases hk : (((machine exceptions).run { tick := t₀ } es).step exceptions e).1.timer.currTick with
  | none =>
    refine ⟨elapsed (es ++ [e]), htick, Nat.le_refl _, fun _ => rfl, ?_,
      hmade _ (Nat.le_trans h.le hle)⟩
    intro k hk'
    rw [hk] at hk'
    cases hk'
  | some k =>
    rcases hclock.read k hk with hold | ⟨-, rfl, hz⟩
    · refine ⟨c, htick, Nat.le_trans h.le hle, ?_, ?_, hmade c (Nat.le_refl c)⟩
      · intro hnone
        rw [hk] at hnone
        cases hnone
      · intro k' hk'
        rw [hk] at hk'
        exact h.read k' (hold.trans hk')
    -- the timer reads the tick now
    · have hsame : elapsed (es ++ [e]) = elapsed es := by
        rw [elapsed_append, elapsed_cons, hz]
        rfl
      refine ⟨elapsed (es ++ [e]), htick, Nat.le_refl _, fun _ => rfl, ?_,
        hmade _ (Nat.le_trans h.le hle)⟩
      intro k' hk'
      rw [hk] at hk'
      rw [← Option.some.inj hk', h.tick, hsame]

theorem timely (exceptions : Bool) (t₀ : UInt32) (es : List (Event T D)) :
    elapsed es < 2 ^ 32 →
      ∃ c, Timely exceptions t₀ es ((machine exceptions).run { tick := t₀ } es) c := by
  refine Machine.history_inv (M := machine exceptions)
    (I := fun es (s : Rpc T D) => elapsed es < 2 ^ 32 → ∃ c, Timely exceptions t₀ es s c) ?_ ?_ es
  · intro _
    refine ⟨0, ?_, Nat.le_refl _, fun _ => rfl, ?_, ?_⟩
    · simp [elapsed]
    · intro k hk
      cases hk
    · intro id p hp
      simp at hp
  · intro pre e ih hlt
    rw [elapsed_append] at hlt
    obtain ⟨c, hc⟩ := ih (Nat.lt_of_le_of_lt (Nat.le_add_right _ _) hlt)
    exact hc.concat (Nat.lt_of_le_of_lt (Nat.le_add_right _ _) hlt)

/-- A timeout that the timer reports is that of an entry that has expired for it. -/
theorem expired_of_called {i : Invocation T} {r : Result T D}
    (h : .called i r ∈ (s.step exceptions .timerStep).2) :
    ∃ (currTick : UInt32) (id : UInt8) (p : Pending T), s.timer.currTick = some currTick ∧
      s.pendings[id]? = some p ∧ p.toInvocation = i ∧ currTick - p.createdTick > p.timeout := by
  have he : Effect exceptions s .timerStep _ := step_effect s .timerStep
  generalize s.step exceptions .timerStep = res at h he
  cases he with
  | quiet | waits => cases h
  | expires currTick last id p hs hp hexp =>
    refine ⟨currTick, id, p, by rw [hs]; rfl, hp, ?_, hexp⟩
    cases exceptions with
    | false => cases h
    | true =>
      simp at h
      exact h.1.symm

/-- **No timeout is early**, unless it is that of a call which a callback of the timer made after
the tick that the timer had read: every timeout that the timer reports in a run of less than
`2 ^ 32` ticks is that of a call of the run, and more ticks than the call's timeout have passed
since the call, if the call was prompt. -/
theorem timeout_not_early (exceptions : Bool) (t₀ : UInt32) (pre : List (Event T D))
    (hlt : elapsed pre < 2 ^ 32) (i : Invocation T) (r : Result T D)
    (hcalled : .called i r ∈
      (((machine exceptions).run { tick := t₀ } pre).step exceptions .timerStep).2) :
    ∃ a type timeout b, pre = a ++ .invoke type timeout :: b ∧
      i = ⟨((machine exceptions).run { tick := t₀ } a).count, type⟩ ∧
      ((machine exceptions).run { tick := t₀ } a).timer.scans = false ∧
      (Prompt ((machine exceptions).run { tick := t₀ } a) → timeout.toNat < elapsed b) := by
  obtain ⟨currTick, id, p, hread, hp, rfl, hexp⟩ := expired_of_called hcalled
  obtain ⟨c, hc⟩ := timely exceptions t₀ pre hlt
  obtain ⟨a, type, timeout, b, rfl, hscan, rfl, hprompt⟩ := hc.made id p hp
  refine ⟨a, type, timeout, b, rfl, rfl, hscan, ?_⟩
  intro h
  dsimp only at hexp
  rw [hc.read currTick hread, gt_iff_lt, UInt32.lt_iff_toNat_lt,
    toNat_sub_ofNat (hprompt h) (Nat.lt_of_le_of_lt hc.le hlt)] at hexp
  have hle := hc.le
  rw [elapsed_append, elapsed_cons] at hle
  have hz : (Event.invoke type timeout : Event T D).ticks = 0 := rfl
  omega

theorem timeout_not_early_single :
    ∃ a type timeout b, ([.invoke () 100, .advance 200, .timerRun] : List (Event Unit Unit)) =
        a ++ .invoke type timeout :: b ∧
      (⟨0, ()⟩ : Invocation Unit) = ⟨((machine true).run { tick := 7 } a).count, type⟩ ∧
      ((machine true).run { tick := 7 } a).timer.scans = false ∧
      (Prompt ((machine true).run { tick := 7 } a) → timeout.toNat < elapsed b) :=
  timeout_not_early true 7 [.invoke () 100, .advance 200, .timerRun] (by decide) ⟨0, ()⟩ .timeout
    (by
      have h : (((machine true).run ({ tick := 7 } : Rpc Unit Unit)
        [.invoke () 100, .advance 200, .timerRun]).step true .timerStep).2 =
          [.called ⟨0, ()⟩ .timeout] := rfl
      rw [h]
      exact List.mem_singleton_self _)

/-- A timer that has expired a call of 100 ticks calls its callback, the callback takes five ticks
and makes a call of 10000 ticks, and the timer reports that call as timed out at once. -/
theorem nested_call_times_out :
    let pre : List (Event Unit Unit) := [.invoke () 100, .advance 200, .timerRun, .timerStep,
      .advance 5, .invoke () 10000, .timerReturn]
    (((machine true).run {} pre).step true .timerStep).2 = [.called ⟨1, ()⟩ .timeout] ∧
      elapsed (pre.drop 6) = 0 := by
  exact ⟨rfl, rfl⟩

end ChargingPile.Rpc
