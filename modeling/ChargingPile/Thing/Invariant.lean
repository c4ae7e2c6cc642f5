import ChargingPile.Thing.Calls

/-!
# The invariant of a port

`Port.Inv` holds of every port after `Thing::init` (`Boot.init_inv`) and is kept by every operation
(`Port.exec_inv`), hence by every event and every run (`Thing.reachable_inv`). The relay of a port
is unset at boot, and no port has published `Charging` by then.
-/

namespace ChargingPile

namespace CountDown

/-- The countdown is loaded with `n` and never holds more. -/
structure Within (n : Nat) (c : CountDown) : Prop where
  init : c.initVal = n
  le : c.currVal ≤ n

variable {n : Nat} {c : CountDown}

theorem Within.trigger (h : c.Within n) : c.trigger.Within n := ⟨h.init, h.le⟩

theorem Within.reset (h : c.Within n) : c.reset.Within n := ⟨h.init, h.init.le⟩

theorem Within.retrigger (h : c.Within n) : c.retrigger.Within n := by
  obtain ⟨hi, hl⟩ := h
  refine ⟨hi, ?_⟩
  simp only [CountDown.retrigger]
  split <;> omega

/-- A retriggered countdown of one tick expires at the next tick. -/
theorem Within.retrigger_currVal (h : c.Within 1) : c.retrigger.currVal = 1 := by
  obtain ⟨hi, hl⟩ := h
  simp only [CountDown.retrigger]
  split <;> omega

theorem Within.updateAndCheck (h : c.Within n) : c.updateAndCheck.2.Within n := by
  obtain ⟨hi, hl⟩ := h
  refine ⟨by simpa using hi, ?_⟩
  rw [updateAndCheck_currVal]
  split <;> omega

end CountDown

namespace Port

/-- What holds of a port between two events. -/
structure Inv (p : Port) : Prop where
  charger : p.charger.Inv
  limiter : p.limiter.Within 10
  /-- A limiter that does not count is loaded. -/
  limiter_idle : p.limiter.counting = false → p.limiter.currVal = 10
  /-- A limiter does not count before the relay is first driven. -/
  limiter_unset : p.charger.relay = none → p.limiter.counting = false
  count : p.data.count.Within 1

variable {x : Ctx} {p : Port}

/-! ## Operations -/

theorem call_inv (hc : p.charger.Inv) (op : Op) : (op.call x p).1.Inv := by
  rcases op.call_cases hc x with ⟨-, hr⟩ | ⟨-, hr⟩ | ⟨i, u, -, hr⟩
  · rw [hr]; exact Charger.start_inv hc
  · rw [hr]; exact Charger.stop_inv hc
  · exact hr.inv (Charger.inv_setMeter hc i u)

/-- Only a `control`, a `stop`, a resumption and an expiry of the limiter drive an unset relay. -/
theorem relay_of_call_unset (hc : p.charger.Inv) {op : Op} (h : (op.call x p).1.relay = none) :
    p.charger.relay = none := by
  rcases op.call_cases hc x with ⟨-, hr⟩ | ⟨-, hr⟩ | ⟨i, u, -, hr⟩
  · rw [hr] at h
    by_cases hon : p.charger.relay = some .on
    · rw [Charger.start_on hon] at h
      exact h
    · rw [Charger.start_spec hc hon] at h
      cases h
  · rw [hr] at h
    by_cases hoff : p.charger.relay = some .off
    · rw [Charger.stop_off hoff] at h
      exact h
    · rw [Charger.stop_spec hc hoff] at h
      cases h
  · exact hr.relay.symm.trans h

theorem stop_relay {c : Charger} (hc : c.Inv) : c.stop.1.relay = some .off := by
  by_cases hoff : c.relay = some .off
  · rw [Charger.stop_off hoff]; exact hoff
  · rw [Charger.stop_spec hc hoff]

/-- An operation that leaves a closed relay closed publishes nothing and assigns no final state. -/
theorem call_kept {op : Op} (h : p.Inv) (hon : p.charger.relay = some .on)
    (hon' : (op.call x p).1.relay = some .on) :
    (op.call x p).2 = [] ∧ (op.before p).info.finalState = p.info.finalState := by
  have hstop : op.call x p ≠ p.charger.stop := by
    intro heq
    rw [heq, stop_relay h.charger] at hon'
    cases hon'
  refine ⟨?_, ?_⟩
  · rcases op.call_cases h.charger x with ⟨-, hr⟩ | ⟨-, hr⟩ | ⟨i, u, -, hr⟩
    · rw [hr, Charger.start_on hon]
    · exact absurd hr hstop
    · exact (hr.closed hon).1
  · cases op with
    | limiter =>
      simp only [Op.before]
      rw [if_neg]
      intro hexp
      exact hstop (if_pos hexp)
    | noload =>
      simp only [Op.before]
      rw [if_neg]
      rintro ⟨hn, hs⟩
      exact hstop (if_pos ⟨by simp [hn], hs⟩)
    | counter | resume => simp only [Op.before]; split <;> rfl
    | _ => rfl

/-- Only a report changes the last reported current. -/
theorem call_current (hc : p.charger.Inv) (x : Ctx) {op : Op}
    (hop : ∀ value, op ≠ .current value) :
    (op.call x p).1.current = p.charger.current := by
  rcases op.call_cases hc x with ⟨-, hr⟩ | ⟨-, hr⟩ | ⟨i, u, hi, hr⟩
  · rw [hr]
    by_cases hon : p.charger.relay = some .on
    · rw [Charger.start_on hon]
    · rw [Charger.start_spec hc hon]
  · rw [hr]
    by_cases hoff : p.charger.relay = some .off
    · rw [Charger.stop_off hoff]
    · rw [Charger.stop_spec hc hoff]
  · rcases hi with hi | ⟨value, hv, -⟩
    · exact hr.current.trans hi
    · exact absurd hv (hop value)

theorem limiterAfter_within (h : p.limiter.Within 10) (op : Op) :
    (op.limiterAfter x p).Within 10 := by
  cases op with
  | current value =>
    simp only [Op.limiterAfter, CurrentLimiter.onCurrentChanged]
    split
    · exact h
    · split
      · exact h.reset
      · split
        · exact h.trigger
        · exact h.reset
  | limiter => exact h.updateAndCheck
  | _ => exact h

theorem limiterAfter_idle (h : p.limiter.Within 10)
    (hi : p.limiter.counting = false → p.limiter.currVal = 10) (op : Op)
    (hn : (op.limiterAfter x p).counting = false) : (op.limiterAfter x p).currVal = 10 := by
  cases op with
  | current value =>
    simp only [Op.limiterAfter, CurrentLimiter.onCurrentChanged] at hn ⊢
    split at hn
    · rename_i hv
      rw [if_pos hv]
      exact hi hn
    · rename_i hv
      rw [if_neg hv]
      split at hn
      · rename_i hs
        rw [if_pos hs]
        exact h.init
      · rename_i hs
        rw [if_neg hs]
        split at hn
        · cases hn
        · rename_i hl
          rw [if_neg hl]
          exact h.init
  | limiter =>
    simp only [Op.limiterAfter, CountDown.updateAndCheck_counting] at hn
    simp only [Op.limiterAfter, CountDown.updateAndCheck_currVal, hn]
    exact hi hn
  | _ => exact hi hn

/-- A limiter starts to count only at a report that finds the port charging. -/
theorem limiterAfter_counting {op : Op} (hc : (op.limiterAfter x p).counting = true)
    (hn : p.limiter.counting = false) : (op.call x p).1.state = some .charging := by
  cases op with
  | current value =>
    simp only [Op.limiterAfter, CurrentLimiter.onCurrentChanged] at hc
    split at hc
    · rw [hn] at hc; cases hc
    · split at hc
      · cases hc
      · rename_i hs
        exact not_not.1 hs
  | limiter =>
    simp only [Op.limiterAfter, CountDown.updateAndCheck_counting, hn] at hc
    cases hc
  | _ => simp [Op.limiterAfter, hn] at hc

theorem onStateChanged_count (h : p.data.count.Within 1) (s : State) :
    (p.onStateChanged x s).data.count.Within 1 := by
  cases s with
  | charging | loadWaitRemove => exact h.retrigger
  | loadNotInsert | loadInserted | error => exact h

theorem notify_count (l : List State) (h : p.data.count.Within 1) :
    (notify x l p).data.count.Within 1 := by
  induction l generalizing x p with
  | nil => exact h
  | cons s l ih => exact ih (onStateChanged_count h s)

theorem exec_count (h : p.data.count.Within 1) (op : Op) :
    (p.exec x op).1.data.count.Within 1 := by
  have hd : ((op.before p).drive x (op.call x p)).1.data.count.Within 1 :=
    notify_count _ (by rw [before_data]; exact h)
  rw [exec_eq]
  cases op with
  | query => exact hd.retrigger
  | current value =>
    simp only [Op.after, onCurrentChanged, DataSetter.onCurrentChanged]
    split
    · exact hd
    · dsimp only
      split
      · exact hd
      · split
        · exact hd.retrigger
        · exact hd
  | voltage value => simp only [Op.after]; split <;> exact hd
  | backupWrite => simp only [Op.after, backupWrite]; split <;> exact hd
  | data =>
    simp only [Op.after, dataTick, emitPortData]
    split
    · split <;> exact hd.updateAndCheck
    · exact hd.updateAndCheck
  | _ => exact hd

/-- Every operation keeps the invariant. -/
theorem exec_inv (h : p.Inv) (op : Op) : (p.exec x op).1.Inv := by
  obtain ⟨hc, -⟩ := exec_call x p op
  have hl := exec_limiter x p op
  refine ⟨?_, ?_, ?_, ?_, exec_count h.count op⟩
  · rw [hc]; exact call_inv h.charger op
  · rw [hl]; exact limiterAfter_within h.limiter op
  · rw [hl]; exact limiterAfter_idle h.limiter h.limiter_idle op
  · rw [hl, hc]
    intro hr
    have hn := h.limiter_unset (relay_of_call_unset h.charger hr)
    by_contra hcnt
    have hs := limiterAfter_counting (Bool.eq_true_of_not_eq_false hcnt) hn
    rw [(call_inv h.charger op).charging_iff.1 hs] at hr
    cases hr

end Port

/-! ## Events and runs -/

namespace Thing

variable {t : Thing} {j : InnerPort}

/-- The invariant does not speak of the `Backuper` record, so it passes from the operation to the
event. -/
theorem step_inv (e : Event) (h : (t.ports j).Inv) : ((t.step e).1.ports j).Inv := by
  obtain ⟨x, spec, bs, -, hp, -⟩ := t.step_local e j
  have hq : ((t.ports j).execOpt x (e.opOn t j)).1.Inv := by
    cases e.opOn t j with
    | none => exact h
    | some op => exact Port.exec_inv h op
  rw [hp]
  exact ⟨hq.charger, hq.limiter, hq.limiter_idle, hq.limiter_unset, hq.count⟩

theorem run_inv (h : (t.ports j).Inv) (es : List Event) : ((machine.run t es).ports j).Inv :=
  Machine.run_inv (C := fun _ _ => True) (I := fun (t : Thing) => (t.ports j).Inv)
    (fun _ e h _ => step_inv e h) (Machine.along_of_mem fun _ _ _ => trivial) h

end Thing

namespace Boot

variable {b : Boot} {j : InnerPort}

/-- A reading before `Thing::init` leaves the relay unset and publishes at most `LoadNotInsert`. -/
theorem apply_unset {nr : Bool} {c : Charger} (hc : c.Inv) (hr : c.relay = none) (a : Sample) :
    (a.apply nr j c).1.Inv ∧ (a.apply nr j c).1.relay = none ∧
      ∀ s ∈ (a.apply nr j c).2, s = .loadNotInsert := by
  have hne : c.relay ≠ some .on := by simp [hr]
  have hquiet : ∀ {i u} {r : Charger × List State},
      Charger.Quiet { c with current := i, voltage := u } r →
      r.1.Inv ∧ r.1.relay = none ∧ ∀ s ∈ r.2, s = .loadNotInsert := by
    intro i u r hq
    refine ⟨hq.inv (Charger.inv_setMeter hc i u), hq.relay.trans hr, ?_⟩
    rcases (hq.opened hne).1 with ⟨hp, -⟩ | ⟨hp, -⟩ <;> simp [hp]
  have hnone := hquiet (Charger.Quiet.refl c)
  cases a with
  | current i v =>
    simp only [Sample.apply]
    split
    · by_cases hv : c.current = some v
      · rw [Charger.setCurrent, if_pos hv]
        exact hnone
      · exact hquiet (Charger.setCurrent_quiet hc hv)
    · exact hnone
  | voltage m v =>
    simp only [Sample.apply]
    split
    · by_cases hv : c.voltage = some v
      · rw [Charger.setVoltage, if_pos hv]
        exact hnone
      · exact hquiet (Charger.setVoltage_quiet hc hv)
    · exact hnone

theorem sampled_unset {nr : Bool} {c : Charger} (hc : c.Inv) (hr : c.relay = none)
    (l : List Sample) :
    (sampled nr j c l).1.Inv ∧ (sampled nr j c l).1.relay = none ∧
      ∀ s ∈ (sampled nr j c l).2, s = .loadNotInsert := by
  induction l generalizing c with
  | nil => exact ⟨hc, hr, nofun⟩
  | cons a l ih =>
    obtain ⟨hc', hr', hs'⟩ := apply_unset hc hr a
    obtain ⟨hc'', hr'', hs''⟩ := ih hc' hr'
    refine ⟨hc'', hr'', ?_⟩
    intro s hs
    rcases List.mem_append.1 hs with hs | hs
    · exact hs' s hs
    · exact hs'' s hs

/-- At `Thing::init` every relay is unset and nothing but `LoadNotInsert` was published. -/
theorem charger_unset (b : Boot) (j : InnerPort) :
    (b.charger j).1.Inv ∧ (b.charger j).1.relay = none ∧
      ∀ s ∈ (b.charger j).2, s = .loadNotInsert :=
  sampled_unset Charger.boot_inv rfl _

theorem init_charger (b : Boot) (j : InnerPort) : (b.init.ports j).charger = (b.charger j).1 := by
  simp only [init]
  split <;> rfl

theorem init_limiter (b : Boot) (j : InnerPort) : (b.init.ports j).limiter = .ofInit 10 := by
  simp only [init]
  split <;> rfl

theorem init_count (b : Boot) (j : InnerPort) : (b.init.ports j).data.count.Within 1 := by
  have h : (b.fresh j).data.count.Within 1 := ⟨rfl, le_rfl⟩
  simp only [init]
  split
  · exact h
  · exact Port.onStateChanged_count h _

/-- The invariant holds after `Thing::init`. -/
theorem init_inv (b : Boot) (j : InnerPort) : (b.init.ports j).Inv := by
  have hl := b.init_limiter j
  refine ⟨?_, ?_, ?_, ?_, b.init_count j⟩
  · rw [init_charger]; exact (b.charger_unset j).1
  · rw [hl]; exact ⟨rfl, le_rfl⟩
  · rw [hl]; exact fun _ => rfl
  · rw [hl]; exact fun _ => rfl

end Boot

/-- **The invariant holds in every run from boot.** -/
theorem Thing.reachable_inv (b : Boot) (es : List Event) (j : InnerPort) :
    ((Thing.machine.run b.init es).ports j).Inv :=
  Thing.run_inv (b.init_inv j) es

/-- **The state agrees with the relay.** In every run from boot, whatever the meters reported
before `Thing::init` and whatever a null timer reads as, a port is `Charging` between two events
exactly if its relay is closed. -/
theorem Thing.charging_iff_relay_on (b : Boot) (es : List Event) (j : InnerPort) :
    ((Thing.machine.run b.init es).ports j).charger.state = some .charging ↔
      ((Thing.machine.run b.init es).ports j).charger.relay = some .on :=
  (Thing.reachable_inv b es j).charger.charging_iff

end ChargingPile
