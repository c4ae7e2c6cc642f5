import ChargingPile.Thing.Backup

/-!
# The charging time

`Thing::control` sets `leftSeconds` to the time that was paid for and closes the relay. Every tick
of the `Counter` takes one second off each port that is `Charging` and opens the relay at zero. The
published `LoadWaitRemove` then clears `leftSeconds`, whatever opened the relay.

`Port.exec_leftSeconds` and `Port.exec_timerId` say what an operation does to the two fields a
command sets. `charging_time_exact` is the result: a port that is left alone charges for exactly
the seconds it was given.
-/

namespace ChargingPile

/-- A value that fits an `int` is what it is. -/
theorem int32_of_fits {n : Int} (h : -2 ^ 31 ≤ n) (h' : n < 2 ^ 31) : int32 n = n := by
  unfold int32
  rw [Int.bmod_eq_of_le] <;> omega

namespace Port

variable {x : Ctx} {p : Port} {op : Op}

/-! ## The fields that a command sets -/

/-- `LoadWaitRemove` clears `leftSeconds`, and no state touches `timerId`. -/
theorem onStateChanged_info (x : Ctx) (s : State) (p : Port) :
    (p.onStateChanged x s).info.leftSeconds =
        (if s = .loadWaitRemove then 0 else p.info.leftSeconds) ∧
      (p.onStateChanged x s).info.timerId = p.info.timerId := by
  cases s with
  | charging =>
    have h : (p.onStateChanged x .charging).info = if x.isFirstCharge then
        { p.info with finalState := .set (some .loadWaitRemove) } else
        { p.info with finalState := .set (some .loadWaitRemove), consumption := 0 } := rfl
    rw [h]
    split <;> exact ⟨rfl, rfl⟩
  | _ => exact ⟨rfl, rfl⟩

theorem notify_info (l : List State) (p : Port) :
    (notify x l p).info.leftSeconds = (if .loadWaitRemove ∈ l then 0 else p.info.leftSeconds) ∧
      (notify x l p).info.timerId = p.info.timerId := by
  induction l generalizing x p with
  | nil => exact ⟨rfl, rfl⟩
  | cons s l ih =>
    obtain ⟨hl, ht⟩ := ih (x := x.published s) (p.onStateChanged x s)
    obtain ⟨hl', ht'⟩ := onStateChanged_info x s p
    refine ⟨?_, ht.trans ht'⟩
    rw [notify, hl, hl']
    by_cases hmem : .loadWaitRemove ∈ l
    · simp [hmem]
    · simp [hmem, eq_comm]

/-- What an operation does after its call leaves `leftSeconds` alone. -/
theorem after_leftSeconds (q : Port) : (op.after x p q).info.leftSeconds = q.info.leftSeconds := by
  cases op with
  | current | voltage =>
    simp only [Op.after, onCurrentChanged, measure, ConsumptionMeasurer.update]
    split
    · rfl
    · dsimp only
      split <;> rfl
  | measure =>
    simp only [Op.after, measure, ConsumptionMeasurer.update]
    split <;> rfl
  | backupWrite =>
    simp only [Op.after, backupWrite]
    split <;> rfl
  | data =>
    simp only [Op.after, dataTick, emitPortData]
    split
    · split <;> rfl
    · rfl
  | _ => rfl

/-- The seconds a port has left after an operation. -/
theorem exec_leftSeconds (x : Ctx) (p : Port) (op : Op) :
    (p.exec x op).1.info.leftSeconds =
      if .loadWaitRemove ∈ (op.call x p).2 then 0 else (op.before p).info.leftSeconds := by
  rw [exec_eq, after_leftSeconds]
  exact (notify_info _ _).1

/-- Only a command, a resumption and a tick in a session set the seconds before the call. -/
theorem before_leftSeconds (hc : ∀ timerId minutes, op ≠ .control timerId minutes)
    (hr : p.Resumed) (hk : op = .counter → p.charger.state ≠ some .charging) :
    (op.before p).info.leftSeconds = p.info.leftSeconds := by
  cases op with
  | control timerId minutes => exact absurd rfl (hc timerId minutes)
  | counter => simp [Op.before, hk rfl]
  | limiter | noload =>
    simp only [Op.before]
    split <;> rfl
  | resume backup =>
    unfold Resumed at hr
    simp [Op.before, hr]
  | _ => rfl

/-! ## The time that is left -/

/-- The port was resumed and charges for `left` more seconds. -/
structure Timed (left : Nat) (p : Port) : Prop where
  inv : p.Inv
  resumed : p.Resumed
  relay : p.charger.relay = if left = 0 then some .off else some .on
  leftSeconds : p.info.leftSeconds = left
  fits : left < 2 ^ 31

/-- A tick of the `Counter` takes one second off. -/
theorem Timed.counter {left : Nat} (h : p.Timed left) :
    (p.exec x .counter).1.charger.relay = (if left - 1 = 0 then some .off else some .on) ∧
      (p.exec x .counter).1.info.leftSeconds = ((left - 1 : Nat) : Int) := by
  have hcall := (exec_call x p .counter).1
  have hleft := exec_leftSeconds x p .counter
  have hfits := h.fits
  by_cases h0 : left = 0
  · have hns : p.charger.state ≠ some .charging := by
      intro hs
      have := h.inv.charger.charging_iff.1 hs
      rw [h.relay, if_pos h0] at this
      cases this
    have hnone : Op.call x p .counter = (p.charger, []) := if_neg fun hs => hns hs.1
    rw [hcall, hleft, hnone]
    simp [Op.before, hns, h.relay, h.leftSeconds, h0]
  · have hon : p.charger.relay = some .on := by rw [h.relay, if_neg h0]
    have hs := h.inv.charger.charging_iff.2 hon
    have hdec : int32 (p.info.leftSeconds - 1) = ((left - 1 : Nat) : Int) := by
      rw [h.leftSeconds, int32_of_fits] <;> omega
    rw [hcall, hleft, Op.call, hdec]
    by_cases h1 : left - 1 = 0
    · rw [if_pos ⟨hs, by omega⟩, Charger.stop_spec h.inv.charger (by simp [hon])]
      simp [h1]
    · rw [if_neg (by omega)]
      simp [h1, hon, Op.before, hs, hdec]

/-- Any other operation leaves the time alone, as long as it is no command, no resumption and opens
no relay. -/
theorem Timed.keeps {left : Nat} (h : p.Timed left)
    (hc : ∀ timerId minutes, op ≠ .control timerId minutes) (hk : op ≠ .counter)
    (hopen : p.charger.relay = some .on → (op.call x p).1.relay = some .on) :
    (p.exec x op).1.charger.relay = p.charger.relay ∧
      (p.exec x op).1.info.leftSeconds = p.info.leftSeconds := by
  have hbefore := before_leftSeconds hc h.resumed (fun hop => absurd hop hk)
  rw [(exec_call x p op).1, exec_leftSeconds, hbefore]
  by_cases h0 : left = 0
  · -- the relay is open: only a start could close it, and nothing is published but `LoadNotInsert`
    have hoff : p.charger.relay = some .off := by rw [h.relay, if_pos h0]
    rcases op.call_cases h.inv.charger x with ⟨hk', -⟩ | ⟨-, hr⟩ | ⟨i, u, -, hr⟩
    · rcases hk' with ⟨timerId, minutes, hop⟩ | ⟨backup, rfl⟩
      · exact absurd hop (hc timerId minutes)
      · have hres := h.resumed
        unfold Resumed at hres
        have hnone : Op.call x p (.resume backup) = (p.charger, []) := by simp [Op.call, hres]
        simp [hnone]
    · rw [hr, Charger.stop_off hoff]
      simp
    · refine ⟨hr.relay, ?_⟩
      rcases (hr.opened (by simp [hoff])).1 with ⟨hp, -⟩ | ⟨hp, -⟩ <;> simp [hp]
  · have hon : p.charger.relay = some .on := by rw [h.relay, if_neg h0]
    rw [(call_kept h.inv hon (hopen hon)).1, hopen hon, hon]
    simp

end Port

/-! ## Events and runs -/

theorem Event.opOn_control {t : Thing} {j : InnerPort} {e : Event} {timerId minutes : Int} :
    e.opOn t j = some (.control timerId minutes) ↔ e = .control j timerId minutes := by
  cases e <;> simp [opOn]

theorem Event.opOn_counter {t : Thing} {j : InnerPort} {e : Event} :
    e.opOn t j = some .counter ↔ e = .counterTick := by
  cases e <;> simp [opOn]

namespace Thing

variable {t : Thing} {j : InnerPort} {e : Event} {left : Nat}

/-- Nothing hits port `j`: the event is no `control` and no `stop` of the port, and no tick of the
limiter or of the no-load detector that opens its relay. -/
def LeftAlone (j : InnerPort) (t : Thing) (e : Event) : Prop :=
  (∀ timerId minutes, e ≠ .control j timerId minutes) ∧ (∀ timerId, e ≠ .stop j timerId) ∧
    (e = .limiterTick ∨ e = .noloadTick → (t.ports j).charger.relay = some .on →
      ((t.step e).1.ports j).charger.relay = some .on)

/-- Only commands, the `Counter`, the limiter and the no-load detector open a closed relay. -/
theorem LeftAlone.call_relay {x : Ctx} {op : Op} (h : LeftAlone j t e)
    (hinv : (t.ports j).Inv) (hop : e.opOn t j = some op) (hk : op ≠ .counter)
    (hrel : ((t.step e).1.ports j).charger = (op.call x (t.ports j)).1)
    (hon : (t.ports j).charger.relay = some .on) :
    (op.call x (t.ports j)).1.relay = some .on := by
  obtain ⟨-, hs, hl⟩ := h
  rcases op.call_cases hinv.charger x with ⟨-, hr⟩ | ⟨hw, hr⟩ | ⟨i, u, -, hr⟩
  · rw [hr, Charger.start_on hon]
    exact hon
  · rw [← hrel]
    rcases hw with ⟨timerId, rfl⟩ | ⟨rfl | rfl, -⟩ | ⟨rfl, -⟩
    · exact absurd (Event.opOn_stop.1 hop) (hs timerId)
    · exact absurd rfl hk
    · refine hl (.inr ?_) hon
      cases e <;> simp [Event.opOn] at hop ⊢
    · exact hl (.inl (Event.opOn_limiter.1 hop)) hon
  · exact hr.relay.trans hon

/-- One event at a port that is left alone: a tick of the `Counter` takes one second. -/
theorem step_timed (h : (t.ports j).Timed left) (ha : LeftAlone j t e) :
    ((t.step e).1.ports j).Timed (left - [e].count .counterTick) := by
  obtain ⟨x, -, hs, -⟩ := t.step_settles e j
  have hfits := h.fits
  suffices hq : ((t.step e).1.ports j).charger.relay =
        (if left - [e].count .counterTick = 0 then some .off else some .on) ∧
      ((t.step e).1.ports j).info.leftSeconds = ((left - [e].count .counterTick : Nat) : Int) from
    ⟨step_inv e h.inv, step_resumed e h.resumed, hq.1, hq.2, by omega⟩
  rw [hs.charger, hs.info]
  cases hop : e.opOn t j with
  | none =>
    have hne : e ≠ .counterTick := by
      rintro rfl
      cases hop
    rw [List.count_cons_of_ne hne]
    exact ⟨h.relay, h.leftSeconds⟩
  | some op =>
    by_cases hk : op = .counter
    · subst hk
      obtain rfl := Event.opOn_counter.1 hop
      rw [List.count_singleton_self]
      exact h.counter
    · have hne : e ≠ .counterTick := by
        rintro rfl
        cases hop
        exact hk rfl
      have hrel : ((t.step e).1.ports j).charger = (op.call x (t.ports j)).1 := by
        rw [hs.charger, hop]
        exact (Port.exec_call x _ op).1
      obtain ⟨hr, hl⟩ := h.keeps (x := x)
        (fun timerId minutes hc => ha.1 timerId minutes (Event.opOn_control.1 (hc ▸ hop))) hk
        (ha.call_relay h.inv hop hk hrel)
      rw [List.count_cons_of_ne hne]
      exact ⟨hr.trans h.relay, hl.trans h.leftSeconds⟩

theorem run_timed {es : List Event} (h : (t.ports j).Timed left)
    (hrun : machine.Along (LeftAlone j) t es) :
    ((machine.run t es).ports j).Timed (left - es.count .counterTick) := by
  induction es generalizing t left with
  | nil => exact h
  | cons e es ih =>
    have hcount : left - (e :: es).count .counterTick =
        left - [e].count .counterTick - es.count .counterTick := by
      rw [show e :: es = [e] ++ es from rfl, List.count_append]
      omega
    rw [hcount]
    exact ih (step_timed h hrun.1) hrun.2

/-- A `control` of a resumed port gives it its minutes. -/
theorem step_control_timed (timerId : Int) {minutes : Int} (hinv : (t.ports j).Inv)
    (hres : (t.ports j).Resumed) (hpos : 1 ≤ minutes) (hmax : minutes ≤ 35791394) :
    ((t.step (.control j timerId minutes)).1.ports j).Timed (60 * minutes).toNat := by
  obtain ⟨x, -, hs, -⟩ := t.step_settles (.control j timerId minutes) j
  have hop : Event.opOn t j (.control j timerId minutes) = some (.control timerId minutes) :=
    Event.opOn_control.2 rfl
  rw [hop] at hs
  have hrelay : ((t.ports j).charger.start x.nullRunning).1.relay = some .on := by
    by_cases hon : (t.ports j).charger.relay = some .on
    · rw [Charger.start_on hon]; exact hon
    · rw [Charger.start_spec hinv.charger hon]
  have hstates : .loadWaitRemove ∉ ((t.ports j).charger.start x.nullRunning).2 := by
    by_cases hon : (t.ports j).charger.relay = some .on
    · rw [Charger.start_on hon]; simp
    · rw [Charger.start_spec hinv.charger hon]
      split <;> simp
  refine ⟨step_inv _ hinv, step_resumed _ hres, ?_, ?_, by omega⟩
  · rw [hs.charger, if_neg (by omega), Port.execOpt, (Port.exec_call x _ _).1]
    exact hrelay
  · rw [hs.info, Port.execOpt, Port.exec_leftSeconds, Op.call, if_neg hstates]
    show int32 (minutes * 60) = _
    rw [int32_of_fits] <;> omega

/-- A port that is `Charging` right after a tick of the `Counter` has time left. -/
theorem step_counter_pos (h : (t.ports j).Inv)
    (hs : ((t.step .counterTick).1.ports j).charger.state = some .charging) :
    0 < ((t.step .counterTick).1.ports j).info.leftSeconds := by
  obtain ⟨x, -, hset, -⟩ := t.step_settles .counterTick j
  have hop : Event.opOn t j .counterTick = some .counter := rfl
  rw [hop, Port.execOpt] at hset
  rw [hset.charger, (Port.exec_call x _ _).1, Op.call] at hs
  rw [hset.info, Port.exec_leftSeconds, Op.call]
  split at hs
  · -- the relay was opened, so the port is not `Charging`
    have hc := Charger.stop_inv h.charger
    have hoff := Port.stop_relay h.charger
    rw [hc.charging_iff.1 hs] at hoff
    cases hoff
  · rename_i hn
    rw [if_neg hn]
    have hpos : ¬ int32 ((t.ports j).info.leftSeconds - 1) ≤ 0 := fun hle => hn ⟨hs, hle⟩
    simp only [Op.before, if_pos hs, List.not_mem_nil, if_false]
    omega

/-- **The charging time is exact.** Right after a tick of the `Counter`, a port that is `Charging`
has time left. A `control` that gives a resumed port `minutes` minutes closes its relay for
`60 * minutes` ticks of the `Counter`, if nothing else hits the port: it is closed before the last
of them, and open with no time left from then on. -/
theorem charging_time_exact (b : Boot) (pre : List Event) (j : InnerPort) :
    (((machine.run b.init (pre ++ [.counterTick])).ports j).charger.state = some .charging →
      0 < ((machine.run b.init (pre ++ [.counterTick])).ports j).info.leftSeconds) ∧
    ∀ (timerId minutes : Int) (es : List Event), 1 ≤ minutes → minutes ≤ 35791394 →
      ((machine.run b.init pre).ports j).Resumed →
      machine.Along (LeftAlone j) (machine.run b.init (pre ++ [.control j timerId minutes])) es →
      let p := (machine.run b.init (pre ++ [.control j timerId minutes] ++ es)).ports j
      ((es.count .counterTick : Int) < 60 * minutes →
        p.charger.relay = some .on ∧ p.info.leftSeconds = 60 * minutes - es.count .counterTick) ∧
      (60 * minutes ≤ es.count .counterTick →
        p.charger.relay = some .off ∧ p.info.leftSeconds = 0) := by
  have hinv := reachable_inv b pre j
  refine ⟨?_, ?_⟩
  · rw [Machine.run_concat, machine_step]
    exact step_counter_pos hinv
  · intro timerId minutes es hpos hmax hres hrun
    have h0 := step_control_timed timerId hinv hres hpos hmax
    rw [← machine_step, ← Machine.run_concat] at h0
    have h := run_timed h0 hrun
    rw [← Machine.run_append] at h
    refine ⟨?_, ?_⟩
    · intro hn
      refine ⟨?_, ?_⟩
      · rw [h.relay, if_neg (by omega)]
      · rw [h.leftSeconds]
        omega
    · intro hn
      have hzero : (60 * minutes).toNat - es.count .counterTick = 0 := by omega
      refine ⟨?_, ?_⟩
      · rw [h.relay, if_pos hzero]
      · rw [h.leftSeconds, hzero]
        rfl

/-- Port 0 after its first reading, its resumption and a `control` of one minute. -/
def minute (n : Nat) : Port :=
  (machine.run Boot.plain.init
    ([.current 0 0, .backupTick] ++ [.control 0 7 1] ++ List.replicate n .counterTick)).ports 0

/-- A minute is sixty ticks. -/
theorem charging_time_exact_minute :
    (minute 59).charger.relay = some .on ∧ (minute 60).charger.relay = some .off ∧
      (minute 60).info.leftSeconds = 0 := by
  have hrun : ∀ n t, machine.Along (LeftAlone 0) t (List.replicate n .counterTick) := by
    intro n t
    refine Machine.along_of_mem ?_
    intro e he t
    rw [List.eq_of_mem_replicate he]
    exact ⟨nofun, nofun, nofun⟩
  have h : ∀ n : Nat, ((n : Int) < 60 → (minute n).charger.relay = some .on) ∧
      ((60 : Int) ≤ n → (minute n).charger.relay = some .off ∧
        (minute n).info.leftSeconds = 0) := by
    intro n
    obtain ⟨hon, hoff⟩ := (charging_time_exact .plain [.current 0 0, .backupTick] 0).2 7 1
      (List.replicate n .counterTick) (by decide) (by decide) (by decide +kernel) (hrun n _)
    rw [List.count_replicate_self] at hon hoff
    exact ⟨fun hn => (hon hn).1, hoff⟩
  exact ⟨(h 59).1 (by decide), (h 60).2 (by decide)⟩

end Thing

end ChargingPile
