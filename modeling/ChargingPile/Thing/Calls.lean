import ChargingPile.Thing.Local

/-!
# What an operation does to the charger and the countdowns of its port

An operation assigns some fields (`Op.before`), makes at most one call on the charger (`Op.call`)
and then does the rest (`Op.after`, `Op.emits`); `Port.exec_eq` says so, and the lemmas about
single fields of a port go through it. `Op.call_cases` sorts the calls: one that closes the relay,
one that opens it, and one that leaves it alone.
-/

namespace ChargingPile

@[simp] theorem statesOf_nil : statesOf [] = [] := rfl

@[simp] theorem statesOf_append (l m : List Output) :
    statesOf (l ++ m) = statesOf l ++ statesOf m :=
  List.filterMap_append ..

@[simp] theorem statesOf_map_state (l : List State) : statesOf (l.map Output.state) = l := by
  simp [statesOf, List.filterMap_map]

@[simp] theorem statesOf_map_backup (l : List Backup) : statesOf (l.map Output.backup) = [] := by
  simp [statesOf]

namespace Port

variable {x : Ctx} {p : Port}

/-! ## The decorators leave the charger and the limiter alone -/

@[simp] theorem notify_charger (x : Ctx) (l : List State) (p : Port) :
    (notify x l p).charger = p.charger := by
  induction l generalizing x p with
  | nil => rfl
  | cons s l ih => exact ih (x.published s) (p.onStateChanged x s)

@[simp] theorem notify_limiter (x : Ctx) (l : List State) (p : Port) :
    (notify x l p).limiter = p.limiter := by
  induction l generalizing x p with
  | nil => rfl
  | cons s l ih => exact ih (x.published s) (p.onStateChanged x s)

@[simp] theorem drive_charger (x : Ctx) (p : Port) (r : Charger × List State) :
    (p.drive x r).1.charger = r.1 :=
  notify_charger ..

@[simp] theorem drive_limiter (x : Ctx) (p : Port) (r : Charger × List State) :
    (p.drive x r).1.limiter = p.limiter :=
  notify_limiter ..

end Port

/-! ## The call on the charger -/

/-- The call an operation makes on the charger of its port. -/
def Op.call (x : Ctx) (p : Port) : Op → Charger × List State
  | .control _ _ => p.charger.start x.nullRunning
  | .stop _ => p.charger.stop
  | .current value => p.charger.setCurrent x.nullRunning value
  | .voltage value => p.charger.setVoltage x.nullRunning value
  | .detector => p.charger.timerRun x.nullRunning
  | .counter =>
    if p.charger.state = some .charging ∧ int32 (p.info.leftSeconds - 1) ≤ 0 then p.charger.stop
    else (p.charger, [])
  | .limiter => if p.limiter.updateAndCheck.1 then p.charger.stop else (p.charger, [])
  | .noload =>
    if (p.noload.noloadCount.updateAndCheck.1 || p.noload.doneCount.updateAndCheck.1) ∧
        p.charger.state = some .charging then p.charger.stop
    else (p.charger, [])
  | .resume backup =>
    if p.backuper.fResume.updateAndCheck.1 ∧ !p.backuper.stateHasTransitioned ∧
        backup.leftSeconds ≠ 0 then p.charger.start x.nullRunning
    else (p.charger, [])
  | .query | .backupUpdate | .backupWrite | .backupPostpone | .data | .measure => (p.charger, [])

namespace Op

/-- The port when an operation makes its call: the assignments that come before it. -/
def before (p : Port) : Op → Port
  | .control timerId minutes => { p with
      info := { p.info with leftSeconds := int32 (minutes * 60), timerId := timerId } }
  | .counter => { p with
      info := if p.charger.state = some .charging then
          { p.info with leftSeconds := int32 (p.info.leftSeconds - 1) }
        else p.info }
  | .limiter => { p with
      limiter := p.limiter.updateAndCheck.2
      info := if p.limiter.updateAndCheck.1 then
          { p.info with finalState := .set (some .error) }
        else p.info }
  | .noload => { p with
      noload := { noloadCount := p.noload.noloadCount.updateAndCheck.2
                  doneCount := p.noload.doneCount.updateAndCheck.2 }
      info := if p.noload.noloadCount.updateAndCheck.1 ∧ p.charger.state = some .charging then
          { p.info with finalState := .set (some .loadNotInsert) }
        else p.info }
  | .resume backup =>
    let resumes := p.backuper.fResume.updateAndCheck.1 && !p.backuper.stateHasTransitioned
    { p with
      backuper := {
        stateHasTransitioned := p.backuper.stateHasTransitioned || resumes
        backupCount := if resumes ∧ backup.leftSeconds = 0 then p.backuper.backupCount.trigger
          else p.backuper.backupCount
        fResume := p.backuper.fResume.updateAndCheck.2 }
      info := if resumes then
          { p.info with
            timerId := backup.timerId
            leftSeconds := backup.leftSeconds
            consumption := if backup.leftSeconds = 0 then 0 else backup.consumption }
        else p.info }
  | _ => p

/-- What an operation on the port `p` makes of the port `q` that its call left behind. -/
def after (x : Ctx) (p q : Port) : Op → Port
  | .stop timerId => { q with info := { q.info with timerId := timerId } }
  | .query => { q with data := { q.data with count := q.data.count.retrigger } }
  | .current value =>
    if p.charger.current = some value then q else q.onCurrentChanged x value
  | .voltage value => if p.charger.voltage = some value then q else q.measure x
  | .backupUpdate => q.backupUpdate
  | .backupWrite => q.backupWrite.1
  | .backupPostpone => q.backupPostpone
  | .data => (q.dataTick x).1
  | .measure => q.measure x
  | _ => q

/-- What an operation emits after the states of its call. -/
def emits (x : Ctx) (p : Port) : Op → List Output
  | .limiter => if p.limiter.updateAndCheck.1 then [.currentLimit] else []
  | .backupWrite => p.backupWrite.2
  | .data => (p.dataTick x).2
  | _ => []

end Op

namespace Port

variable {x : Ctx} {p : Port}

/-- **An operation is its assignments, its call and what it does after the call.** -/
theorem exec_eq (x : Ctx) (p : Port) (op : Op) :
    p.exec x op = (op.after x p ((op.before p).drive x (op.call x p)).1,
      (op.call x p).2.map .state ++ op.emits x p) := by
  cases op with
  | control | stop | detector => simp [exec, Op.before, Op.after, Op.emits, Op.call, drive]
  | query | backupUpdate | backupPostpone | measure => rfl
  | current value =>
    simp only [exec, Op.before, Op.after, Op.emits, Op.call]
    split
    · rename_i h
      rw [Charger.setCurrent, if_pos h]
      rfl
    · simp [drive]
  | voltage value =>
    simp only [exec, Op.before, Op.after, Op.emits, Op.call]
    split
    · rename_i h
      rw [Charger.setVoltage, if_pos h]
      rfl
    · simp [drive]
  | counter =>
    simp only [exec, counterTick, Op.before, Op.after, Op.emits, Op.call]
    by_cases hs : p.charger.state = some .charging
    · by_cases hl : int32 (p.info.leftSeconds - 1) ≤ 0
      · simp [hs, hl, drive]
      · simp [hs, hl, drive, notify]
    · simp [hs, drive, notify]
  | limiter =>
    simp only [exec, limiterTick, Op.before, Op.after, Op.emits, Op.call]
    split
    · simp [drive, setFinalState]
    · rfl
  | noload =>
    simp only [exec, noloadTick, Op.before, Op.after, Op.emits, Op.call]
    by_cases hs : p.charger.state = some .charging
    · cases p.noload.noloadCount.updateAndCheck.1 with
      | true => simp [hs, drive, setFinalState]
      | false =>
        cases p.noload.doneCount.updateAndCheck.1 with
        | true => simp [hs, drive]
        | false => simp [drive, notify]
    · simp [hs, drive, notify]
  | resume backup =>
    simp only [exec, resumeTick, resume, Op.before, Op.after, Op.emits, Op.call]
    cases p.backuper.fResume.updateAndCheck.1 with
    | false => simp [drive, notify]
    | true =>
      cases p.backuper.stateHasTransitioned with
      | true => simp [drive, notify]
      | false =>
        by_cases hl : backup.leftSeconds = 0
        · simp [hl, drive, notify]
        · simp [hl, drive]
  | backupWrite => rfl
  | data => rfl

/-- No operation assigns a field of `DataSetter` before its call. -/
@[simp] theorem before_data (p : Port) (op : Op) : (op.before p).data = p.data := by
  cases op <;> rfl

/-! ## The charger and the limiter -/

@[simp] theorem backupWrite_charger (p : Port) : p.backupWrite.1.charger = p.charger := by
  simp only [backupWrite]
  split <;> rfl

@[simp] theorem dataTick_charger (x : Ctx) (p : Port) : (p.dataTick x).1.charger = p.charger := by
  simp only [dataTick, emitPortData]
  split
  · split <;> rfl
  · rfl

@[simp] theorem after_charger (x : Ctx) (p q : Port) (op : Op) :
    (op.after x p q).charger = q.charger := by
  cases op with
  | current | voltage => simp only [Op.after]; split <;> rfl
  | backupWrite => exact backupWrite_charger q
  | data => exact dataTick_charger x q
  | _ => rfl

/-- The charger after an operation and the states it published are those of the call. -/
theorem exec_call (x : Ctx) (p : Port) (op : Op) :
    (p.exec x op).1.charger = (op.call x p).1 ∧ statesOf (p.exec x op).2 = (op.call x p).2 := by
  have hemits : statesOf (op.emits x p) = [] := by
    cases op with
    | limiter => simp only [Op.emits]; split <;> rfl
    | data =>
      simp only [Op.emits, dataTick, emitPortData]
      split <;> rfl
    | _ => rfl
  rw [exec_eq]
  simp [hemits]

end Port

/-- The limiter's countdown after an operation. -/
def Op.limiterAfter (x : Ctx) (p : Port) : Op → CountDown
  | .current value =>
    if p.charger.current = some value then p.limiter
    else CurrentLimiter.onCurrentChanged x.conf (p.charger.setCurrent x.nullRunning value).1.state
      value p.limiter
  | .limiter => p.limiter.updateAndCheck.2
  | _ => p.limiter

namespace Port

/-- The limiter's countdown changes at current reports and at its own ticks only. -/
theorem exec_limiter (x : Ctx) (p : Port) (op : Op) :
    (p.exec x op).1.limiter = op.limiterAfter x p := by
  rw [exec_eq]
  cases op with
  | current value =>
    simp only [Op.after, Op.limiterAfter]
    split
    · simp [Op.before]
    · simp [onCurrentChanged, Op.call, Op.before]
  | voltage value => simp only [Op.after]; split <;> exact drive_limiter ..
  | backupWrite => simp only [Op.after, backupWrite]; split <;> exact drive_limiter ..
  | data =>
    simp only [Op.after, dataTick, emitPortData]
    split
    · split <;> exact drive_limiter ..
    · exact drive_limiter ..
  | _ => exact drive_limiter ..

end Port

/-- The calls of an operation, sorted by what they do to the relay. -/
inductive Op.Calls (x : Ctx) (p : Port) (op : Op) (r : Charger × List State) : Prop
  | start (h : (∃ timerId minutes, op = .control timerId minutes) ∨ ∃ backup, op = .resume backup)
      (hr : r = p.charger.start x.nullRunning)
  | stop (h : (∃ timerId, op = .stop timerId) ∨
        (op = .counter ∨ op = .noload) ∧ p.charger.relay = some .on ∨
        op = .limiter ∧ p.limiter.updateAndCheck.1 = true) (hr : r = p.charger.stop)
  | quiet (i u : Option Int) (h : i = p.charger.current ∨ ∃ value, op = .current value ∧
        i = some value) (hr : Charger.Quiet { p.charger with current := i, voltage := u } r)

theorem Charger.Quiet.refl (c : Charger) : Quiet c (c, []) := by
  refine ⟨rfl, rfl, rfl, ?_, ?_⟩
  · intro _
    exact ⟨rfl, rfl, rfl⟩
  · intro _
    exact ⟨.inl ⟨rfl, rfl⟩, .inl rfl⟩

theorem Op.call_cases {p : Port} (hc : p.charger.Inv) (x : Ctx) (op : Op) :
    op.Calls x p (op.call x p) := by
  have hnone : op.Calls x p (p.charger, []) :=
    .quiet p.charger.current p.charger.voltage (.inl rfl) (.refl _)
  cases op with
  | control timerId minutes => exact .start (.inl ⟨_, _, rfl⟩) rfl
  | stop timerId => exact .stop (.inl ⟨_, rfl⟩) rfl
  | query | backupUpdate | backupWrite | backupPostpone | data | measure => exact hnone
  | current value =>
    by_cases h : p.charger.current = some value
    · rw [call, Charger.setCurrent, if_pos h]
      exact hnone
    · exact .quiet (some value) p.charger.voltage (.inr ⟨_, rfl, rfl⟩)
        (Charger.setCurrent_quiet hc h)
  | voltage value =>
    by_cases h : p.charger.voltage = some value
    · rw [call, Charger.setVoltage, if_pos h]
      exact hnone
    · exact .quiet p.charger.current (some value) (.inl rfl) (Charger.setVoltage_quiet hc h)
  | detector => exact .quiet _ _ (.inl rfl) (Charger.timerRun_quiet hc)
  | counter =>
    rw [call]
    split
    · rename_i h
      exact .stop (.inr (.inl ⟨.inl rfl, hc.charging_iff.1 h.1⟩)) rfl
    · exact hnone
  | limiter =>
    rw [call]
    split
    · rename_i h
      exact .stop (.inr (.inr ⟨rfl, h⟩)) rfl
    · exact hnone
  | noload =>
    rw [call]
    split
    · rename_i h
      exact .stop (.inr (.inl ⟨.inr rfl, hc.charging_iff.1 h.2⟩)) rfl
    · exact hnone
  | resume backup =>
    rw [call]
    split
    · exact .start (.inr ⟨_, rfl⟩) rfl
    · exact hnone

end ChargingPile
