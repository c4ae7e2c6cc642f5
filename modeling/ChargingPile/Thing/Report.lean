import ChargingPile.Thing.Published

/-!
# The report of a finished session

When a session ends, `DataSetter` keeps in its record that a final report is due (`FinalPending`)
and emits it at the port's next turn, from the fields the port has then. `session_reported` says
that the report comes within ten ticks, comes once and carries the session's data, as long as
nothing overwrites those fields in between (`Undisturbed`).
-/

namespace ChargingPile

/-- What the report of a session has to carry. -/
structure Session where
  finalState : State
  timerId : Int
  consumption : Float32

/-- The report is that of the session `s` of port `j`. -/
structure CurrentData.Carries (d : CurrentData) (j : InnerPort) (s : Session) : Prop where
  port : d.port = j.toNatPort
  timerId : d.timerId = s.timerId
  state : d.state.val = some s.finalState
  consumption : d.consumption.val = s.consumption

/-! ## The fields that the report is made of -/

@[simp] theorem reportsOf_nil : reportsOf [] = [] := rfl

@[simp] theorem reportsOf_append (l m : List Output) :
    reportsOf (l ++ m) = reportsOf l ++ reportsOf m :=
  List.filterMap_append ..

@[simp] theorem reportsOf_map_state (l : List State) : reportsOf (l.map Output.state) = [] := by
  simp [reportsOf]

@[simp] theorem reportsOf_map_backup (l : List Backup) : reportsOf (l.map Output.backup) = [] := by
  simp [reportsOf]

namespace Port

variable {x : Ctx} {p : Port} {op : Op}

/-- `LoadNotInsert` changes nothing of what a report is made of. -/
theorem notify_calm (l : List State) (hl : ∀ s ∈ l, s = .loadNotInsert) (p : Port) :
    (notify x l p).data = p.data ∧ (notify x l p).info.finalState = p.info.finalState ∧
      (notify x l p).info.timerId = p.info.timerId := by
  induction l generalizing x p with
  | nil => exact ⟨rfl, rfl, rfl⟩
  | cons s l ih =>
    obtain rfl := hl s (.head _)
    exact ih (fun s hs => hl s (.tail _ hs)) (p.onStateChanged x .loadNotInsert)

/-- A port whose final report is due: everything the report will carry is in place, and the port's
countdown expires at its next turn. -/
structure Owes (s : Session) (p : Port) : Prop where
  relay : p.charger.relay = some .off
  pending : p.FinalPending
  counting : p.data.count.counting = true
  currVal : p.data.count.currVal = 1
  finalState : p.info.finalState.val = some s.finalState
  timerId : p.info.timerId = s.timerId
  consumption : p.data.prevConsumption.val = s.consumption

/-- The operation leaves the fields of a due report alone. -/
def Spares (p : Port) : Op → Prop
  | .control _ _ => False
  | .stop timerId => timerId = p.info.timerId
  | .limiter => p.limiter.updateAndCheck.1 = true → p.info.finalState.val = some .error
  | .resume backup => p.backuper.fResume.updateAndCheck.1 = true →
      p.backuper.stateHasTransitioned = false →
      backup.leftSeconds = 0 ∧ backup.timerId = p.info.timerId
  | _ => True

/-- An operation that spares the report leaves the relay open. -/
theorem call_spares (hc : p.charger.Inv) (hoff : p.charger.relay = some .off)
    (hsp : p.Spares op) : (op.call x p).1.relay = some .off ∧
      ∀ s ∈ (op.call x p).2, s = .loadNotInsert := by
  have hne : p.charger.relay ≠ some .on := by simp [hoff]
  rcases op.call_cases hc x with ⟨hk, hr⟩ | ⟨-, hr⟩ | ⟨i, u, -, hr⟩
  · rcases hk with ⟨_, _, rfl⟩ | ⟨backup, rfl⟩
    · exact absurd hsp id
    · rw [Op.call, if_neg]
      · exact ⟨hoff, List.forall_mem_nil _⟩
      · rintro ⟨hf, ht, hl⟩
        exact hl (hsp hf (by simpa using ht)).1
  · rw [hr, Charger.stop_off hoff]
    exact ⟨hoff, List.forall_mem_nil _⟩
  · refine ⟨hr.relay.trans hoff, ?_⟩
    rcases (hr.opened hne).1 with ⟨hp, -⟩ | ⟨hp, -⟩ <;> simp [hp]

/-- The assignments of an operation that spares the report keep what it will carry. -/
theorem before_spares {s : Session} (hc : p.charger.Inv) (ho : p.Owes s) (hsp : p.Spares op) :
    (op.before p).data = p.data ∧ (op.before p).info.finalState.val = some s.finalState ∧
      (op.before p).info.timerId = s.timerId := by
  have hf := ho.finalState
  have ht := ho.timerId
  have hns : p.charger.state ≠ some .charging := by
    intro hs
    have := hc.charging_iff.1 hs
    rw [ho.relay] at this
    cases this
  cases op with
  | control timerId minutes => exact absurd hsp id
  | counter => simp [Op.before, hns, hf, ht]
  | limiter =>
    simp only [Op.before]
    split
    · rename_i hexp
      refine ⟨trivial, ?_, ht⟩
      rw [← hf]
      exact (hsp hexp).symm
    · exact ⟨trivial, hf, ht⟩
  | noload => simp [Op.before, hns, hf, ht]
  | resume backup =>
    simp only [Op.before]
    split
    · rename_i hr
      simp only [Bool.and_eq_true, Bool.not_eq_true'] at hr
      exact ⟨trivial, hf, (hsp hr.1 hr.2).2.trans ht⟩
    · exact ⟨trivial, hf, ht⟩
  | _ => exact ⟨rfl, hf, ht⟩

/-- What an operation does after its call keeps a due report, unless it is the port's turn. -/
theorem after_owes {s : Session} {q : Port} (hq : q.Owes s)
    (hns : q.charger.state ≠ some .charging) (hsp : p.Spares op)
    (ht : p.info.timerId = s.timerId) (hop : op ≠ .data) : (op.after x p q).Owes s := by
  obtain ⟨h1, h2, h3, h4, h5, h6, h7⟩ := hq
  cases op with
  | stop timerId => exact ⟨h1, h2, h3, h4, h5, Eq.trans hsp ht, h7⟩
  | query => exact ⟨h1, h2, rfl, by simp [Op.after, CountDown.retrigger, h4], h5, h6, h7⟩
  | current value =>
    simp only [Op.after]
    split
    · exact ⟨h1, h2, h3, h4, h5, h6, h7⟩
    · simp only [onCurrentChanged, DataSetter.onCurrentChanged, ConsumptionMeasurer.update,
        if_pos hns]
      exact ⟨h1, h2, h3, h4, h5, h6, h7⟩
  | voltage value =>
    simp only [Op.after]
    split
    · exact ⟨h1, h2, h3, h4, h5, h6, h7⟩
    · simp only [measure, ConsumptionMeasurer.update, if_pos hns]
      exact ⟨h1, h2, h3, h4, h5, h6, h7⟩
  | backupWrite =>
    simp only [Op.after, backupWrite]
    split <;> exact ⟨h1, h2, h3, h4, h5, h6, h7⟩
  | measure =>
    simp only [Op.after, measure, ConsumptionMeasurer.update, if_pos hns]
    exact ⟨h1, h2, h3, h4, h5, h6, h7⟩
  | data => exact absurd rfl hop
  | _ => exact ⟨h1, h2, h3, h4, h5, h6, h7⟩

/-- The fields that a report reads besides the current ones. -/
structure SameRecord (p q : Port) : Prop where
  prevState : q.data.prevState = p.data.prevState
  prevConsumption : q.data.prevConsumption = p.data.prevConsumption
  finalState : q.info.finalState = p.info.finalState

/-- What an operation does after its call leaves them alone, unless it is the port's turn. -/
theorem after_record {q : Port} (hop : op ≠ .data) : SameRecord q (op.after x p q) := by
  have hmeasure : SameRecord q (q.measure x) := by
    simp only [measure, ConsumptionMeasurer.update]
    split <;> exact ⟨rfl, rfl, rfl⟩
  cases op with
  | current value =>
    simp only [Op.after]
    split
    · exact ⟨rfl, rfl, rfl⟩
    · have hdata : ∀ d : DataSetter, (d.onCurrentChanged x.conf q.charger.state value).prevState =
          d.prevState ∧ (d.onCurrentChanged x.conf q.charger.state value).prevConsumption =
          d.prevConsumption := by
        intro d
        simp only [DataSetter.onCurrentChanged]
        split
        · exact ⟨rfl, rfl⟩
        · split <;> exact ⟨rfl, rfl⟩
      exact ⟨(hdata q.data).1, (hdata q.data).2, hmeasure.finalState⟩
  | voltage value =>
    simp only [Op.after]
    split
    · exact ⟨rfl, rfl, rfl⟩
    · exact hmeasure
  | backupWrite =>
    simp only [Op.after, backupWrite]
    split <;> exact ⟨rfl, rfl, rfl⟩
  | data => exact absurd rfl hop
  | measure => exact hmeasure
  | _ => exact ⟨rfl, rfl, rfl⟩

theorem emits_reports (hop : op ≠ .data) : reportsOf (op.emits x p) = [] := by
  cases op with
  | data => exact absurd rfl hop
  | limiter => simp only [Op.emits]; split <;> rfl
  | _ => rfl

/-- Until the port's turn, an operation that spares the report keeps it due. -/
theorem exec_owes {s : Session} (h : p.Inv) (ho : p.Owes s) (hsp : p.Spares op)
    (hop : op ≠ .data) : (p.exec x op).1.Owes s ∧ reportsOf (p.exec x op).2 = [] := by
  obtain ⟨hr, hs⟩ := call_spares (x := x) h.charger ho.relay hsp
  obtain ⟨hd, hf, ht⟩ := before_spares h.charger ho hsp
  obtain ⟨hd', hf', ht'⟩ :=
    notify_calm (x := x) _ hs { op.before p with charger := (op.call x p).1 }
  have hq : ((op.before p).drive x (op.call x p)).1.Owes s := by
    have hdata : ((op.before p).drive x (op.call x p)).1.data = p.data := hd'.trans hd
    refine ⟨by simpa using hr, ?_, ?_, ?_, ?_, ?_, ?_⟩
    · rw [FinalPending, hdata]; exact ho.pending
    · rw [hdata]; exact ho.counting
    · rw [hdata]; exact ho.currVal
    · exact (congrArg Slot.val hf').trans hf
    · exact ht'.trans ht
    · rw [hdata]; exact ho.consumption
  have hns : ((op.before p).drive x (op.call x p)).1.charger.state ≠ some .charging := by
    rw [drive_charger]
    intro hst
    rw [(call_inv h.charger op).charging_iff.1 hst] at hr
    cases hr
  rw [exec_eq]
  exact ⟨after_owes hq hns hsp ho.timerId hop, by simp [emits_reports hop]⟩

/-- At the port's turn the report is emitted, and it is no longer due. -/
theorem exec_data_owes {s : Session} (ho : p.Owes s) :
    (∃ d, reportsOf (p.exec x .data).2 = [d] ∧ d.Carries x.port s) ∧
      ¬ (p.exec x .data).1.FinalPending := by
  have hexp : p.data.count.updateAndCheck.1 = true := by
    rw [CountDown.updateAndCheck_fst]
    exact ⟨ho.counting, ho.currVal⟩
  have hpend : ({ p with data := { p.data with count := p.data.count.updateAndCheck.2 } } :
      Port).FinalPending := ho.pending
  simp only [exec, dataTick, if_pos hexp, emitPortData, if_pos hpend]
  refine ⟨⟨_, rfl, rfl, ho.timerId, ?_, ?_⟩, ?_⟩
  · simp only [currentData, if_pos hpend]
    exact ho.finalState
  · simp only [currentData, if_pos hpend]
    exact ho.consumption
  · simp [FinalPending, Slot.set]

/-- A report becomes due by `LoadWaitRemove` only. -/
theorem notify_pending (l : List State) (hl : .loadWaitRemove ∉ l) (p : Port)
    (h : (notify x l p).FinalPending) : p.FinalPending := by
  induction l generalizing x p with
  | nil => exact h
  | cons s l ih =>
    have h' := ih (fun hm => hl (.tail _ hm)) _ h
    cases s with
    | loadWaitRemove => exact absurd (.head _) hl
    | charging => simp [FinalPending, onStateChanged, DataSetter.onStateChanged, Slot.set] at h'
    | loadNotInsert | loadInserted | error => exact h'

theorem exec_pending (hl : .loadWaitRemove ∉ (op.call x p).2)
    (h : (p.exec x op).1.FinalPending) : p.FinalPending := by
  have hq : ((op.before p).drive x (op.call x p)).1.FinalPending := by
    rw [exec_eq] at h
    by_cases hop : op = .data
    · subst hop
      simp only [Op.after, dataTick, emitPortData] at h
      split at h
      · split at h
        · simp [FinalPending, Slot.set] at h
        · exact h
      · exact h
    · rwa [FinalPending, (after_record hop).prevState] at h
  have := notify_pending _ hl _ hq
  rwa [FinalPending, before_data] at this

/-! ## The end of a session -/

/-- While the relay is closed, the record says `Charging` and the final state is still the one that
`Charging` has set. -/
def Live (p : Port) : Prop :=
  p.charger.relay = some .on →
    p.info.finalState.val = some .loadWaitRemove ∧ p.data.prevState.val = some .charging

theorem notify_charging (l : List State) (p : Port) :
    (notify x (l ++ [State.charging]) p).info.finalState.val = some .loadWaitRemove ∧
      (notify x (l ++ [State.charging]) p).data.prevState.val = some .charging := by
  induction l generalizing x p with
  | nil =>
    simp only [List.nil_append, notify, onStateChanged, DataSetter.onStateChanged,
      ConsumptionMeasurer.onStateChanged]
    split <;> exact ⟨rfl, rfl⟩
  | cons s l ih => exact ih _

/-- The port's turn in a session changes its countdown only. -/
theorem dataTick_of_not_pending {q : Port} (h : ¬ q.FinalPending) :
    (q.dataTick x).1 =
      { q with data := { q.data with count := q.data.count.updateAndCheck.2 } } := by
  have h' : ¬ ({ q with data := { q.data with count := q.data.count.updateAndCheck.2 } } :
    Port).FinalPending := h
  simp only [dataTick, emitPortData, if_neg h']
  split <;> rfl

/-- The operations that leave a closed relay closed leave the record and the final state alone. -/
theorem exec_kept (h : p.Inv) (hl : p.Live) (hon : p.charger.relay = some .on)
    (hon' : (op.call x p).1.relay = some .on) :
    (p.exec x op).1.info.finalState = p.info.finalState ∧
      (p.exec x op).1.data.prevState = p.data.prevState := by
  obtain ⟨hs, hf⟩ := call_kept h hon hon'
  have hnp : ¬ p.FinalPending := by
    simp [FinalPending, (hl hon).2]
  rw [exec_eq, drive, hs]
  simp only [notify]
  by_cases hop : op = .data
  · subst hop
    have hd := dataTick_of_not_pending (x := x) hnp
      (q := { Op.before p .data with charger := (Op.call x p .data).1 })
    rw [Op.after, hd]
    exact ⟨rfl, rfl⟩
  · have hr := after_record (x := x) (p := p)
      (q := { op.before p with charger := (op.call x p).1 }) hop
    exact ⟨hr.finalState.trans hf, hr.prevState.trans (congrArg _ (before_data p op))⟩

theorem exec_live (h : p.Inv) (hl : p.Live) : (p.exec x op).1.Live := by
  intro hon'
  rw [(exec_call x p op).1] at hon'
  by_cases hon : p.charger.relay = some .on
  · obtain ⟨hf, hp⟩ := exec_kept h hl hon hon'
    rw [hf, hp]
    exact hl hon
  · -- the relay was closed by a `start`, whose last state is `Charging`
    rcases op.call_cases h.charger x with ⟨hk, hr⟩ | ⟨-, hr⟩ | ⟨i, u, -, hr⟩
    · obtain ⟨l, hl⟩ : ∃ l, (op.call x p).2 = l ++ [State.charging] := by
        rw [hr, Charger.start_spec h.charger hon]
        split
        · exact ⟨[], rfl⟩
        · exact ⟨[.loadInserted], rfl⟩
      have hq := notify_charging (x := x) l { op.before p with charger := (op.call x p).1 }
      rw [exec_eq, drive, hl]
      rcases hk with ⟨_, _, rfl⟩ | ⟨_, rfl⟩ <;> exact hq
    · rw [hr, stop_relay h.charger] at hon'
      cases hon'
    · exact absurd (hr.relay.symm.trans hon') hon

/-- `LoadWaitRemove` makes the report due, with the fields the port has then. -/
theorem onStateChanged_owes {s : Session} {q : Port} (hr : q.charger.relay = some .off)
    (hc : q.data.count.Within 1) (hf : q.info.finalState.val = some s.finalState)
    (ht : q.info.timerId = s.timerId) (he : q.info.consumption = s.consumption) :
    (q.onStateChanged x .loadWaitRemove).Owes s :=
  ⟨hr, rfl, rfl, hc.retrigger_currVal, hf, ht, he⟩

/-- What the report of the session has to carry that the operation ends. -/
def ended (p : Port) (op : Op) : Session where
  finalState := match op with
    | .limiter => .error
    | .noload => if p.noload.noloadCount.updateAndCheck.1 then .loadNotInsert else .loadWaitRemove
    | _ => .loadWaitRemove
  timerId := match op with
    | .stop timerId => timerId
    | _ => p.info.timerId
  consumption := p.info.consumption

/-- An operation that opens a closed relay makes the report due. -/
theorem exec_opens (h : p.Inv) (hl : p.Live) (hon : p.charger.relay = some .on)
    (hoff : (op.call x p).1.relay = some .off) : (p.exec x op).1.Owes (p.ended op) := by
  have hf := (hl hon).1
  rcases op.call_cases h.charger x with ⟨-, hr⟩ | ⟨hk, hr⟩ | ⟨i, u, -, hr⟩
  · rw [hr, Charger.start_on hon, hon] at hoff
    cases hoff
  · rw [Charger.stop_spec h.charger (by simp [hon])] at hr
    have hs := h.charger.charging_iff.2 hon
    rw [exec_eq, drive, hr]
    rcases hk with ⟨timerId, rfl⟩ | ⟨rfl | rfl, -⟩ | ⟨rfl, hexp⟩
    · -- `Thing::stop` assigns its `timerId` after the call
      exact ⟨rfl, rfl, rfl, h.count.retrigger_currVal, hf, rfl, rfl⟩
    · refine onStateChanged_owes rfl h.count ?_ ?_ ?_
      all_goals simp [Op.before, hs, hf, ended]
    · refine onStateChanged_owes rfl h.count ?_ ?_ ?_
      · simp only [Op.before, ended]
        by_cases hn : p.noload.noloadCount.updateAndCheck.1 = true
        · rw [if_pos ⟨hn, hs⟩, if_pos hn]; rfl
        · rw [if_neg (fun hns => hn hns.1), if_neg hn, hf]
      · simp only [Op.before]; split <;> rfl
      · simp only [Op.before]; split <;> rfl
    · refine onStateChanged_owes rfl h.count ?_ ?_ ?_
      all_goals simp [Op.before, hexp, ended, Slot.set]
  · have := hr.relay
    rw [hoff] at this
    exact absurd (this.trans hon) (by simp)

end Port

/-! ## Events and runs -/

namespace Thing

variable {t : Thing} {j : InnerPort} {e : Event} {s : Session}

/-- The reports port `j` emits at an event. -/
def reports (t : Thing) (j : InnerPort) (e : Event) : List CurrentData :=
  reportsOf (outputsOf j (t.step e).2)

/-- The reports of port `j` in a run that are those of finished sessions. -/
def finalReports (j : InnerPort) (t : Thing) : List Event → List CurrentData
  | [] => []
  | e :: es => (if (t.ports j).FinalPending then t.reports j e else []) ++
      finalReports j (t.step e).1 es

/-- While a final report of port `j` is due, the event leaves the fields it is made of alone: it is
no `control`, no `stop` with another `timerId`, no resumption that starts the port or changes its
`timerId`, and no expiry of the limiter unless the final state is `Error` already. -/
def Undisturbed (j : InnerPort) (t : Thing) (e : Event) : Prop :=
  (t.ports j).FinalPending → ∀ op, e.opOn t j = some op → (t.ports j).Spares op

/-- What the report of port `j` has to carry if the event ends a session: the reason of the stop,
the `timerId` of the port, or the one given to `stop`, and the consumption at the stop. -/
def ended (t : Thing) (j : InnerPort) (e : Event) : Session where
  finalState := match e with
    | .limiterTick => .error
    | .noloadTick => if (t.ports j).noload.noloadCount.updateAndCheck.1 then .loadNotInsert
      else .loadWaitRemove
    | _ => .loadWaitRemove
  timerId := match e with
    | .stop _ timerId => timerId
    | _ => (t.ports j).info.timerId
  consumption := (t.ports j).info.consumption

theorem ended_eq {op : Op} (h : e.opOn t j = some op) : t.ended j e = (t.ports j).ended op := by
  cases e <;> simp only [Event.opOn, Option.ite_none_right_eq_some, Option.some.injEq,
    reduceCtorEq] at h
  all_goals
    obtain ⟨-, rfl⟩ := h
    rfl

theorem owes_congr {p : Port} {spec : Backuper} (h : p.Owes s) :
    ({ p with backuper := spec } : Port).Owes s :=
  ⟨h.1, h.2, h.3, h.4, h.5, h.6, h.7⟩

/-- One event while a report is due: the report is emitted at the port's turn, and otherwise stays
due. -/
theorem step_owes (h : (t.ports j).Inv) (ho : (t.ports j).Owes s) (hu : Undisturbed j t e) :
    (e = .dataTick ∧ t.dataPort = j ∧ (∃ d, t.reports j e = [d] ∧ d.Carries j s) ∧
      ¬ ((t.step e).1.ports j).FinalPending ∧ .loadWaitRemove ∉ t.publishes j e) ∨
    ((e = .dataTick → t.dataPort ≠ j) ∧ ((t.step e).1.ports j).Owes s ∧ t.reports j e = [] ∧
      .loadWaitRemove ∉ t.publishes j e) := by
  obtain ⟨x, spec, bs, hx, hp, hout⟩ := t.step_local e j
  unfold reports publishes
  rw [hp, hout]
  cases hop : e.opOn t j with
  | none =>
    refine .inr ⟨?_, owes_congr ho, by simp [Port.execOpt], by simp [Port.execOpt]⟩
    intro he hj
    rw [Event.opOn_data.2 ⟨he, hj⟩] at hop
    cases hop
  | some op =>
    have hsp := hu ho.pending op hop
    have hpub : .loadWaitRemove ∉ statesOf (((t.ports j).exec x op).2 ++ bs.map .backup) := by
      rw [statesOf_append, statesOf_map_backup, List.append_nil, (Port.exec_call x _ op).2]
      intro hmem
      cases (Port.call_spares h.charger ho.relay hsp).2 _ hmem
    by_cases hd : op = .data
    · subst hd
      obtain ⟨he, hj⟩ := Event.opOn_data.1 hop
      obtain ⟨⟨d, hd, hcarry⟩, hnp⟩ := Port.exec_data_owes (x := x) ho
      refine .inl ⟨he, hj, ⟨d, by simp [Port.execOpt, hd], hx.port ▸ hcarry⟩, hnp, hpub⟩
    · obtain ⟨ho', hr⟩ := Port.exec_owes (x := x) h ho hsp hd
      refine .inr ⟨?_, owes_congr ho', by simp [Port.execOpt, hr], hpub⟩
      intro he hj
      rw [Event.opOn_data.2 ⟨he, hj⟩] at hop
      exact hd (Option.some.inj hop).symm

/-- A report becomes due by `LoadWaitRemove` only. -/
theorem step_pending (hnp : ¬ (t.ports j).FinalPending)
    (hl : .loadWaitRemove ∉ t.publishes j e) : ¬ ((t.step e).1.ports j).FinalPending := by
  obtain ⟨x, spec, bs, -, hp, hout⟩ := t.step_local e j
  unfold publishes at hl
  rw [hout] at hl
  rw [hp]
  cases hop : e.opOn t j with
  | none => exact hnp
  | some op =>
    rw [hop, statesOf_append, statesOf_map_backup, List.append_nil, Port.execOpt,
      (Port.exec_call x _ op).2] at hl
    exact fun hpend => hnp (Port.exec_pending hl hpend)

theorem step_live (h : (t.ports j).Inv) (hl : (t.ports j).Live) :
    ((t.step e).1.ports j).Live := by
  obtain ⟨x, spec, bs, -, hp, -⟩ := t.step_local e j
  rw [hp]
  cases e.opOn t j with
  | none => exact hl
  | some op => exact Port.exec_live h hl

theorem reachable_live (b : Boot) (es : List Event) (j : InnerPort) :
    ((machine.run b.init es).ports j).Live := by
  induction es using List.reverseRecOn with
  | nil =>
    intro hon
    rw [Machine.run_nil, Boot.init_charger, (b.charger_unset j).2.1] at hon
    cases hon
  | append_singleton es e ih =>
    rw [Machine.run_concat]
    exact step_live (reachable_inv b es j) ih

/-- The event that ends a session makes its report due. -/
theorem step_opens (h : (t.ports j).Inv) (hl : (t.ports j).Live)
    (hon : (t.ports j).charger.relay = some .on)
    (hoff : ((t.step e).1.ports j).charger.relay = some .off) :
    ((t.step e).1.ports j).Owes (t.ended j e) := by
  obtain ⟨x, spec, bs, -, hp, -⟩ := t.step_local e j
  rw [hp] at hoff ⊢
  cases hop : e.opOn t j with
  | none =>
    rw [hop] at hoff
    exact absurd (hon.symm.trans hoff) (by simp)
  | some op =>
    rw [hop] at hoff
    rw [ended_eq hop]
    refine owes_congr (Port.exec_opens h hl hon ?_)
    rw [← (Port.exec_call x _ op).1]
    exact hoff

/-- The states port `j` publishes in a run. -/
def publishedIn (j : InnerPort) (t : Thing) (es : List Event) : List State :=
  statesOf (outputsOf j (machine.trace t es))

theorem publishedIn_cons (e : Event) (es : List Event) :
    publishedIn j t (e :: es) = t.publishes j e ++ publishedIn j (t.step e).1 es := by
  simp [publishedIn, publishes]

/-- No report of a finished session is emitted while none is due. -/
theorem finalReports_eq_nil {es : List Event} (hnp : ¬ (t.ports j).FinalPending)
    (hl : .loadWaitRemove ∉ publishedIn j t es) : finalReports j t es = [] := by
  induction es generalizing t with
  | nil => rfl
  | cons e es ih =>
    rw [publishedIn_cons, List.mem_append, not_or] at hl
    rw [finalReports, if_neg hnp, ih (step_pending hnp hl.1) hl.2]
    rfl

/-- Until the port publishes `LoadWaitRemove` again, the report is emitted at most once. -/
theorem finalReports_of_owes {es : List Event} (h : (t.ports j).Inv) (ho : (t.ports j).Owes s)
    (hrun : machine.Along (Undisturbed j) t es) (hl : .loadWaitRemove ∉ publishedIn j t es) :
    finalReports j t es = [] ∨ ∃ d, finalReports j t es = [d] ∧ d.Carries j s := by
  induction es generalizing t with
  | nil => exact .inl rfl
  | cons e es ih =>
    rw [publishedIn_cons, List.mem_append, not_or] at hl
    rw [finalReports, if_pos ho.pending]
    rcases step_owes h ho hrun.1 with ⟨-, -, ⟨d, hd, hcarry⟩, hnp, -⟩ | ⟨-, ho', hr, -⟩
    · refine .inr ⟨d, ?_, hcarry⟩
      rw [hd, finalReports_eq_nil hnp hl.2]
      rfl
    · rw [hr]
      exact ih (step_inv e h) ho' hrun.2 hl.2

/-- The number of ticks of the `DataSetter` before it is the turn of port `j`. -/
def turnsLeft (t : Thing) (j : InnerPort) : Nat := (j - t.dataPort).val

theorem turnsLeft_lt (t : Thing) (j : InnerPort) : t.turnsLeft j < 10 := (j - t.dataPort).isLt

theorem sub_succ_val : ∀ i j : InnerPort, i ≠ j → (j - i).val = (j - (i + 1)).val + 1 := by
  decide

/-- The report is emitted as soon as it is the port's turn. -/
theorem owes_reported {es : List Event} (h : (t.ports j).Inv) (ho : (t.ports j).Owes s)
    (hrun : machine.Along (Undisturbed j) t es) (hn : t.turnsLeft j < es.count .dataTick) :
    ∃ q d, q <+: es ∧ q.count .dataTick = t.turnsLeft j + 1 ∧
      .loadWaitRemove ∉ publishedIn j t q ∧ finalReports j t q = [d] ∧ d.Carries j s := by
  induction es generalizing t with
  | nil => simp at hn
  | cons e es ih =>
    rcases step_owes h ho hrun.1 with ⟨rfl, hj, ⟨d, hd, hcarry⟩, -, hl⟩ | ⟨hj, ho', hr, hl⟩
    · refine ⟨[.dataTick], d, ⟨es, rfl⟩, ?_, ?_, ?_, hcarry⟩
      · simp [turnsLeft, hj]
      · rw [publishedIn_cons]
        simpa [publishedIn] using hl
      · rw [finalReports, if_pos ho.pending, hd]
        rfl
    · -- a tick for another port brings the turn of port `j` nearer
      have hturn : t.turnsLeft j = (t.step e).1.turnsLeft j + [e].count .dataTick := by
        unfold turnsLeft
        rw [step_dataPort]
        by_cases he : e = .dataTick
        · rw [if_pos he, sub_succ_val _ _ (hj he), he, List.count_singleton_self]
        · rw [if_neg he, List.count_cons_of_ne he, List.count_nil, Nat.add_zero]
      have hcount : ∀ l : List Event,
          (e :: l).count .dataTick = [e].count .dataTick + l.count .dataTick := by
        intro l
        rw [← List.count_append]
        rfl
      obtain ⟨q, d, hq, hqn, hql, hqd, hcarry⟩ := ih (step_inv e h) ho' hrun.2 (by
        have := hcount es
        omega)
      refine ⟨e :: q, d, List.cons_prefix_cons.2 ⟨rfl, hq⟩, ?_, ?_, ?_, hcarry⟩
      · rw [hcount]
        omega
      · rw [publishedIn_cons, List.mem_append, not_or]
        exact ⟨hl, hql⟩
      · rw [finalReports, if_pos ho.pending, hr]
        exact hqd

/-- **Every finished session is reported.** Event `e` takes port `j` from `Charging` to
`LoadWaitRemove`. If the events after it leave the report undisturbed while it is due, then until
the port publishes `LoadWaitRemove` again at most one final report is emitted, it carries the
session's data, and it is emitted within ten ticks of the `DataSetter`. -/
theorem session_reported (b : Boot) (j : InnerPort) (pre : List Event) (e : Event)
    (post : List Event)
    (hstart : ((machine.run b.init pre).ports j).charger.state = some .charging)
    (hend : ((machine.run b.init (pre ++ [e])).ports j).charger.state = some .loadWaitRemove)
    (hrun : machine.Along (Undisturbed j) (machine.run b.init (pre ++ [e])) post) :
    (∀ q, q <+: post → .loadWaitRemove ∉ publishedIn j (machine.run b.init (pre ++ [e])) q →
      finalReports j (machine.run b.init (pre ++ [e])) q = [] ∨
        ∃ d, finalReports j (machine.run b.init (pre ++ [e])) q = [d] ∧
          d.Carries j ((machine.run b.init pre).ended j e)) ∧
    (10 ≤ post.count .dataTick → ∃ q d, q <+: post ∧ q.count .dataTick ≤ 10 ∧
      .loadWaitRemove ∉ publishedIn j (machine.run b.init (pre ++ [e])) q ∧
      finalReports j (machine.run b.init (pre ++ [e])) q = [d] ∧
      d.Carries j ((machine.run b.init pre).ended j e)) := by
  have h := reachable_inv b pre j
  have h' := reachable_inv b (pre ++ [e]) j
  have ho : ((machine.run b.init (pre ++ [e])).ports j).Owes
      ((machine.run b.init pre).ended j e) := by
    have hon := h.charger.charging_iff.1 hstart
    rw [Machine.run_concat, machine_step] at hend h' ⊢
    refine step_opens h (reachable_live b pre j) hon ?_
    rcases step_shift h e with ⟨hr, -, -, -⟩ | ⟨-, hr', -⟩ | ⟨hr', -, -⟩
    · exact absurd hon hr
    · exact hr'
    · rw [h'.charger.charging_iff.2 (hr'.trans hon)] at hend
      cases hend
  generalize machine.run b.init (pre ++ [e]) = t at *
  refine ⟨?_, ?_⟩
  · rintro q ⟨r, rfl⟩ hl
    exact finalReports_of_owes h' ho hrun.left hl
  · intro hn
    have hlt := t.turnsLeft_lt j
    obtain ⟨q, d, hq, hqn, hql, hqd, hcarry⟩ := owes_reported h' ho hrun (by omega)
    exact ⟨q, d, hq, by omega, hql, hqd, hcarry⟩

/-- A session that a `stop` command ends is reported. -/
theorem session_reported_first :
    ∃ q d, q <+: List.replicate 10 .dataTick ∧ q.count .dataTick ≤ 10 ∧
      .loadWaitRemove ∉
        publishedIn 0 (machine.run Boot.plain.init ([.control 0 1 60] ++ [.stop 0 2])) q ∧
      finalReports 0 (machine.run Boot.plain.init ([.control 0 1 60] ++ [.stop 0 2])) q = [d] ∧
      d.Carries 0 ((machine.run Boot.plain.init [.control 0 1 60]).ended 0 (.stop 0 2)) := by
  refine (session_reported .plain 0 [.control 0 1 60] (.stop 0 2) (List.replicate 10 .dataTick)
    (by decide +kernel) (by decide +kernel) (Machine.along_of_mem ?_)).2 (by decide)
  intro e he t _ op hop
  rw [List.eq_of_mem_replicate he, Event.opOn] at hop
  split at hop
  · cases hop
    trivial
  · cases hop

/-- A port that is started again before its turn never reports the first session. -/
theorem restart_loses_report :
    let t := machine.run Boot.plain.init [.control 0 1 60]
    let t' := (t.step (.stop 0 1)).1
    let post := .control 0 2 60 :: List.replicate 10 .dataTick
    (t.ports 0).charger.state = some .charging ∧
      (t'.ports 0).charger.state = some .loadWaitRemove ∧
      .loadWaitRemove ∉ publishedIn 0 t' post ∧ 10 ≤ post.count .dataTick ∧
      finalReports 0 t' post = [] := by
  refine ⟨by decide +kernel, by decide +kernel, by decide +kernel, by decide +kernel, ?_⟩
  rw [← List.isEmpty_iff]
  decide +kernel

end Thing

end ChargingPile
