import ChargingPile.Thing.Counter

/-!
# Resuming after a power failure

The first state that a port publishes after boot makes it due to be resumed, and the `Backuper`
resumes it at its next turn: `Backuper::resume` overwrites `timerId`, `leftSeconds` and
`consumption` with the saved record and starts the charger if time was left.

Two guards are needed, and each comes with a run that shows why.

* `resume_restores_iff`: the saved consumption survives only in the first port that is started
  after boot. The flag `isFirstCharge` that keeps `ConsumptionMeasurer` from clearing it is shared
  by all ports (`second_resume_clears_consumption`).
* `control_kept`: a command is safe from the resumption if the port was resumed before it. One that
  comes earlier is overwritten by the saved record (`resume_undoes_control`).
-/

namespace ChargingPile

/-! ## The flag that all ports share -/

namespace Thing

variable {t : Thing} {i j : InnerPort} {e : Event}

theorem foldl_absorb_isFirstCharge (l : List Output) (t : Thing) :
    (l.foldl (absorb i) t).isFirstCharge = true ↔
      t.isFirstCharge = true ∧ .charging ∉ statesOf l := by
  induction l generalizing t with
  | nil => simp
  | cons o l ih =>
    rw [List.foldl_cons, ih]
    cases o with
    | state s => cases s <;> simp [absorb, statesOf]
    | currentLimit | currentData | backup => simp [absorb, statesOf]

/-- The flag is still set exactly if it was set and no port published `Charging`. -/
def FirstKept (t : Thing) (r : Thing × List (InnerPort × Output)) : Prop :=
  r.1.isFirstCharge = true ↔
    t.isFirstCharge = true ∧ ∀ i, .charging ∉ statesOf (outputsOf i r.2)

theorem FirstKept.nil {t' : Thing} (h : t'.isFirstCharge = t.isFirstCharge) :
    FirstKept t (t', []) := by
  simp [FirstKept, h]

theorem FirstKept.trans {r r' : Thing × List (InnerPort × Output)} (h : FirstKept t r)
    (h' : FirstKept r.1 r') : FirstKept t (r'.1, r.2 ++ r'.2) := by
  unfold FirstKept at *
  simp only [outputsOf_append, statesOf_append, List.mem_append, not_or, forall_and]
  rw [h', h, and_assoc]

theorem exec_firstKept (t : Thing) (i : InnerPort) (op : Op) : FirstKept t (t.exec i op) := by
  have h := foldl_absorb_isFirstCharge (i := i) ((t.ports i).exec (t.ctx i) op).2
    { t with ports := Function.update t.ports i ((t.ports i).exec (t.ctx i) op).1 }
  refine h.trans (and_congr_right fun _ => ?_)
  rw [← (exec_self t i op).2]
  refine ⟨?_, fun h => h i⟩
  intro h k
  by_cases hk : k = i
  · rwa [hk]
  · rw [(exec_other hk op).2]
    exact List.not_mem_nil

theorem execAll_firstKept (l : List (InnerPort × Op)) (t : Thing) :
    FirstKept t (t.execAll l) := by
  induction l generalizing t with
  | nil => exact .nil rfl
  | cons a l ih => exact (exec_firstKept t a.1 a.2).trans (ih _)

theorem backupLoop_firstKept (ingore : Bool) (next : InnerPort) (l : List InnerPort) (t : Thing) :
    FirstKept t (t.backupLoop ingore next l) := by
  induction l generalizing t ingore next with
  | nil => exact .nil rfl
  | cons i l ih =>
    unfold backupLoop
    split
    · split <;> exact (exec_firstKept ..).trans (ih ..)
    · exact (exec_firstKept ..).trans (ih ..)

theorem backupRound_firstKept (t : Thing) : FirstKept t t.backupRound := by
  simp only [backupRound]
  split
  · exact backupLoop_firstKept false t.backupPort _ { t with nextCount := _ }
  · exact .nil rfl

theorem step_firstKept (t : Thing) (e : Event) : FirstKept t (t.step e) := by
  cases e with
  | config | advance => exact .nil rfl
  | control | stop | current | detector => exact exec_firstKept ..
  | query | voltage | counterTick | limiterTick | measureTick => exact execAll_firstKept ..
  | noloadTick => exact exec_firstKept { t with noloadPort := _ } _ _
  | dataTick => exact exec_firstKept { t with dataPort := _ } _ _
  | backupTick =>
    exact (exec_firstKept { t with resumePort := t.resumePort + 1 } _ _).trans
      (backupRound_firstKept _)

end Thing

/-- The flag is set as long as no port has been `Charging`. -/
theorem Boot.isFirstCharge_iff (b : Boot) (es : List Event) :
    (Thing.machine.run b.init es).isFirstCharge = true ↔ ∀ i, .charging ∉ b.published i es := by
  induction es using List.reverseRecOn with
  | nil =>
    refine iff_of_true rfl ?_
    intro i hmem
    rw [published_nil] at hmem
    cases (b.charger_unset i).2.2 _ hmem
  | append_singleton es e ih =>
    have h := Thing.step_firstKept (Thing.machine.run b.init es) e
    unfold Thing.FirstKept at h
    rw [Machine.run_concat, Thing.machine_step, h, ih]
    simp only [published_concat, List.mem_append, not_or, forall_and]
    rfl

/-! ## The resumption of a port -/

namespace Port

variable {x : Ctx} {p : Port} {backup : Backup}

/-- The port is back in the session that was saved. -/
structure Restored (saved : Backup) (p : Port) : Prop where
  relay : p.charger.relay = some .on
  timerId : p.info.timerId = saved.timerId
  leftSeconds : p.info.leftSeconds = saved.leftSeconds
  consumption : p.info.consumption = saved.consumption

/-- `Charging` after at most a `LoadInserted` clears the consumption unless the flag is set. -/
theorem notify_consumption {l : List State} (hl : l = [.charging] ∨ l = [.loadInserted, .charging])
    (p : Port) :
    (notify x l p).info.consumption = if x.isFirstCharge then p.info.consumption else 0 := by
  have hflag : (x.published .loadInserted).isFirstCharge = x.isFirstCharge := by
    simp [Ctx.published]
  have hcharging : ∀ (x : Ctx) (p : Port), (p.onStateChanged x .charging).info.consumption =
      if x.isFirstCharge then p.info.consumption else 0 := by
    intro x p
    simp only [onStateChanged, DataSetter.onStateChanged, ConsumptionMeasurer.onStateChanged]
    split <;> rfl
  rcases hl with rfl | rfl
  · exact hcharging x p
  · rw [notify, notify, notify, hcharging, hflag]
    rfl

/-- The resumption of a port with time left, whose relay is open. -/
theorem exec_resume (hinv : p.charger.Inv) (hoff : p.charger.relay ≠ some .on)
    (hdue : p.backuper.fResume.updateAndCheck.1 = true) (hres : ¬ p.Resumed)
    (hleft : backup.leftSeconds ≠ 0) :
    let q := (p.exec x (.resume backup)).1
    q.charger.relay = some .on ∧ q.info.timerId = backup.timerId ∧
      q.info.leftSeconds = backup.leftSeconds ∧
      q.info.consumption = if x.isFirstCharge then backup.consumption else 0 := by
  have hres' : p.backuper.stateHasTransitioned = false := Bool.eq_false_of_not_eq_true hres
  have hcall : Op.call x p (.resume backup) = p.charger.start x.nullRunning :=
    if_pos ⟨hdue, by simp [hres'], hleft⟩
  have hinfo : (Op.before p (.resume backup)).info =
      { p.info with timerId := backup.timerId, leftSeconds := backup.leftSeconds,
                    consumption := backup.consumption } := by
    simp [Op.before, hdue, hres', hleft]
  have hstates : (p.charger.start x.nullRunning).2 = [.charging] ∨
      (p.charger.start x.nullRunning).2 = [.loadInserted, .charging] := by
    rw [Charger.start_spec hinv hoff]
    split
    · exact .inl rfl
    · exact .inr rfl
  have hlwr : .loadWaitRemove ∉ (p.charger.start x.nullRunning).2 := by
    rcases hstates with h | h <;> simp [h]
  rw [exec_eq, hcall]
  obtain ⟨hl, ht⟩ := notify_info (x := x) (p.charger.start x.nullRunning).2
    { Op.before p (.resume backup) with charger := (p.charger.start x.nullRunning).1 }
  have hc := notify_consumption (x := x) hstates
    { Op.before p (.resume backup) with charger := (p.charger.start x.nullRunning).1 }
  rw [hinfo] at hl ht hc
  refine ⟨?_, ht, ?_, hc⟩
  · show ((drive _ _ _).1).charger.relay = _
    rw [drive_charger, Charger.start_spec hinv hoff]
  · rw [if_neg hlwr] at hl
    exact hl

end Port

namespace Thing

variable {t : Thing} {j : InnerPort} {e : Event}

/-- The next tick of the `Backuper` resumes port `j`. -/
def Resumes (j : InnerPort) (t : Thing) : Prop :=
  t.resumePort = j ∧ (t.ports j).backuper.fResume.updateAndCheck.1 = true ∧ ¬ (t.ports j).Resumed

instance (j : InnerPort) (t : Thing) : Decidable (t.Resumes j) :=
  inferInstanceAs (Decidable (_ ∧ _ ∧ _))

/-- The turn of port `j` reads the flag as it is before the tick. -/
theorem backupTick_settles (h : t.resumePort = j) :
    Settles t j ((t.ports j).exec (t.ctx j) (.resume (t.man j))).1 (t.step .backupTick).1 := by
  subst h
  have hp := (exec_self { t with resumePort := t.resumePort + 1 } t.resumePort
    (.resume (t.man t.resumePort))).1
  have hs : Settles t t.resumePort _ (t.step .backupTick).1 :=
    .of_backupRound (exec { t with resumePort := t.resumePort + 1 } t.resumePort
      (.resume (t.man t.resumePort))).1 (exec_man (.inr (by simp)) _)
  rw [hp] at hs
  exact hs

/-- A port that was neither commanded nor resumed is not charging. -/
theorem step_relay_unresumed (hinv : (t.ports j).Inv)
    (h : ¬ (t.ports j).Resumed → (t.ports j).charger.relay ≠ some .on)
    (he : ∀ timerId minutes, e ≠ .control j timerId minutes)
    (hres : ¬ ((t.step e).1.ports j).Resumed) :
    ((t.step e).1.ports j).charger.relay ≠ some .on := by
  have hoff := h fun hr => hres (step_resumed e hr)
  obtain ⟨x, -, hs, -⟩ := t.step_settles e j
  rw [hs.charger]
  have hres' : ¬ ((t.ports j).execOpt x (e.opOn t j)).1.Resumed := by
    unfold Port.Resumed at hres ⊢
    rwa [← hs.transitioned]
  cases hop : e.opOn t j with
  | none => exact hoff
  | some op =>
    rw [hop] at hres'
    rw [Port.execOpt, (Port.exec_call x _ op).1]
    rcases op.call_cases hinv.charger x with ⟨hk, -⟩ | ⟨-, hr⟩ | ⟨i, u, -, hr⟩
    · rcases hk with ⟨timerId, minutes, rfl⟩ | ⟨backup, rfl⟩
      · exact absurd (Event.opOn_control.1 hop) (he timerId minutes)
      · rw [Op.call, if_neg]
        · exact hoff
        · rintro ⟨hdue, hnr, -⟩
          refine hres' ?_
          rw [Port.Resumed, Port.execOpt, Port.exec_eq, Port.after_backuper _ (by simp),
            Port.drive, (Port.notify_backuper _ _).1]
          simp [Op.before, hdue]
    · rw [hr, Port.stop_relay hinv.charger]
      simp
    · rw [hr.relay]
      exact hoff

theorem run_relay_unresumed (b : Boot) {es : List Event}
    (he : ∀ e ∈ es, ∀ timerId minutes, e ≠ .control j timerId minutes)
    (hres : ¬ ((machine.run b.init es).ports j).Resumed) :
    ((machine.run b.init es).ports j).charger.relay ≠ some .on := by
  induction es using List.reverseRecOn with
  | nil =>
    rw [Machine.run_nil, Boot.init_charger, (b.charger_unset j).2.1]
    simp
  | append_singleton es e ih =>
    rw [Machine.run_concat] at hres ⊢
    refine step_relay_unresumed (reachable_inv b es j) ?_ (he e (by simp)) hres
    exact ih fun e hm => he e (by simp [hm])

/-- **The resumption of a session.** In a run from boot without a `control` of port `j`, the tick
of the `Backuper` that resumes the port restores the saved session exactly if no port has been
`Charging` since boot or the saved consumption is zero. -/
theorem resume_restores_iff (b : Boot) (es : List Event) (j : InnerPort)
    (hcmd : ∀ e ∈ es, ∀ timerId minutes, e ≠ .control j timerId minutes)
    (hres : (machine.run b.init es).Resumes j) (hleft : (b.man j).leftSeconds ≠ 0) :
    ((machine.run b.init (es ++ [.backupTick])).ports j).Restored (b.man j) ↔
      (∀ i, .charging ∉ b.published i es) ∨ (b.man j).consumption = 0 := by
  obtain ⟨hturn, hdue, hnr⟩ := hres
  have hman := (b.unresumed es j hnr).2
  have hs := backupTick_settles hturn
  rw [Machine.run_concat, machine_step, ← b.isFirstCharge_iff]
  obtain ⟨hr, ht, hl, hc⟩ := Port.exec_resume (x := (machine.run b.init es).ctx j)
    (reachable_inv b es j).charger (run_relay_unresumed b hcmd hnr) hdue hnr (hman ▸ hleft)
  rw [← hman] at *
  rw [← hs.charger] at hr
  rw [← hs.info] at ht hl hc
  have hflag : ((machine.run b.init es).ctx j).isFirstCharge =
      (machine.run b.init es).isFirstCharge := rfl
  rw [hflag] at hc
  refine ⟨?_, ?_⟩
  · intro h
    have hcons := h.consumption
    rw [hc] at hcons
    split at hcons
    · exact .inl ‹_›
    · exact .inr hcons.symm
  · intro h
    refine ⟨hr, ht, hl, ?_⟩
    rw [hc]
    split
    · rfl
    · rcases h with h | h
      · exact absurd h ‹_›
      · exact h.symm

/-- Two ports were charging when the power failed. -/
def twoSaved : Boot :=
  { Boot.plain with man := fun i =>
      if i = 0 then { leftSeconds := 60, timerId := 1, consumption := 1 }
      else if i = 1 then { leftSeconds := 90, timerId := 2, consumption := 2 }
      else {} }

/-- The first of them is restored. -/
theorem resume_restores_iff_first :
    ((machine.run twoSaved.init ([.current 0 0, .current 1 0] ++ [.backupTick])).ports 0).Restored
      (twoSaved.man 0) := by
  refine (resume_restores_iff twoSaved [.current 0 0, .current 1 0] 0 ?_ (by decide +kernel)
    (by decide)).2 (.inl (by decide +kernel))
  simp

/-- The second of them loses its consumption. -/
theorem second_resume_clears_consumption :
    (machine.run twoSaved.init [.current 0 0, .current 1 0, .backupTick]).Resumes 1 ∧
      (twoSaved.man 1).leftSeconds ≠ 0 ∧
      ¬ ((machine.run twoSaved.init
        ([.current 0 0, .current 1 0, .backupTick] ++ [.backupTick])).ports 1).Restored
          (twoSaved.man 1) := by
  refine ⟨by decide +kernel, by decide, ?_⟩
  intro h
  exact absurd h.consumption (by decide +kernel)

end Thing

/-! ## Commands and the resumption -/

/-- The `timerId` after an operation. -/
def Op.timerIdAfter (p : Port) : Op → Int
  | .control timerId _ => timerId
  | .stop timerId => timerId
  | .resume backup =>
    if p.backuper.fResume.updateAndCheck.1 ∧ ¬ p.Resumed then backup.timerId else p.info.timerId
  | .data =>
    if p.data.count.updateAndCheck.1 ∧ p.FinalPending then 0 else p.info.timerId
  | _ => p.info.timerId

namespace Port

variable {x : Ctx} {p : Port}

theorem dataTick_timerId (x : Ctx) (p : Port) : (p.dataTick x).1.info.timerId =
    if p.data.count.updateAndCheck.1 ∧ p.FinalPending then 0 else p.info.timerId := by
  simp only [dataTick, emitPortData]
  split
  · rename_i hexp
    split
    · rename_i hp
      rw [if_pos ⟨hexp, hp⟩]
    · rename_i hp
      rw [if_neg fun h => hp h.2]
  · rename_i hexp
    rw [if_neg fun h => hexp h.1]

/-- Only commands, a resumption and the report of a finished session change the `timerId`. -/
theorem exec_timerId (x : Ctx) (p : Port) (op : Op) :
    (p.exec x op).1.info.timerId = op.timerIdAfter p := by
  have hq := (notify_info (x := x) (op.call x p).2
    { op.before p with charger := (op.call x p).1 }).2
  rw [exec_eq]
  cases op with
  | current | voltage =>
    simp only [Op.after, onCurrentChanged, measure, ConsumptionMeasurer.update]
    split
    · exact hq
    · dsimp only
      split <;> exact hq
  | measure =>
    simp only [Op.after, measure, ConsumptionMeasurer.update]
    split <;> exact hq
  | backupWrite =>
    simp only [Op.after, backupWrite]
    split <;> exact hq
  | data =>
    exact dataTick_timerId x p
  | counter | limiter | noload =>
    refine hq.trans ?_
    simp only [Op.before]
    split <;> rfl
  | resume backup =>
    refine hq.trans ?_
    simp only [Op.before, Op.timerIdAfter, Resumed, Bool.and_eq_true, Bool.not_eq_true',
      Bool.not_eq_true]
    split <;> rfl
  | stop => rfl
  | _ => exact hq

end Port

/-- The event is a command for port `j`. -/
def Event.CommandOf (j : InnerPort) (e : Event) : Prop :=
  (∃ timerId minutes, e = .control j timerId minutes) ∨ ∃ timerId, e = .stop j timerId

namespace Thing

variable {t : Thing} {j : InnerPort} {e : Event}

/-- What changes the seconds of a resumed port. -/
theorem step_leftSeconds_resumed (hres : (t.ports j).Resumed)
    (hne : ((t.step e).1.ports j).info.leftSeconds ≠ (t.ports j).info.leftSeconds) :
    e.CommandOf j ∨ e = .counterTick ∨ .loadWaitRemove ∈ t.publishes j e := by
  obtain ⟨x, -, hs, hp⟩ := t.step_settles e j
  rw [hs.info] at hne
  cases hop : e.opOn t j with
  | none =>
    rw [hop] at hne
    exact absurd rfl hne
  | some op =>
    rw [hop, Port.execOpt, (Port.exec_call x _ op).2] at hp
    rw [hop, Port.execOpt, Port.exec_leftSeconds, ← hp] at hne
    split at hne
    · exact .inr (.inr ‹_›)
    · by_cases hk : op = .counter
      · exact .inr (.inl (Event.opOn_counter.1 (hk ▸ hop)))
      · by_cases hc : ∃ timerId minutes, op = .control timerId minutes
        · obtain ⟨timerId, minutes, rfl⟩ := hc
          exact .inl (.inl ⟨timerId, minutes, Event.opOn_control.1 hop⟩)
        · refine absurd (Port.before_leftSeconds ?_ hres fun h => absurd h hk) hne
          intro timerId minutes h
          exact hc ⟨timerId, minutes, h⟩

/-- What changes the `timerId` of a resumed port. -/
theorem step_timerId_resumed (hres : (t.ports j).Resumed)
    (hne : ((t.step e).1.ports j).info.timerId ≠ (t.ports j).info.timerId) :
    e.CommandOf j ∨ e = .dataTick ∧ t.dataPort = j ∧ (t.ports j).FinalPending := by
  obtain ⟨x, -, hs, -⟩ := t.step_settles e j
  rw [hs.info] at hne
  cases hop : e.opOn t j with
  | none =>
    rw [hop] at hne
    exact absurd rfl hne
  | some op =>
    rw [hop, Port.execOpt, Port.exec_timerId] at hne
    cases op with
    | control timerId minutes => exact .inl (.inl ⟨timerId, minutes, Event.opOn_control.1 hop⟩)
    | stop timerId => exact .inl (.inr ⟨timerId, Event.opOn_stop.1 hop⟩)
    | resume backup =>
      rw [Op.timerIdAfter, if_neg fun h => h.2 hres] at hne
      exact absurd rfl hne
    | data =>
      obtain ⟨he, hj⟩ := Event.opOn_data.1 hop
      rw [Op.timerIdAfter] at hne
      split at hne
      · rename_i h
        exact .inr ⟨he, hj, h.2⟩
      · exact absurd rfl hne
    | _ => exact absurd rfl hne

/-- A tick of the `Backuper` publishes nothing for a resumed port. -/
theorem publishes_backupTick_resumed (hres : (t.ports j).Resumed) :
    t.publishes j .backupTick = [] := by
  obtain ⟨x, -, -, hp⟩ := t.step_settles .backupTick j
  rw [hp]
  unfold Port.Resumed at hres
  by_cases hj : t.resumePort = j
  · rw [Event.opOn, if_pos hj, Port.execOpt, (Port.exec_call x _ _).2, Op.call,
      if_neg (by simp [hres])]
  · rw [Event.opOn, if_neg hj]
    rfl

/-- **A command is not undone.** Once a `control` has found port `j` resumed, no tick of the
`Backuper` changes the port's `leftSeconds` or `timerId` any more. The seconds change only by
commands, ticks of the `Counter` and when the relay is opened, the `timerId` only by commands and
by the report of a finished session. -/
theorem control_kept (b : Boot) (j : InnerPort) (pre : List Event) (timerId minutes : Int)
    (post : List Event) (e : Event) (hres : ((machine.run b.init pre).ports j).Resumed) :
    let t := machine.run b.init (pre ++ .control j timerId minutes :: post)
    let p := t.ports j
    let q := (t.step e).1.ports j
    (e = .backupTick → q.info.leftSeconds = p.info.leftSeconds ∧
      q.info.timerId = p.info.timerId) ∧
    (q.info.leftSeconds ≠ p.info.leftSeconds →
      e.CommandOf j ∨ e = .counterTick ∨ .loadWaitRemove ∈ t.publishes j e) ∧
    (q.info.timerId ≠ p.info.timerId →
      e.CommandOf j ∨ e = .dataTick ∧ t.dataPort = j ∧ p.FinalPending) := by
  intro t p q
  have hres' : (t.ports j).Resumed := by
    show ((machine.run b.init _).ports j).Resumed
    rw [Machine.run_append]
    exact run_resumed hres _
  refine ⟨?_, step_leftSeconds_resumed hres', step_timerId_resumed hres'⟩
  intro he
  have hcmd : ¬ e.CommandOf j := by
    rw [he]
    rintro (⟨_, _, h⟩ | ⟨_, h⟩) <;> cases h
  refine ⟨?_, ?_⟩
  · by_contra hne
    rcases step_leftSeconds_resumed hres' hne with h | h | h
    · exact hcmd h
    · rw [he] at h
      cases h
    · rw [he, publishes_backupTick_resumed hres'] at h
      cases h
  · by_contra hne
    rcases step_timerId_resumed hres' hne with h | ⟨h, -⟩
    · exact hcmd h
    · rw [he] at h
      cases h

/-- A port that was resumed with nothing saved keeps its command at the next tick. -/
theorem control_kept_first :
    let t := machine.run Boot.plain.init ([.current 0 0, .backupTick] ++ [.control 0 7 60])
    ((t.step .backupTick).1.ports 0).info.leftSeconds = (t.ports 0).info.leftSeconds ∧
      ((t.step .backupTick).1.ports 0).info.timerId = (t.ports 0).info.timerId :=
  (control_kept .plain 0 [.current 0 0, .backupTick] 7 60 [] .backupTick (by decide +kernel)).1 rfl

/-- A `control` that comes before the port was resumed is overwritten, here by an empty record. The
relay stays closed. -/
theorem resume_undoes_control :
    let t := machine.run Boot.plain.init [.control 0 7 60]
    ((t.ports 0).info.timerId = 7 ∧ (t.ports 0).info.leftSeconds = 3600) ∧
      t.Resumes 0 ∧
      ((t.step .backupTick).1.ports 0).info.timerId = 0 ∧
      ((t.step .backupTick).1.ports 0).info.leftSeconds = 0 ∧
      ((t.step .backupTick).1.ports 0).charger.relay = some .on := by
  decide +kernel

end Thing

end ChargingPile
