import ChargingPile.Thing.Backup

/-!
# Port isolation

The ports share the decorators' timers, the configuration, the turns of the round-robin loops, the
flag `isFirstCharge` and the scheduling of the backups. The last two let one port act on another:
they decide what a port has metered and when it is written to the partition. `Port.core` is a port
without these parts, and no operation reads them to decide anything else (`Port.exec_core`). The
record that a port resumes from was written before boot, since a port is not written before it was
resumed (`Boot.unresumed`).

So two controllers that agree on port `j` up to its core keep doing so (`Thing.step_alike`),
whatever happens at the other ports (`Thing.step_alike_hidden`), and the unwinding rule gives the
statement for whole runs: `Boot.port_isolated`.
-/

namespace ChargingPile

/-! ## The core of a port -/

/-- What a port reads of the rest, less the clock and `isFirstCharge`. -/
def Ctx.core (x : Ctx) : Ctx := { x with tick := 0, isFirstCharge := false }

@[simp] theorem Ctx.published_core (x : Ctx) (s : State) : (x.published s).core = x.core := rfl

@[simp] theorem Ctx.core_core (x : Ctx) : x.core.core = x.core := rfl

namespace Port

variable {x : Ctx} {p q : Port}

/-- A port less what it metered and the schedule of its backups. -/
def core (p : Port) : Port :=
  { p with
    info := { p.info with consumption := 0 }
    backuper := { p.backuper with backupCount := .ofInit 20 }
    data := { p.data with prevConsumption := ⟨0, false⟩ }
    meas := {} }

@[simp] theorem core_core (p : Port) : p.core.core = p.core := rfl

theorem onStateChanged_core (x : Ctx) (s : State) (p : Port) :
    (p.onStateChanged x s).core = (p.core.onStateChanged x.core s).core := by
  have hb : { p.backuper.onStateChanged s with backupCount := .ofInit 20 } =
      { p.core.backuper.onStateChanged s with backupCount := .ofInit 20 } := by
    simp only [core]
    obtain ⟨ht, hc, hf⟩ := p.backuper
    cases ht with
    | false => rfl
    | true => cases s <;> rfl
  cases s with
  | charging =>
    have hi : ∀ (c : Bool) (i : ChargerInfo), { (if c then i else { i with consumption := 0 }) with
        consumption := 0 } = { i with consumption := (0 : Float32) } := by
      intro c i
      cases c <;> rfl
    simp only [core, onStateChanged, ConsumptionMeasurer.onStateChanged, hi] at hb ⊢
    rw [hb]
    rfl
  | _ =>
    simp only [core, onStateChanged] at hb ⊢
    rw [hb]
    rfl

theorem notify_core (x : Ctx) (l : List State) (p : Port) :
    (notify x l p).core = (notify x.core l p.core).core := by
  induction l generalizing x p with
  | nil => rfl
  | cons s l ih =>
    rw [notify, notify, ih, ih (x.core.published s), onStateChanged_core]
    rfl

theorem drive_core (x : Ctx) (p : Port) (r : Charger × List State) :
    (p.drive x r).1.core = (p.core.drive x.core r).1.core :=
  notify_core x r.2 { p with charger := r.1 }

theorem call_core (x : Ctx) (p : Port) (op : Op) : op.call x p = op.call x.core p.core := by
  cases op <;> rfl

theorem before_core (p : Port) (op : Op) : (op.before p).core = (op.before p.core).core := by
  -- the conditions read fields that the core keeps
  cases op with
  | counter =>
    simp only [Op.before]
    split
    · rename_i h
      rw [if_pos (show p.core.charger.state = _ from h)]
      rfl
    · rename_i h
      rw [if_neg (show ¬ p.core.charger.state = _ from h)]
      rfl
  | limiter =>
    simp only [Op.before]
    split
    · rename_i h
      rw [if_pos (show p.core.limiter.updateAndCheck.1 = true from h)]
      rfl
    · rename_i h
      rw [if_neg (show ¬ p.core.limiter.updateAndCheck.1 = true from h)]
      rfl
  | noload =>
    simp only [Op.before]
    split
    · rename_i h
      rw [if_pos (show p.core.noload.noloadCount.updateAndCheck.1 = true ∧
        p.core.charger.state = _ from h)]
      rfl
    · rename_i h
      rw [if_neg (show ¬ (p.core.noload.noloadCount.updateAndCheck.1 = true ∧
        p.core.charger.state = _) from h)]
      rfl
  | resume backup =>
    have hr : (p.core.backuper.fResume.updateAndCheck.1 &&
        !p.core.backuper.stateHasTransitioned) =
      (p.backuper.fResume.updateAndCheck.1 && !p.backuper.stateHasTransitioned) := rfl
    simp only [Op.before, hr]
    cases p.backuper.fResume.updateAndCheck.1 && !p.backuper.stateHasTransitioned <;> rfl
  | _ => rfl

theorem measure_core (x : Ctx) (p : Port) : (p.measure x).core = p.core := by
  simp only [measure, ConsumptionMeasurer.update]
  split <;> rfl

theorem onCurrentChanged_core (x : Ctx) (value : Int) (p : Port) :
    (p.onCurrentChanged x value).core = (p.core.onCurrentChanged x.core value).core := by
  have hd : ∀ d : DataSetter,
      { d.onCurrentChanged x.conf p.charger.state value with
        prevConsumption := (⟨0, false⟩ : Slot Float32) } =
      { DataSetter.onCurrentChanged x.conf p.charger.state value
          { d with prevConsumption := ⟨0, false⟩ } with prevConsumption := ⟨0, false⟩ } := by
    intro d
    simp only [DataSetter.onCurrentChanged]
    split
    · rfl
    · split <;> rfl
  have hm : ∀ (y : Ctx) (i : ChargerInfo) (m : ConsumptionMeasurer),
      { (ConsumptionMeasurer.update y p.charger i m).1 with consumption := (0 : Float32) } =
        { i with consumption := 0 } := by
    intro y i m
    simp only [ConsumptionMeasurer.update]
    split <;> rfl
  simp only [onCurrentChanged, core, hm]
  rw [hd]
  rfl

theorem emitPortData_core (x y : Ctx) (p : Port) :
    (p.emitPortData x).1.core = (p.core.emitPortData y).1.core := by
  simp only [emitPortData]
  split
  · rename_i h
    rw [if_pos (show p.core.FinalPending from h)]
    rfl
  · rename_i h
    rw [if_neg (show ¬ p.core.FinalPending from h)]
    rfl

theorem dataTick_core (x y : Ctx) (p : Port) :
    (p.dataTick x).1.core = (p.core.dataTick y).1.core := by
  simp only [dataTick]
  split
  · rename_i h
    rw [if_pos (show p.core.data.count.updateAndCheck.1 = true from h)]
    exact emitPortData_core x y _
  · rename_i h
    rw [if_neg (show ¬ p.core.data.count.updateAndCheck.1 = true from h)]
    rfl

theorem after_core (x : Ctx) (p q : Port) (op : Op) :
    (op.after x p q).core = (op.after x.core p.core q.core).core := by
  cases op with
  | current value =>
    simp only [Op.after]
    split
    · rename_i h
      rw [if_pos (show p.core.charger.current = _ from h), core_core]
    · rename_i h
      rw [if_neg (show ¬ p.core.charger.current = _ from h), onCurrentChanged_core]
  | voltage value =>
    simp only [Op.after]
    split
    · rename_i h
      rw [if_pos (show p.core.charger.voltage = _ from h), core_core]
    · rename_i h
      rw [if_neg (show ¬ p.core.charger.voltage = _ from h), measure_core, measure_core, core_core]
  | measure => simp only [Op.after, measure_core, core_core]
  | data => exact dataTick_core x x.core q
  | backupWrite =>
    simp only [Op.after, backupWrite]
    split <;> split <;> rfl
  | _ => rfl

/-- **Nothing outside the core of a port decides what an operation does to its core**, or which
states the operation publishes. -/
theorem exec_core (x : Ctx) (p : Port) (op : Op) :
    (p.exec x op).1.core = (p.core.exec x.core op).1.core ∧
      statesOf (p.exec x op).2 = statesOf (p.core.exec x.core op).2 := by
  refine ⟨?_, ?_⟩
  · have hdrive : ((op.before p).drive x (op.call x p)).1.core =
        ((op.before p.core).drive x.core (op.call x.core p.core)).1.core := by
      rw [drive_core, before_core, call_core]
      exact (drive_core x.core (op.before p.core) _).symm
    rw [exec_eq, exec_eq, after_core, hdrive]
    exact (after_core x.core p.core _ op).symm
  · rw [(exec_call x p op).2, (exec_call x.core p.core op).2, call_core]

/-- A resumed port does not read its record again. -/
theorem Resumed.exec_resume (h : p.Resumed) (b b' : Backup) :
    p.exec x (.resume b) = p.exec x (.resume b') := by
  unfold Resumed at h
  simp [exec, resumeTick, resume, h]

end Port

/-! ## One event -/

/-- The event is a timer tick, a configuration, a query, or an event of port `j`. A voltage is an
event of both ports of its meter. -/
def Event.concerns (j : InnerPort) : Event → Bool
  | .control i _ _ | .stop i _ | .current i _ | .detector i => i = j
  | .voltage m _ => j = m.portA ∨ j = m.portB
  | .advance _ => false
  | _ => true

/-- An event of another port runs nothing at port `j` and changes no shared field but the clock. -/
theorem Event.of_not_concerns {t : Thing} {j : InnerPort} {e : Event} (h : e.concerns j = false) :
    e.opOn t j = none ∧ ∃ tick, t.turned e = { t with tick := tick } := by
  cases e with
  | control | stop | current | voltage | detector =>
    refine ⟨?_, t.tick, rfl⟩
    simp only [concerns, decide_eq_false_iff_not] at h
    exact if_neg h
  | advance n => exact ⟨rfl, _, rfl⟩
  | _ => cases h

namespace Thing

variable {t t' : Thing} {saved : Backup} {j : InnerPort} {e : Event}

theorem Settles.core {q : Port} (h : Settles t j q t') : (t'.ports j).core = q.core := by
  have hb : { (t'.ports j).backuper with backupCount := .ofInit 20 } =
      { q.backuper with backupCount := .ofInit 20 } := by
    simp only [h.transitioned, h.fResume]
  rw [h.port]
  simp only [Port.core, hb]

/-- Two controllers in which port `j` is the same up to its core, was found with the same record at
boot, and will get its turns alike. -/
structure Alike (saved : Backup) (j : InnerPort) (t t' : Thing) : Prop where
  port : (t.ports j).core = (t'.ports j).core
  conf : t.conf = t'.conf
  nullRunning : t.nullRunning = t'.nullRunning
  noloadPort : t.noloadPort = t'.noloadPort
  dataPort : t.dataPort = t'.dataPort
  resumePort : t.resumePort = t'.resumePort
  left : Unresumed saved j t
  right : Unresumed saved j t'

namespace Alike

theorem symm (h : Alike saved j t t') : Alike saved j t' t :=
  ⟨h.1.symm, h.2.symm, h.3.symm, h.4.symm, h.5.symm, h.6.symm, h.8, h.7⟩

theorem resumed (h : Alike saved j t t') : (t.ports j).Resumed ↔ (t'.ports j).Resumed := by
  show (t.ports j).core.Resumed ↔ (t'.ports j).core.Resumed
  rw [h.port]

theorem ctx {x y : Ctx} (h : Alike saved j t t') (hx : x.At t j) (hy : y.At t' j) :
    x.core = y.core := by
  obtain ⟨xp, xc, xt, xf, xn⟩ := x
  obtain ⟨yp, yc, yt, yf, yn⟩ := y
  obtain ⟨rfl, rfl, -, rfl⟩ := hx
  obtain ⟨rfl, rfl, -, rfl⟩ := hy
  simp only [Ctx.core, h.conf, h.nullRunning]

/-- An event changes the shared fields of both controllers alike. -/
theorem turned (h : Alike saved j t t') (e : Event) :
    (t.turned e).conf = (t'.turned e).conf ∧
      (t.turned e).nullRunning = (t'.turned e).nullRunning ∧
      (t.turned e).noloadPort = (t'.turned e).noloadPort ∧
      (t.turned e).dataPort = (t'.turned e).dataPort ∧
      (t.turned e).resumePort = (t'.turned e).resumePort := by
  obtain ⟨-, hconf, hnull, hnoload, hdata, hresume, -, -⟩ := h
  cases e with
  | config => exact ⟨rfl, hnull, hnoload, hdata, hresume⟩
  | noloadTick => exact ⟨hconf, hnull, congrArg (· + 1) hnoload, hdata, hresume⟩
  | dataTick => exact ⟨hconf, hnull, hnoload, congrArg (· + 1) hdata, hresume⟩
  | backupTick => exact ⟨hconf, hnull, hnoload, hdata, congrArg (· + 1) hresume⟩
  | _ => exact ⟨hconf, hnull, hnoload, hdata, hresume⟩

/-- The same operation at port `j` of both controllers. -/
theorem exec {x y : Ctx} (h : Alike saved j t t') (hx : x.At t j) (hy : y.At t' j) (op : Op) :
    ((t.ports j).exec x op).1.core = ((t'.ports j).exec y op).1.core ∧
      statesOf ((t.ports j).exec x op).2 = statesOf ((t'.ports j).exec y op).2 := by
  obtain ⟨hc, hs⟩ := Port.exec_core x (t.ports j) op
  obtain ⟨hc', hs'⟩ := Port.exec_core y (t'.ports j) op
  rw [hc, hs, hc', hs', h.ctx hx hy, h.port]
  exact ⟨rfl, rfl⟩

/-- An event runs the same operation at port `j` of both controllers, or resumes it again, which
does nothing with the record. -/
theorem execOpt {x y : Ctx} (h : Alike saved j t t') (hx : x.At t j) (hy : y.At t' j)
    (e : Event) :
    ((t.ports j).execOpt x (e.opOn t j)).1.core =
        ((t'.ports j).execOpt y (e.opOn t' j)).1.core ∧
      statesOf ((t.ports j).execOpt x (e.opOn t j)).2 =
        statesOf ((t'.ports j).execOpt y (e.opOn t' j)).2 := by
  have hsame : ∀ o : Option Op,
      ((t.ports j).execOpt x o).1.core = ((t'.ports j).execOpt y o).1.core ∧
        statesOf ((t.ports j).execOpt x o).2 = statesOf ((t'.ports j).execOpt y o).2 := by
    intro o
    cases o with
    | none => exact ⟨h.port, rfl⟩
    | some op => exact h.exec hx hy op
  cases e with
  | noloadTick =>
    rw [Event.opOn, Event.opOn, h.noloadPort]
    exact hsame _
  | dataTick =>
    rw [Event.opOn, Event.opOn, h.dataPort]
    exact hsame _
  | backupTick =>
    rw [Event.opOn, Event.opOn, h.resumePort]
    split
    · rcases Decidable.em (t'.ports j).Resumed with hr | hr
      · simp only [Port.execOpt]
        rw [(h.resumed.2 hr).exec_resume (t.man j) (t'.man j)]
        exact h.exec hx hy _
      · rw [(h.left (mt h.resumed.1 hr)).2, (h.right hr).2]
        exact hsame _
    · exact hsame none
  | _ => exact hsame _

end Alike

/-- An event that concerns port `j` is seen alike. -/
theorem step_alike (h : Alike saved j t t') (e : Event) :
    Alike saved j (t.step e).1 (t'.step e).1 ∧ t.publishes j e = t'.publishes j e := by
  obtain ⟨x, hx, hs, hp⟩ := t.step_settles e j
  obtain ⟨y, hy, hs', hp'⟩ := t'.step_settles e j
  obtain ⟨hcore, hstates⟩ := h.execOpt hx hy e
  have hf := t.step_fixed e
  have hf' := t'.step_fixed e
  obtain ⟨hconf, hnull, hnoload, hdata, hresume⟩ := h.turned e
  refine ⟨⟨?_, ?_, ?_, ?_, ?_, ?_, step_unresumed e h.left, step_unresumed e h.right⟩, ?_⟩
  · rw [hs.core, hs'.core, hcore]
  · rw [hf.conf, hf'.conf, hconf]
  · rw [hf.nullRunning, hf'.nullRunning, hnull]
  · rw [hf.noloadPort, hf'.noloadPort, hnoload]
  · rw [hf.dataPort, hf'.dataPort, hdata]
  · rw [hf.resumePort, hf'.resumePort, hresume]
  · rw [hp, hp', hstates]

/-- An event of another port is not seen. -/
theorem step_alike_hidden (h : Alike saved j t t') (he : e.concerns j = false) :
    Alike saved j t (t'.step e).1 ∧ t'.publishes j e = [] := by
  obtain ⟨hop, tick, hturned⟩ := Event.of_not_concerns (t := t') he
  obtain ⟨y, hy, hs, hp⟩ := t'.step_settles e j
  have hf := t'.step_fixed e
  rw [hop] at hs hp
  rw [hturned] at hf
  refine ⟨⟨h.port.trans hs.core.symm, h.conf.trans hf.conf.symm,
    h.nullRunning.trans hf.nullRunning.symm, h.noloadPort.trans hf.noloadPort.symm,
    h.dataPort.trans hf.dataPort.symm, h.resumePort.trans hf.resumePort.symm, h.left,
    step_unresumed e h.right⟩, hp⟩

end Thing

/-! ## Runs from boot -/

/-- The reading is one of port `j`. -/
def Sample.concerns (j : InnerPort) : Sample → Bool
  | .current i _ => i = j
  | .voltage m _ => j = m.portA ∨ j = m.portB

namespace Boot

variable {b b' : Boot} {j : InnerPort}

/-- Two boots with the same data of port `j`: its record in flash, the memory its `prevState` is
read from, and its meter readings, besides the configuration and what a null timer reads as. -/
structure Alike (j : InnerPort) (b b' : Boot) : Prop where
  conf : b.conf = b'.conf
  nullRunning : b.nullRunning = b'.nullRunning
  man : b.man j = b'.man j
  junk : (b.junk j).1 = (b'.junk j).1
  samples : b.samples.filter (·.concerns j) = b'.samples.filter (·.concerns j)

/-- A reading of another port does not reach the charger of port `j`. -/
theorem apply_of_not_concerns {a : Sample} (h : a.concerns j = false) (nullRunning : Bool)
    (c : Charger) : a.apply nullRunning j c = (c, []) := by
  cases a with
  | current i v =>
    simp only [Sample.concerns, decide_eq_false_iff_not] at h
    exact if_neg (Ne.symm h)
  | voltage m v =>
    simp only [Sample.concerns, decide_eq_false_iff_not] at h
    exact if_neg h

theorem sampled_filter (nullRunning : Bool) (j : InnerPort) (l : List Sample) (c : Charger) :
    sampled nullRunning j c (l.filter (·.concerns j)) = sampled nullRunning j c l := by
  induction l generalizing c with
  | nil => rfl
  | cons a l ih =>
    cases ha : a.concerns j with
    | true => simp only [List.filter_cons, ha, if_true, sampled, ih]
    | false =>
      rw [List.filter_cons_of_neg (by simp [ha]), ih, sampled, apply_of_not_concerns ha]
      simp [Charger.andThen]

theorem Alike.charger (h : b.Alike j b') : b.charger j = b'.charger j := by
  unfold Boot.charger
  rw [← sampled_filter, ← sampled_filter b'.nullRunning, h.samples, h.nullRunning]

theorem Alike.init (h : b.Alike j b') : Thing.Alike (b.man j) j b.init b'.init := by
  have hfresh : (b.fresh j).core = (b'.fresh j).core := by
    simp only [fresh, Port.core, h.charger, h.junk]
  refine ⟨?_, h.conf, h.nullRunning, rfl, rfl, rfl, b.unresumed [] j, ?_⟩
  · have hstate : (b.fresh j).charger.state = (b'.fresh j).charger.state :=
      congrArg (·.1.state) h.charger
    simp only [Boot.init, hstate]
    split
    · exact hfresh
    · rw [Port.onStateChanged_core, Port.onStateChanged_core (b'.construct.ctx j), hfresh]
      simp only [Ctx.core, Thing.ctx, construct, h.conf, h.nullRunning]
  · rw [h.man]
    exact b'.unresumed [] j

/-- **Port isolation.** Take two boots with the same data of port `j`, and two runs that agree on
the timer ticks, the configuration and the events of port `j`. The rest is arbitrary in each of
them. Then port `j` is alike at the end of the two, which may be cut off at any step, and has
published the same states. -/
theorem port_isolated (j : InnerPort) (b b' : Boot) (es es' : List Event) (hb : b.Alike j b')
    (h : es.filter (·.concerns j) = es'.filter (·.concerns j)) :
    let p := (Thing.machine.run b.init es).ports j
    let p' := (Thing.machine.run b'.init es').ports j
    p.charger.relay = p'.charger.relay ∧ p.info.leftSeconds = p'.info.leftSeconds ∧
      p.info.timerId = p'.info.timerId ∧ p.info.finalState = p'.info.finalState ∧
      b.published j es = b'.published j es' := by
  intro p p'
  obtain ⟨halike, hobs⟩ := Machine.unwind (M := Thing.machine) (Thing.Alike (b.man j) j)
    (·.concerns j) (fun l => statesOf (outputsOf j l)) (by simp) rfl (fun _ _ => Thing.Alike.symm)
    (fun _ _ _ hR he => Thing.step_alike_hidden hR he) (fun _ _ e hR _ => Thing.step_alike hR e)
    h hb.init
  have hcore : p.core = p'.core := halike.port
  refine ⟨congrArg (·.charger.relay) hcore, congrArg (·.info.leftSeconds) hcore,
    congrArg (·.info.timerId) hcore, congrArg (·.info.finalState) hcore, ?_⟩
  unfold published
  rw [hb.charger, hobs]

/-- The flash of `plain`, but port 0 has a session to resume. -/
def busy : Boot := { plain with man := Function.update plain.man 0 ⟨60, 1, 0⟩, tick := 5 }

/-- A session of port 3, alone and next to one that port 0 resumes and one that port 4 is given. -/
theorem port_isolated_next_to_session :
    (busy.published 3 [.control 4 2 30, .backupTick, .current 0 500, .control 3 7 1,
      .counterTick, .advance 9]) = plain.published 3 [.backupTick, .control 3 7 1, .counterTick] :=
  (port_isolated 3 busy plain [.control 4 2 30, .backupTick, .current 0 500, .control 3 7 1,
      .counterTick, .advance 9] [.backupTick, .control 3 7 1, .counterTick]
    ⟨rfl, rfl, rfl, rfl, rfl⟩ (by decide)).2.2.2.2

end Boot

end ChargingPile
