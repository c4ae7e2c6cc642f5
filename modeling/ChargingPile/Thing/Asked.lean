import ChargingPile.Thing.Report

/-!
# When a port reports

The `DataSetter` gives each port its turn in every tenth tick, and the port reports if it was asked
to since its last turn. It is asked by a query, by a state that begins or ends a session, and by a
current that differs from the recorded one by the threshold or more while the port charges. The
countdown of one tick that the ports use for this is a flag (`Port.Asked`): `Port.exec_asked` says
what every operation does to it.

`reported_iff_asked` is the result for runs: a port reports at its turn exactly if it was asked
since the last one, and whoever asks is answered within ten ticks.
-/

namespace ChargingPile

/-- A countdown of one tick expires after a `retrigger`. -/
theorem CountDown.Within.retrigger_expires {c : CountDown} (h : c.Within 1) :
    c.retrigger.updateAndCheck.1 = true := by
  rw [updateAndCheck_fst]
  exact ⟨rfl, h.retrigger_currVal⟩

/-- A countdown of one tick that was updated does not expire again. -/
theorem CountDown.Within.updated {c : CountDown} (h : c.Within 1) :
    c.updateAndCheck.2.updateAndCheck.1 ≠ true := by
  rw [ne_eq, updateAndCheck_fst, updateAndCheck_counting, updateAndCheck_currVal]
  rintro ⟨hcounting, hval⟩
  rw [if_pos hcounting] at hval
  have := h.le
  omega

/-- The states that the `DataSetter` reports. -/
def State.Reported (s : State) : Prop := s = .charging ∨ s = .loadWaitRemove

namespace Port

variable {x : Ctx} {p : Port} {op : Op}

/-- The port was asked for a report, which it makes at its next turn. -/
def Asked (p : Port) : Prop := p.data.count.updateAndCheck.1 = true

/-- The current asks for a report: the port charges, and the value is away from the
recorded one. -/
def Deviates (conf : DevConfig) (p : Port) (value : Int) : Prop :=
  p.charger.current ≠ some value ∧ p.charger.state = some .charging ∧
    conf.uploadThr ≤ ((value - p.data.prevCurrMiA).natAbs : Int)

/-! ## Operations -/

theorem onStateChanged_asked (h : p.data.count.Within 1) (s : State) :
    (p.onStateChanged x s).Asked ↔ s.Reported ∨ p.Asked := by
  cases s with
  | charging | loadWaitRemove =>
    refine iff_of_true h.retrigger_expires (.inl ?_)
    simp [State.Reported]
  | loadNotInsert | loadInserted | error =>
    simp [State.Reported, Asked, onStateChanged, DataSetter.onStateChanged]

theorem notify_asked (l : List State) (h : p.data.count.Within 1) :
    (notify x l p).Asked ↔ (∃ s ∈ l, s.Reported) ∨ p.Asked := by
  induction l generalizing x p with
  | nil => simp [notify]
  | cons s l ih =>
    rw [notify, ih (onStateChanged_count h s), onStateChanged_asked h]
    simp only [List.mem_cons, exists_eq_or_imp]
    rw [or_left_comm, or_assoc]

/-- A port that charges has made no call that published something when a new current arrives. -/
theorem setCurrent_charging (h : p.Inv) (value : Int) (hs : p.charger.state = some .charging) :
    (p.charger.setCurrent x.nullRunning value).2 = [] ∧
      (p.charger.setCurrent x.nullRunning value).1.state = some .charging := by
  by_cases hnew : p.charger.current = some value
  · rw [Charger.setCurrent, if_pos hnew]
    exact ⟨rfl, hs⟩
  · have hquiet : Charger.Quiet { p.charger with current := some value }
        (p.charger.setCurrent x.nullRunning value) := Charger.setCurrent_quiet h.charger hnew
    obtain ⟨hstates, hstate, -⟩ := hquiet.closed (h.charger.charging_iff.1 hs)
    exact ⟨hstates, hstate.trans hs⟩

theorem setCurrent_idle (h : p.Inv) (value : Int) (hs : p.charger.state ≠ some .charging) :
    (∀ s ∈ (p.charger.setCurrent x.nullRunning value).2, ¬ s.Reported) ∧
      (p.charger.setCurrent x.nullRunning value).1.state ≠ some .charging := by
  by_cases hnew : p.charger.current = some value
  · rw [Charger.setCurrent, if_pos hnew]
    exact ⟨List.forall_mem_nil _, hs⟩
  · have hquiet : Charger.Quiet { p.charger with current := some value }
        (p.charger.setCurrent x.nullRunning value) := Charger.setCurrent_quiet h.charger hnew
    have hopen : p.charger.relay ≠ some .on := fun hon => hs (h.charger.charging_iff.2 hon)
    rcases (hquiet.opened hopen).1 with ⟨hstates, hstate⟩ | ⟨hstates, hstate⟩
    · rw [hstates, hstate]
      exact ⟨List.forall_mem_nil _, hs⟩
    · rw [hstates, hstate]
      exact ⟨by simp [State.Reported], by simp⟩

/-- What an operation asks of its port. -/
def Asks (x : Ctx) (p : Port) (op : Op) : Prop :=
  op = .query ∨ (∃ s ∈ (op.call x p).2, s.Reported) ∨ ∃ value, op = .current value ∧
    p.Deviates x.conf value

theorem exec_current_asked (h : p.Inv) (value : Int) :
    (p.exec x (.current value)).1.Asked ↔ Asks x p (.current value) ∨ p.Asked := by
  have hasks : Asks x p (.current value) ↔
      (∃ s ∈ (p.charger.setCurrent x.nullRunning value).2, s.Reported) ∨
        p.Deviates x.conf value := by
    simp [Asks, Op.call]
  rw [hasks]
  by_cases hnew : p.charger.current = some value
  · simp [exec, hnew, Charger.setCurrent, Deviates]
  by_cases hs : p.charger.state = some .charging
  · obtain ⟨hstates, hstate⟩ := setCurrent_charging (x := x) h value hs
    simp only [exec, if_neg hnew, drive, hstates, notify, onCurrentChanged,
      DataSetter.onCurrentChanged, Asked, hstate, ne_eq, not_true_eq_false, if_false, ge_iff_le]
    by_cases hthr : x.conf.uploadThr ≤ ((value - p.data.prevCurrMiA).natAbs : Int)
    · rw [if_pos hthr]
      exact iff_of_true h.count.retrigger_expires (.inl (.inr ⟨hnew, hs, hthr⟩))
    · have hdeviates : ¬ p.Deviates x.conf value := fun hd => hthr hd.2.2
      rw [if_neg hthr]
      simp only [List.not_mem_nil, false_and, exists_false, hdeviates, false_or]
  · obtain ⟨hstates, hstate⟩ := setCurrent_idle (x := x) h value hs
    have hasked :=
      notify_asked (x := x)
        (p := { p with charger := (p.charger.setCurrent x.nullRunning value).1 })
      (p.charger.setCurrent x.nullRunning value).2 h.count
    have hnone : ¬ ∃ s ∈ (p.charger.setCurrent x.nullRunning value).2, s.Reported := by
      rintro ⟨s, hmem, hreported⟩
      exact hstates s hmem hreported
    have hdeviates : ¬ p.Deviates x.conf value := fun hd => hs hd.2.1
    rw [or_iff_right hnone] at hasked
    rw [or_iff_right (not_or.2 ⟨hnone, hdeviates⟩)]
    simp only [exec, if_neg hnew, drive, onCurrentChanged, DataSetter.onCurrentChanged,
      notify_charger, ne_eq, hstate, not_false_eq_true, if_true]
    exact hasked

/-- What an operation does after its call leaves the countdown alone, unless it is about it. -/
theorem after_count {q : Port} (hquery : op ≠ .query) (hcurrent : ∀ value, op ≠ .current value)
    (hdata : op ≠ .data) : (op.after x p q).data.count = q.data.count := by
  cases op with
  | query | data => contradiction
  | current value => exact absurd rfl (hcurrent value)
  | voltage value =>
    simp only [Op.after]
    split <;> rfl
  | backupWrite =>
    simp only [Op.after, backupWrite]
    split <;> rfl
  | _ => rfl

/-- At its turn the flag of a port is cleared. -/
theorem dataTick_asked (h : p.Inv) : ¬ (p.dataTick x).1.Asked := by
  have hcount : (p.dataTick x).1.data.count = p.data.count.updateAndCheck.2 := by
    simp only [dataTick, emitPortData]
    split
    · split <;> rfl
    · rfl
  rw [Asked, hcount]
  exact h.count.updated

/-- **What an operation does to the flag.** It is set by what asks, and cleared at
the port's turn. -/
theorem exec_asked (h : p.Inv) : (p.exec x op).1.Asked ↔ Asks x p op ∨ p.Asked ∧ op ≠ .data := by
  by_cases hcurrent : ∃ value, op = .current value
  · obtain ⟨value, rfl⟩ := hcurrent
    simpa using exec_current_asked h value
  by_cases hdata : op = .data
  · subst hdata
    refine iff_of_false (dataTick_asked h) ?_
    simp [Asks, Op.call]
  by_cases hquery : op = .query
  · subst hquery
    exact iff_of_true h.count.retrigger_expires (.inl (.inl rfl))
  have hasked := notify_asked (x := x) (p := { op.before p with charger := (op.call x p).1 })
    (op.call x p).2 (by rw [before_data]; exact h.count)
  have hbefore : ({ op.before p with charger := (op.call x p).1 } : Port).Asked ↔ p.Asked := by
    rw [Asked, before_data]
    rfl
  rw [exec_eq, Asked, after_count hquery (fun value hop => hcurrent ⟨value, hop⟩) hdata]
  refine (hasked.trans (or_congr_right hbefore)).trans ?_
  have hasks : Asks x p op ↔ ∃ s ∈ (op.call x p).2, s.Reported := by
    refine ⟨?_, fun hs => .inr (.inl hs)⟩
    rintro (hop | hs | ⟨value, hop, -⟩)
    · exact absurd hop hquery
    · exact hs
    · exact absurd ⟨value, hop⟩ hcurrent
  rw [hasks, and_iff_left hdata]

/-- A port reports at its turn, if it was asked, and at no other operation. -/
theorem exec_reports (x : Ctx) (p : Port) (op : Op) :
    (reportsOf (p.exec x op).2 = [] ∨ ∃ d, reportsOf (p.exec x op).2 = [d]) ∧
      (reportsOf (p.exec x op).2 ≠ [] ↔ op = .data ∧ p.Asked) := by
  by_cases hdata : op = .data
  · subst hdata
    by_cases hasked : p.Asked
    · have hout : reportsOf (p.exec x .data).2 = [{ p with
          data := { p.data with count := p.data.count.updateAndCheck.2 } }.currentData x] := by
        simp only [exec, dataTick]
        rw [if_pos (show p.data.count.updateAndCheck.1 = true from hasked)]
        rfl
      rw [hout]
      exact ⟨.inr ⟨_, rfl⟩, by simp [hasked]⟩
    · have hout : reportsOf (p.exec x .data).2 = [] := by
        simp only [exec, dataTick]
        rw [if_neg (show ¬ p.data.count.updateAndCheck.1 = true from hasked)]
        rfl
      rw [hout]
      exact ⟨.inl rfl, by simp [hasked]⟩
  · have hout : reportsOf (p.exec x op).2 = [] := by
      rw [exec_eq]
      simp [emits_reports hdata]
    rw [hout]
    exact ⟨.inl rfl, by simp [hdata]⟩

end Port

/-! ## Events and runs -/

namespace Thing

variable {t : Thing} {j : InnerPort} {e : Event}

/-- The event is the turn of port `j` with the `DataSetter`. -/
def Turn (j : InnerPort) (t : Thing) (e : Event) : Prop := e = .dataTick ∧ t.dataPort = j

/-- The event asks port `j` for a report: a query, a state that begins or ends a session, or a
current that deviates. -/
def Asks (t : Thing) (j : InnerPort) (e : Event) : Prop :=
  e = .query ∨ (∃ s ∈ t.publishes j e, s.Reported) ∨
    ∃ value, e = .current j value ∧ (t.ports j).Deviates t.conf value

theorem opOn_query : e.opOn t j = some .query ↔ e = .query := by
  cases e <;> simp [Event.opOn]

/-- What an event does to the flag of port `j`, and what the port reports. -/
theorem step_asked (h : (t.ports j).Inv) (e : Event) :
    (((t.step e).1.ports j).Asked ↔ t.Asks j e ∨ (t.ports j).Asked ∧ ¬ Turn j t e) ∧
      (t.reports j e = [] ∨ ∃ d, t.reports j e = [d]) ∧
      (t.reports j e ≠ [] ↔ Turn j t e ∧ (t.ports j).Asked) := by
  obtain ⟨x, spec, bs, hx, hp, hout⟩ := t.step_local e j
  have hreports : t.reports j e = reportsOf ((t.ports j).execOpt x (e.opOn t j)).2 := by
    rw [reports, hout]
    simp
  have hpublishes : t.publishes j e = statesOf ((t.ports j).execOpt x (e.opOn t j)).2 := by
    rw [publishes, hout]
    simp
  have hasked : ((t.step e).1.ports j).Asked ↔ ((t.ports j).execOpt x (e.opOn t j)).1.Asked := by
    rw [hp]
    rfl
  rw [hasked, hreports, Asks, hpublishes, Turn, ← Event.opOn_data]
  cases hop : e.opOn t j with
  | none =>
    have hquery : e ≠ .query := fun he => by rw [opOn_query.2 he] at hop; cases hop
    have hcurrent (value : Int) : e ≠ .current j value := fun he => by
      rw [Event.opOn_current.2 he] at hop
      cases hop
    simp [Port.execOpt, hquery, hcurrent, statesOf, reportsOf]
  | some op =>
    have hasks : Port.Asks x (t.ports j) op ↔ e = .query ∨
        (∃ s ∈ statesOf ((t.ports j).exec x op).2, s.Reported) ∨
          ∃ value, e = .current j value ∧ (t.ports j).Deviates t.conf value := by
      rw [Port.Asks, (Port.exec_call x _ op).2, hx.conf, ← opOn_query (t := t) (j := j), hop,
        Option.some.injEq]
      simp only [← Event.opOn_current (t := t), hop, Option.some.injEq]
    simp only [Port.execOpt, Option.some.injEq]
    rw [← hasks]
    exact ⟨Port.exec_asked h, Port.exec_reports x _ op⟩

/-- Nobody has asked at boot. -/
theorem init_asked (b : Boot) (j : InnerPort) : ¬ (b.init.ports j).Asked := by
  have hfresh : ¬ (b.fresh j).Asked := Bool.false_ne_true
  obtain ⟨hinv, hrelay, -⟩ := b.charger_unset j
  have hstate := (hinv.unset hrelay).2
  simp only [Boot.init]
  split
  next => exact hfresh
  next s hs =>
    rw [Port.onStateChanged_asked ⟨rfl, le_rfl⟩]
    rintro (hreported | hasked)
    · rcases hstate with hnone | hidle
      · exact absurd (hs.symm.trans hnone) (Option.some_ne_none s)
      · rw [Option.some.inj (hs.symm.trans hidle)] at hreported
        rcases hreported with h | h <;> cases h
    · exact hfresh hasked

/-- A port that was asked reports as soon as it is its turn. -/
theorem asked_reported {es : List Event} (h : (t.ports j).Inv) (hasked : (t.ports j).Asked)
    (hn : t.turnsLeft j < es.count .dataTick) :
    ∃ q d, q <+: es ∧ q.count .dataTick = t.turnsLeft j + 1 ∧
    reportsOf (outputsOf j (machine.trace t q)) = [d] := by
  induction es generalizing t with
  | nil => simp at hn
  | cons e es ih =>
    obtain ⟨hasked', hcases, hreports⟩ := step_asked h e
    have htrace (q : List Event) : reportsOf (outputsOf j (machine.trace t (e :: q))) =
        t.reports j e ++ reportsOf (outputsOf j (machine.trace (t.step e).1 q)) := by
      simp [reports]
    by_cases hturn : Turn j t e
    · obtain ⟨rfl, hj⟩ := hturn
      rcases hcases with hnone | ⟨d, hd⟩
      · exact absurd hnone (hreports.2 ⟨⟨rfl, hj⟩, hasked⟩)
      · refine ⟨[.dataTick], d, ⟨es, rfl⟩, by simp [turnsLeft, hj], ?_⟩
        rw [htrace, hd]
        rfl
    · -- a tick for another port brings the turn of port `j` nearer
      have hnone : t.reports j e = [] := by
        by_contra hsome
        exact hturn (hreports.1 hsome).1
      have hleft : t.turnsLeft j = (t.step e).1.turnsLeft j + [e].count .dataTick := by
        unfold turnsLeft
        rw [step_dataPort]
        by_cases he : e = .dataTick
        · rw [if_pos he, sub_succ_val _ _ fun hj => hturn ⟨he, hj⟩, he, List.count_singleton_self]
        · rw [if_neg he, List.count_cons_of_ne he, List.count_nil, Nat.add_zero]
      have hcount (l : List Event) :
          (e :: l).count .dataTick = [e].count .dataTick + l.count .dataTick := by
        rw [← List.count_append]
        rfl
      obtain ⟨q, d, hq, hqn, hqd⟩ := ih (step_inv e h) (hasked'.2 (.inr ⟨hasked, hturn⟩)) (by
        have := hcount es
        omega)
      refine ⟨e :: q, d, List.cons_prefix_cons.2 ⟨rfl, hq⟩, ?_, ?_⟩
      · rw [hcount]
        omega
      · rw [htrace, hnone]
        exact hqd

/-- **A port reports exactly if it was asked.** After every run from boot, an event lets port `j`
report at most once, and it does exactly if it is the turn of the port and the port was asked for a
report since its last turn. Whatever asks the port in a run is answered by one report within ten
ticks of the `DataSetter`. -/
theorem reported_iff_asked (b : Boot) (es : List Event) (j : InnerPort) :
    (∀ e,
      ((machine.run b.init es).reports j e = [] ∨ ∃ d, (machine.run b.init es).reports j e = [d]) ∧
      ((machine.run b.init es).reports j e ≠ [] ↔
        Turn j (machine.run b.init es) e ∧ machine.Since (Asks · j) (Turn j) b.init es)) ∧
    ∀ pre a post, es = pre ++ a :: post → (machine.run b.init pre).Asks j a →
    10 ≤ post.count .dataTick →
      ∃ q d, q <+: post ∧ q.count .dataTick ≤ 10 ∧
        reportsOf (outputsOf j (machine.trace (machine.run b.init (pre ++ [a])) q)) = [d] := by
  have hsince := Machine.iff_since (M := machine) (I := fun t : Thing => (t.ports j).Inv)
    (P := fun t => (t.ports j).Asked) (A := (Asks · j)) (B := Turn j) (fun _ e => step_inv e)
    (fun t e h => (step_asked h e).1) (reachable_inv b [] j) (init_asked b j) es
  refine ⟨fun e => ?_, ?_⟩
  · obtain ⟨-, hcases, hreports⟩ := step_asked (reachable_inv b es j) e
    exact ⟨hcases, hreports.trans (and_congr_right fun _ => hsince)⟩
  · rintro pre a post - hasks hn
    have hlt := (machine.run b.init (pre ++ [a])).turnsLeft_lt j
    have hasked : ((machine.run b.init (pre ++ [a])).ports j).Asked := by
      rw [Machine.run_concat]
      exact (step_asked (reachable_inv b pre j) a).1.2 (.inl hasks)
    obtain ⟨q, d, hq, hqn, hqd⟩ :=
      asked_reported (reachable_inv b (pre ++ [a]) j) hasked (Nat.lt_of_lt_of_le hlt hn)
    exact ⟨q, d, hq, by omega, hqd⟩

/-- A query right after boot is answered. -/
theorem reported_iff_asked_query :
    ∃ q d, q <+: List.replicate 10 .dataTick ∧ q.count .dataTick ≤ 10 ∧
      reportsOf (outputsOf 3 (machine.trace (machine.run Boot.plain.init [.query]) q)) = [d] :=
  (reported_iff_asked .plain (.query :: List.replicate 10 .dataTick) 3).2 [] .query _ rfl
    (.inl rfl) (by simp)

end Thing

end ChargingPile
