import ChargingPile.Thing.Report

/-!
# Reports from memory that was never written

Nothing initialises `prevState`, `prevConsumption` and `finalState`, from which `DataSetter` makes
its reports. `Charging` assigns what is needed, and from then on every report of the port is made
of assigned values. A report before that carries a state that nobody has assigned. A `query` right
after the boot makes ten of them (`Thing.query_reports_uninitialised`), so the reports of a port
are initialised exactly if the first of them comes after its first `Charging`
(`Thing.reports_initialised_iff`).
-/

namespace ChargingPile

/-- The state and the consumption of the report were assigned before it was made. -/
def CurrentData.Initialised (d : CurrentData) : Prop :=
  d.state.assigned = true ∧ d.consumption.assigned = true

namespace Port

variable {x : Ctx} {p : Port} {op : Op}

/-- Everything the next report reads is assigned. -/
structure Assigned (p : Port) : Prop where
  prevState : p.data.prevState.assigned = true
  finalState : p.info.finalState.assigned = true
  prevConsumption : p.FinalPending → p.data.prevConsumption.assigned = true

/-- A port that has not been `Charging` yet: the state of the next report is not assigned. -/
structure Unassigned (p : Port) : Prop where
  relay : p.charger.relay ≠ some .on
  limiter : p.limiter.counting = false
  finalState : p.info.finalState.assigned = false
  prevState : p.data.prevState.assigned = true → p.FinalPending

/-! ## The decorators -/

/-- `Charging` assigns everything, and no state unassigns anything. -/
theorem onStateChanged_assigned {s : State} (h : p.Assigned ∨ s = .charging) :
    (p.onStateChanged x s).Assigned := by
  obtain ⟨port, conf, tick, first, nr⟩ := x
  cases s with
  | charging =>
    refine ⟨rfl, by cases first <;> rfl, ?_⟩
    intro hpend
    cases hpend
  | loadWaitRemove =>
    obtain h | h := h
    · exact ⟨rfl, h.finalState, fun _ => rfl⟩
    · cases h
  | loadNotInsert | loadInserted | error =>
    obtain h | h := h
    · exact ⟨h.prevState, h.finalState, h.prevConsumption⟩
    · cases h

theorem notify_assigned {l : List State} (h : p.Assigned ∨ .charging ∈ l) :
    (notify x l p).Assigned := by
  induction l generalizing x p with
  | nil => exact h.resolve_right List.not_mem_nil
  | cons s l ih =>
    refine ih ?_
    rcases h with h | h
    · exact .inl (onStateChanged_assigned (.inl h))
    · rcases List.mem_cons.1 h with h | h
      · exact .inl (onStateChanged_assigned (.inr h.symm))
      · exact .inr h

/-- The states other than `Charging` leave the final state alone, and make a final report due if
they assign `prevState`. -/
theorem notify_unassigned {l : List State} (hl : .charging ∉ l)
    (hf : p.info.finalState.assigned = false)
    (hp : p.data.prevState.assigned = true → p.FinalPending) :
    (notify x l p).info.finalState.assigned = false ∧
      ((notify x l p).data.prevState.assigned = true → (notify x l p).FinalPending) := by
  induction l generalizing x p with
  | nil => exact ⟨hf, hp⟩
  | cons s l ih =>
    refine ih (fun h => hl (.tail _ h)) ?_ ?_
    · cases s with
      | charging => exact absurd (.head _) hl
      | loadNotInsert | loadInserted | loadWaitRemove | error => exact hf
    · cases s with
      | charging => exact absurd (.head _) hl
      | loadWaitRemove => exact fun _ => rfl
      | loadNotInsert | loadInserted | error => exact hp

/-! ## Operations -/

/-- A report is emitted at the port's turn only, and from what the port holds then. Otherwise the
operation changes the record by its call alone. -/
theorem exec_record (x : Ctx) (p : Port) (op : Op) :
    reportsOf (p.exec x op).2 = [] ∧
        SameRecord ((op.before p).drive x (op.call x p)).1 (p.exec x op).1 ∨
      op = .data ∧ (p.exec x op).2 = [.currentData (p.currentData x)] := by
  by_cases hop : op = .data
  · subst hop
    cases hexp : p.data.count.updateAndCheck.1 with
    | true =>
      refine .inr ⟨rfl, ?_⟩
      simp only [exec, dataTick, hexp, if_true]
      rfl
    | false =>
      refine .inl ?_
      simp only [exec, dataTick, hexp]
      exact ⟨rfl, rfl, rfl, rfl⟩
  · refine .inl ⟨?_, ?_⟩
    · rw [exec_eq, reportsOf_append, reportsOf_map_state, emits_reports hop]
      rfl
    · rw [exec_eq]
      exact after_record hop

theorem Assigned.initialised (h : p.Assigned) (x : Ctx) : (p.currentData x).Initialised := by
  by_cases hp : p.FinalPending
  · simp only [CurrentData.Initialised, currentData, if_pos hp]
    exact ⟨h.finalState, h.prevConsumption hp⟩
  · simp only [CurrentData.Initialised, currentData, if_neg hp]
    exact ⟨h.prevState, rfl⟩

theorem Unassigned.not_initialised (h : p.Unassigned) (x : Ctx) :
    ¬ (p.currentData x).Initialised := by
  rintro ⟨hs, -⟩
  by_cases hp : p.FinalPending
  · simp only [currentData, if_pos hp, h.finalState] at hs
    cases hs
  · simp only [currentData, if_neg hp] at hs
    exact hp (h.prevState hs)

/-- The assignments before a call unassign nothing. -/
theorem Assigned.before (h : p.Assigned) (op : Op) : (op.before p).Assigned := by
  obtain ⟨hs, hf, hc⟩ := h
  cases op with
  | counter | limiter | noload | resume =>
    refine ⟨hs, ?_, hc⟩
    simp only [Op.before]
    split
    · first | rfl | exact hf
    · exact hf
  | _ => exact ⟨hs, hf, hc⟩

theorem Assigned.congr {q : Port} (h : p.Assigned) (hr : SameRecord p q) : q.Assigned := by
  refine ⟨hr.prevState ▸ h.prevState, hr.finalState ▸ h.finalState, ?_⟩
  rw [FinalPending, hr.prevState, hr.prevConsumption]
  exact h.prevConsumption

/-- An operation on a port that holds only assigned values, or one that publishes `Charging`. -/
theorem exec_assigned (h : p.Assigned ∨ .charging ∈ (op.call x p).2) :
    (p.exec x op).1.Assigned := by
  have hd : ((op.before p).drive x (op.call x p)).1.Assigned := by
    refine notify_assigned (h.imp_left fun h => ?_)
    exact (h.before op).congr ⟨rfl, rfl, rfl⟩
  rw [exec_eq]
  generalize ((op.before p).drive x (op.call x p)).1 = q at hd
  by_cases hop : op = .data
  · subst hop
    simp only [Op.after, dataTick, emitPortData]
    split
    · split
      · refine ⟨rfl, rfl, ?_⟩
        intro hpend
        cases hpend
      · exact hd.congr ⟨rfl, rfl, rfl⟩
    · exact hd.congr ⟨rfl, rfl, rfl⟩
  · exact hd.congr (after_record hop)

/-- Without `Charging`, an operation on a port that has not been `Charging` keeps it so, or emits a
report of values that nobody has assigned. -/
theorem exec_unassigned (h : p.Inv) (hu : p.Unassigned) (hc : .charging ∉ (op.call x p).2) :
    reportsOf (p.exec x op).2 = [] ∧ (p.exec x op).1.Unassigned ∨
      op = .data ∧ (p.exec x op).2 = [.currentData (p.currentData x)] := by
  refine (exec_record x p op).imp_left ?_
  rintro ⟨hrep, hrec⟩
  refine ⟨hrep, ?_⟩
  have hns : p.charger.state ≠ some .charging := fun hs => hu.relay (h.charger.charging_iff.1 hs)
  have hlim : p.limiter.updateAndCheck.1 = false := by
    rw [← Bool.not_eq_true, CountDown.updateAndCheck_fst, hu.limiter]
    nofun
  have hrelay : (op.call x p).1.relay ≠ some .on := by
    rcases op.call_cases h.charger x with ⟨-, hr⟩ | ⟨-, hr⟩ | ⟨i, u, -, hr⟩
    · -- a `start` would publish `Charging`
      rw [hr, Charger.start_spec h.charger hu.relay] at hc
      split at hc <;> simp at hc
    · rw [hr, stop_relay h.charger]
      nofun
    · rw [hr.relay]
      exact hu.relay
  have hbefore : (op.before p).info.finalState = p.info.finalState := by
    cases op with
    | limiter => simp [Op.before, hlim]
    | noload => simp [Op.before, hns]
    | counter => simp [Op.before, hns]
    | resume => simp only [Op.before]; split <;> rfl
    | _ => rfl
  have hq : ((op.before p).drive x (op.call x p)).1.info.finalState.assigned = false ∧
      (((op.before p).drive x (op.call x p)).1.data.prevState.assigned = true →
        ((op.before p).drive x (op.call x p)).1.FinalPending) := by
    refine notify_unassigned hc ?_ ?_
    · rw [hbefore]
      exact hu.finalState
    · rw [FinalPending, before_data]
      exact hu.prevState
  refine ⟨?_, ?_, ?_, ?_⟩
  · rw [(exec_call x p op).1]
    exact hrelay
  · rw [exec_limiter]
    by_contra hcount
    have hs := limiterAfter_counting (Bool.eq_true_of_not_eq_false hcount) hu.limiter
    exact hrelay ((call_inv h.charger op).charging_iff.1 hs)
  · rw [hrec.finalState]
    exact hq.1
  · rw [FinalPending, hrec.prevState]
    exact hq.2

theorem Unassigned.congr {spec : Backuper} (h : p.Unassigned) :
    ({ p with backuper := spec } : Port).Unassigned :=
  ⟨h.relay, h.limiter, h.finalState, h.prevState⟩

end Port

/-! ## Runs -/

/-- Every report in the list comes after a `Charging`. -/
def AfterCharging (l : List Output) : Prop :=
  ∀ pre d post, l = pre ++ .currentData d :: post → .state .charging ∈ pre

section
variable {l m : List Output}

theorem mem_reportsOf {d : CurrentData} : d ∈ reportsOf l ↔ .currentData d ∈ l := by
  induction l with
  | nil => simp
  | cons o l ih => cases o <;> simp_all [reportsOf]

theorem mem_statesOf {s : State} : s ∈ statesOf l ↔ .state s ∈ l := by
  induction l with
  | nil => simp
  | cons o l ih => cases o <;> simp_all [statesOf]

theorem AfterCharging.of_quiet (h : reportsOf l = []) : AfterCharging l := by
  intro pre d post hl
  have hd : d ∈ reportsOf l := mem_reportsOf.2 (by simp [hl])
  rw [h] at hd
  exact absurd hd List.not_mem_nil

theorem AfterCharging.left (h : AfterCharging (l ++ m)) : AfterCharging l := by
  intro pre d post hl
  exact h pre d (post ++ m) (by simp [hl])

theorem AfterCharging.append (h : AfterCharging l) (hm : .state .charging ∈ l ∨ reportsOf m = []) :
    AfterCharging (l ++ m) := by
  intro pre d post hl
  rcases List.append_eq_append_iff.1 hl with ⟨c, rfl, hc⟩ | ⟨c, rfl, hc⟩
  · -- the report is one of `m`
    rcases hm with hm | hm
    · exact List.mem_append_left _ hm
    · exact List.mem_append_right _ (AfterCharging.of_quiet hm c d post hc)
  · cases c with
    | nil =>
      rw [List.nil_append] at hc
      rcases hm with hm | hm
      · simpa using hm
      · exact absurd (AfterCharging.of_quiet hm [] d post hc.symm) List.not_mem_nil
    | cons o c =>
      obtain ⟨rfl, -⟩ := List.cons.inj hc
      exact h pre d c rfl

end

/-- How far a port is, after the outputs `l`: it was not `Charging` and has reported nothing, it
was and its reports are fine, or it has reported too early. -/
inductive Phase (l : List Output) (p : Port) : Prop
  | before (hc : .state .charging ∉ l) (hr : reportsOf l = []) (h : p.Unassigned)
  | charged (hc : .state .charging ∈ l) (ha : AfterCharging l)
      (hr : ∀ d ∈ reportsOf l, d.Initialised) (h : p.Assigned)
  | early (ha : ¬ AfterCharging l) (hr : ∃ d ∈ reportsOf l, ¬ d.Initialised)

namespace Phase

variable {l m : List Output} {p q : Port}

/-- A port that has reported too early has done so for ever. -/
theorem early_append (ha : ¬ AfterCharging l) (hr : ∃ d ∈ reportsOf l, ¬ d.Initialised) :
    Phase (l ++ m) q := by
  obtain ⟨d, hd, hi⟩ := hr
  refine .early (fun h => ha h.left) ⟨d, ?_, hi⟩
  rw [reportsOf_append]
  exact List.mem_append_left _ hd

/-- Outputs without a report. -/
theorem quiet (h : Phase l p) (hm : reportsOf m = [])
    (hu : p.Unassigned → .state .charging ∉ m → q.Unassigned)
    (ha : p.Assigned ∨ .state .charging ∈ m → q.Assigned) : Phase (l ++ m) q := by
  have hreports : reportsOf (l ++ m) = reportsOf l := by rw [reportsOf_append, hm, List.append_nil]
  rcases h with ⟨hc, hr, h⟩ | ⟨hc, hac, hr, h⟩ | ⟨hac, hr⟩
  · by_cases hcm : .state .charging ∈ m
    · refine .charged (List.mem_append_right _ hcm) (.of_quiet (hreports.trans hr)) ?_
        (ha (.inr hcm))
      rw [hreports, hr]
      exact fun d hd => absurd hd List.not_mem_nil
    · refine .before ?_ (hreports.trans hr) (hu h hcm)
      rw [List.mem_append, not_or]
      exact ⟨hc, hcm⟩
  · refine .charged (List.mem_append_left _ hc) (hac.append (.inl hc)) ?_ (ha (.inl h))
    rw [hreports]
    exact hr
  · exact early_append hac hr

/-- A report. -/
theorem report (h : Phase l p) {x : Ctx} (hq : p.Assigned → q.Assigned) :
    Phase (l ++ [Output.currentData (p.currentData x)]) q := by
  rcases h with ⟨hc, hr, h⟩ | ⟨hc, hac, hr, h⟩ | ⟨hac, hr⟩
  · refine .early ?_ ⟨p.currentData x, mem_reportsOf.2 (by simp), h.not_initialised x⟩
    intro hac
    exact hc (hac l _ [] rfl)
  · refine .charged (List.mem_append_left _ hc) (hac.append (.inl hc)) ?_ (hq h)
    intro d hd
    rw [reportsOf_append] at hd
    rcases List.mem_append.1 hd with hd | hd
    · exact hr d hd
    · rw [List.mem_singleton.1 hd]
      exact h.initialised x
  · exact early_append hac hr

end Phase

namespace Thing

variable {t : Thing} {j : InnerPort}

theorem step_phase {l : List Output} (e : Event) (h : (t.ports j).Inv)
    (hp : Phase l (t.ports j)) :
    Phase (l ++ outputsOf j (t.step e).2) ((t.step e).1.ports j) := by
  obtain ⟨x, spec, bs, -, hport, hout⟩ := t.step_local e j
  rw [hport, hout, ← List.append_assoc]
  -- the records that are written to the backup partition are no reports
  suffices hop : Phase (l ++ ((t.ports j).execOpt x (e.opOn t j)).2)
      ((t.ports j).execOpt x (e.opOn t j)).1 by
    refine hop.quiet (reportsOf_map_backup bs) (fun hu _ => hu.congr) ?_
    rintro (ha | hc)
    · exact ha.congr ⟨rfl, rfl, rfl⟩
    · simp at hc
  cases e.opOn t j with
  | none => simpa [Port.execOpt] using hp
  | some op =>
    have hstates : .state .charging ∈ ((t.ports j).exec x op).2 ↔
        .charging ∈ (op.call x (t.ports j)).2 := by
      rw [← mem_statesOf, (Port.exec_call x _ op).2]
    simp only [Port.execOpt]
    rcases Port.exec_record x (t.ports j) op with ⟨hr, -⟩ | ⟨hop, hr⟩
    · refine hp.quiet hr ?_ ?_
      · intro hu hc
        rw [hstates] at hc
        rcases Port.exec_unassigned h hu hc with ⟨-, hu'⟩ | ⟨-, hr'⟩
        · exact hu'
        · rw [hr'] at hr
          cases hr
      · rw [hstates]
        exact Port.exec_assigned
    · rw [hr]
      exact hp.report fun ha => Port.exec_assigned (.inl ha)

/-- A port after the boot. -/
theorem init_unassigned (b : Boot) (j : InnerPort) : (b.init.ports j).Unassigned := by
  have hrelay := (b.charger_unset j).2.1
  have hf : (b.fresh j).Unassigned := by
    refine ⟨?_, rfl, rfl, nofun⟩
    rw [Boot.fresh, hrelay]
    nofun
  simp only [Boot.init]
  split
  · exact hf
  · rename_i s hs
    -- the only state a port can have by then changes nothing
    rcases ((b.charger_unset j).1.unset hrelay).2 with hn | hn
    · exact absurd (hs.symm.trans hn) (by simp)
    · obtain rfl : s = .loadNotInsert := Option.some.inj (hs.symm.trans hn)
      exact ⟨hf.relay, hf.limiter, hf.finalState, hf.prevState⟩

theorem reachable_phase (b : Boot) (es : List Event) (j : InnerPort) :
    Phase (outputsOf j (machine.trace b.init es)) ((machine.run b.init es).ports j) := by
  induction es using List.reverseRecOn with
  | nil => exact .before List.not_mem_nil rfl (init_unassigned b j)
  | append_singleton es e ih =>
    rw [Machine.run_concat, Machine.trace_concat, outputsOf_append]
    exact step_phase e (reachable_inv b es j) ih

/-- **Which reports are initialised.** In every run from boot, the reports of a port carry a state
and a consumption that were assigned before exactly if all of them come after the port was
`Charging`. -/
theorem reports_initialised_iff (b : Boot) (es : List Event) (j : InnerPort) :
    (∀ d ∈ reportsOf (outputsOf j (machine.trace b.init es)), d.Initialised) ↔
      AfterCharging (outputsOf j (machine.trace b.init es)) := by
  rcases reachable_phase b es j with ⟨hc, hr, -⟩ | ⟨-, hac, hr, -⟩ | ⟨hac, d, hd, hi⟩
  · refine ⟨fun _ => .of_quiet hr, fun _ => ?_⟩
    rw [hr]
    exact fun d hd => absurd hd List.not_mem_nil
  · exact ⟨fun _ => hac, fun _ => hr⟩
  · exact ⟨fun h => absurd (h d hd) hi, fun h => absurd h hac⟩

/-- A `query` after the boot, and the port of the first turn reports a state that nobody has
assigned. -/
theorem query_reports_uninitialised :
    (reportsOf (outputsOf 0 (machine.trace Boot.plain.init [.query, .dataTick]))).map
      (·.state.assigned) = [false] := by
  decide +kernel

end Thing

end ChargingPile
