import Mathlib.Data.List.Infix
import ChargingPile.Thing.Published

/-!
# Over-current protection

`CurrentLimiter` loads a countdown of ten ticks per port. A report above `currentLimit` starts it,
a report at or below the limit or outside `Charging` stops and reloads it, and its expiry opens the
relay. Nothing else touches it: it outlives the session it was started in, and an expiry leaves it
at zero, where `trigger` does not reload it.

`limiter_trips` is the completeness of the protection, in runs in which no report above the limit
finds the countdown of a charging port at zero. `limiter_sound` is its soundness, in runs in which
nothing but the limiter itself opens the relay of a port whose countdown is under way.
-/

namespace ChargingPile

namespace Thing

variable {t : Thing} {j : InnerPort} {e : Event}

/-! ## One event at the limiter -/

/-- What an event can do to the limiter of port `j`, to the last reported current and, where it
concerns the limiter, to the relay. -/
inductive LimiterMove (t : Thing) (j : InnerPort) (e : Event) : Prop
  | tick (he : e = .limiterTick)
      (hl : ((t.step e).1.ports j).limiter = (t.ports j).limiter.updateAndCheck.2)
      (hc : ((t.step e).1.ports j).charger.current = (t.ports j).charger.current)
      (hr : ((t.step e).1.ports j).charger.relay =
        if (t.ports j).limiter.updateAndCheck.1 then some .off else (t.ports j).charger.relay)
  | report (value : Int) (he : e = .current j value)
      (hnew : (t.ports j).charger.current ≠ some value)
      (hl : ((t.step e).1.ports j).limiter =
        if (t.ports j).charger.relay = some .on ∧ value > t.conf.currentLimit then
          (t.ports j).limiter.trigger
        else (t.ports j).limiter.reset)
      (hc : ((t.step e).1.ports j).charger.current = some value)
      (hr : ((t.step e).1.ports j).charger.relay = (t.ports j).charger.relay)
  | other (he : e ≠ .limiterTick)
      (hold : ∀ value, e = .current j value → (t.ports j).charger.current = some value)
      (hl : ((t.step e).1.ports j).limiter = (t.ports j).limiter)
      (hc : ((t.step e).1.ports j).charger.current = (t.ports j).charger.current)

/-- The fields of the port that the limiter depends on are those after the operation. -/
theorem step_exec (t : Thing) (e : Event) (j : InnerPort) :
    ∃ x : Ctx, x.At t j ∧
      ((t.step e).1.ports j).charger = ((t.ports j).execOpt x (e.opOn t j)).1.charger ∧
      ((t.step e).1.ports j).limiter = ((t.ports j).execOpt x (e.opOn t j)).1.limiter := by
  obtain ⟨x, spec, bs, hx, hp, -⟩ := t.step_local e j
  exact ⟨x, hx, by rw [hp], by rw [hp]⟩

/-- A report starts the countdown of a charging port if it is above the limit, and reloads it
otherwise. -/
theorem limiterAfter_report {p : Port} (hc : p.charger.Inv) (x : Ctx) {value : Int}
    (hnew : p.charger.current ≠ some value) :
    (Op.current value).limiterAfter x p =
      if p.charger.relay = some .on ∧ value > x.conf.currentLimit then p.limiter.trigger
      else p.limiter.reset := by
  have hs : (p.charger.setCurrent x.nullRunning value).1.state = some .charging ↔
      p.charger.relay = some .on := by
    have hq : Charger.Quiet _ (p.charger.setCurrent x.nullRunning value) :=
      Charger.setCurrent_quiet hc hnew
    rw [(Charger.setCurrent_inv hc).charging_iff, hq.relay]
  rw [Op.limiterAfter, if_neg hnew, CurrentLimiter.onCurrentChanged]
  by_cases hon : p.charger.relay = some .on
  · rw [if_neg (not_not.2 (hs.2 hon))]
    simp [hon]
  · rw [if_pos (fun hst => hon (hs.1 hst)), if_neg (fun ha => hon ha.1)]

theorem step_limiterMove (h : (t.ports j).Inv) (e : Event) : t.LimiterMove j e := by
  obtain ⟨x, hx, hc, hl⟩ := t.step_exec e j
  cases hop : e.opOn t j with
  | none =>
    rw [hop] at hc hl
    refine .other ?_ ?_ hl (by rw [hc]; rfl)
    · intro he
      rw [Event.opOn_limiter.2 he] at hop
      cases hop
    · intro value he
      rw [Event.opOn_current.2 he] at hop
      cases hop
  | some op =>
    rw [hop] at hc hl
    have hc' : ((t.step e).1.ports j).charger = (op.call x (t.ports j)).1 :=
      hc.trans (Port.exec_call x _ op).1
    have hl' : ((t.step e).1.ports j).limiter = op.limiterAfter x (t.ports j) :=
      hl.trans (Port.exec_limiter x _ op)
    by_cases htick : op = .limiter
    · subst htick
      refine .tick (Event.opOn_limiter.1 hop) hl' ?_ ?_
      · rw [hc']; exact Port.call_current h.charger x (by simp)
      · rw [hc', Op.call]
        split
        · by_cases hoff : (t.ports j).charger.relay = some .off
          · rw [Charger.stop_off hoff]; exact hoff
          · rw [Charger.stop_spec h.charger hoff]
        · rfl
    have hne : e ≠ .limiterTick := by
      intro he
      rw [Event.opOn_limiter.2 he] at hop
      exact htick (Option.some.inj hop).symm
    by_cases hcur : ∃ value, op = .current value
    · obtain ⟨value, rfl⟩ := hcur
      by_cases hnew : (t.ports j).charger.current = some value
      · refine .other hne ?_ ?_ ?_
        · intro w he
          rw [Event.opOn_current.2 he] at hop
          cases hop
          exact hnew
        · rw [hl', Op.limiterAfter, if_pos hnew]
        · rw [hc', Op.call, Charger.setCurrent, if_pos hnew]
      · have hq : Charger.Quiet _ (Op.call x (t.ports j) (.current value)) :=
          Charger.setCurrent_quiet h.charger hnew
        refine .report value (Event.opOn_current.1 hop) hnew ?_ ?_ ?_
        · rw [hl', limiterAfter_report h.charger x hnew, hx.conf]
        · rw [hc']; exact hq.current
        · rw [hc']; exact hq.relay
    · have hcur' : ∀ value, op ≠ .current value := fun value hv => hcur ⟨value, hv⟩
      refine .other hne ?_ ?_ ?_
      · intro value he
        rw [Event.opOn_current.2 he] at hop
        exact absurd (Option.some.inj hop).symm (hcur' value)
      · rw [hl']
        cases op with
        | current value => exact absurd rfl (hcur' value)
        | limiter => exact absurd rfl htick
        | _ => rfl
      · rw [hc']; exact Port.call_current h.charger x hcur'

/-! ## Completeness -/

/-- A report above the limit that reaches port `j` while it is charging does not find the limiter's
countdown at zero. -/
def LimiterLoaded (j : InnerPort) (t : Thing) (e : Event) : Prop :=
  ∀ value, e = .current j value → (t.ports j).charger.current ≠ some value →
    value > t.conf.currentLimit → (t.ports j).charger.state = some .charging →
    (t.ports j).limiter.currVal ≠ 0

/-- A countdown that runs expires within as many ticks as it has left, unless the session ends
before, if all reports of the session are above the limit. -/
theorem armed_trips {post : List Event} (h : (t.ports j).Inv)
    (hon : (t.ports j).charger.relay = some .on) (harm : (t.ports j).limiter.Armed)
    (hticks : (t.ports j).limiter.currVal ≤ post.count .limiterTick)
    (hconf : ∀ conf, .config conf ∉ post)
    (hlater : ∀ q value r, post = q ++ Event.current j value :: r →
      (∀ q', q' <+: q → ((machine.run t q').ports j).charger.relay = some .on) →
      value > t.conf.currentLimit) :
    ∃ q, q <+: post ∧ ((machine.run t q).ports j).charger.relay = some .off := by
  induction post generalizing t with
  | nil =>
    have := harm.2
    simp only [List.count_nil] at hticks
    omega
  | cons e post ih =>
    have h' : ((t.step e).1.ports j).Inv := step_inv e h
    by_cases hoff : ((t.step e).1.ports j).charger.relay = some .off
    · exact ⟨[e], ⟨post, rfl⟩, hoff⟩
    have hon' : ((t.step e).1.ports j).charger.relay = some .on := by
      rcases step_shift h e with ⟨-, hr', -, -⟩ | ⟨-, hr', -⟩ | ⟨hr', -, -⟩
      · exact hr'
      · exact absurd hr' hoff
      · rw [hr', hon]
    have hconf' : (t.step e).1.conf = t.conf :=
      t.step_conf fun conf he => hconf conf (he ▸ List.mem_cons_self)
    -- the rest of the run starts with a countdown that runs and has enough ticks ahead
    have hrest : ((t.step e).1.ports j).limiter.Armed ∧
        ((t.step e).1.ports j).limiter.currVal ≤ post.count .limiterTick := by
      rcases step_limiterMove h e with ⟨rfl, hl, -, hr⟩ | ⟨value, rfl, -, hl, -, -⟩ |
        ⟨he, -, hl, -⟩
      · have hne : (t.ports j).limiter.currVal ≠ 1 := by
          intro h1
          rw [if_pos ((CountDown.updateAndCheck_fst _).2 ⟨harm.1, h1⟩)] at hr
          exact hoff hr
        have h0 := harm.2
        rw [List.count_cons_self] at hticks
        rw [hl, CountDown.Armed, CountDown.updateAndCheck_counting,
          CountDown.updateAndCheck_currVal, harm.1]
        simp only [if_true, true_and]
        omega
      · have hv : value > t.conf.currentLimit := by
          refine hlater [] value post rfl ?_
          intro q' hq'
          rw [List.prefix_nil.1 hq']
          exact hon
        rw [List.count_cons_of_ne (by simp)] at hticks
        rw [hl, if_pos ⟨hon, hv⟩]
        exact ⟨⟨rfl, harm.2⟩, hticks⟩
      · rw [List.count_cons_of_ne he] at hticks
        rw [hl]
        exact ⟨harm, hticks⟩
    obtain ⟨q, hq, hqoff⟩ := ih h' hon' hrest.1 hrest.2
      (fun conf hmem => hconf conf (.tail _ hmem)) (by
        intro q value r hpost hq
        rw [hconf']
        refine hlater (e :: q) value r (by rw [hpost]; rfl) ?_
        intro q' hq'
        rcases List.prefix_cons_iff.1 hq' with rfl | ⟨q'', rfl, hq''⟩
        · exact hon
        · exact hq q'' hq'')
    exact ⟨e :: q, List.cons_prefix_cons.2 ⟨rfl, hq⟩, hqoff⟩

/-- **The protection is complete.** A charging port gets a report above the limit and no report at
or below the limit in the rest of the session. Then its relay is open at the latest after the tenth
tick of the limiter, or the session has ended before, in every run in which such reports find the
limiter's countdown above zero. -/
theorem limiter_trips (b : Boot) (j : InnerPort) (pre post : List Event) (value : Int)
    (hrun : machine.Along (LimiterLoaded j) b.init (pre ++ .current j value :: post))
    (hstate : ((machine.run b.init pre).ports j).charger.state = some .charging)
    (hnew : ((machine.run b.init pre).ports j).charger.current ≠ some value)
    (hvalue : value > (machine.run b.init pre).conf.currentLimit)
    (hconf : ∀ conf, .config conf ∉ post)
    (hlater : ∀ q w r, post = q ++ .current j w :: r →
      (∀ q', q' <+: q →
        ((machine.run b.init (pre ++ .current j value :: q')).ports j).charger.state =
          some .charging) →
      w > (machine.run b.init pre).conf.currentLimit)
    (hticks : 10 ≤ post.count .limiterTick) :
    ∃ q, q <+: post ∧
      ((machine.run b.init (pre ++ .current j value :: q)).ports j).charger.relay = some .off := by
  have hinv := reachable_inv b pre j
  have hon := hinv.charger.charging_iff.1 hstate
  have hload := hrun.here value rfl hnew hvalue hstate
  simp only [Machine.run_append, Machine.run_cons, machine_step] at hlater ⊢
  generalize machine.run b.init pre = t at *
  have hinv' : ((t.step (.current j value)).1.ports j).Inv := step_inv _ hinv
  have hconf' : (t.step (.current j value)).1.conf = t.conf := t.step_conf (by simp)
  rcases step_limiterMove hinv (.current j value) with ⟨he, -⟩ | ⟨w, he, -, hl, -, hr⟩ |
    ⟨-, hold, -⟩
  · cases he
  · cases he
    rw [if_pos ⟨hon, hvalue⟩] at hl
    refine armed_trips hinv' (hr.trans hon) ?_ ?_ hconf ?_
    · rw [hl]; exact ⟨rfl, hload⟩
    · have := hinv'.limiter.le
      omega
    · intro q w r hpost hq
      rw [hconf']
      refine hlater q w r hpost ?_
      intro q' hq'
      exact (run_inv hinv' q').charger.charging_iff.2 (hq q' hq')
  · exact absurd (hold value rfl) hnew

/-- A port is started, gets a report above the limit and is stopped by the tenth tick. -/
theorem limiter_trips_first :
    ∃ q, q <+: List.replicate 10 .limiterTick ∧
      ((machine.run Boot.plain.init ([.control 0 1 60] ++ .current 0 5000 :: q)).ports
        0).charger.relay = some .off := by
  refine limiter_trips .plain 0 [.control 0 1 60] (List.replicate 10 .limiterTick) 5000 ?_
    (by decide +kernel) (by decide +kernel) (by decide +kernel) ?_ ?_ (by decide)
  · refine ⟨nofun, ?_, Machine.along_of_mem ?_⟩
    · intro value _ _ _ _
      decide +kernel
    · intro e he t value h
      rw [List.eq_of_mem_replicate he] at h
      cases h
  · intro conf h
    cases List.eq_of_mem_replicate h
  · intro q w r h
    have hmem : Event.current 0 w ∈ List.replicate 10 Event.limiterTick := by simp [h]
    cases List.eq_of_mem_replicate hmem

/-- A port that tripped and is started again is not stopped by the limiter: the countdown is at
zero, and no report above the limit loads it. -/
theorem limiter_blind_after_trip :
    let pre := [.control 0 1 60, .current 0 5000] ++ List.replicate 10 .limiterTick ++
      [.control 0 1 60]
    ((machine.run Boot.plain.init pre).ports 0).charger.state = some .charging ∧
    ((machine.run Boot.plain.init pre).ports 0).charger.current ≠ some 5001 ∧
    5001 > (machine.run Boot.plain.init pre).conf.currentLimit ∧
    ∀ q, q <+: List.replicate 10 .limiterTick →
      ((machine.run Boot.plain.init (pre ++ .current 0 5001 :: q)).ports 0).charger.relay =
        some .on := by
  refine ⟨by decide +kernel, by decide +kernel, by decide +kernel, ?_⟩
  intro q hq
  rw [← List.mem_inits] at hq
  revert q
  decide +kernel

/-! ## Soundness -/

end Thing

namespace Port

variable {x : Ctx} {p : Port}

/-- A published state sets `finalState` to `LoadWaitRemove` or leaves it alone. -/
theorem notify_finalState (l : List State) (p : Port)
    (h : (notify x l p).info.finalState.val = some .error) :
    p.info.finalState.val = some .error := by
  induction l generalizing x p with
  | nil => exact h
  | cons s l ih =>
    have h' := ih _ h
    cases s with
    | charging =>
      simp only [onStateChanged, DataSetter.onStateChanged, ConsumptionMeasurer.onStateChanged]
        at h'
      split at h' <;> cases h'
    | loadNotInsert | loadInserted | loadWaitRemove | error => exact h'

/-- Only an expiry of the limiter's countdown sets `finalState` to `Error`. -/
theorem exec_error {op : Op} (h : (p.exec x op).1.info.finalState.val = some .error) :
    p.info.finalState.val = some .error ∨ op = .limiter ∧ p.limiter.updateAndCheck.1 = true := by
  have hafter : ((op.before p).drive x (op.call x p)).1.info.finalState.val = some .error := by
    rw [exec_eq] at h
    cases op with
    | current value =>
      simp only [Op.after, onCurrentChanged, ConsumptionMeasurer.update] at h
      split at h
      · exact h
      · dsimp only at h
        split at h <;> exact h
    | voltage value =>
      simp only [Op.after, measure, ConsumptionMeasurer.update] at h
      split at h
      · exact h
      · dsimp only at h
        split at h <;> exact h
    | backupWrite =>
      simp only [Op.after, backupWrite] at h
      split at h <;> exact h
    | data =>
      simp only [Op.after, dataTick, emitPortData] at h
      split at h
      · split at h
        · cases h
        · exact h
      · exact h
    | measure =>
      simp only [Op.after, measure, ConsumptionMeasurer.update] at h
      split at h <;> exact h
    | _ => exact h
  have hbefore : (op.before p).info.finalState.val = some .error :=
    notify_finalState (op.call x p).2 { op.before p with charger := (op.call x p).1 } hafter
  cases op with
  | counter => simp only [Op.before] at hbefore; split at hbefore <;> exact .inl hbefore
  | limiter =>
    simp only [Op.before] at hbefore
    split at hbefore
    · rename_i hexp
      exact .inr ⟨rfl, hexp⟩
    · exact .inl hbefore
  | noload =>
    simp only [Op.before] at hbefore
    split at hbefore
    · cases hbefore
    · exact .inl hbefore
  | resume backup => simp only [Op.before] at hbefore; split at hbefore <;> exact .inl hbefore
  | _ => exact .inl hbefore

/-- Only an expiry of the limiter's countdown emits `onCurrentLimit`. -/
theorem exec_currentLimit {op : Op} (h : .currentLimit ∈ (p.exec x op).2) :
    op = .limiter ∧ p.limiter.updateAndCheck.1 = true := by
  have hemits : .currentLimit ∈ op.emits x p := by
    rw [exec_eq] at h
    simpa using h
  cases op with
  | limiter =>
    simp only [Op.emits] at hemits
    split at hemits
    · rename_i hexp
      exact ⟨rfl, hexp⟩
    · cases hemits
  | backupWrite => simp [Op.emits, backupWrite] at hemits
  | data =>
    simp only [Op.emits, dataTick, emitPortData] at hemits
    split at hemits <;> simp at hemits
  | _ => cases hemits

end Port

namespace Thing

variable {t : Thing} {j : InnerPort} {e : Event}

/-- At the event `e` the limiter stops port `j`: it sets `finalState` to `Error` or emits
`onCurrentLimit`. -/
def Trips (t : Thing) (j : InnerPort) (e : Event) : Prop :=
  .currentLimit ∈ outputsOf j (t.step e).2 ∨
    (t.ports j).info.finalState.val ≠ some .error ∧
      ((t.step e).1.ports j).info.finalState.val = some .error

theorem Trips.expires (h : t.Trips j e) :
    e = .limiterTick ∧ (t.ports j).limiter.updateAndCheck.1 = true := by
  obtain ⟨x, spec, bs, -, hp, ho⟩ := t.step_local e j
  unfold Trips at h
  rw [hp, ho] at h
  cases hop : e.opOn t j with
  | none =>
    rw [hop] at h
    rcases h with h | ⟨hne, h⟩
    · simp [Port.execOpt] at h
    · exact absurd h hne
  | some op =>
    rw [hop] at h
    have hexp : op = .limiter ∧ (t.ports j).limiter.updateAndCheck.1 = true := by
      rcases h with h | ⟨hne, h⟩
      · rcases List.mem_append.1 h with h | h
        · exact Port.exec_currentLimit h
        · simp at h
      · exact (Port.exec_error h).resolve_left hne
    exact ⟨Event.opOn_limiter.1 (hexp.1 ▸ hop), hexp.2⟩

theorem currentLimit_of_expires (h : (t.ports j).limiter.updateAndCheck.1 = true) :
    .currentLimit ∈ outputsOf j (t.step .limiterTick).2 := by
  obtain ⟨x, spec, bs, -, -, ho⟩ := t.step_local .limiterTick j
  rw [ho, Event.opOn, Port.execOpt, Port.exec_eq, Op.emits, if_pos h]
  simp

/-- The last reported current of port `j` is above the limit. -/
def Above (t : Thing) (j : InnerPort) : Prop :=
  ∃ value, (t.ports j).charger.current = some value ∧ value > t.conf.currentLimit

/-- The last `n` ticks of the limiter all belong to the present session of port `j`, and at each of
them the last reported current was above the limit. -/
def Streak (b : Boot) (j : InnerPort) (n : Nat) (es : List Event) : Prop :=
  ∃ q m, es = q ++ m ∧ m.count .limiterTick = n ∧
    (∀ m', m' <+: m → ((machine.run b.init (q ++ m')).ports j).charger.state = some .charging) ∧
    ∀ m₁ m₂, m = m₁ ++ .limiterTick :: m₂ → (machine.run b.init (q ++ m₁)).Above j

section
variable {b : Boot} {es : List Event} {n : Nat}

theorem Streak.zero (h : ((machine.run b.init es).ports j).charger.state = some .charging) :
    Streak b j 0 es := by
  refine ⟨es, [], (List.append_nil es).symm, rfl, ?_, ?_⟩
  · intro m' hm'
    rw [List.prefix_nil.1 hm', List.append_nil]
    exact h
  · intro m₁ m₂ hm
    simp at hm

/-- One more event of the session. If it is a tick, the last reported current has to be above the
limit before it. -/
theorem Streak.concat (h : Streak b j n es)
    (hs : ((machine.run b.init (es ++ [e])).ports j).charger.state = some .charging)
    (ha : e = .limiterTick → (machine.run b.init es).Above j) :
    Streak b j (n + [e].count .limiterTick) (es ++ [e]) := by
  obtain ⟨q, m, rfl, hn, hstate, habove⟩ := h
  refine ⟨q, m ++ [e], List.append_assoc .., by rw [List.count_append, hn], ?_, ?_⟩
  · intro m' hm'
    rcases List.prefix_concat_iff.1 hm' with rfl | hm'
    · rw [← List.append_assoc]
      exact hs
    · exact hstate m' hm'
  · intro m₁ m₂ hm
    rcases List.eq_nil_or_concat m₂ with rfl | ⟨m₃, f, rfl⟩
    · obtain ⟨rfl, he⟩ := List.append_inj' hm rfl
      exact ha (List.singleton_inj.1 he)
    · have hm' : m ++ [e] = (m₁ ++ Event.limiterTick :: m₃) ++ [f] := by simp [hm]
      exact habove m₁ m₃ (List.append_inj' hm' rfl).1

end

/-- While the countdown of port `j` is under way, only a tick of the limiter opens its relay. -/
def LimiterConfined (j : InnerPort) (t : Thing) (e : Event) : Prop :=
  (t.ports j).limiter.Armed → e ≠ .limiterTick → (t.ports j).charger.relay = some .on →
    ((t.step e).1.ports j).charger.relay = some .on

instance (j : InnerPort) (t : Thing) (e : Event) : Decidable (LimiterConfined j t e) :=
  inferInstanceAs (Decidable (_ ∧ _ → _))

/-- While a countdown is started, the last report was above the limit: any other report would have
stopped it. -/
theorem above_of_counting (b : Boot) (j : InnerPort) {es : List Event}
    (hconf : ∀ conf, .config conf ∉ es)
    (hcnt : ((machine.run b.init es).ports j).limiter.counting = true) :
    (machine.run b.init es).Above j := by
  induction es using List.reverseRecOn with
  | nil =>
    rw [Machine.run_nil, Boot.init_limiter] at hcnt
    cases hcnt
  | append_singleton es e ih =>
    have ih := ih fun conf h => hconf conf (List.mem_append_left _ h)
    have hc : ((machine.run b.init es).step e).1.conf = (machine.run b.init es).conf :=
      step_conf _ fun conf he => hconf conf (by simp [he])
    rw [Machine.run_concat, machine_step] at hcnt ⊢
    unfold Above at ih ⊢
    rw [hc]
    rcases step_limiterMove (reachable_inv b es j) e with ⟨-, hl, hcur, -⟩ |
      ⟨value, -, -, hl, hcur, -⟩ | ⟨-, -, hl, hcur⟩
    · rw [hcur]
      rw [hl, CountDown.updateAndCheck_counting] at hcnt
      exact ih hcnt
    · rw [hl] at hcnt
      split at hcnt
      · rename_i h
        exact ⟨value, hcur, h.2⟩
      · cases hcnt
    · rw [hcur]
      rw [hl] at hcnt
      exact ih hcnt

/-- A countdown is under way only while the relay is closed: a report starts it on a closed relay,
and the relay stays closed until it expires or is stopped. -/
theorem on_of_armed {b : Boot} {j : InnerPort} {es : List Event}
    (hrun : machine.Along (LimiterConfined j) b.init es)
    (harm : ((machine.run b.init es).ports j).limiter.Armed) :
    ((machine.run b.init es).ports j).charger.relay = some .on := by
  induction es using List.reverseRecOn with
  | nil =>
    rw [Machine.run_nil, Boot.init_limiter] at harm
    cases harm.1
  | append_singleton es e ih =>
    rw [Machine.run_concat, machine_step] at harm ⊢
    obtain ⟨hcnt, hval⟩ := harm
    rcases step_limiterMove (reachable_inv b es j) e with ⟨-, hl, -, hr⟩ |
      ⟨value, -, -, hl, -, hr⟩ | ⟨he, -, hl, -⟩
    · rw [hl, CountDown.updateAndCheck_counting] at hcnt
      rw [hl, CountDown.updateAndCheck_currVal, if_pos hcnt] at hval
      have hexp : ¬ ((machine.run b.init es).ports j).limiter.updateAndCheck.1 = true := by
        rw [CountDown.updateAndCheck_fst]
        omega
      rw [hr, if_neg hexp]
      exact ih hrun.left ⟨hcnt, by omega⟩
    · rw [hl] at hcnt
      split at hcnt
      · rename_i hv
        rw [hr]
        exact hv.1
      · cases hcnt
    · rw [hl] at hcnt hval
      exact hrun.here ⟨hcnt, hval⟩ he (ih hrun.left ⟨hcnt, hval⟩)

/-- A countdown that is under way is loaded, or it was under way before and the event took the tick
off it that it stands for. -/
theorem armed_step (h : (t.ports j).Inv) (harm : ((t.step e).1.ports j).limiter.Armed) :
    ((t.step e).1.ports j).limiter.currVal = 10 ∨
      (t.ports j).limiter.Armed ∧ 10 - ((t.step e).1.ports j).limiter.currVal =
        10 - (t.ports j).limiter.currVal + [e].count .limiterTick := by
  have hle := h.limiter.le
  obtain ⟨hcnt, hval⟩ := harm
  rcases step_limiterMove h e with ⟨rfl, hl, -, -⟩ | ⟨value, rfl, -, hl, -, -⟩ | ⟨he, -, hl, -⟩
  · rw [hl, CountDown.updateAndCheck_counting] at hcnt
    rw [hl, CountDown.updateAndCheck_currVal, if_pos hcnt] at hval ⊢
    refine .inr ⟨⟨hcnt, by omega⟩, ?_⟩
    rw [List.count_singleton_self]
    omega
  · rw [hl] at hcnt hval ⊢
    split at hcnt
    · rename_i hv
      rw [if_pos hv] at hval ⊢
      cases hc : (t.ports j).limiter.counting with
      | false => exact .inl (h.limiter_idle hc)
      | true => exact .inr ⟨⟨hc, hval⟩, rfl⟩
    · cases hcnt
  · rw [hl] at hcnt hval ⊢
    refine .inr ⟨⟨hcnt, hval⟩, ?_⟩
    rw [List.count_cons_of_ne he, List.count_nil, Nat.add_zero]

/-- A countdown that is under way has counted the session's ticks. -/
theorem streak_of_armed {b : Boot} {j : InnerPort} {es : List Event}
    (hrun : machine.Along (LimiterConfined j) b.init es) (hconf : ∀ conf, .config conf ∉ es)
    (harm : ((machine.run b.init es).ports j).limiter.Armed) :
    Streak b j (10 - ((machine.run b.init es).ports j).limiter.currVal) es := by
  induction es using List.reverseRecOn with
  | nil =>
    rw [Machine.run_nil, Boot.init_limiter] at harm
    cases harm.1
  | append_singleton es e ih =>
    have hstate := (reachable_inv b (es ++ [e]) j).charger.charging_iff.2 (on_of_armed hrun harm)
    have hconf' : ∀ conf, .config conf ∉ es :=
      fun conf h => hconf conf (List.mem_append_left _ h)
    rw [Machine.run_concat, machine_step] at harm ⊢
    rcases armed_step (reachable_inv b es j) harm with h10 | ⟨harm', hval⟩
    · rw [h10]
      exact .zero hstate
    · rw [hval]
      refine (ih hrun.left hconf' harm').concat hstate ?_
      intro _
      exact above_of_counting b j hconf' harm'.1

/-- **The protection is sound.** If the limiter stops port `j`, this is at a tick that finds the
port charging with its last reported current above the limit, and the nine ticks before it belong
to the same session and found the same, in every run in which nothing but the limiter ends a
session while the countdown is under way. -/
theorem limiter_sound (b : Boot) (j : InnerPort) (es : List Event) (e : Event)
    (hrun : machine.Along (LimiterConfined j) b.init (es ++ [e]))
    (hconf : ∀ conf, .config conf ∉ es) (htrip : (machine.run b.init es).Trips j e) :
    e = .limiterTick ∧ ((machine.run b.init es).ports j).charger.state = some .charging ∧
      (machine.run b.init es).Above j ∧ Streak b j 9 es := by
  obtain ⟨he, hexp⟩ := htrip.expires
  rw [CountDown.updateAndCheck_fst] at hexp
  have harm : ((machine.run b.init es).ports j).limiter.Armed := ⟨hexp.1, by omega⟩
  refine ⟨he, (reachable_inv b es j).charger.charging_iff.2 (on_of_armed hrun.left harm),
    above_of_counting b j hconf hexp.1, ?_⟩
  have hs := streak_of_armed hrun.left hconf harm
  rwa [hexp.2] at hs

/-- The tenth tick of a session with a report above the limit. -/
theorem limiter_sound_first :
    let es := [.control 0 1 60, .current 0 5000] ++ List.replicate 9 .limiterTick
    ((machine.run Boot.plain.init es).ports 0).charger.state = some .charging ∧
      (machine.run Boot.plain.init es).Above 0 ∧ Streak .plain 0 9 es := by
  refine (limiter_sound .plain 0 _ .limiterTick ?_ ?_ (.inr ?_)).2
  · decide +kernel
  · intro conf
    simp
  · decide +kernel

/-- A countdown that a `stop` command leaves under way expires on a port that is not charging. -/
theorem limiter_trips_after_stop :
    let t := machine.run Boot.plain.init
      ([.control 0 1 60, .current 0 5000] ++ List.replicate 9 .limiterTick ++ [.stop 0 1])
    (t.ports 0).charger.state = some .loadWaitRemove ∧
      .currentLimit ∈ outputsOf 0 (t.step .limiterTick).2 ∧
      (t.ports 0).info.finalState.val = some .loadWaitRemove ∧
      ((t.step .limiterTick).1.ports 0).info.finalState.val = some .error := by
  refine ⟨by decide +kernel, ?_, by decide +kernel, by decide +kernel⟩
  exact currentLimit_of_expires (by decide +kernel)

end Thing

end ChargingPile
