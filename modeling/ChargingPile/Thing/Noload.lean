import ChargingPile.Thing.Invariant

/-!
# No-load and charge-done detection

`NoloadDetecter` keeps two countdowns per port: one of 120 ticks for a current below
`noloadCurrThr`, one of 125 ticks for a current below `doneCurrThr`. A state other than `Charging`
and a report at or above the threshold reload a countdown, `Charging` and a report below the
threshold start it, and a port's turn of the detector counts it down.

The two differ in their field, threshold and length only, so both are a `Watch`. `Watch.below` is
what a watch should measure, read off the history of the port: the number of the port's turns with
a current below the threshold, since the session started or the last report that was not below it.
`noload_exact` says that the detector stops a port exactly when one of the two is long enough.
-/

namespace ChargingPile

/-- One of the two things that the detector looks for. -/
inductive Watch
  | noload | done

namespace Watch

/-- The countdown. -/
def count : Watch → NoloadDetecter → CountDown
  | .noload, spec => spec.noloadCount
  | .done, spec => spec.doneCount

/-- The threshold. -/
def thr : Watch → DevConfig → Int
  | .noload, conf => conf.noloadCurrThr
  | .done, conf => conf.doneCurrThr

/-- The length of the countdown. -/
def ticks : Watch → Nat
  | .noload => 120
  | .done => 125

variable (w : Watch) {conf : DevConfig} {curr : Int} {spec : NoloadDetecter}

theorem ticks_pos : 1 < w.ticks := by cases w <;> decide

theorem count_checkCurrent : w.count (spec.checkCurrent conf curr) =
    if curr < w.thr conf then (w.count spec).trigger else (w.count spec).reset := by
  cases w <;> rfl

theorem count_onStateChanged {s : State} (hs : s ≠ .charging) :
    w.count (spec.onStateChanged conf curr s) = (w.count spec).reset := by
  rw [NoloadDetecter.onStateChanged, if_pos hs]
  cases w <;> rfl

end Watch

namespace CountDown

variable {N n : Nat} {below : Prop} [Decidable below] {c : CountDown}

/-- The countdown of `N` ticks has counted `n` of them, and counts exactly while `below`. -/
structure Counted (N : Nat) (below : Prop) [Decidable below] (n : Nat) (c : CountDown) : Prop where
  init : c.initVal = N
  counting : c.counting = decide below
  currVal : c.currVal + n = N
  lt : n < N
  /-- Nothing is counted while the current is not below the threshold. -/
  zero : ¬ below → n = 0

/-- A loaded countdown after a look at the current. -/
theorem Counted.check {below' : Prop} [Decidable below'] (h : c.Counted N below n) :
    (if below' then c.trigger else c.reset).Counted N below' (if below' then n else 0) := by
  have hlt := h.lt
  by_cases hb : below'
  · rw [if_pos hb, if_pos hb]
    exact ⟨h.init, by simp [trigger, hb], h.currVal, h.lt, fun hn => absurd hb hn⟩
  · rw [if_neg hb, if_neg hb]
    exact ⟨h.init, by simp [reset, hb], h.init, by omega, fun _ => rfl⟩

/-- A tick expires the countdown exactly if it is the last one of the streak. -/
theorem Counted.expires (h : c.Counted N below n) :
    c.updateAndCheck.1 = true ↔ below ∧ n + 1 = N := by
  have hv := h.currVal
  rw [updateAndCheck_fst, h.counting, decide_eq_true_iff]
  refine and_congr_right fun _ => ?_
  omega

theorem Counted.expires_iff (h : c.Counted N below n) :
    c.updateAndCheck.1 = true ↔ N ≤ if below then n + 1 else n := by
  have hlt := h.lt
  rw [h.expires]
  by_cases hb : below
  · simp only [hb, true_and, if_true]
    omega
  · simp only [hb, false_and, if_false, false_iff]
    omega

/-- A tick that does not expire the countdown. -/
theorem Counted.tick (h : c.Counted N below n) (hexp : c.updateAndCheck.1 = false) :
    c.updateAndCheck.2.Counted N below (if below then n + 1 else n) := by
  have hv := h.currVal
  have hlt := h.lt
  have hne : ¬ (below ∧ n + 1 = N) := by
    rw [← h.expires, hexp]
    simp
  refine ⟨by simpa using h.init, by simpa using h.counting, ?_, ?_, ?_⟩
  · rw [updateAndCheck_currVal, h.counting]
    by_cases hb : below
    · have hN : n + 1 ≠ N := fun hN => hne ⟨hb, hN⟩
      simp only [hb, decide_true, if_true]
      omega
    · simpa [hb] using hv
  · by_cases hb : below
    · have hN : n + 1 ≠ N := fun hN => hne ⟨hb, hN⟩
      rw [if_pos hb]
      omega
    · rwa [if_neg hb]
  · intro hb
    rw [if_neg hb]
    exact h.zero hb

theorem ofInit_counted (hN : 0 < N) : (ofInit N).Counted N False 0 :=
  ⟨rfl, by simp [ofInit], rfl, hN, fun _ => rfl⟩

end CountDown

/-- The countdowns after an operation whose published states left `spec`. -/
def Op.noloadAfter (x : Ctx) (p : Port) (spec : NoloadDetecter) : Op → NoloadDetecter
  | .current value =>
    if p.charger.current = some value then spec
    else spec.onCurrentChanged x.conf (p.charger.setCurrent x.nullRunning value).1.state value
  | _ => spec

namespace Port

variable {x : Ctx} {p : Port} {op : Op} {w : Watch} {n : Nat}

/-! ## The countdowns of a port -/

/-- The current a port is known to have. -/
def known (p : Port) : Int := p.charger.current.getD 0

theorem exec_noload (x : Ctx) (p : Port) (op : Op) : (p.exec x op).1.noload =
    op.noloadAfter x p
      (notify x (op.call x p).2 { op.before p with charger := (op.call x p).1 }).noload := by
  rw [exec_eq]
  cases op with
  | current value =>
    simp only [Op.after, Op.noloadAfter]
    split
    · rfl
    · simp [onCurrentChanged, drive, Op.call]
  | voltage => simp only [Op.after]; split <;> rfl
  | backupWrite => simp only [Op.after, backupWrite]; split <;> rfl
  | data =>
    simp only [Op.after, dataTick, emitPortData]
    split
    · split <;> rfl
    · rfl
  | _ => rfl

theorem exec_known (x : Ctx) (p : Port) (op : Op) :
    (p.exec x op).1.known = (op.call x p).1.current.getD 0 := by
  rw [known, (exec_call x p op).1]

/-- A list of states without `Charging` reloads a countdown, if it is not empty. -/
theorem notify_reset {l : List State} (hl : ∀ s ∈ l, s ≠ .charging) (p : Port) :
    w.count (notify x l p).noload =
      if l = [] then w.count p.noload else (w.count p.noload).reset := by
  induction l generalizing x p with
  | nil => rfl
  | cons s l ih =>
    have hs : w.count (p.onStateChanged x s).noload = (w.count p.noload).reset :=
      w.count_onStateChanged (hl s (.head _))
    rw [notify, ih (fun s hs => hl s (.tail _ hs)), hs]
    simp only [reduceCtorEq, if_false]
    split <;> rfl

/-- `Charging` starts a loaded countdown if the current is below the threshold. -/
theorem notify_charging_count {l : List State}
    (hl : l = [.charging] ∨ l = [.loadInserted, .charging])
    (h : w.count p.noload = .ofInit w.ticks) :
    (w.count (notify x l p).noload).Counted w.ticks (p.known < w.thr x.conf) 0 := by
  have hstart : ∀ (x : Ctx) (p : Port), w.count p.noload = .ofInit w.ticks →
      (w.count (p.onStateChanged x .charging).noload).Counted w.ticks
        (p.known < w.thr x.conf) 0 := by
    intro x p h
    have hc : w.count (p.onStateChanged x .charging).noload =
        w.count (p.noload.checkCurrent x.conf p.known) := rfl
    have hcheck : (if p.known < w.thr x.conf then (CountDown.ofInit w.ticks).trigger
        else (CountDown.ofInit w.ticks).reset).Counted w.ticks (p.known < w.thr x.conf)
          (if p.known < w.thr x.conf then 0 else 0) :=
      (CountDown.ofInit_counted (Nat.zero_lt_of_lt w.ticks_pos)).check
    rw [hc, w.count_checkCurrent, h]
    simpa using hcheck
  rcases hl with rfl | rfl
  · exact hstart x p h
  · refine hstart (x.published .loadInserted) (p.onStateChanged x .loadInserted) ?_
    rw [onStateChanged, w.count_onStateChanged (by simp), h]
    rfl

/-- The countdown of a watch has counted `n` ticks of a closed relay, and is loaded while the relay
is open. -/
structure Watched (w : Watch) (conf : DevConfig) (n : Nat) (p : Port) : Prop where
  closed : p.charger.relay = some .on →
    (w.count p.noload).Counted w.ticks (p.known < w.thr conf) n
  opened : p.charger.relay ≠ some .on → w.count p.noload = .ofInit w.ticks

/-- What an operation on the port `p` makes of the number that a watch has counted. -/
def belowAfter (w : Watch) (conf : DevConfig) (p : Port) (n : Nat) : Op → Nat
  | .current value => if value < w.thr conf then n else 0
  | .noload => if p.known < w.thr conf then n + 1 else n
  | _ => n

theorem before_noload (hop : op ≠ .noload) : (op.before p).noload = p.noload := by
  cases op with
  | noload => exact absurd rfl hop
  | _ => rfl

/-- A tick that expires a countdown of a charging port opens its relay. -/
theorem noload_call_expired (hs : p.charger.state = some .charging)
    (hexp : (w.count p.noload).updateAndCheck.1 = true) :
    Op.call x p .noload = p.charger.stop := by
  refine if_pos ⟨?_, hs⟩
  cases w with
  | noload => simp [show p.noload.noloadCount.updateAndCheck.1 = true from hexp]
  | done => simp [show p.noload.doneCount.updateAndCheck.1 = true from hexp]

theorem count_before_noload (w : Watch) (p : Port) :
    w.count (Op.before p .noload).noload = (w.count p.noload).updateAndCheck.2 := by
  cases w <;> rfl

/-- An operation that leaves the relay closed. -/
theorem exec_watched_closed (hinv : p.Inv) (h : p.Watched w x.conf n)
    (hon : p.charger.relay = some .on) (hon' : (op.call x p).1.relay = some .on) :
    (w.count (p.exec x op).1.noload).Counted w.ticks ((p.exec x op).1.known < w.thr x.conf)
      (p.belowAfter w x.conf n op) := by
  have hc := h.closed hon
  have hs := (call_kept hinv hon hon').1
  have hcur : (∀ value, op ≠ .current value) → (op.call x p).1.current = p.charger.current :=
    call_current hinv.charger x
  rw [exec_noload, exec_known, hs]
  simp only [notify]
  cases op with
  | current value =>
    by_cases hv : p.charger.current = some value
    · have hk : p.known = value := by simp [known, hv]
      rw [Op.noloadAfter, if_pos hv, belowAfter, Op.call, Charger.setCurrent, if_pos hv]
      rw [hk] at hc
      rw [hv, Option.getD_some]
      split
      · exact hc
      · rename_i hn
        exact hc.zero hn ▸ hc
    · have hq : Charger.Quiet _ (p.charger.setCurrent x.nullRunning value) :=
        Charger.setCurrent_quiet hinv.charger hv
      have hst : (p.charger.setCurrent x.nullRunning value).1.state = some .charging := by
        rw [(hq.closed hon).2.1]
        exact hinv.charger.charging_iff.2 hon
      rw [Op.noloadAfter, if_neg hv, hst, NoloadDetecter.onCurrentChanged, if_neg (by simp),
        w.count_checkCurrent, Op.call, hq.current, Option.getD_some, belowAfter]
      exact hc.check
  | noload =>
    have hexp : (w.count p.noload).updateAndCheck.1 = false := by
      refine Bool.eq_false_of_not_eq_true fun hexp => ?_
      rw [noload_call_expired (hinv.charger.charging_iff.2 hon) hexp,
        stop_relay hinv.charger] at hon'
      cases hon'
    rw [hcur (by simp)]
    show (w.count (Op.before p .noload).noload).Counted _ _ _
    rw [count_before_noload]
    exact hc.tick hexp
  | _ =>
    rw [hcur (by simp)]
    exact hc

/-- An operation that closes the relay. -/
theorem exec_watched_closes (hinv : p.Inv) (h : p.Watched w x.conf n)
    (hoff : p.charger.relay ≠ some .on) (hon' : (op.call x p).1.relay = some .on) :
    (w.count (p.exec x op).1.noload).Counted w.ticks ((p.exec x op).1.known < w.thr x.conf) 0 := by
  rcases op.call_cases hinv.charger x with ⟨hk, hr⟩ | ⟨-, hr⟩ | ⟨i, u, -, hr⟩
  · rw [exec_noload, exec_known]
    rw [Charger.start_spec hinv.charger hoff] at hr
    have hl : (op.call x p).2 = [.charging] ∨ (op.call x p).2 = [.loadInserted, .charging] := by
      rw [hr]
      dsimp only
      split
      · exact .inl rfl
      · exact .inr rfl
    have hcur : (op.call x p).1.current = p.charger.current := by rw [hr]
    have hcount : ∀ spec, op.noloadAfter x p spec = spec := by
      intro spec
      rcases hk with ⟨_, _, rfl⟩ | ⟨_, rfl⟩ <;> rfl
    have hbefore : (op.before p).noload = p.noload := by
      rcases hk with ⟨_, _, rfl⟩ | ⟨_, rfl⟩ <;> rfl
    have hc := notify_charging_count (w := w) (x := x) hl
      (p := { op.before p with charger := (op.call x p).1 })
      ((congrArg w.count hbefore).trans (h.opened hoff))
    rw [hcount]
    exact hc
  · rw [hr, stop_relay hinv.charger] at hon'
    cases hon'
  · exact absurd (hr.relay.symm.trans hon') hoff

/-- The states of a call that leaves the relay open, and a closed relay that it opens. -/
theorem call_opened (hinv : p.Inv) (hoff' : (op.call x p).1.relay ≠ some .on) :
    (∀ s ∈ (op.call x p).2, s ≠ .charging) ∧
      (p.charger.relay = some .on → (op.call x p).2 ≠ []) := by
  rcases op.call_cases hinv.charger x with ⟨-, hr⟩ | ⟨-, hr⟩ | ⟨i, u, -, hr⟩
  · rw [hr] at hoff'
    by_cases hon : p.charger.relay = some .on
    · rw [Charger.start_on hon] at hoff'
      exact absurd hon hoff'
    · rw [Charger.start_spec hinv.charger hon] at hoff'
      exact absurd rfl hoff'
  · rw [hr]
    by_cases hoff : p.charger.relay = some .off
    · rw [Charger.stop_off hoff]
      refine ⟨nofun, ?_⟩
      intro hon
      rw [hoff] at hon
      cases hon
    · rw [Charger.stop_spec hinv.charger hoff]
      simp
  · have hoff : p.charger.relay ≠ some .on := hr.relay ▸ hoff'
    refine ⟨?_, fun hon => absurd hon hoff⟩
    rcases (hr.opened hoff).1 with ⟨hp, -⟩ | ⟨hp, -⟩ <;> simp [hp]

/-- An operation that leaves the relay open. -/
theorem exec_watched_opened (hinv : p.Inv) (h : p.Watched w x.conf n)
    (hoff' : (op.call x p).1.relay ≠ some .on) :
    w.count (p.exec x op).1.noload = .ofInit w.ticks := by
  obtain ⟨hl, hne⟩ := call_opened hinv hoff'
  have hinit : (w.count (op.before p).noload).initVal = w.ticks := by
    have hp : (w.count p.noload).initVal = w.ticks := by
      by_cases hon : p.charger.relay = some .on
      · exact (h.closed hon).init
      · rw [h.opened hon]; rfl
    by_cases hop : op = .noload
    · rw [hop, count_before_noload, CountDown.updateAndCheck_initVal, hp]
    · rw [before_noload hop, hp]
  have hidle : p.charger.relay ≠ some .on → w.count (op.before p).noload = .ofInit w.ticks := by
    intro hoff
    by_cases hop : op = .noload
    · rw [hop, count_before_noload, h.opened hoff]
      rfl
    · rw [before_noload hop, h.opened hoff]
  have hnotify : w.count (notify x (op.call x p).2
      { op.before p with charger := (op.call x p).1 }).noload = .ofInit w.ticks := by
    rw [notify_reset hl]
    split
    · rename_i hnil
      exact hidle fun hon => hne hon hnil
    · simp [CountDown.reset, CountDown.ofInit, hinit]
  have hafter : ∀ spec, op.noloadAfter x p spec = spec := by
    intro spec
    cases op with
    | current value =>
      have hst : (p.charger.setCurrent x.nullRunning value).1.state ≠ some .charging := fun hs =>
        hoff' ((call_inv hinv.charger (.current value)).charging_iff.1 hs)
      rw [Op.noloadAfter, NoloadDetecter.onCurrentChanged, if_pos hst, ite_self]
    | _ => rfl
  rw [exec_noload, hafter, hnotify]

/-- A tick of the detector leaves the final state as its assignment left it. -/
theorem exec_noload_finalState (hinv : p.Inv) : (p.exec x .noload).1.info.finalState =
    (Op.before p .noload).info.finalState := by
  have hkeep : ∀ (l : List State) (x : Ctx) (p : Port), .charging ∉ l →
      (notify x l p).info.finalState = p.info.finalState := by
    intro l
    induction l with
    | nil => exact fun _ _ _ => rfl
    | cons s l ih =>
      intro x p hl
      refine (ih _ _ fun h => hl (.tail _ h)).trans ?_
      cases s with
      | charging => exact absurd (.head _) hl
      | _ => rfl
  rw [exec_eq]
  refine hkeep _ _ _ ?_
  rw [Op.call]
  split
  · by_cases hoff : p.charger.relay = some .off
    · rw [Charger.stop_off hoff]; simp
    · rw [Charger.stop_spec hinv.charger hoff]; simp
  · simp

/-- One operation at the countdown of a watch. -/
theorem exec_watched (hinv : p.Inv) (h : p.Watched w x.conf n) (op : Op) :
    (p.exec x op).1.Watched w x.conf
      (if p.charger.relay ≠ some .on ∧ (p.exec x op).1.charger.relay = some .on then 0
        else p.belowAfter w x.conf n op) := by
  rw [(exec_call x p op).1]
  refine ⟨?_, ?_⟩
  · rw [(exec_call x p op).1]
    intro hon'
    by_cases hon : p.charger.relay = some .on
    · rw [if_neg fun hc => hc.1 hon]
      exact exec_watched_closed hinv h hon hon'
    · rw [if_pos ⟨hon, hon'⟩]
      exact exec_watched_closes hinv h hon hon'
  · rw [(exec_call x p op).1]
    exact exec_watched_opened hinv h

end Port

/-! ## Runs -/

/-- One event in the history of port `j`, seen by a watch: how many of the port's turns with a
current below the threshold there have been since the session started or the last report that was
not below it, whichever is later. -/
def Watch.below (w : Watch) (j : InnerPort) (t : Thing) (e : Event) (n : Nat) : Nat :=
  if (t.ports j).charger.relay ≠ some .on ∧
      ((t.step e).1.ports j).charger.relay = some .on then 0
  else match e with
    | .current i value => if i = j ∧ w.thr t.conf ≤ value then 0 else n
    | .noloadTick => if t.noloadPort = j ∧ (t.ports j).known < w.thr t.conf then n + 1 else n
    | _ => n

/-- After `Thing::init` the countdowns are loaded. -/
theorem Boot.init_noload (b : Boot) (w : Watch) (j : InnerPort) :
    w.count (b.init.ports j).noload = .ofInit w.ticks := by
  have hfresh : w.count (b.fresh j).noload = .ofInit w.ticks := by cases w <;> rfl
  simp only [init]
  split
  · exact hfresh
  · rename_i s hs
    have hne : s ≠ .charging := by
      rintro rfl
      obtain ⟨hinv, hr, -⟩ := b.charger_unset j
      rw [hinv.charging_iff.1 hs] at hr
      cases hr
    rw [Port.onStateChanged, w.count_onStateChanged hne, hfresh]
    rfl

namespace Thing

variable {t : Thing} {j : InnerPort} {e : Event} {w : Watch} {n : Nat}

/-- The event changes neither of the detector's thresholds. -/
def KeepsThresholds (t : Thing) (e : Event) : Prop :=
  (t.step e).1.conf.noloadCurrThr = t.conf.noloadCurrThr ∧
    (t.step e).1.conf.doneCurrThr = t.conf.doneCurrThr

theorem KeepsThresholds.thr (h : KeepsThresholds t e) (w : Watch) :
    w.thr (t.step e).1.conf = w.thr t.conf := by
  cases w with
  | noload => exact h.1
  | done => exact h.2

theorem watched_congr {p : Port} {conf conf' : DevConfig} (h : p.Watched w conf n)
    (hthr : w.thr conf' = w.thr conf) {q : Port} (hc : q.charger = p.charger)
    (hn : q.noload = p.noload) : q.Watched w conf' n := by
  refine ⟨?_, ?_⟩
  · rw [hc, hn, hthr, Port.known, hc]
    exact h.closed
  · rw [hc, hn]
    exact h.opened

/-- An event with an operation at port `j` counts as the operation does. -/
theorem below_some {x : Ctx} {op : Op} (hx : x.conf = t.conf) (hop : e.opOn t j = some op)
    (hc : ((t.step e).1.ports j).charger = ((t.ports j).exec x op).1.charger) :
    w.below j t e n = if (t.ports j).charger.relay ≠ some .on ∧
        ((t.ports j).exec x op).1.charger.relay = some .on then 0
      else (t.ports j).belowAfter w x.conf n op := by
  unfold Watch.below
  rw [hc, hx]
  split
  · rfl
  · cases e with
    | current i value =>
      obtain ⟨hi, rfl⟩ : i = j ∧ Op.current value = op := by simpa [Event.opOn] using hop
      simp only [Port.belowAfter, hi, true_and]
      split <;> split <;> first | rfl | omega
    | noloadTick =>
      obtain ⟨hj, rfl⟩ : t.noloadPort = j ∧ Op.noload = op := by simpa [Event.opOn] using hop
      simp only [Port.belowAfter, hj, true_and]
    | _ =>
      simp only [Event.opOn, Option.ite_none_right_eq_some, Option.some.injEq, reduceCtorEq] at hop
      all_goals
        first
        | subst hop; rfl
        | obtain ⟨-, rfl⟩ := hop; rfl

/-- An event without an operation at port `j` counts nothing. -/
theorem below_none (hop : e.opOn t j = none)
    (hc : ((t.step e).1.ports j).charger = (t.ports j).charger) : w.below j t e n = n := by
  unfold Watch.below
  rw [hc, if_neg fun h => h.1 h.2]
  cases e with
  | current i value =>
    have hi : i ≠ j := by simpa [Event.opOn] using hop
    exact if_neg fun h => hi h.1
  | noloadTick =>
    have hj : t.noloadPort ≠ j := by simpa [Event.opOn] using hop
    exact if_neg fun h => hj h.1
  | _ => rfl

theorem step_watched (hinv : (t.ports j).Inv) (h : (t.ports j).Watched w t.conf n)
    (hthr : KeepsThresholds t e) :
    ((t.step e).1.ports j).Watched w (t.step e).1.conf (w.below j t e n) := by
  obtain ⟨x, spec, bs, hx, hp, -⟩ := t.step_local e j
  have hc : ((t.step e).1.ports j).charger = ((t.ports j).execOpt x (e.opOn t j)).1.charger := by
    rw [hp]
  have hn : ((t.step e).1.ports j).noload = ((t.ports j).execOpt x (e.opOn t j)).1.noload := by
    rw [hp]
  cases hop : e.opOn t j with
  | none =>
    rw [hop] at hc hn
    rw [below_none hop hc]
    exact watched_congr h (hthr.thr w) hc hn
  | some op =>
    rw [hop] at hc hn
    rw [below_some hx.conf hop hc]
    have hq := Port.exec_watched (x := x) hinv (hx.conf.symm ▸ h) op
    exact watched_congr hq (by rw [hthr.thr w, hx.conf]) hc hn

/-- In every run with fixed thresholds the countdowns hold what they should measure. -/
theorem reachable_watched (b : Boot) (w : Watch) (j : InnerPort) {es : List Event}
    (hthr : machine.Along KeepsThresholds b.init es) :
    ((machine.run b.init es).ports j).Watched w (machine.run b.init es).conf
      (machine.tally (w.below j) b.init 0 es) := by
  have hboth : ((machine.run b.init es).ports j).Inv ∧
      ((machine.run b.init es).ports j).Watched w (machine.run b.init es).conf
        (machine.tally (w.below j) b.init 0 es) := by
    refine Machine.tally_inv
      (I := fun t n => (t.ports j).Inv ∧ (t.ports j).Watched w t.conf n) ?_ hthr ⟨b.init_inv j, ?_⟩
    · rintro t e n ⟨hinv, h⟩ hk
      exact ⟨step_inv e hinv, step_watched hinv h hk⟩
    · refine ⟨?_, ?_⟩
      · rw [Boot.init_charger, (b.charger_unset j).2.1]
        nofun
      · intro _
        exact b.init_noload w j
  exact hboth.2

/-- At the port's turn, a countdown of a charging port expires exactly if the streak is long
enough. -/
theorem expires_iff_below (hinv : (t.ports j).Inv) (h : (t.ports j).Watched w t.conf n)
    (hturn : t.noloadPort = j) (hs : (t.ports j).charger.state = some .charging) :
    (w.count (t.ports j).noload).updateAndCheck.1 = true ↔
      w.ticks ≤ w.below j t .noloadTick n := by
  have hon := hinv.charger.charging_iff.1 hs
  have hbelow : w.below j t .noloadTick n =
      if (t.ports j).known < w.thr t.conf then n + 1 else n := by
    simp [Watch.below, hon, hturn]
  rw [hbelow]
  exact (h.closed hon).expires_iff

/-- The port's turn opens the relay of a charging port if one of the countdowns expires. The
no-load countdown sets the final state. -/
theorem noloadTick_turn (hinv : (t.ports j).Inv) (hturn : t.noloadPort = j) :
    let p := t.ports j
    let q := (t.step .noloadTick).1.ports j
    (p.charger.relay = some .on ∧ q.charger.relay = some .off ↔
      p.charger.state = some .charging ∧
        (p.noload.noloadCount.updateAndCheck.1 = true ∨
          p.noload.doneCount.updateAndCheck.1 = true)) ∧
    q.info.finalState = if p.charger.state = some .charging ∧
        p.noload.noloadCount.updateAndCheck.1 = true then .set (some .loadNotInsert)
      else p.info.finalState := by
  obtain ⟨x, spec, bs, -, hp, -⟩ := t.step_local .noloadTick j
  have hop : Event.opOn t j .noloadTick = some .noload := if_pos hturn
  rw [hop, Port.execOpt] at hp
  have hc : ((t.step .noloadTick).1.ports j).charger = (Op.call x (t.ports j) .noload).1 := by
    rw [hp]
    exact (Port.exec_call x _ .noload).1
  have hi : ((t.step .noloadTick).1.ports j).info = ((t.ports j).exec x .noload).1.info := by
    rw [hp]
  refine ⟨?_, ?_⟩
  · rw [hc, Op.call, ← hinv.charger.charging_iff]
    refine and_congr_right fun hs => ?_
    simp only [hs, and_true, Bool.or_eq_true]
    split
    · exact iff_of_true (Port.stop_relay hinv.charger) ‹_›
    · refine iff_of_false ?_ ‹_›
      rw [hinv.charger.charging_iff.1 hs]
      simp
  · rw [hi, Port.exec_noload_finalState hinv]
    simp only [Op.before, and_comm]
    split <;> rfl

/-- **No-load and charge-done detection is exact.** In a run from boot with fixed thresholds, the
detector opens the relay of the port whose turn it is exactly if the port is `Charging` and has
been below the no-load threshold for 120 of its turns, or below the done threshold for 125 of them.
It sets the final state to `LoadNotInsert` exactly in the first case. -/
theorem noload_exact (b : Boot) (j : InnerPort) (es : List Event)
    (hthr : machine.Along KeepsThresholds b.init es)
    (hturn : (machine.run b.init es).noloadPort = j) :
    let p := (machine.run b.init es).ports j
    let q := (machine.run b.init (es ++ [.noloadTick])).ports j
    let below := fun w : Watch => machine.tally (w.below j) b.init 0 (es ++ [.noloadTick])
    (p.charger.relay = some .on ∧ q.charger.relay = some .off ↔
      p.charger.state = some .charging ∧ (120 ≤ below .noload ∨ 125 ≤ below .done)) ∧
    q.info.finalState = if p.charger.state = some .charging ∧ 120 ≤ below .noload then
        .set (some .loadNotInsert)
      else p.info.finalState := by
  intro p q below
  have hinv := reachable_inv b es j
  obtain ⟨hstop, hfinal⟩ := noloadTick_turn hinv hturn
  have hq : q = ((machine.run b.init es).step .noloadTick).1.ports j := by
    show (machine.run b.init (es ++ [Event.noloadTick])).ports j = _
    rw [Machine.run_concat, machine_step]
  have hexp : ∀ w : Watch, p.charger.state = some .charging →
      ((w.count p.noload).updateAndCheck.1 = true ↔ w.ticks ≤ below w) := by
    intro w hs
    have hcount : below w = w.below j (machine.run b.init es) .noloadTick
        (machine.tally (w.below j) b.init 0 es) := Machine.tally_concat es .noloadTick
    rw [hcount]
    exact expires_iff_below hinv (reachable_watched b w j hthr) hturn hs
  refine ⟨?_, ?_⟩
  · rw [hq, hstop]
    exact and_congr_right fun hs => or_congr (hexp .noload hs) (hexp .done hs)
  · rw [hq, hfinal]
    refine if_congr (and_congr_right fun hs => hexp .noload hs) rfl rfl

/-- The port has been charging below both thresholds for `n` of its turns. -/
structure Unloaded (j : InnerPort) (n : Nat) (t : Thing) : Prop where
  inv : (t.ports j).Inv
  watched : ∀ w, (t.ports j).Watched w t.conf n
  charging : (t.ports j).charger.state = some .charging
  known : ∀ w : Watch, (t.ports j).known < w.thr t.conf

/-- A tick counts if it is the port's turn. -/
theorem Unloaded.below (h : Unloaded j n t) (w : Watch) :
    w.below j t .noloadTick n = if t.noloadPort = j then n + 1 else n := by
  simp [Watch.below, h.inv.charger.charging_iff.1 h.charging, h.known w]

/-- A tick that does not count to the end leaves the charger as it is. -/
theorem Unloaded.charger (h : Unloaded j n t) (hn : t.noloadPort = j → n + 1 < 120) :
    ((t.step .noloadTick).1.ports j).charger = (t.ports j).charger := by
  obtain ⟨x, spec, bs, -, hp, -⟩ := t.step_local .noloadTick j
  rw [hp]
  rcases eq_or_ne t.noloadPort j with hturn | hturn
  · have hcount (w : Watch) : (w.count (t.ports j).noload).updateAndCheck.1 = false := by
      rw [Bool.eq_false_iff, ne_eq, expires_iff_below h.inv (h.watched w) hturn h.charging,
        h.below w, if_pos hturn]
      have := hn hturn
      cases w <;> simp only [Watch.ticks] <;> omega
    have hop : Event.opOn t j .noloadTick = some .noload := if_pos hturn
    have hnoload : (t.ports j).noload.noloadCount.updateAndCheck.1 = false := hcount .noload
    have hdone : (t.ports j).noload.doneCount.updateAndCheck.1 = false := hcount .done
    rw [hop, Port.execOpt]
    exact (Port.exec_call x _ .noload).1.trans (by simp [Op.call, hnoload, hdone])
  · have hop : Event.opOn t j .noloadTick = none := if_neg hturn
    rw [hop]
    rfl

theorem Unloaded.step (h : Unloaded j n t) (hn : t.noloadPort = j → n + 1 < 120) :
    Unloaded j (if t.noloadPort = j then n + 1 else n) (t.step .noloadTick).1 := by
  have hc := h.charger hn
  have hconf : (t.step .noloadTick).1.conf = t.conf := step_conf t nofun
  refine ⟨step_inv _ h.inv, fun w => ?_, ?_, fun w => ?_⟩
  · rw [← h.below w]
    exact step_watched h.inv (h.watched w) ⟨congrArg _ hconf, congrArg _ hconf⟩
  · rw [hc]
    exact h.charging
  · rw [Port.known, hc, hconf]
    exact h.known w

/-- In every tenth tick it is the turn of the first port. -/
theorem Unloaded.run (h : Unloaded 0 0 t) (hport : t.noloadPort = 0) {m : Nat} (hm : m ≤ 1190) :
    Unloaded 0 ((m + 9) / 10) (machine.run t (List.replicate m .noloadTick)) ∧
      (machine.run t (List.replicate m .noloadTick)).noloadPort.val = m % 10 ∧
      ∀ w : Watch, machine.tally (w.below 0) t 0 (List.replicate m .noloadTick) =
        (m + 9) / 10 := by
  induction m with
  | zero => exact ⟨h, congrArg Fin.val hport, fun _ => rfl⟩
  | succ m ih =>
    obtain ⟨hun, hturn, htally⟩ := ih (by omega)
    rw [List.replicate_succ']
    simp only [Machine.run_concat, Machine.tally_concat, machine_step, htally]
    generalize machine.run t (List.replicate m .noloadTick) = t' at hun hturn
    have hzero : t'.noloadPort = 0 ↔ m % 10 = 0 := by rw [← hturn, Fin.ext_iff, Fin.val_zero]
    have hnext : (if t'.noloadPort = 0 then (m + 9) / 10 + 1 else (m + 9) / 10) =
        (m + 1 + 9) / 10 := by
      simp only [hzero]
      split <;> omega
    refine ⟨hnext ▸ hun.step fun hport => ?_, ?_, fun w => hnext ▸ hun.below w⟩
    · rw [hzero] at hport
      omega
    · rw [(t'.step_fixed .noloadTick).noloadPort]
      change (t'.noloadPort + 1).val = _
      rw [Fin.val_add, hturn]
      simp

/-- The first port is started without a load, and then the detector ticks. -/
def unloaded (m : Nat) : List Event := .control 0 7 60 :: List.replicate m .noloadTick

theorem unloaded_keeps (m : Nat) : machine.Along KeepsThresholds Boot.plain.init (unloaded m) := by
  refine Machine.along_of_mem fun e he t => ?_
  have hconf : (t.step e).1.conf = t.conf := step_conf t fun c hc => by
    rcases List.mem_cons.1 he with rfl | he
    · cases hc
    · rw [List.eq_of_mem_replicate he] at hc
      cases hc
  exact ⟨congrArg _ hconf, congrArg _ hconf⟩

theorem unloaded_run {m : Nat} (hm : m ≤ 1190) :
    Unloaded 0 ((m + 9) / 10) (machine.run Boot.plain.init (unloaded m)) ∧
      (machine.run Boot.plain.init (unloaded m)).noloadPort.val = m % 10 ∧
      ∀ w : Watch, machine.tally (w.below 0) Boot.plain.init 0 (unloaded m) = (m + 9) / 10 := by
  have hzero (w : Watch) : w.below 0 Boot.plain.init (.control 0 7 60) 0 = 0 := by
    cases w <;> decide +kernel
  have hstart : Unloaded 0 0 (machine.step Boot.plain.init (.control 0 7 60)).1 := by
    refine ⟨step_inv _ (Boot.plain.init_inv 0), fun w => ?_, by decide +kernel,
      fun w => by cases w <;> decide +kernel⟩
    have hwatched := reachable_watched Boot.plain w 0 (unloaded_keeps 0)
    exact hzero w ▸ hwatched
  obtain ⟨hun, hturn, htally⟩ := hstart.run (by decide +kernel) hm
  refine ⟨hun, hturn, fun w => ?_⟩
  rw [unloaded, Machine.tally, hzero w]
  exact htally w

/-- The 120th turn of a port that was started without a load stops it, with `LoadNotInsert`. -/
theorem noload_exact_unloaded :
    let q := (machine.run Boot.plain.init (unloaded 1190 ++ [.noloadTick])).ports 0
    machine.tally (Watch.noload.below 0) Boot.plain.init 0 (unloaded 1190 ++ [.noloadTick]) = 120 ∧
      q.charger.relay = some .off ∧ q.info.finalState.val = some .loadNotInsert := by
  obtain ⟨hun, hturn, htally⟩ := unloaded_run (Nat.le_refl 1190)
  have hturn : (machine.run Boot.plain.init (unloaded 1190)).noloadPort = 0 := Fin.ext hturn
  have hbelow : machine.tally (Watch.noload.below 0) Boot.plain.init 0
      (unloaded 1190 ++ [.noloadTick]) = 120 := by
    rw [Machine.tally_concat, htally, hun.below, if_pos hturn]
  obtain ⟨hstop, hfinal⟩ := noload_exact .plain 0 (unloaded 1190) (unloaded_keeps 1190) hturn
  have hlong : 120 ≤ machine.tally (Watch.noload.below 0) Boot.plain.init 0
      (unloaded 1190 ++ [.noloadTick]) := Nat.le_of_eq hbelow.symm
  refine ⟨hbelow, (hstop.2 ⟨hun.charging, .inl hlong⟩).2, ?_⟩
  rw [hfinal, if_pos ⟨hun.charging, hlong⟩]
  rfl

end Thing

end ChargingPile
