import ChargingPile.Thing.Counter

/-!
# What closes a relay, and for how long

A relay is closed by a `control` command or by the resumption of a saved session, and by
nothing else. Either one sets the seconds of the port, and so does a resumption that finds
no saved session: it closes no relay, but if a command came before it, it takes the time of
that command away.

While the relay of a port is closed, the seconds that are left are those that were set last, less
the ticks of the `Counter` since then, and fewer ticks have passed than were set
(`closed_relay_timed`).
-/

namespace ChargingPile

theorem Charger.start_states {c : Charger} {nr : Bool} (hc : c.Inv) :
    .loadWaitRemove ∉ (c.start nr).2 := by
  by_cases hon : c.relay = some .on
  · rw [start_on hon]
    simp
  · rw [start_spec hc hon]
    split <;> simp

/-- The `Backuper` resumes the port at this turn. -/
def Port.Resumes (p : Port) : Prop :=
  p.backuper.fResume.updateAndCheck.1 = true ∧ p.backuper.stateHasTransitioned = false

instance (p : Port) : Decidable p.Resumes := inferInstanceAs (Decidable (_ ∧ _))

/-- The seconds that an operation sets. -/
def Op.setsTime (p : Port) : Op → Option Int
  | .control _ minutes => some (int32 (minutes * 60))
  | .resume backup => if p.Resumes then some backup.leftSeconds else none
  | _ => none

namespace Port

variable {x : Ctx} {p : Port} {op : Op}

/-- An operation that sets the time leaves it as it has set it. -/
theorem exec_setsTime {n : Int} (h : p.Inv) (hn : op.setsTime p = some n) :
    (p.exec x op).1.info.leftSeconds = n := by
  rw [exec_leftSeconds]
  cases op with
  | control timerId minutes =>
    rw [Op.call, if_neg (Charger.start_states h.charger)]
    exact Option.some.inj hn
  | resume backup =>
    have hresumes : p.Resumes := (Option.ite_none_right_eq_some.1 hn).1
    rw [Op.setsTime, if_pos hresumes] at hn
    have hstates : .loadWaitRemove ∉ (Op.call x p (.resume backup)).2 := by
      simp only [Op.call]
      split
      · exact Charger.start_states h.charger
      · simp
    rw [if_neg hstates]
    simp only [Op.before, hresumes.1, hresumes.2, Bool.not_false, Bool.and_true, if_true]
    exact Option.some.inj hn
  | _ => cases hn

/-- What closes the relay of a port sets its time. -/
theorem closes_setsTime (h : p.Inv) (hoff : p.charger.relay ≠ some .on)
    (hon : (op.call x p).1.relay = some .on) :
    (∃ timerId minutes, op = .control timerId minutes) ∨
      ∃ backup, op = .resume backup ∧ p.Resumes ∧ backup.leftSeconds ≠ 0 := by
  rcases op.call_cases h.charger x with ⟨hop, -⟩ | ⟨-, hr⟩ | ⟨i, u, -, hr⟩
  · rcases hop with hcontrol | ⟨backup, rfl⟩
    · exact .inl hcontrol
    · rw [Op.call] at hon
      split at hon
      next hguard =>
        obtain ⟨hcount, htransitioned, hleft⟩ := hguard
        exact .inr ⟨backup, rfl, ⟨hcount, by simpa using htransitioned⟩, hleft⟩
      next => exact absurd hon hoff
  · rw [hr, stop_relay h.charger] at hon
    cases hon
  · exact absurd (hr.relay.symm.trans hon) hoff

/-- An operation that sets no time and leaves the relay closed: a tick of the `Counter` takes a
second off and leaves some, and the others leave the time alone. -/
theorem exec_time (h : p.Inv) (hn : op.setsTime p = none) (hon : p.charger.relay = some .on)
    (hon' : (op.call x p).1.relay = some .on) :
    (p.exec x op).1.info.leftSeconds = (op.before p).info.leftSeconds ∧
      (op = .counter → (op.before p).info.leftSeconds = int32 (p.info.leftSeconds - 1) ∧
        0 < int32 (p.info.leftSeconds - 1)) ∧
      (op ≠ .counter → (op.before p).info.leftSeconds = p.info.leftSeconds) := by
  have hs := h.charger.charging_iff.2 hon
  refine ⟨?_, ?_, ?_⟩
  · rw [exec_leftSeconds, (call_kept h hon hon').1]
    simp
  · rintro rfl
    refine ⟨by simp [Op.before, hs], ?_⟩
    by_contra hle
    rw [Op.call, if_pos ⟨hs, by omega⟩, stop_relay h.charger] at hon'
    cases hon'
  · intro hne
    cases op with
    | control | counter => contradiction
    | limiter | noload =>
      simp only [Op.before]
      split <;> rfl
    | resume backup =>
      have hresumes : ¬ p.Resumes := fun hr => by simp [Op.setsTime, hr] at hn
      simp only [Op.before]
      rw [if_neg]
      simpa [Resumes] using hresumes
    | _ => rfl

end Port

namespace Thing

variable {t : Thing} {j : InnerPort} {e : Event}

/-- The seconds that an event sets at port `j`: those of a `control` command, or of the saved
session when the `Backuper` resumes the port. -/
def setsTime (t : Thing) (j : InnerPort) : Event → Option Int
  | .control i _ minutes => if i = j then some (int32 (minutes * 60)) else none
  | .backupTick =>
    if t.resumePort = j ∧ (t.ports j).Resumes then some (t.man j).leftSeconds else none
  | _ => none

theorem setsTime_eq (t : Thing) (j : InnerPort) (e : Event) :
    t.setsTime j e = (e.opOn t j).bind (Op.setsTime (t.ports j)) := by
  cases e with
  | control i timerId minutes =>
    simp only [setsTime, Event.opOn]
    split <;> rfl
  | backupTick =>
    simp only [setsTime, Event.opOn]
    by_cases hturn : t.resumePort = j
    · simp [hturn, Op.setsTime]
    · simp [hturn]
  | stop | current | voltage | detector | noloadTick | dataTick =>
    simp only [setsTime, Event.opOn]
    split <;> rfl
  | _ => rfl

/-- What is known of a port `post` after its time was set to `n`. -/
def Timed (j : InnerPort) (n : Int) (post : List Event) (t : Thing) : Prop :=
  -2 ^ 31 < n → n < 2 ^ 31 → (post.count .counterTick : Int) < max n 1 ∧
    (t.ports j).info.leftSeconds = n - post.count .counterTick

/-- An event that sets the time. -/
theorem step_setsTime {n : Int} (h : (t.ports j).Inv) (hn : t.setsTime j e = some n) :
    Timed j n [] (t.step e).1 := by
  intro _ _
  obtain ⟨x, -, hs, -⟩ := t.step_settles e j
  rw [setsTime_eq] at hn
  obtain ⟨op, hop, hn⟩ := Option.bind_eq_some_iff.1 hn
  rw [hs.info, hop, Port.execOpt, Port.exec_setsTime h hn]
  simp

/-- An event that sets no time, and after which the relay is closed. -/
theorem step_time (h : (t.ports j).Inv) (hn : t.setsTime j e = none)
    (hon' : ((t.step e).1.ports j).charger.relay = some .on) :
    (t.ports j).charger.relay = some .on ∧
      ∀ n post, Timed j n post t → Timed j n (post ++ [e]) (t.step e).1 := by
  obtain ⟨x, -, hs, -⟩ := t.step_settles e j
  rw [setsTime_eq] at hn
  rw [hs.charger] at hon'
  unfold Timed
  rw [hs.info]
  cases hop : e.opOn t j with
  | none =>
    have hne : e ≠ .counterTick := by
      rintro rfl
      cases hop
    rw [hop, Port.execOpt] at hon'
    refine ⟨hon', fun n post => ?_⟩
    rw [List.count_append, List.count_cons_of_ne hne]
    exact id
  | some op =>
    rw [hop] at hn
    rw [hop, Port.execOpt, (Port.exec_call x _ op).1] at hon'
    have hon : (t.ports j).charger.relay = some .on := by
      by_contra hoff
      rcases Port.closes_setsTime h hoff hon' with ⟨timerId, minutes, rfl⟩ | ⟨backup, rfl, hr, -⟩
      · cases hn
      · simp [Op.setsTime, hr] at hn
    refine ⟨hon, fun n post htimed hlow hhigh => ?_⟩
    obtain ⟨hcount, hleft⟩ := htimed hlow hhigh
    obtain ⟨htime, htick, hother⟩ := Port.exec_time (x := x) h hn hon hon'
    rw [Port.execOpt, htime, List.count_append]
    by_cases hcounter : op = .counter
    · obtain rfl : e = .counterTick := Event.opOn_counter.1 (hcounter ▸ hop)
      obtain ⟨hbefore, hpos⟩ := htick hcounter
      rw [hbefore, List.count_singleton_self]
      rw [hleft, int32_of_fits (by omega) (by omega)] at hpos ⊢
      push_cast
      omega
    · have hne : e ≠ .counterTick := by
        rintro rfl
        exact hcounter (Option.some.inj hop).symm
      rw [hother hcounter, List.count_cons_of_ne hne, List.count_nil, Nat.add_zero]
      exact ⟨hcount, hleft⟩

/-- An event closes the relay of port `j`. -/
def Closes (j : InnerPort) (t : Thing) (e : Event) : Prop :=
  (t.ports j).charger.relay ≠ some .on ∧ ((t.step e).1.ports j).charger.relay = some .on

/-- **Closed relays.** In every run from boot, an event that closes the relay of port `j` is a
`control` command to the port or a resumption of its saved session. If the relay is closed at the
end of the run, there is a last event that set the time of the port, the relay has been closed
since then, fewer ticks of the `Counter` have passed than seconds were set, or none if less than
one was, and the port has the remaining seconds left. -/
theorem closed_relay_timed (b : Boot) (es : List Event) (j : InnerPort) :
    (∀ pre e post, es = pre ++ e :: post → Closes j (machine.run b.init pre) e →
      (∃ timerId minutes, e = .control j timerId minutes) ∨
        e = .backupTick ∧ (machine.run b.init pre).resumePort = j ∧
          ((machine.run b.init pre).ports j).Resumes ∧
          ((machine.run b.init pre).man j).leftSeconds ≠ 0) ∧
    (((machine.run b.init es).ports j).charger.relay = some .on →
      ∃ pre e post n, es = pre ++ e :: post ∧ (machine.run b.init pre).setsTime j e = some n ∧
        machine.Along (fun t e' => (t.ports j).charger.relay = some .on ∧ t.setsTime j e' = none)
          (machine.run b.init (pre ++ [e])) post ∧
        (-2 ^ 31 < n → n < 2 ^ 31 → (post.count .counterTick : Int) < max n 1 ∧
          ((machine.run b.init es).ports j).info.leftSeconds = n - post.count .counterTick)) := by
  refine ⟨?_, ?_⟩
  · rintro pre e post - ⟨hoff, hon⟩
    have h := reachable_inv b pre j
    obtain ⟨x, -, hs, -⟩ := (machine.run b.init pre).step_settles e j
    rw [hs.charger] at hon
    cases hop : e.opOn (machine.run b.init pre) j with
    | none =>
      rw [hop, Port.execOpt] at hon
      exact absurd hon hoff
    | some op =>
      rw [hop, Port.execOpt, (Port.exec_call x _ op).1] at hon
      rcases Port.closes_setsTime h hoff hon with ⟨timerId, minutes, rfl⟩ |
        ⟨backup, rfl, hr, hleft⟩
      · exact .inl ⟨timerId, minutes, Event.opOn_control.1 hop⟩
      · cases e with
        | backupTick =>
          obtain ⟨hturn, hbackup⟩ := Option.ite_none_right_eq_some.1 hop
          obtain rfl := Op.resume.inj (Option.some.inj hbackup)
          exact .inr ⟨rfl, hturn, hr, hleft⟩
        | _ => simp [Event.opOn] at hop
  · refine Machine.exists_last_mark (M := machine) (I := fun t : Thing => (t.ports j).Inv)
      (P := fun t => (t.ports j).charger.relay = some .on) (J := Timed j) (fun _ e => step_inv e)
        (fun t e n h hn _ => step_setsTime h hn)
      (fun t e h hn hon => step_time h hn hon) (reachable_inv b [] j) ?_
    rw [Machine.run_nil, Boot.init_charger, (b.charger_unset j).2.1]
    simp

/-- A command of one minute, and a tick after it. -/
theorem closed_relay_timed_minute :
    ∃ pre e post n, [Event.control 0 7 1, .counterTick] = pre ++ e :: post ∧
      (machine.run Boot.plain.init pre).setsTime 0 e = some n := by
  obtain ⟨pre, e, post, n, heq, hn, -⟩ :=
    (closed_relay_timed .plain [.control 0 7 1, .counterTick] 0).2 (by decide +kernel)
  exact ⟨pre, e, post, n, heq, hn⟩

end Thing

end ChargingPile
