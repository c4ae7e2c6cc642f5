import ChargingPile.Thing.Invariant

/-!
# The states a port publishes

Which states of a port can follow each other, over whole runs from boot. A `LoadWaitRemove` tells
the `DataSetter` that a session has ended. It comes right after a `Charging` as long as no `stop`
command finds the relay unset (`Boot.published_loadWaitRemove_iff`): `Charger::stop` does not check
the state it is called in, and the unset relay makes the value `Off` a change.
-/

namespace ChargingPile

section
variable {α : Type} {a b : α} {l m : List α}

/-- Every `a` in the list comes right after a `b`. -/
def Follows (a b : α) (l : List α) : Prop :=
  ∀ pre post, l = pre ++ a :: post → pre.getLast? = some b

theorem Follows.left (h : Follows a b (l ++ m)) : Follows a b l := by
  intro pre post hl
  exact h pre (post ++ m) (by simp [hl])

theorem Follows.append (h : Follows a b l) (hm : a ∉ m) : Follows a b (l ++ m) := by
  intro pre post hl
  rcases List.append_eq_append_iff.1 hl with ⟨c, rfl, hc⟩ | ⟨c, rfl, hc⟩
  · exact absurd (by simp [hc]) hm
  · cases c with
    | nil => exact absurd (show a ∈ [] ++ m from hc ▸ List.mem_cons_self) hm
    | cons d c =>
      obtain ⟨rfl, -⟩ := List.cons.inj hc
      exact h pre c rfl

theorem Follows.concat (h : Follows a b l) (hl : l.getLast? = some b) :
    Follows a b (l ++ [a]) := by
  intro pre post hpp
  rcases List.eq_nil_or_concat post with rfl | ⟨post', c, rfl⟩
  · obtain ⟨rfl, -⟩ := List.append_inj' hpp rfl
    exact hl
  · have hpp' : l ++ [a] = (pre ++ a :: post') ++ [c] := by simp [hpp]
    exact h pre post' (List.append_inj' hpp' rfl).1

end

/-- Every state that port `j` published, from its construction to the end of the run `es`. -/
def Boot.published (b : Boot) (j : InnerPort) (es : List Event) : List State :=
  (b.charger j).2 ++ statesOf (outputsOf j (Thing.machine.trace b.init es))

namespace Thing

/-- The states port `j` publishes at an event. -/
def publishes (t : Thing) (j : InnerPort) (e : Event) : List State :=
  statesOf (outputsOf j (t.step e).2)

/-- An event as it shows at the charger of port `j`: nothing happens, or one call is made. -/
theorem step_call (t : Thing) (e : Event) (j : InnerPort) :
    (e.opOn t j = none ∧ ((t.step e).1.ports j).charger = (t.ports j).charger ∧
      t.publishes j e = []) ∨
    ∃ (x : Ctx) (op : Op), x.At t j ∧ e.opOn t j = some op ∧
      ((t.step e).1.ports j).charger = (op.call x (t.ports j)).1 ∧
      t.publishes j e = (op.call x (t.ports j)).2 := by
  obtain ⟨x, spec, bs, hx, hp, ho⟩ := t.step_local e j
  unfold publishes
  rw [hp, ho]
  cases hop : e.opOn t j with
  | none => exact .inl ⟨rfl, rfl, by simp [Port.execOpt]⟩
  | some op =>
    obtain ⟨hc, hs⟩ := Port.exec_call x (t.ports j) op
    exact .inr ⟨x, op, hx, rfl, hc, by simp [Port.execOpt, hs]⟩

/-- What an event can do to the relay of port `j` and to its published states. -/
inductive Shift (t : Thing) (j : InnerPort) (e : Event) : Prop
  /-- The relay is closed. `Charging` is the last state published. -/
  | closes (hr : (t.ports j).charger.relay ≠ some .on)
      (hr' : ((t.step e).1.ports j).charger.relay = some .on)
      (hs : t.publishes j e = [.charging] ∨ t.publishes j e = [.loadInserted, .charging])
      (he : ∀ timerId, e ≠ .stop j timerId)
  /-- The relay is opened, which an unset relay is by a `stop` command only. -/
  | opens (hr : (t.ports j).charger.relay = some .on ∨
        (t.ports j).charger.relay = none ∧ ∃ timerId, e = .stop j timerId)
      (hr' : ((t.step e).1.ports j).charger.relay = some .off)
      (hs : t.publishes j e = [.loadWaitRemove])
  /-- The relay stays as it is. -/
  | keeps (hr' : ((t.step e).1.ports j).charger.relay = (t.ports j).charger.relay)
      (hs : t.publishes j e = [] ∨ (t.ports j).charger.relay ≠ some .on ∧
        t.publishes j e = [.loadNotInsert])
      (he : ∀ timerId, e = .stop j timerId → (t.ports j).charger.relay ≠ none)

theorem step_shift {t : Thing} {j : InnerPort} (h : (t.ports j).Inv) (e : Event) :
    t.Shift j e := by
  rcases t.step_call e j with ⟨hop, hc, hs⟩ | ⟨x, op, -, hop, hc, hs⟩
  · refine .keeps (by rw [hc]) (.inl hs) ?_
    intro timerId he
    rw [he, Event.opOn, if_pos rfl] at hop
    cases hop
  · rcases op.call_cases h.charger x with ⟨hk, hr⟩ | ⟨hk, hr⟩ | ⟨i, u, hk, hr⟩
    · -- a `start`, which no `stop` command makes
      rw [hr] at hc hs
      have hns : ∀ timerId, e ≠ .stop j timerId := by
        intro timerId he
        rw [Event.opOn_stop.2 he] at hop
        cases hop
        rcases hk with ⟨_, _, hk⟩ | ⟨_, hk⟩ <;> cases hk
      by_cases hon : (t.ports j).charger.relay = some .on
      · rw [Charger.start_on hon] at hc hs
        exact .keeps (by rw [hc]) (.inl hs) fun timerId he => absurd he (hns timerId)
      · rw [Charger.start_spec h.charger hon] at hc hs
        refine .closes hon (by rw [hc]) ?_ hns
        rw [hs]
        split
        · exact .inl rfl
        · exact .inr rfl
    · rw [hr] at hc hs
      by_cases hoff : (t.ports j).charger.relay = some .off
      · rw [Charger.stop_off hoff] at hc hs
        exact .keeps (by rw [hc]) (.inl hs) fun _ _ => by simp [hoff]
      · rw [Charger.stop_spec h.charger hoff] at hc hs
        refine .opens ?_ (by rw [hc]) hs
        cases hrel : (t.ports j).charger.relay with
        | some r =>
          cases r with
          | on => exact .inl rfl
          | off => exact absurd hrel hoff
        | none =>
          rcases hk with ⟨timerId, hk⟩ | hk | ⟨-, hk⟩
          · exact .inr ⟨rfl, timerId, Event.opOn_stop.1 (hop.trans (congrArg some hk))⟩
          · rw [hrel] at hk; cases hk.2
          · -- an unset relay and a limiter that expires exclude each other
            rw [CountDown.updateAndCheck_fst, h.limiter_unset hrel] at hk
            cases hk.1
    · refine .keeps ?_ ?_ ?_
      · rw [hc]; exact hr.relay
      · rw [hs]
        by_cases hon : (t.ports j).charger.relay = some .on
        · exact .inl (hr.closed hon).1
        · rcases (hr.opened hon).1 with ⟨hp, -⟩ | ⟨hp, -⟩
          · exact .inl hp
          · exact .inr ⟨hon, hp⟩
      · intro timerId he hnone
        rw [Event.opOn_stop.2 he] at hop
        cases hop
        have hq := hr.relay
        rw [Op.call, Charger.stop_spec h.charger (by simp [hnone])] at hq
        rw [show ({ (t.ports j).charger with current := i, voltage := u } : Charger).relay = none
          from hnone] at hq
        cases hq

end Thing

namespace Boot

variable {b : Boot} {j : InnerPort}

theorem published_nil (b : Boot) (j : InnerPort) : b.published j [] = (b.charger j).2 :=
  List.append_nil _

theorem published_concat (b : Boot) (j : InnerPort) (es : List Event) (e : Event) :
    b.published j (es ++ [e]) =
      b.published j es ++ (Thing.machine.run b.init es).publishes j e := by
  simp only [published, Machine.trace_concat, outputsOf_append, statesOf_append, List.append_assoc]
  rfl

/-- While the relay is closed, `Charging` is the last state published. Before it is first driven,
`Charging` was never published. -/
theorem published_relay (b : Boot) (j : InnerPort) (es : List Event) :
    (((Thing.machine.run b.init es).ports j).charger.relay = some .on →
      (b.published j es).getLast? = some .charging) ∧
    (((Thing.machine.run b.init es).ports j).charger.relay = none →
      .charging ∉ b.published j es) := by
  induction es using List.reverseRecOn with
  | nil =>
    obtain ⟨-, hr, hs⟩ := b.charger_unset j
    rw [Machine.run_nil, init_charger, published_nil, hr]
    refine ⟨nofun, ?_⟩
    intro _ hmem
    cases hs _ hmem
  | append_singleton es e ih =>
    rw [Machine.run_concat, published_concat]
    rcases Thing.step_shift (Thing.reachable_inv b es j) e with ⟨-, hr', hs, -⟩ | ⟨-, hr', hs⟩ |
      ⟨hr', hs, -⟩
    · refine ⟨?_, ?_⟩
      · intro _
        rcases hs with hs | hs <;> simp [hs]
      · intro hnone
        exact absurd (hr'.symm.trans hnone) (by simp)
    · refine ⟨?_, ?_⟩
      · intro hon
        exact absurd (hr'.symm.trans hon) (by simp)
      · intro hnone
        exact absurd (hr'.symm.trans hnone) (by simp)
    · rw [Thing.machine_step, hr']
      refine ⟨?_, ?_⟩
      · intro hon
        rcases hs with hs | ⟨hne, -⟩
        · simpa [hs] using ih.1 hon
        · exact absurd hon hne
      · intro hnone hmem
        rcases List.mem_append.1 hmem with hmem | hmem
        · exact ih.2 hnone hmem
        · rcases hs with hs | ⟨-, hs⟩ <;> simp [hs] at hmem

/-- No `stop` command finds the relay of port `j` unset. -/
def StopsDriven (j : InnerPort) (t : Thing) (e : Event) : Prop :=
  ∀ timerId, e = .stop j timerId → (t.ports j).charger.relay ≠ none

/-- **Ends of sessions.** In a run from boot, every `LoadWaitRemove` that port `j` publishes comes
right after a `Charging`, exactly if no `stop` command finds the port's relay unset. -/
theorem published_loadWaitRemove_iff (b : Boot) (es : List Event) (j : InnerPort) :
    Follows .loadWaitRemove .charging (b.published j es) ↔
      Thing.machine.Along (StopsDriven j) b.init es := by
  induction es using List.reverseRecOn with
  | nil =>
    refine ⟨fun _ => trivial, ?_⟩
    intro _
    rw [published_nil]
    intro pre post hpp
    have := (b.charger_unset j).2.2 .loadWaitRemove (by simp [hpp])
    cases this
  | append_singleton es e ih =>
    rw [published_concat, Machine.along_append, ← ih, Machine.along_cons]
    obtain ⟨hon, hnone⟩ := published_relay b j es
    rcases Thing.step_shift (Thing.reachable_inv b es j) e with ⟨-, -, hs, he⟩ | ⟨hr, -, hs⟩ |
      ⟨-, hs, he⟩
    · have hmem : State.loadWaitRemove ∉ (Thing.machine.run b.init es).publishes j e := by
        rcases hs with hs | hs <;> simp [hs]
      exact ⟨fun h => ⟨h.left, fun timerId h' => absurd h' (he timerId), trivial⟩,
        fun h => h.1.append hmem⟩
    · rw [hs]
      rcases hr with hr | ⟨hr, timerId, he⟩
      · exact ⟨fun h => ⟨h.left, fun _ _ => by simp [hr], trivial⟩, fun h => h.1.concat (hon hr)⟩
      · refine ⟨fun h => ?_, fun h => absurd hr (h.2.1 timerId he)⟩
        have hlast := h (b.published j es) [] rfl
        exact absurd (List.mem_of_getLast? hlast) (hnone hr)
    · have hmem : State.loadWaitRemove ∉ (Thing.machine.run b.init es).publishes j e := by
        rcases hs with hs | ⟨-, hs⟩ <;> simp [hs]
      exact ⟨fun h => ⟨h.left, he, trivial⟩, fun h => h.1.append hmem⟩

/-- A `stop` command right after boot publishes `LoadWaitRemove` on a port that never charged. -/
theorem stop_after_boot_publishes :
    plain.published 0 [.stop 0 7] = [.loadWaitRemove] ∧
      ¬ Follows .loadWaitRemove .charging (plain.published 0 [.stop 0 7]) := by
  have h : plain.published 0 [.stop 0 7] = [.loadWaitRemove] := rfl
  refine ⟨h, ?_⟩
  intro hf
  have := hf [] [] h
  cases this

end Boot

end ChargingPile
