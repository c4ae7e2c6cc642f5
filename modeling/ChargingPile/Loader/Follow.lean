import ChargingPile.Lib.Changes
import ChargingPile.Loader.Basic

/-!
# The lower end follows the upper end

Whatever resets the controllers, the register is clear while they run, so that a reset from outside
starts the major application (`Pile.apps_eq`). The lower end runs the application for the last
packet it was delivered. It restarts for that, but not without end: packets of an earlier
application of the upper end may still be under way, and each of them can turn the lower end around
once more, but the number of its restarts is bounded by the number of the other boots
(`Pile.switches_le`).
-/

namespace ChargingPile

namespace Pile

/-! ## Applications -/

/-- The applications that the controllers are to run. -/
structure Wanted where
  upper : UpperApp
  lower : HandshakeType

/-- An event asks for another application, or resets an end. -/
def Wanted.next (p : Pile) (e : Event) (w : Wanted) : Wanted :=
  match e with
  | .ota params => if w.upper = .major then { w with upper := .ota params } else w
  | .done | .reset .upper => { w with upper := .major }
  | .deliver => { w with lower := p.link.headD w.lower }
  | .second => if (p.step .second).2 = [] then w else { w with lower := .major }
  | .reset .lower => { w with lower := .major }
  | .tick | .lose _ | .guard => w

/-- The applications that a run asks for, the last request of each end counts. -/
def wanted (params : OtaParams) (es : List Event) : Wanted :=
  machine.tally Wanted.next (powerUp params) ⟨.major, .major⟩ es

/-- The controllers run the applications they are to run. -/
def Obeys (p : Pile) (w : Wanted) : Prop := ∃ lower, Runs p w.upper lower ∧ lower.type = w.lower

theorem onHandshake_type (a : LowerApp) (type : HandshakeType) :
    (a.onHandshake type).type = a.type := by
  unfold LowerApp.onHandshake
  split <;> rfl

theorem Obeys.step {p : Pile} {w : Wanted} (h : Obeys p w) (e : Event) :
    Obeys (p.step e).1 (w.next p e) := by
  obtain ⟨upper, type⟩ := w
  obtain ⟨lower, hruns, rfl⟩ := h
  obtain ⟨hupper, hlower, hureg, hlreg, hmethod⟩ := hruns
  dsimp only at hupper
  cases e with
  | ota params =>
    cases upper with
    | major =>
      simp only [Pile.step, hupper, Wanted.next, if_true]
      exact ⟨lower, ⟨rfl, hlower, rfl, hlreg, hmethod⟩, rfl⟩
    | ota params' =>
      simp only [Pile.step, hupper, Wanted.next, reduceCtorEq, if_false]
      exact ⟨lower, ⟨hupper, hlower, hureg, hlreg, hmethod⟩, rfl⟩
  | done =>
    cases upper with
    | major =>
      simp only [Pile.step, hupper, Wanted.next]
      exact ⟨lower, ⟨hupper, hlower, hureg, hlreg, hmethod⟩, rfl⟩
    | ota params' =>
      simp only [Pile.step, hupper, Wanted.next]
      exact ⟨lower, ⟨rfl, hlower, rfl, hlreg, hmethod⟩, rfl⟩
  | tick =>
    simp only [Pile.step, hupper, Wanted.next]
    exact ⟨lower, ⟨hupper, hlower, hureg, hlreg, hmethod⟩, rfl⟩
  | deliver =>
    simp only [Pile.step, Wanted.next]
    cases p.link with
    | nil => exact ⟨lower, ⟨hupper, hlower, hureg, hlreg, hmethod⟩, rfl⟩
    | cons type link =>
      simp only [receive_eq hlower hmethod]
      split
      next htype =>
        have hsame := onHandshake_type lower type
        exact ⟨_, ⟨hupper, rfl, hureg, hlreg, hsame.symm ▸ hmethod⟩, hsame.trans htype.symm⟩
      next => exact ⟨.boot type, ⟨hupper, rfl, hureg, rfl, rfl⟩, rfl⟩
  | lose n => exact ⟨lower, ⟨hupper, hlower, hureg, hlreg, hmethod⟩, rfl⟩
  | guard =>
    refine ⟨lower.guardRun, ⟨hupper, ?_, hureg, hlreg, hmethod⟩, rfl⟩
    simp only [Pile.step, hlower, Option.map_some]
  | second =>
    simp only [Pile.step, Wanted.next, lowerSecond, hlower]
    split
    next =>
      simp only [LowerEnd.reset, start_reset hlreg]
      exact ⟨.boot .major, ⟨hupper, rfl, hureg, rfl, rfl⟩, rfl⟩
    next => exact ⟨_, ⟨hupper, rfl, hureg, hlreg, hmethod⟩, rfl⟩
  | reset s =>
    cases s with
    | upper =>
      simp only [Pile.step, Wanted.next, upper_reset hureg]
      exact ⟨lower, ⟨rfl, hlower, rfl, hlreg, hmethod⟩, rfl⟩
    | lower =>
      simp only [Pile.step, Wanted.next, LowerEnd.reset, start_reset hlreg]
      exact ⟨.boot .major, ⟨hupper, rfl, hureg, rfl, rfl⟩, rfl⟩

theorem obeys_run (params : OtaParams) (es : List Event) :
    Obeys (machine.run (powerUp params) es) (wanted params es) :=
  Machine.tally_inv (C := fun _ _ => True) (fun _ e _ h _ => h.step e)
    (Machine.along_of_mem fun _ _ _ => trivial) ⟨.boot .major, runs_powerUp params, rfl⟩

/-- **The applications follow the requests.** In every run the upper end runs the update that was
asked for last, with its parameters, or the major application if it was reset or the update is
done; and the lower end runs the application for the last packet it was delivered since it was
reset, the major one if there is none. The registers are clear. -/
theorem apps_eq (params : OtaParams) (es : List Event) :
    (machine.run (powerUp params) es).upper.app = some (wanted params es).upper ∧
    (machine.run (powerUp params) es).lower.app.map LowerApp.type = some (wanted params es).lower ∧
    (machine.run (powerUp params) es).upper.loader.register = 0 ∧
    (machine.run (powerUp params) es).lower.loader.register = 0 := by
  obtain ⟨lower, hruns, htype⟩ := obeys_run params es
  refine ⟨hruns.upperApp, ?_, hruns.upperRegister, hruns.lowerRegister⟩
  rw [hruns.lowerApp, Option.map_some, htype]

/-! ## Restarts -/

/-- The lower end restarts by itself. -/
def Output.isSwitch : Output → Bool
  | .booted .lower .loader => true
  | _ => false

/-- How often the lower end would restart if nothing was lost and nothing else happened. -/
def turns (p : Pile) (upper : UpperApp) (lower : LowerApp) : Nat :=
  changes lower.type (p.link ++ [upper.type])

/-- The restarts so far and those to come are bounded by the other boots so far. -/
def Bounded (tr : List Output) (p : Pile) : Prop :=
  ∃ upper lower, Runs p upper lower ∧
    tr.countP Output.isSwitch + turns p upper lower ≤ tr.countP (!·.isSwitch)

/-- One more output, that pays for the turns it adds. -/
theorem bounded_concat {tr out : List Output} {p : Pile} {n : Nat}
    (h : tr.countP Output.isSwitch + n ≤ tr.countP (!·.isSwitch)) (upper : UpperApp)
    (lower : LowerApp) (hruns : Runs p upper lower)
    (hout : out.countP Output.isSwitch + turns p upper lower ≤ n + out.countP (!·.isSwitch)) :
    Bounded (tr ++ out) p := by
  refine ⟨upper, lower, hruns, ?_⟩
  rw [List.countP_append, List.countP_append]
  omega

theorem Bounded.step {tr : List Output} {p : Pile} (h : Bounded tr p) (e : Event) :
    Bounded (tr ++ (p.step e).2) (p.step e).1 := by
  obtain ⟨upper, lower, hruns, hle⟩ := h
  obtain ⟨hupper, hlower, hureg, hlreg, hmethod⟩ := hruns
  -- a boot of the upper end changes the last element, a reset of the lower end the first
  have hlast (upper' : UpperApp) :
      changes lower.type (p.link ++ [upper'.type]) ≤ turns p upper lower + 1 :=
    changes_concat_le _ _ _ _
  have hfirst : changes .major (p.link ++ [upper.type]) ≤ turns p upper lower + 1 := by
    have := changes_le_of_head .major lower.type (p.link ++ [upper.type])
    unfold turns
    split at this <;> omega
  cases e with
  | ota params =>
    cases upper with
    | major =>
      simp only [Pile.step, hupper]
      refine bounded_concat hle (.ota params) lower ⟨rfl, hlower, rfl, hlreg, hmethod⟩ ?_
      have := hlast (.ota params)
      simpa [turns, Output.isSwitch] using this
    | ota params' =>
      simp only [Pile.step, hupper]
      exact bounded_concat hle _ _ ⟨hupper, hlower, hureg, hlreg, hmethod⟩ (by simp)
  | done =>
    cases upper with
    | major =>
      simp only [Pile.step, hupper]
      exact bounded_concat hle _ _ ⟨hupper, hlower, hureg, hlreg, hmethod⟩ (by simp)
    | ota params' =>
      simp only [Pile.step, hupper]
      refine bounded_concat hle .major lower ⟨rfl, hlower, rfl, hlreg, hmethod⟩ ?_
      have := hlast .major
      simpa [turns, Output.isSwitch] using this
  | tick =>
    simp only [Pile.step, hupper]
    refine bounded_concat hle _ _ ⟨hupper, hlower, hureg, hlreg, hmethod⟩ ?_
    simp [turns, changes_concat_concat]
  | deliver =>
    simp only [Pile.step]
    cases hlink : p.link with
    | nil => exact bounded_concat hle _ _ ⟨hupper, hlower, hureg, hlreg, hmethod⟩ (by simp)
    | cons type link =>
      simp only [receive_eq hlower hmethod]
      split
      next htype =>
        have hsame := onHandshake_type lower type
        refine bounded_concat hle _ _ ⟨hupper, rfl, hureg, hlreg, hsame.symm ▸ hmethod⟩ ?_
        rw [turns, hsame, turns, hlink, List.cons_append, changes, if_pos htype.symm, htype]
        simp
      next htype =>
        refine bounded_concat hle upper (.boot type) ⟨hupper, rfl, hureg, rfl, rfl⟩ ?_
        have hne : lower.type ≠ type := fun h => htype h.symm
        simp [turns, hlink, changes, hne, Output.isSwitch, LowerApp.boot]
  | lose n =>
    refine bounded_concat hle _ _ ⟨hupper, hlower, hureg, hlreg, hmethod⟩ ?_
    have :=
      changes_le_of_sublist ((List.eraseIdx_sublist p.link n).append_right [upper.type]) lower.type
    simpa [turns, Pile.step] using this
  | guard =>
    have happ : (p.step .guard).1.lower.app = some lower.guardRun := by
      simp only [Pile.step, hlower, Option.map_some]
    refine bounded_concat hle upper lower.guardRun ⟨hupper, happ, hureg, hlreg, hmethod⟩ ?_
    simp [turns, Pile.step, LowerApp.guardRun]
  | second =>
    simp only [Pile.step, lowerSecond, hlower]
    split
    next =>
      simp only [LowerEnd.reset, start_reset hlreg]
      refine bounded_concat hle upper (.boot .major) ⟨hupper, rfl, hureg, rfl, rfl⟩ ?_
      simpa [turns, Output.isSwitch, LowerApp.boot] using hfirst
    next =>
      refine bounded_concat hle _ _ ⟨hupper, rfl, hureg, hlreg, hmethod⟩ ?_
      simp [turns]
  | reset s =>
    cases s with
    | upper =>
      simp only [Pile.step, upper_reset hureg]
      refine bounded_concat hle .major lower ⟨rfl, hlower, rfl, hlreg, hmethod⟩ ?_
      have := hlast .major
      simpa [turns, Output.isSwitch] using this
    | lower =>
      simp only [Pile.step, LowerEnd.reset, start_reset hlreg]
      refine bounded_concat hle upper (.boot .major) ⟨hupper, rfl, hureg, rfl, rfl⟩ ?_
      simpa [turns, Output.isSwitch, LowerApp.boot] using hfirst

/-- **No endless restarts.** In every run, with any packets lost, the lower end restarts by itself
at most as often as the upper end boots and the lower end is reset. -/
theorem switches_le (params : OtaParams) (es : List Event) :
    (machine.trace (powerUp params) es).countP Output.isSwitch ≤
      (machine.trace (powerUp params) es).countP (!·.isSwitch) := by
  have hbounded : Bounded (machine.trace (powerUp params) es) (machine.run (powerUp params) es) :=
    Machine.trace_inv (C := fun _ _ => True) (Machine.along_of_mem fun _ _ _ => trivial)
      ⟨.major, .boot .major, runs_powerUp params, Nat.le_refl 0⟩ fun _ _ e h _ => h.step e
  obtain ⟨_, _, -, hle⟩ := hbounded
  exact Nat.le_of_add_right_le hle

end Pile

end ChargingPile
