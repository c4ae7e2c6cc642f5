import ChargingPile.Loader.Follow

/-!
# When the lower end is reset for want of handshakes

The `CommGuard` fires at its third tick in a row without a handshake packet of the application's
own type, once there was one. It asks the `WatchDog` for a reset after a second, and nothing takes
that back: the reset comes with the sixth second after it, whatever packets arrive until then
(`Pile.bark_iff`).
-/

namespace ChargingPile.Pile

/-- What the guard of the lower end has seen since the boot: its ticks since the last
handshake, if there was one, up to the third of them; and the seconds since it fired for the
first time, if it did. -/
structure Watch where
  silent : Option Nat
  fired : Option Nat

/-- The ticks of the guard that make it fire. -/
def kSilence : Nat := 3

/-- The seconds that go by from then to the reset, but for the last one. -/
def kGrace : Nat := 5

/-- What an event adds to it. -/
def Watch.next (p : Pile) (e : Event) (w : Watch) : Watch :=
  match e with
  | .deliver =>
    match p.link.head?, p.lower.app with
    | some type, some a => if type = a.type then { w with silent := some 0 } else ⟨none, none⟩
    | _, _ => w
  | .guard =>
    match w.silent with
    | none => w
    | some k =>
      if k = kSilence then w
      else ⟨some (k + 1), if k + 1 = kSilence then some (w.fired.getD 0) else w.fired⟩
  | .second => if w.fired = some kGrace then ⟨none, none⟩
      else { w with fired := w.fired.map (· + 1) }
  | .reset .lower => ⟨none, none⟩
  | _ => w

/-- What the guard has seen in a run. -/
def watch (params : OtaParams) (es : List Event) : Watch :=
  machine.tally Watch.next (powerUp params) ⟨none, none⟩ es

/-- The countdown of the guard counts the ticks that are left. -/
def Counts (c : CountDown) : Option Nat → Prop
  | none => c = .ofInit kSilence
  | some k => k ≤ kSilence ∧ c = ⟨true, kSilence - k, kSilence⟩

/-- The watch dog is fed, is about to notice the request, or is not fed any more. -/
def Feeds (w : WatchDog) : Option Nat → Prop
  | none => w = .boot
  | some 0 => w = ⟨⟨true, 1, 1⟩, true, WatchDog.kTimeoutS⟩
  | some (k + 1) => w.feedCond = false ∧ w.left + k = kGrace ∧ k < kGrace

/-- The guard and the watch dog are where what they have seen puts them. -/
structure Watches (a : LowerApp) (w : Watch) : Prop where
  counts : Counts a.count w.silent
  feeds : Feeds a.watchDog w.fired

theorem watches_boot (type : HandshakeType) : Watches (.boot type) ⟨none, none⟩ := ⟨rfl, rfl⟩

variable {a : LowerApp} {w : Watch}

/-- A handshake of its own type starts the countdown anew. -/
theorem Watches.handshake (h : Watches a w) :
    Watches (a.onHandshake a.type) { w with silent := some 0 } := by
  obtain ⟨hcounts, hfeeds⟩ := h
  obtain ⟨type, count, dog⟩ := a
  obtain ⟨silent, fired⟩ := w
  rw [LowerApp.onHandshake, if_neg (by simp)]
  refine ⟨⟨Nat.zero_le _, ?_⟩, hfeeds⟩
  cases silent with
  | none =>
    have hcount : count = .ofInit kSilence := hcounts
    subst hcount
    rfl
  | some k =>
    have hcount : count = ⟨true, kSilence - k, kSilence⟩ := hcounts.2
    subst hcount
    rfl

/-- A request for a reset changes nothing once one has been noticed. -/
theorem Feeds.resetAfter {dog : WatchDog} {fired : Option Nat} (h : Feeds dog fired) :
    Feeds (dog.resetAfter 1) (some (fired.getD 0)) := by
  match fired with
  | none =>
    have hdog : dog = .boot := h
    subst hdog
    rfl
  | some 0 =>
    have hdog : dog = ⟨⟨true, 1, 1⟩, true, WatchDog.kTimeoutS⟩ := h
    subst hdog
    rfl
  | some (k + 1) => exact h

/-- A tick of the guard. -/
theorem Watches.guard (h : Watches a w) (p : Pile) : Watches a.guardRun (w.next p .guard) := by
  obtain ⟨hcounts, hfeeds⟩ := h
  obtain ⟨type, count, dog⟩ := a
  obtain ⟨silent, fired⟩ := w
  cases silent with
  | none =>
    have hcount : count = .ofInit kSilence := hcounts
    subst hcount
    exact ⟨rfl, hfeeds⟩
  | some k =>
    obtain ⟨hk, hcount⟩ : k ≤ kSilence ∧ count = ⟨true, kSilence - k, kSilence⟩ := hcounts
    subst hcount
    have hcases : k = 0 ∨ k = 1 ∨ k = 2 ∨ k = 3 := by
      have : kSilence = 3 := rfl
      omega
    rcases hcases with rfl | rfl | rfl | rfl
    · exact ⟨⟨by decide, rfl⟩, hfeeds⟩
    · exact ⟨⟨by decide, rfl⟩, hfeeds⟩
    · exact ⟨⟨by decide, rfl⟩, hfeeds.resetAfter⟩
    · exact ⟨⟨by decide, rfl⟩, hfeeds⟩

/-- The timeout of the hardware runs out with the last second. -/
theorem Feeds.elapse_left {dog : WatchDog} {fired : Option Nat} (h : Feeds dog fired) :
    dog.elapse.left = 0 ↔ fired = some kGrace := by
  match fired with
  | none =>
    have hdog : dog = .boot := h
    subst hdog
    decide
  | some 0 =>
    have hdog : dog = ⟨⟨true, 1, 1⟩, true, WatchDog.kTimeoutS⟩ := h
    subst hdog
    decide
  | some (k + 1) =>
    obtain ⟨hfeed, hleft, hk⟩ := h
    rw [WatchDog.elapse, WatchDog.feed, hfeed, if_neg Bool.false_ne_true, Option.some.injEq]
    dsimp only
    omega

/-- A second without a reset. -/
theorem Feeds.second {dog : WatchDog} {fired : Option Nat} (h : Feeds dog fired)
    (hne : fired ≠ some kGrace) :
    Feeds dog.elapse.timerRun (fired.map (· + 1)) := by
  match fired with
  | none =>
    have hdog : dog = .boot := h
    subst hdog
    rfl
  | some 0 =>
    have hdog : dog = ⟨⟨true, 1, 1⟩, true, WatchDog.kTimeoutS⟩ := h
    subst hdog
    exact ⟨rfl, rfl, by decide⟩
  | some (k + 1) =>
    obtain ⟨hfeed, hleft, hk⟩ := h
    have hk' : k + 1 ≠ kGrace := fun hk => hne (congrArg some hk)
    obtain ⟨f, feedCond, left⟩ := dog
    obtain rfl : feedCond = false := hfeed
    refine ⟨rfl, ?_, by omega⟩
    show left - 1 + (k + 1) = kGrace
    dsimp only at hleft
    omega

/-- What the guard has seen, in a state of both ends. -/
def Seen (p : Pile) (w : Watch) : Prop := ∃ upper lower, Runs p upper lower ∧ Watches lower w

theorem Seen.step {p : Pile} (h : Seen p w) (e : Event) : Seen (p.step e).1 (w.next p e) := by
  obtain ⟨upper, lower, hruns, hw⟩ := h
  obtain ⟨hupper, hlower, hureg, hlreg, hmethod⟩ := hruns
  -- events of the upper end and of the link
  have hsame {q : Pile} (upper' : UpperApp) (hq : q.upper.app = some upper')
      (hqreg : q.upper.loader.register = 0) (hlow : q.lower = p.lower) : Seen q w :=
    ⟨upper', lower, ⟨hq, hlow ▸ hlower, hqreg, hlow ▸ hlreg, hlow ▸ hmethod⟩, hw⟩
  have hboot {q : Pile} (type : HandshakeType) (hq : q.upper = p.upper)
      (hlow : q.lower = ⟨⟨0, LowerEnd.handshakeTypeToMethod type⟩, some (.boot type)⟩) :
        Seen q ⟨none, none⟩ :=
    ⟨upper, .boot type, ⟨hq ▸ hupper, hlow ▸ rfl, hq ▸ hureg, hlow ▸ rfl, hlow ▸ rfl⟩,
      watches_boot type⟩
  cases e with
  | ota params =>
    simp only [Pile.step, hupper]
    cases upper with
    | major => exact hsame (.ota params) rfl rfl rfl
    | ota _ => exact hsame _ hupper hureg rfl
  | done =>
    simp only [Pile.step, hupper]
    cases upper with
    | major => exact hsame _ hupper hureg rfl
    | ota _ => exact hsame .major rfl rfl rfl
  | tick =>
    simp only [Pile.step, hupper]
    exact hsame _ hupper hureg rfl
  | lose n => exact hsame _ hupper hureg rfl
  | deliver =>
    simp only [Pile.step, Watch.next]
    cases hlink : p.link with
    | nil => exact hsame _ hupper hureg rfl
    | cons type link =>
      simp only [List.head?_cons, hlower, receive_eq hlower hmethod]
      split
      next htype =>
        subst htype
        have htype := onHandshake_type lower lower.type
        exact ⟨upper, _, ⟨hupper, rfl, hureg, hlreg, htype.symm ▸ hmethod⟩, hw.handshake⟩
      next => exact hboot type rfl rfl
  | guard =>
    refine ⟨upper, lower.guardRun, ⟨hupper, ?_, hureg, hlreg, hmethod⟩, hw.guard p⟩
    simp only [Pile.step, hlower, Option.map_some]
  | second =>
    simp only [Pile.step, lowerSecond, hlower, hw.feeds.elapse_left, Watch.next]
    split
    next => exact hboot .major rfl (start_reset hlreg)
    next hne =>
      exact ⟨upper, _, ⟨hupper, rfl, hureg, hlreg, hmethod⟩, hw.counts, hw.feeds.second hne⟩
  | reset s =>
    cases s with
    | upper =>
      simp only [Pile.step, upper_reset hureg]
      exact hsame .major rfl rfl rfl
    | lower => exact hboot .major rfl (start_reset hlreg)

theorem seen_run (params : OtaParams) (es : List Event) :
    Seen (machine.run (powerUp params) es) (watch params es) :=
  Machine.tally_inv (C := fun _ _ => True) (fun _ e _ h _ => h.step e)
    (Machine.along_of_mem fun _ _ _ => trivial) ⟨.major, .boot .major, runs_powerUp params,
    watches_boot .major⟩

/-- **The reset by the watch dog, exactly.** In every run a second of the lower end resets it if
and only if it is the sixth one since the guard fired. -/
theorem bark_iff (params : OtaParams) (es : List Event) :
    Output.booted .lower .reset ∈ (machine.step (machine.run (powerUp params) es) .second).2 ↔
      (watch params es).fired = some kGrace := by
  obtain ⟨upper, lower, hruns, hw⟩ := seen_run params es
  simp only [machine_step, Pile.step, lowerSecond, hruns.lowerApp, hw.feeds.elapse_left]
  split
  next h => exact iff_of_true (List.mem_singleton.2 rfl) h
  next h => exact iff_of_false List.not_mem_nil h

end ChargingPile.Pile
