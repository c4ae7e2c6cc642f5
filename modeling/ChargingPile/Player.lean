import ChargingPile.Lib.Machine
import ChargingPile.Voice

/-!
# Playing voices

`Player` (`components/player.cxx`) plays one voice at a time, fragment by fragment: its timer
starts the next fragment when none is playing, or at once after a request (`fIrrupt`). A request
replaces the voice unless a more important one is being played. `play` and the timer exclude each
other by a mutex, so a run is a sequence of requests and ticks; a tick carries the answer that
`isFragmentPlaying` gives in it. `Player.playback_in_order` is about what is started between two
accepted requests.
-/

namespace ChargingPile

/-- `Player::Level`. -/
inductive Level
  | important | ignorable
deriving DecidableEq, Repr

/-- The value of a level as an `int`. -/
def Level.toInt : Level → Int
  | .important => 0
  | .ignorable => 1

/-- `Player`. The iterator `currIt` is the number of fragments before it. -/
structure Player where
  currVoice : Voice
  currLevel : Level
  currIt : Nat
  done : Bool
  fIrrupt : Bool
deriving DecidableEq, Repr

namespace Player

/-- A new player, with what the members that are not initialised happen to hold. -/
def boot (currLevel : Level) (currIt : Nat) : Player :=
  { currVoice := {}, currLevel, currIt, done := true, fIrrupt := false }

/-- The condition under which `Player::play` accepts a request. -/
def accepts (p : Player) (level : Level) : Bool :=
  p.done || level.toInt ≤ p.currLevel.toInt

/-- `Player::play`. -/
def play (p : Player) (voice : Voice) (level : Level) : Player :=
  if p.accepts level then
    { currVoice := voice, currLevel := level, currIt := 0, done := false, fIrrupt := true }
  else p

/-- `timer.onRun`, with the answer of `isFragmentPlaying` and the fragment that is started. -/
def onRun (p : Player) (playing : Bool) : Player × List VoiceFragment :=
  if p.done then (p, [])
  else if p.fIrrupt || !playing then
    match p.currVoice.seq[p.currIt]? with
    | none => ({ p with fIrrupt := false, done := true }, [])
    | some fragment => ({ p with fIrrupt := false, currIt := p.currIt + 1 }, [fragment])
  else (p, [])

/-- What happens to a player. -/
inductive Event
  | play (voice : Voice) (level : Level)
  | tick (playing : Bool)
deriving DecidableEq, Repr

/-- A player and the fragments it starts. -/
def machine : Machine Player Event VoiceFragment where
  step p
    | .play voice level => (p.play voice level, [])
    | .tick playing => p.onRun playing

/-- No request is accepted in this step. -/
def Refused (p : Player) : Event → Prop
  | .play _ level => p.accepts level = false
  | .tick _ => True

instance (p : Player) : (e : Event) → Decidable (p.Refused e)
  | .play _ level => inferInstanceAs (Decidable (p.accepts level = false))
  | .tick _ => .isTrue trivial

/-! ## What one step does -/

section Step

variable {p : Player} {voice : Voice} {level : Level} {playing : Bool}

theorem play_of_accepts (h : p.accepts level = true) :
    p.play voice level = ⟨voice, level, 0, false, true⟩ :=
  if_pos h

theorem play_of_refused (h : p.accepts level = false) : p.play voice level = p :=
  if_neg (by rw [h]; decide)

/-- A tick does nothing, or finds the end of the voice, or starts the fragment it is at; it starts
one while another is playing only after a request. -/
theorem onRun_cases (p : Player) (playing : Bool) :
    p.onRun playing = (p, []) ∨
    (p.currVoice.seq.length ≤ p.currIt ∧
      p.onRun playing = ({ p with fIrrupt := false, done := true }, [])) ∨
    ∃ fragment, p.currVoice.seq[p.currIt]? = some fragment ∧ p.done = false ∧
      (p.fIrrupt = true ∨ playing = false) ∧
      p.onRun playing = ({ p with fIrrupt := false, currIt := p.currIt + 1 }, [fragment]) := by
  unfold onRun
  split
  · exact .inl rfl
  next hdone =>
    split
    next hgo =>
      cases hf : p.currVoice.seq[p.currIt]? with
      | none => exact .inr (.inl ⟨List.getElem?_eq_none_iff.mp hf, rfl⟩)
      | some fragment =>
        exact .inr (.inr ⟨fragment, rfl, by simpa using hdone, by simpa using hgo, rfl⟩)
    · exact .inl rfl

end Step

/-! ## Between two accepted requests -/

/-- The player after the request for a voice has been accepted, and what it has started since. -/
structure Playing (voice : Voice) (level : Level) (started : List VoiceFragment) (p : Player) :
    Prop where
  voice_eq : p.currVoice = voice
  level_eq : p.currLevel = level
  it_le : p.currIt ≤ voice.seq.length
  started_eq : started = voice.seq.take p.currIt
  /-- A request is pending only before the first fragment. -/
  irrupt : p.fIrrupt = true → p.currIt = 0
  finished : p.done = true → p.currIt = voice.seq.length

section Playing

variable {p : Player} {voice : Voice} {level : Level} {started : List VoiceFragment}

/-- An accepted request starts the voice from its beginning. -/
theorem Playing.of_accepts (h : p.accepts level = true) :
    Playing voice level [] (p.play voice level) := by
  rw [play_of_accepts h]
  exact ⟨rfl, rfl, Nat.zero_le _, rfl, fun _ => rfl, fun h => absurd h Bool.false_ne_true⟩

/-- What a step without an accepted request keeps. -/
theorem Playing.step (hp : Playing voice level started p) {e : Event} (he : p.Refused e) :
    Playing voice level (started ++ (machine.step p e).2) (machine.step p e).1 := by
  cases e with
  | play voice' level' =>
    change Playing voice level (started ++ []) (p.play voice' level')
    rw [play_of_refused he, List.append_nil]
    exact hp
  | tick playing =>
    change Playing voice level (started ++ (p.onRun playing).2) (p.onRun playing).1
    obtain h | ⟨hend, h⟩ | ⟨fragment, hf, hdone, -, h⟩ := p.onRun_cases playing
    · rw [h, List.append_nil]
      exact hp
    · rw [h, List.append_nil]
      rw [hp.voice_eq] at hend
      exact ⟨hp.voice_eq, hp.level_eq, hp.it_le, hp.started_eq,
        fun h => absurd h Bool.false_ne_true, fun _ => Nat.le_antisymm hp.it_le hend⟩
    · rw [h]
      rw [hp.voice_eq] at hf
      obtain ⟨hlt, -⟩ := List.getElem?_eq_some_iff.mp hf
      refine ⟨hp.voice_eq, hp.level_eq, hlt, ?_, fun h => absurd h Bool.false_ne_true,
        fun hd => absurd (hdone.symm.trans hd) Bool.false_ne_true⟩
      rw [hp.started_eq, List.take_add_one, hf]
      rfl

/-- What a run without an accepted request keeps. -/
theorem Playing.run (hp : Playing voice level [] p) {es : List Event}
    (hes : machine.Along Refused p es) :
    Playing voice level (machine.trace p es) (machine.run p es) :=
  Machine.trace_inv hes hp fun _ _ _ hp he => hp.step he

/-- The voice is started in order. -/
theorem Playing.started_le (hp : Playing voice level started p) : started <+: voice.seq := by
  rw [hp.started_eq]
  exact List.take_prefix _ _

/-- After the first fragment, a fragment is started only while nothing is playing. -/
theorem Playing.quiet (hp : Playing voice level started p) (hstarted : started ≠ [])
    {playing : Bool} (h : (p.onRun playing).2 ≠ []) : playing = false := by
  obtain heq | ⟨-, heq⟩ | ⟨fragment, -, -, hquiet, -⟩ := p.onRun_cases playing
  · exact absurd (by rw [heq]) h
  · exact absurd (by rw [heq]) h
  · refine hquiet.resolve_left fun hi => hstarted ?_
    rw [hp.started_eq, hp.irrupt hi, List.take_zero]

/-- An ignorable request is refused while an important voice is not done. -/
theorem Playing.refuses_ignorable (hp : Playing voice .important started p)
    (hdone : p.done = false) :
    p.accepts .ignorable = false := by
  rw [accepts, hdone, hp.level_eq]
  rfl

/-- A voice that is done has been started to its end. -/
theorem Playing.started_of_done (hp : Playing voice level started p) (hdone : p.done = true) :
    started = voice.seq := by
  rw [hp.started_eq, hp.finished hdone, List.take_length]

end Playing

/-- A new player that has accepted no request starts nothing. -/
theorem trace_boot {currLevel : Level} {currIt : Nat} {es : List Event}
    (hes : machine.Along Refused (boot currLevel currIt) es) :
    machine.trace (boot currLevel currIt) es = [] := by
  -- it would accept any request, so the run has ticks only, and they leave it as it is
  refine (Machine.trace_inv (I := fun tr p => tr = [] ∧ p = boot currLevel currIt) hes ⟨rfl, rfl⟩
    fun tr p e hp he => ?_).1
  obtain ⟨rfl, rfl⟩ := hp
  cases e with
  | play voice level => exact absurd he (by simp [Refused, accepts, boot])
  | tick playing => exact ⟨rfl, rfl⟩

/-- What is claimed of the events `es` after the request for a voice, which left the player `p`, up
to the next accepted one. -/
structure InOrder (p : Player) (voice : Voice) (level : Level) (es : List Event) : Prop where
  started : machine.trace p es <+: voice.seq
  quiet : ∀ es₁ playing es₂, es = es₁ ++ Event.tick playing :: es₂ → machine.trace p es₁ ≠ [] →
    ((machine.run p es₁).onRun playing).2 ≠ [] → playing = false
  kept : level = .important → (machine.run p es).done = false →
    ∀ voice', machine.step (machine.run p es) (.play voice' .ignorable) = (machine.run p es, [])
  finished : (machine.run p es).done = true → machine.trace p es = voice.seq

/-- A player starts nothing before it has accepted a request, and from one accepted request to the
next it starts the fragments of the accepted voice in order. -/
theorem playback_in_order (currLevel : Level) (currIt : Nat) :
    (∀ es, machine.Along Refused (boot currLevel currIt) es →
      machine.trace (boot currLevel currIt) es = []) ∧
    ∀ before voice level es, (machine.run (boot currLevel currIt) before).accepts level = true →
      machine.Along Refused
        (machine.run (boot currLevel currIt) (before ++ [Event.play voice level])) es →
      InOrder (machine.run (boot currLevel currIt) (before ++ [Event.play voice level])) voice
        level es := by
  refine ⟨fun es hes => trace_boot hes, fun before voice level es haccepts hes => ?_⟩
  rw [Machine.run_concat] at hes ⊢
  have hplaying : Playing voice level [] _ := Playing.of_accepts haccepts
  have hend := hplaying.run hes
  refine ⟨hend.started_le, ?_, ?_, hend.started_of_done⟩
  · rintro es₁ playing es₂ rfl hstarted
    exact (hplaying.run hes.left).quiet hstarted
  · rintro rfl hdone voice'
    exact congrArg (·, []) (play_of_refused (hend.refuses_ignorable hdone))

/-- A welcome that an important voice of two fragments interrupts, while a fragment is playing; an
ignorable request is refused, and the second fragment waits for the first. -/
theorem playback_in_order_interrupted :
    InOrder (machine.run (boot .ignorable 7)
        ([Event.play ⟨[.balance]⟩ .ignorable, .tick false] ++
          [Event.play ⟨[.one, .yuan]⟩ .important]))
      ⟨[.one, .yuan]⟩ .important
      [.tick true, .play ⟨[.dot]⟩ .ignorable, .tick true, .tick false, .tick false] :=
  (playback_in_order .ignorable 7).2 _ _ _ _ (by decide) (by decide)

end Player

end ChargingPile
