import Mathlib.Data.Nat.Digits.Defs
import ChargingPile.AppState
import ChargingPile.Cloud
import ChargingPile.CountDown

/-!
# Cards and keys

At the upper end a customer swipes a card, types the number of a port and confirms with `Ok`.
`UserInput` (`components/user_input.cxx`) keeps the last card, the number typed so far and a
countdown of 60 seconds after which the card is forgotten.

A confirmation is authorised: its card was swiped last and less than 60 ticks ago, and its port is
what was typed, a free port of the ten (`UserInput.confirm_authorised`).

The countdown is loaded again only at zero. A card that is swiped while it runs gets what the card
before it has left (`UserInput.card_kept_iff`). After a confirmation that is a single tick
(`UserInput.second_card_forgotten`).
-/

namespace ChargingPile

/-- `Keyboard::Keys`. -/
inductive Keys
  | k0 | k1 | k2 | k3 | k4 | k5 | k6 | k7 | k8 | k9 | ret | ok
deriving DecidableEq, Repr

/-- `Keyboard::keyToNumber`, with `none` for the keys that are not number keys. -/
def Keyboard.keyToNumber : Keys → Option Nat
  | .k0 => some 0 | .k1 => some 1 | .k2 => some 2 | .k3 => some 3 | .k4 => some 4
  | .k5 => some 5 | .k6 => some 6 | .k7 => some 7 | .k8 => some 8 | .k9 => some 9
  | .ret | .ok => none

/-- `NatPort::validate`, with the `InnerPort` that a valid port is converted to. -/
def NatPort.validate (value : UInt8) : Option InnerPort :=
  if h : (NatPort.toInnerPort value).toNat < kPortNum then some ⟨_, h⟩ else none

/-- The valid ports are 1 to 10. -/
theorem NatPort.validate_ofNat : ∀ n < 256, ∀ i : InnerPort,
    NatPort.validate (UInt8.ofNat n) = some i → i.toNatPort = n ∧ 1 ≤ n ∧ n ≤ kPortNum := by
  decide +kernel

/-- `UserInput`. -/
structure UserInput where
  appState : AppState := {}
  cardInvalid : CountDown := .ofInit 60
  lastCard : String := ""
  currPort : Option Nat := none

namespace UserInput

/-- `UserInput::AdminOp`. -/
inductive AdminOp
  | clearConf
deriving DecidableEq, Repr

/-- The number of an `AdminOp`, if it is in `kKnownAdminOp`. -/
def kKnownAdminOp (value : Nat) : Option AdminOp :=
  if value = 9527 then some .clearConf else none

/-- `UserInput::Error` with its `ErrorCode`. -/
inductive Error
  | portInUse (port : UInt8)
  | portInvalid (port : UInt8)
  | cardRequired
  | portSelectRequired
deriving DecidableEq, Repr

/-- The events: a new value of the card reader and of the keyboard, the one-second timer, and a
`State` packet. -/
inductive Event
  | card (value : Option String)
  | key (value : Option Keys)
  | tick
  | portState (port : InnerPort) (value : State)
deriving DecidableEq, Repr

/-- The signals. -/
inductive Output
  | onCardSwipe (card : String)
  | onConfirm (port : UInt8) (card : String)
  | onAdminOp (op : AdminOp)
  | onError (e : Error)
deriving DecidableEq, Repr

/-- A swipe. -/
def swipe (t : UserInput) (card : String) : UserInput × List Output :=
  ({ t with lastCard := card, cardInvalid := t.cardInvalid.retrigger, currPort := none },
    [.onCardSwipe card])

/-- The key `Ok` with a number that is not an `AdminOp`. -/
def confirm (t : UserInput) (curr : Nat) : UserInput × List Output :=
  let port := UInt8.ofNat curr
  match if curr > 255 then none else NatPort.validate port with
  | none => ({ t with cardInvalid := t.cardInvalid.retrigger }, [.onError (.portInvalid port)])
  | some i =>
    if t.appState.getPortState i = .charging then
      ({ t with cardInvalid := t.cardInvalid.retrigger }, [.onError (.portInUse port)])
    else ({ t with cardInvalid := t.cardInvalid.forceTrigger }, [.onConfirm port t.lastCard])

/-- The key `Ok`. -/
def ok (t : UserInput) : UserInput × List Output :=
  match t.currPort.bind kKnownAdminOp with
  | some op => ({ t with currPort := none }, [.onAdminOp op])
  | none =>
    if t.lastCard = "" then (t, [.onError .cardRequired])
    else match t.currPort with
      | none => ({ t with cardInvalid := t.cardInvalid.retrigger }, [.onError .portSelectRequired])
      | some curr =>
        let r := t.confirm curr
        ({ r.1 with currPort := none }, r.2)

/-- A number key: from 9999 on further digits are dropped. -/
def number (t : UserInput) (num : Nat) : UserInput :=
  let curr := t.currPort.getD 0
  { t with currPort := some (if curr < 9999 then curr * 10 + num else curr) }

/-- A key. Without a card it is refused. -/
def press (t : UserInput) (key : Keys) : UserInput × List Output :=
  if t.lastCard = "" then (t, [.onError .cardRequired])
  else match key with
    | .ret => ({ t with currPort := none }, [])
    | .ok => t.ok
    | key =>
      match Keyboard.keyToNumber key with
      | none => (t, [])
      | some num => (t.number num, [])

/-- The timer. -/
def timerRun (t : UserInput) : UserInput :=
  let r := t.cardInvalid.updateAndCheck
  { t with cardInvalid := r.2, lastCard := if r.1 then "" else t.lastCard }

/-- One event. -/
def step (t : UserInput) : Event → UserInput × List Output
  | .card none | .key none => (t, [])
  | .card (some card) => t.swipe card
  | .key (some key) => t.press key
  | .tick => (t.timerRun, [])
  | .portState port value => ({ t with appState := t.appState.handle port value }, [])

/-- `UserInput` as a machine. -/
def machine : Machine UserInput Event Output := ⟨step⟩

@[simp] theorem machine_step (t : UserInput) (e : Event) : machine.step t e = t.step e := rfl

/-- `UserInput` after its constructor. -/
def init (a : AppState) : UserInput := { appState := a }

/-! ## The history -/

/-- A swipe, `Ret` or `Ok`. -/
def Event.clears : Event → Bool
  | .card (some _) | .key (some .ret) | .key (some .ok) => true
  | _ => false

/-- The digit of a number key. -/
def Event.digit : Event → Option Nat
  | .key (some k) => Keyboard.keyToNumber k
  | _ => none

/-- The digits typed since the last swipe, `Ret` or `Ok`. -/
def digits (es : List Event) : List Nat :=
  (es.reverse.takeWhile fun e => !e.clears).reverse.filterMap Event.digit

/-- The decimal value of the digits typed since the last swipe, `Ret` or `Ok`. -/
def typed (es : List Event) : Nat := Nat.ofDigits 10 (digits es).reverse

/-- The event fires `onConfirm`. -/
def Confirms (t : UserInput) (e : Event) : Prop := ∃ port card, .onConfirm port card ∈ (t.step e).2

/-- After the history `es`, `card` is the last card that was swiped. Fewer than 60 ticks have
passed since, and none of them after an `onConfirm`. -/
def CardValid (a : AppState) (es : List Event) (card : String) : Prop :=
  ∃ pre since, es = pre ++ .card (some card) :: since ∧ (∀ c, .card (some c) ∉ since) ∧
    since.count .tick < 60 ∧
    ∀ l e m, since = l ++ e :: m →
      (machine.run (init a) (pre ++ .card (some card) :: l)).Confirms e → .tick ∉ m

theorem digits_concat (es : List Event) (e : Event) :
    digits (es ++ [e]) = if e.clears then [] else digits es ++ e.digit.toList := by
  cases hc : e.clears with
  | true => simp [digits, hc]
  | false => cases hd : e.digit <;> simp [digits, hc, hd]

theorem typed_of_clears {e : Event} (h : e.clears = true) (es : List Event) :
    typed (es ++ [e]) = 0 := by
  simp [typed, digits_concat, h]

theorem typed_of_number {k : Keys} {num : Nat} (h : Keyboard.keyToNumber k = some num)
    (es : List Event) : typed (es ++ [Event.key (some k)]) = typed es * 10 + num := by
  have hclears : Event.clears (.key (some k)) = false := by
    cases k with
    | ret | ok => cases h
    | _ => rfl
  have hdigits : digits (es ++ [Event.key (some k)]) = digits es ++ [num] := by
    rw [digits_concat, hclears, if_neg Bool.false_ne_true, Event.digit, h, Option.toList_some]
  rw [typed, hdigits, List.reverse_concat, Nat.ofDigits_cons, ← typed]
  omega

theorem typed_of_other {e : Event} (h : e.clears = false) (hd : e.digit = none) (es : List Event) :
    typed (es ++ [e]) = typed es := by
  simp [typed, digits_concat, h, hd]

/-! ## What an event does -/

section
variable {t : UserInput} {e : Event}

/-- A countdown that runs is not loaded again. -/
theorem retrigger_of_armed {c : CountDown} (h : c.Armed) : c.retrigger = c := by
  obtain ⟨counting, currVal, initVal⟩ := c
  obtain ⟨rfl, hne⟩ : counting = true ∧ currVal ≠ 0 := h
  simp [CountDown.retrigger, hne]

/-- What `Ok` does to the card. -/
theorem ok_spec (t : UserInput) :
    t.ok.1.lastCard = t.lastCard ∧
    ((∃ port, .onConfirm port t.lastCard ∈ t.ok.2) ∧
        t.ok.1.cardInvalid = t.cardInvalid.forceTrigger ∨
      (∀ port card, .onConfirm port card ∉ t.ok.2) ∧
        (t.ok.1.cardInvalid = t.cardInvalid ∨ t.ok.1.cardInvalid = t.cardInvalid.retrigger)) := by
  rw [ok]
  split
  · simp
  · split
    · simp
    · split
      · simp
      · simp only [confirm]
        split
        · simp
        · split <;> simp

/-- After `Ok` the number starts anew. -/
theorem ok_currPort (hcard : t.lastCard ≠ "") : t.ok.1.currPort = none := by
  rw [ok]
  split
  · rfl
  · rw [if_neg hcard]
    split
    · assumption
    · rfl

/-- What a key does. -/
theorem press_cases (t : UserInput) (k : Keys) :
    t.lastCard = "" ∧ t.press k = (t, [.onError .cardRequired]) ∨
    t.lastCard ≠ "" ∧ (k = .ret ∧ t.press k = ({ t with currPort := none }, []) ∨
      k = .ok ∧ t.press k = t.ok ∨
      ∃ num, Keyboard.keyToNumber k = some num ∧ t.press k = (t.number num, [])) := by
  by_cases hcard : t.lastCard = ""
  · exact .inl ⟨hcard, by simp [press, hcard]⟩
  · refine .inr ⟨hcard, ?_⟩
    cases k <;> simp [press, hcard, Keyboard.keyToNumber]

/-- What a key does to the card. -/
theorem press_spec (t : UserInput) (k : Keys) :
    (t.press k).1.lastCard = t.lastCard ∧
    ((∃ port, .onConfirm port t.lastCard ∈ (t.press k).2) ∧
        (t.press k).1.cardInvalid = t.cardInvalid.forceTrigger ∨
      (∀ port card, .onConfirm port card ∉ (t.press k).2) ∧
        ((t.press k).1.cardInvalid = t.cardInvalid ∨
          (t.press k).1.cardInvalid = t.cardInvalid.retrigger)) := by
  obtain ⟨-, heq⟩ | ⟨-, ⟨-, heq⟩ | ⟨-, heq⟩ | ⟨num, -, heq⟩⟩ := press_cases t k
  all_goals rw [heq]
  · simp
  · simp
  · exact ok_spec t
  · simp [number]

/-- The events, where all that are no swipe, key or tick leave everything but `appState` alone. -/
theorem event_cases (t : UserInput) (e : Event) :
    (∃ c, e = .card (some c)) ∨ (∃ k, e = .key (some k)) ∨ e = .tick ∨
      e.clears = false ∧ e.digit = none ∧ ∃ a, t.step e = ({ t with appState := a }, []) := by
  cases e with
  | card c =>
    cases c with
    | none => exact .inr (.inr (.inr ⟨rfl, rfl, t.appState, rfl⟩))
    | some c => exact .inl ⟨c, rfl⟩
  | key k =>
    cases k with
    | none => exact .inr (.inr (.inr ⟨rfl, rfl, t.appState, rfl⟩))
    | some k => exact .inr (.inl ⟨k, rfl⟩)
  | tick => exact .inr (.inr (.inl rfl))
  | portState port value => exact .inr (.inr (.inr ⟨rfl, rfl, _, rfl⟩))

/-- An event other than a swipe and a tick does nothing to the card, unless it confirms. -/
theorem step_of_quiet (he : ∀ c, e ≠ .card (some c)) (htick : e ≠ .tick) :
    (t.step e).1.lastCard = t.lastCard ∧
    (t.Confirms e ∧ (t.step e).1.cardInvalid = t.cardInvalid.forceTrigger ∨
      ¬ t.Confirms e ∧ ((t.step e).1.cardInvalid = t.cardInvalid ∨
        (t.step e).1.cardInvalid = t.cardInvalid.retrigger)) := by
  rcases event_cases t e with ⟨c, rfl⟩ | ⟨k, rfl⟩ | rfl | ⟨-, -, a, hstep⟩
  · exact absurd rfl (he c)
  · obtain ⟨hcard, ⟨⟨port, hout⟩, hc⟩ | ⟨hout, hc⟩⟩ := press_spec t k
    · exact ⟨hcard, .inl ⟨⟨port, _, hout⟩, hc⟩⟩
    · refine ⟨hcard, .inr ⟨?_, hc⟩⟩
      rintro ⟨port, card, hmem⟩
      exact hout port card hmem
  · exact absurd rfl htick
  · simp [Confirms, hstep]

/-- Without a card only a swipe brings one. -/
theorem step_of_noCard (he : ∀ c, e ≠ .card (some c)) (h : t.lastCard = "") :
    (t.step e).1.lastCard = "" := by
  rcases event_cases t e with ⟨c, rfl⟩ | ⟨k, rfl⟩ | rfl | ⟨-, -, a, hstep⟩
  · exact absurd rfl (he c)
  · simp [step, press, h]
  · simp [step, timerRun, h]
  · rw [hstep]
    exact h

/-- A tick takes one second off, and the last one takes the card. -/
theorem timerRun_spec (h : t.cardInvalid.Armed) :
    t.timerRun.lastCard = (if t.cardInvalid.currVal = 1 then "" else t.lastCard) ∧
    t.timerRun.cardInvalid.counting = true ∧
    t.timerRun.cardInvalid.currVal = t.cardInvalid.currVal - 1 := by
  obtain ⟨hc, -⟩ := h
  refine ⟨?_, by simp [timerRun, hc], by simp [timerRun, hc]⟩
  simp only [timerRun, CountDown.updateAndCheck_fst, hc, true_and]

/-- The countdown starts at 60 or below. -/
def Bounded (c : CountDown) : Prop := c.initVal = 60 ∧ c.currVal ≤ 60

theorem Bounded.retrigger {c : CountDown} (h : Bounded c) : Bounded c.retrigger := by
  refine ⟨h.1, ?_⟩
  simp only [CountDown.retrigger]
  split
  · exact h.1.le
  · exact h.2

/-- After a swipe the countdown runs. -/
theorem swipe_armed {card : String} (h : Bounded t.cardInvalid) :
    (t.swipe card).1.cardInvalid.Armed := by
  refine ⟨rfl, ?_⟩
  simp only [swipe, CountDown.retrigger, h.1]
  split
  · exact Nat.succ_ne_zero 59
  · assumption

theorem step_bounded (e : Event) (h : Bounded t.cardInvalid) :
    Bounded (t.step e).1.cardInvalid := by
  rcases event_cases t e with ⟨c, rfl⟩ | ⟨k, rfl⟩ | rfl | ⟨-, -, a, hstep⟩
  · exact h.retrigger
  · rw [step]
    obtain ⟨-, ⟨-, hval⟩ | ⟨-, hval | hval⟩⟩ := press_spec t k
    all_goals rw [hval]
    · exact ⟨h.1, Nat.one_le_ofNat⟩
    · exact h
    · exact h.retrigger
  · refine ⟨(CountDown.updateAndCheck_initVal _).trans h.1, ?_⟩
    have := h.2
    simp only [step, timerRun, CountDown.updateAndCheck_currVal]
    split <;> omega
  · rw [hstep]
    exact h

end

/-! ## Authorisation -/

/-- What the card and its countdown have to do with the events since the card was swiped. -/
structure Since (a : AppState) (pre since : List Event) (t : UserInput) : Prop where
  noSwipe : ∀ c, .card (some c) ∉ since
  armed : t.cardInvalid.Armed
  ticks : t.cardInvalid.currVal + since.count .tick ≤ 60
  confirmed : ∀ l e m, since = l ++ e :: m →
    (machine.run (init a) (pre ++ .card (some t.lastCard) :: l)).Confirms e →
    t.cardInvalid.currVal = 1 ∧ .tick ∉ m

/-- `currPort` holds the number typed, or both are beyond what can be typed. -/
def Shows (curr : Option Nat) (n : Nat) : Prop :=
  curr.getD 0 = n ∨ 9999 ≤ curr.getD 0 ∧ 9999 ≤ n

/-- What holds after the history `es`. -/
structure Inv (a : AppState) (es : List Event) (t : UserInput) : Prop where
  bounded : Bounded t.cardInvalid
  card : t.lastCard ≠ "" →
    ∃ pre since, es = pre ++ .card (some t.lastCard) :: since ∧ Since a pre since t
  port : t.lastCard ≠ "" → Shows t.currPort (typed es)

/-- The card is still there after one more event. -/
theorem Since.concat {a : AppState} {pre since : List Event} {t : UserInput} {e : Event}
    (h : Since a pre since t)
    (ht : t = machine.run (init a) (pre ++ .card (some t.lastCard) :: since))
    (he : ∀ c, e ≠ .card (some c)) (hcard : (t.step e).1.lastCard ≠ "") :
    (t.step e).1.lastCard = t.lastCard ∧ Since a pre (since ++ [e]) (t.step e).1 := by
  -- what becomes of the countdown
  have hstep : (t.step e).1.lastCard = t.lastCard ∧ (t.step e).1.cardInvalid.Armed ∧
      (t.step e).1.cardInvalid.currVal + [e].count .tick ≤ t.cardInvalid.currVal ∧
      (t.Confirms e → (t.step e).1.cardInvalid.currVal = 1) ∧
      (t.cardInvalid.currVal = 1 → (t.step e).1.cardInvalid.currVal = 1 ∧ e ≠ .tick) := by
    have hpos := Nat.pos_of_ne_zero h.armed.2
    by_cases htick : e = .tick
    · subst htick
      obtain ⟨hlast, hcount, hval⟩ := timerRun_spec h.armed
      simp only [step] at hcard ⊢
      rw [hlast] at hcard ⊢
      split at hcard
      · exact absurd rfl hcard
      · rename_i hone
        rw [if_neg hone]
        refine ⟨rfl, ⟨hcount, ?_⟩, ?_, ?_, fun h => absurd h hone⟩
        · rw [hval]; omega
        · rw [hval, List.count_singleton_self]; omega
        · simp [Confirms, step]
    · rw [List.count_singleton, if_neg (by simpa using htick)]
      obtain ⟨hlast, ⟨hconf, hval⟩ | ⟨hconf, hval⟩⟩ := step_of_quiet (t := t) he htick
      · rw [hval]
        exact ⟨hlast, ⟨rfl, one_ne_zero⟩, hpos, fun _ => rfl, fun _ => ⟨rfl, htick⟩⟩
      · rw [retrigger_of_armed h.armed, or_self] at hval
        rw [hval]
        exact ⟨hlast, h.armed, le_rfl, fun h => absurd h hconf, fun h => ⟨h, htick⟩⟩
  obtain ⟨hlast, harmed, hval, hconf, hone⟩ := hstep
  refine ⟨hlast, ?_, harmed, ?_, ?_⟩
  · intro c hc
    rcases List.mem_append.1 hc with hc | hc
    · exact h.noSwipe c hc
    · exact he c (List.mem_singleton.1 hc).symm
  · have := h.ticks
    rw [List.count_append]
    omega
  · -- the confirmation is an earlier one, or this event
    intro l e' m heq hc
    rw [hlast] at hc
    cases m using List.reverseRecOn with
    | nil =>
      obtain ⟨rfl, he'⟩ := List.append_inj' heq rfl
      cases he'
      rw [← ht] at hc
      exact ⟨hconf hc, List.not_mem_nil⟩
    | append_singleton m x =>
      rw [← List.cons_append, ← List.append_assoc] at heq
      obtain ⟨hsince, he'⟩ := List.append_inj' heq rfl
      cases he'
      obtain ⟨hval, hm⟩ := h.confirmed l e' m hsince hc
      refine ⟨(hone hval).1, ?_⟩
      intro hmem
      rcases List.mem_append.1 hmem with hmem | hmem
      · exact hm hmem
      · exact (hone hval).2 (List.mem_singleton.1 hmem).symm

/-- The typed number after one more event. -/
theorem step_shows {t : UserInput} {es : List Event} {e : Event} (h : Shows t.currPort (typed es))
    (he : ∀ c, e ≠ .card (some c)) (hcard : t.lastCard ≠ "") :
    Shows (t.step e).1.currPort (typed (es ++ [e])) := by
  have hclear : ∀ {e : Event}, e.clears = true → Shows none (typed (es ++ [e])) :=
    fun h => .inl (typed_of_clears h es).symm
  rcases event_cases t e with ⟨c, rfl⟩ | ⟨k, rfl⟩ | rfl | ⟨hc, hd, a, hstep⟩
  · exact absurd rfl (he c)
  · obtain ⟨hno, -⟩ | ⟨-, ⟨rfl, heq⟩ | ⟨rfl, heq⟩ | ⟨num, hnum, heq⟩⟩ := press_cases t k
    · exact absurd hno hcard
    · rw [step, heq]
      exact hclear rfl
    · rw [step, heq, ok_currPort hcard]
      exact hclear rfl
    · rw [step, heq, typed_of_number hnum]
      simp only [Shows, number, Option.getD_some] at h ⊢
      split <;> omega
  · rwa [typed_of_other rfl rfl]
  · rwa [hstep, typed_of_other hc hd]

theorem step_inv {a : AppState} {es : List Event} (e : Event)
    (h : Inv a es (machine.run (init a) es)) :
    Inv a (es ++ [e]) ((machine.run (init a) es).step e).1 := by
  generalize ht : machine.run (init a) es = t at h
  have hcount := step_bounded e h.bounded
  by_cases he : ∃ c, e = .card (some c)
  · obtain ⟨c, rfl⟩ := he
    refine ⟨hcount, fun _ => ⟨es, [], rfl, nofun, ?_, hcount.2, ?_⟩, fun _ => ?_⟩
    · exact swipe_armed h.bounded
    · intro l e m heq
      exact absurd heq (by simp)
    · exact .inl (typed_of_clears rfl es).symm
  · have he' : ∀ c, e ≠ .card (some c) := fun c hc => he ⟨c, hc⟩
    by_cases hcard : t.lastCard = ""
    · -- without a card nothing is promised
      have hno := step_of_noCard he' hcard
      exact ⟨hcount, fun h => absurd hno h, fun h => absurd hno h⟩
    · obtain ⟨pre, since, heq, hsince⟩ := h.card hcard
      refine ⟨hcount, fun hne => ?_, fun _ => step_shows (h.port hcard) he' hcard⟩
      obtain ⟨hlast, hsince'⟩ := hsince.concat (by rw [← heq, ht]) he' hne
      exact ⟨pre, since ++ [e], by rw [hlast, heq]; simp, hsince'⟩

theorem run_inv (a : AppState) (es : List Event) : Inv a es (machine.run (init a) es) :=
  Machine.history_inv ⟨⟨rfl, le_rfl⟩, fun h => absurd rfl h, fun h => absurd rfl h⟩
    (fun _ e h => step_inv e h) es

/-- A remembered card is valid. -/
theorem Inv.cardValid {a : AppState} {es : List Event} {t : UserInput} (h : Inv a es t)
    (hcard : t.lastCard ≠ "") : CardValid a es t.lastCard := by
  obtain ⟨pre, since, heq, hsince⟩ := h.card hcard
  refine ⟨pre, since, heq, hsince.noSwipe, ?_, fun l e m hm hc => (hsince.confirmed l e m hm hc).2⟩
  have := hsince.ticks
  have := Nat.pos_of_ne_zero hsince.armed.2
  omega

/-- Confirmations and admin operations come from `Ok` with a card. -/
theorem mem_step {t : UserInput} {e : Event} {o : Output} (h : o ∈ (t.step e).2)
    (hswipe : ∀ c, o ≠ .onCardSwipe c) (herror : ∀ x, o ≠ .onError x) :
    t.lastCard ≠ "" ∧ o ∈ t.ok.2 := by
  rcases event_cases t e with ⟨c, rfl⟩ | ⟨k, rfl⟩ | rfl | ⟨-, -, a, hstep⟩
  · exact absurd (List.mem_singleton.1 h) (hswipe c)
  · rw [step] at h
    obtain ⟨-, heq⟩ | ⟨hcard, ⟨-, heq⟩ | ⟨-, heq⟩ | ⟨num, -, heq⟩⟩ := press_cases t k
    all_goals rw [heq] at h
    · exact absurd (List.mem_singleton.1 h) (herror _)
    · cases h
    · exact ⟨hcard, h⟩
    · cases h
  · cases h
  · rw [hstep] at h
    cases h

theorem onConfirm_mem_ok {t : UserInput} {port : UInt8} {card : String}
    (h : .onConfirm port card ∈ t.ok.2) :
    card = t.lastCard ∧ ∃ curr i, t.currPort = some curr ∧ curr < 256 ∧ port = UInt8.ofNat curr ∧
      NatPort.validate (UInt8.ofNat curr) = some i ∧ t.appState.getPortState i ≠ .charging := by
  rw [ok] at h
  split at h
  · simp at h
  · split at h
    · simp at h
    · split at h
      · simp at h
      · rename_i curr hcurr
        simp only [confirm] at h
        split at h
        · simp at h
        · rename_i i hi
          split at h
          · simp at h
          · rename_i hstate
            obtain ⟨rfl, rfl⟩ := Output.onConfirm.inj (List.mem_singleton.1 h)
            split at hi
            · cases hi
            · exact ⟨rfl, curr, i, hcurr, by omega, rfl, hi, hstate⟩

theorem onAdminOp_mem_ok {t : UserInput} {op : AdminOp} (h : .onAdminOp op ∈ t.ok.2) :
    t.currPort = some 9527 := by
  rw [ok] at h
  split at h
  · rename_i op' hop
    obtain ⟨curr, hcurr, hknown⟩ := Option.bind_eq_some_iff.1 hop
    rw [kKnownAdminOp] at hknown
    split at hknown
    · rename_i h9527
      rw [hcurr, h9527]
    · cases hknown
  · split at h
    · simp at h
    · split at h
      · simp at h
      · simp only [confirm] at h
        split at h
        · simp at h
        · split at h <;> simp at h

/-- **User authorisation.** Whatever was swiped, typed and received before, `onConfirm` fires
only for the last swiped card while it is valid, and for the port that was typed, which is
one of the ten and not reported as charging. `onAdminOp` fires only while a card is valid and
9527 was typed. -/
theorem confirm_authorised (a : AppState) (es : List Event) (e : Event) :
    (∀ port card, .onConfirm port card ∈ ((machine.run (init a) es).step e).2 →
      CardValid a es card ∧ port.toNat = typed es ∧ 1 ≤ port.toNat ∧ port.toNat ≤ 10 ∧
      ∃ i : InnerPort, i.toNatPort = port.toNat ∧
        (machine.run (init a) es).appState.getPortState i ≠ .charging) ∧
    ∀ op, .onAdminOp op ∈ ((machine.run (init a) es).step e).2 →
      (∃ card, card ≠ "" ∧ CardValid a es card) ∧ typed es = 9527 := by
  have hinv := run_inv a es
  refine ⟨?_, ?_⟩
  · intro port card h
    obtain ⟨hcard, hok⟩ := mem_step h nofun nofun
    obtain ⟨rfl, curr, i, hcurr, hlt, rfl, hvalid, hstate⟩ := onConfirm_mem_ok hok
    obtain ⟨hport, hpos, hle⟩ := NatPort.validate_ofNat curr hlt i hvalid
    have htyped : curr = typed es := by
      have := hinv.port hcard
      rw [Shows, hcurr, Option.getD_some] at this
      omega
    rw [UInt8.toNat_ofNat_of_lt' hlt]
    exact ⟨hinv.cardValid hcard, htyped, hpos, hle, i, hport, hstate⟩
  · intro op h
    obtain ⟨hcard, hok⟩ := mem_step h nofun nofun
    refine ⟨⟨_, hcard, hinv.cardValid hcard⟩, ?_⟩
    have := hinv.port hcard
    rw [Shows, onAdminOp_mem_ok hok, Option.getD_some] at this
    omega

/-- Port 10 is typed and confirmed. -/
theorem confirm_authorised_ten :
    CardValid {} [.card (some "c"), .key (some .k1), .key (some .k0)] "c" :=
  ((confirm_authorised {} [.card (some "c"), .key (some .k1), .key (some .k0)]
    (.key (some .ok))).1 10 "c" (by decide)).1

/-! ## How long a card is kept -/

section
variable {t : UserInput}

/-- The card is kept while its countdown runs, without a swipe and a confirmation. -/
theorem run_kept {fs : List Event} (h : t.cardInvalid.Armed) (hswipe : ∀ c, .card (some c) ∉ fs)
    (hconf : ∀ port card, .onConfirm port card ∉ machine.trace t fs)
    (hticks : fs.count .tick < t.cardInvalid.currVal) :
    (machine.run t fs).lastCard = t.lastCard := by
  induction fs generalizing t with
  | nil => rfl
  | cons e fs ih =>
    have he : ∀ c, e ≠ .card (some c) := fun c hc => hswipe c (hc ▸ .head _)
    have hswipe' : ∀ c, .card (some c) ∉ fs := fun c hc => hswipe c (.tail _ hc)
    rw [Machine.run_cons, machine_step]
    rw [List.count_cons] at hticks
    simp only [Machine.trace_cons, machine_step, List.mem_append, not_or] at hconf
    by_cases htick : e = .tick
    · subst htick
      obtain ⟨hlast, hcount, hval⟩ := timerRun_spec h
      simp only [beq_self_eq_true, if_true] at hticks
      rw [if_neg (by omega)] at hlast
      rw [← hlast]
      refine ih ⟨hcount, ?_⟩ hswipe' (fun port card => (hconf port card).2) ?_
      · rw [step, hval]; omega
      · rw [step, hval]; omega
    · rw [if_neg (by simpa using htick)] at hticks
      obtain ⟨hlast, ⟨⟨port, card, hmem⟩, -⟩ | ⟨-, hval⟩⟩ := step_of_quiet (t := t) he htick
      · exact absurd hmem (hconf port card).1
      · rw [retrigger_of_armed h, or_self] at hval
        rw [← hlast]
        exact ih (hval ▸ h) hswipe' (fun port card => (hconf port card).2) (hval ▸ hticks)

/-- Ticks alone use the countdown up, and the card is forgotten. -/
theorem run_ticks (h : t.cardInvalid.Armed) :
    (machine.run t (List.replicate t.cardInvalid.currVal .tick)).lastCard = "" := by
  generalize hn : t.cardInvalid.currVal = n
  induction n generalizing t with
  | zero => exact absurd hn h.2
  | succ n ih =>
    obtain ⟨hlast, hcount, hval⟩ := timerRun_spec h
    rw [hn] at hlast hval
    rw [List.replicate_succ, Machine.run_cons, machine_step, step]
    cases n with
    | zero => exact hlast
    | succ n =>
      refine ih ⟨hcount, ?_⟩ hval
      rw [hval]
      exact Nat.succ_ne_zero n

theorem trace_ticks (t : UserInput) (n : Nat) :
    machine.trace t (List.replicate n .tick) = [] := by
  induction n generalizing t with
  | zero => rfl
  | succ n ih =>
    rw [List.replicate_succ, Machine.trace_cons, ih]
    rfl

theorem run_noCard {fs : List Event} (hswipe : ∀ c, .card (some c) ∉ fs) (h : t.lastCard = "") :
    (machine.run t fs).lastCard = "" := by
  refine Machine.run_inv (M := machine) (C := fun _ e => ∀ c, e ≠ .card (some c))
    (I := fun t : UserInput => t.lastCard = "") (fun t e h he => step_of_noCard he h)
    (Machine.along_of_mem ?_) h
  rintro e he - c rfl
  exact hswipe c he

end

/-- **How long a card is kept.** After any history, a swiped card is remembered for at least 59
ticks without a confirmation or another swipe exactly if its countdown is loaded by the swipe: it
had expired or it never ran. (An empty card is no card.) -/
theorem card_kept_iff (a : AppState) (es : List Event) (card : String) :
    (∀ fs, (∀ c, .card (some c) ∉ fs) →
      (∀ port c, .onConfirm port c ∉
        machine.trace (machine.run (init a) (es ++ [.card (some card)])) fs) →
      fs.count .tick ≤ 59 →
      (machine.run (init a) (es ++ .card (some card) :: fs)).lastCard = card) ↔
    card = "" ∨ (machine.run (init a) es).cardInvalid.currVal = 0 ∨
      (machine.run (init a) es).cardInvalid.currVal = 60 := by
  have hbound := (run_inv a es).bounded
  have hrun : ∀ fs, machine.run (init a) (es ++ Event.card (some card) :: fs) =
      machine.run ((machine.run (init a) es).swipe card).1 fs := fun fs => Machine.run_append _ _
  simp only [hrun]
  generalize machine.run (init a) es = t at hbound
  have harmed : (t.swipe card).1.cardInvalid.Armed := swipe_armed hbound
  have hval : (t.swipe card).1.cardInvalid.currVal =
      if t.cardInvalid.currVal = 0 then 60 else t.cardInvalid.currVal := by
    rw [← hbound.1]
    rfl
  refine ⟨?_, ?_⟩
  · intro h
    by_contra hne
    simp only [not_or] at hne
    obtain ⟨hcard, hzero, hfull⟩ := hne
    rw [if_neg hzero] at hval
    -- the countdown goes on from where it is, and is over after at most 59 ticks
    have hlost := run_ticks harmed
    rw [h _ ?_ ?_ ?_] at hlost
    · exact hcard hlost
    · intro c hc
      cases List.eq_of_mem_replicate hc
    · intro port c hmem
      rw [trace_ticks] at hmem
      cases hmem
    · rw [List.count_replicate_self, hval]
      have := hbound.2
      omega
  · rintro (rfl | hload) fs hswipe hconf hticks
    · exact run_noCard hswipe rfl
    · refine run_kept harmed hswipe hconf ?_
      rw [hval]
      split <;> omega

/-- A second customer swipes a card right after the first one has confirmed, and is forgotten
at the next tick. -/
theorem second_card_forgotten :
    (machine.run (init {}) [.card (some "a"), .key (some .k1), .key (some .ok),
      .card (some "b")]).lastCard = "b" ∧
    (machine.run (init {}) [.card (some "a"), .key (some .k1), .key (some .ok),
      .card (some "b"), .tick]).lastCard = "" := by
  decide

end UserInput

end ChargingPile
