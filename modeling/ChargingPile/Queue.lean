import Mathlib.Data.List.Basic

/-!
# A queue between threads

`Queue` (`utilities/queue.hxx`) is a `std::queue` behind a mutex, with an event on which `pop`
waits while the queue is empty. The model goes through each of its functions one access at a time,
so that threads can be interleaved between any two of them: `push`, `pop` and `empty` are what a
thread does at a place of the function, which is `none` if it has to wait there. The mutex is the
thread that holds it, and the event is a flag that a successful wait clears.
-/

namespace ChargingPile

/-- `Queue`, shared by the threads `Θ`. -/
structure Queue (Θ α : Type*) where
  q : List α
  m : Option Θ
  e : Bool

namespace Queue

variable {Θ α : Type*}

/-- Where a thread is in `Queue::push`. -/
inductive PushAt
  | lock | push | set | unlock
deriving DecidableEq, Repr

/-- Where a thread is in `Queue::pop`. -/
inductive PopAt (α : Type*)
  | lock | test | unlock | wait | relock | take
  | release (result : α)
deriving DecidableEq, Repr

/-- Where a thread is in `Queue::empty`. -/
inductive EmptyAt
  | lock | test
  | unlock (result : Bool)
deriving DecidableEq, Repr

/-- A new queue. -/
def new : Queue Θ α := ⟨[], none, false⟩

/-- `m.lock()`. -/
def lock (θ : Θ) (s : Queue Θ α) : Option (Queue Θ α) :=
  match s.m with
  | none => some { s with m := some θ }
  | some _ => none

/-- `Queue::push`, with the next place or the end of the call. -/
def push (θ : Θ) (t : α) (s : Queue Θ α) : PushAt → Option (Queue Θ α × (PushAt ⊕ Unit))
  | .lock => (s.lock θ).map (·, .inl .push)
  | .push => some ({ s with q := s.q ++ [t] }, .inl .set)
  | .set => some ({ s with e := true }, .inl .unlock)
  | .unlock => some ({ s with m := none }, .inr ())

/-- `Queue::pop`, with the next place or the result. The front of an empty queue does not exist. -/
def pop (θ : Θ) (s : Queue Θ α) : PopAt α → Option (Queue Θ α × (PopAt α ⊕ α))
  | .lock => (s.lock θ).map (·, .inl .test)
  | .test => some (s, .inl (if s.q.isEmpty then .unlock else .take))
  | .unlock => some ({ s with m := none }, .inl .wait)
  | .wait => if s.e then some ({ s with e := false }, .inl .relock) else none
  | .relock => (s.lock θ).map (·, .inl .test)
  | .take =>
    match s.q with
    | [] => none
    | result :: q => some ({ s with q }, .inl (.release result))
  | .release result => some ({ s with m := none }, .inr result)

/-- `Queue::empty`, with the next place or the result. -/
def empty (θ : Θ) (s : Queue Θ α) : EmptyAt → Option (Queue Θ α × (EmptyAt ⊕ Bool))
  | .lock => (s.lock θ).map (·, .inl .test)
  | .test => some (s, .inl (.unlock s.q.isEmpty))
  | .unlock result => some ({ s with m := none }, .inr result)

/-! ## The mutex -/

/-- The places of `push` at which the thread holds the mutex. -/
def PushAt.holds : PushAt → Bool
  | .lock => false
  | .push | .set | .unlock => true

/-- The places of `pop` at which the thread holds the mutex. -/
def PopAt.holds : PopAt α → Bool
  | .lock | .wait | .relock => false
  | .test | .unlock | .take | .release _ => true

/-- The places of `empty` at which the thread holds the mutex. -/
def EmptyAt.holds : EmptyAt → Bool
  | .lock => false
  | .test | .unlock _ => true

/-- What a step of the thread `θ` does to a mutex: whether it holds it before and
after, and who does. -/
inductive Hands (θ : Θ) : Bool → Bool → Option Θ → Option Θ → Prop
  | keep (b : Bool) (m : Option Θ) : Hands θ b b m m
  | acquire : Hands θ false true none (some θ)
  | release (m : Option Θ) : Hands θ true false m none

/-- **Mutual exclusion.** The thread that the mutex names is the only one that holds it, and
remains so if one thread takes a step and the others stay where they are. -/
theorem Hands.guard {θ : Θ} {m m' : Option Θ} {H H' : Θ → Bool} (h : Hands θ (H θ) (H' θ) m m')
    (hothers : ∀ θ', θ' ≠ θ → H' θ' = H θ') (hguard : ∀ θ', m = some θ' ↔ H θ' = true) (θ' : Θ) :
    m' = some θ' ↔ H' θ' = true := by
  classical
  generalize hb : H θ = b at h
  generalize hb' : H' θ = b' at h
  by_cases heq : θ' = θ
  · subst heq
    rw [hb']
    cases h with
    | keep => rw [hguard, hb]
    | acquire => simp
    | release => simp
  · rw [hothers θ' heq]
    cases h with
    | keep => exact hguard θ'
    | acquire =>
      rw [← hguard θ']
      exact ⟨fun h => absurd (Option.some.inj h).symm heq,
        fun h => absurd h.symm (Option.some_ne_none θ')⟩
    | release m =>
      have hm : m = some θ := (hguard θ).mpr hb
      rw [← hguard θ', hm]
      exact ⟨fun h => absurd h.symm (Option.some_ne_none θ'),
        fun h => absurd (Option.some.inj h).symm heq⟩

section Steps

variable {θ : Θ} {s s' : Queue Θ α}

/-- The mutex is taken only if it is free. -/
theorem map_lock_eq_some {β : Type*} {f : Queue Θ α → β} {r : β} (h : (s.lock θ).map f = some r) :
    s.m = none ∧ r = f { s with m := some θ } := by
  unfold lock at h
  split at h
  next hm => exact ⟨hm, (Option.some.inj h).symm⟩
  next => cases h

/-- A free mutex can be taken. -/
theorem lock_isSome (h : s.m = none) : (s.lock θ).isSome = true := by
  unfold lock
  rw [h]
  rfl

/-- A thread waits until the event is set, and clears it. -/
theorem wait_eq_some {next : PopAt α ⊕ α} (h : s.pop θ .wait = some (s', next)) :
    s.e = true ∧ s' = { s with e := false } ∧ next = .inl .relock := by
  rw [pop] at h
  split at h
  next he => cases h; exact ⟨he, rfl, rfl⟩
  next => cases h

/-- A thread takes the front of the queue. -/
theorem take_eq_some {next : PopAt α ⊕ α} (h : s.pop θ .take = some (s', next)) :
    ∃ x, s.q = x :: s'.q ∧ s'.m = s.m ∧ s'.e = s.e ∧ next = .inl (.release x) := by
  rw [pop] at h
  split at h
  next => cases h
  next x q hq => cases h; exact ⟨x, hq, rfl, rfl, rfl⟩

/-- A step of `push` and the mutex. -/
theorem push_hands {t : α} {p : PushAt} {next : PushAt ⊕ Unit}
    (h : s.push θ t p = some (s', next)) :
    Hands θ p.holds (next.elim PushAt.holds fun _ => false) s.m s'.m := by
  cases p with
  | lock =>
    obtain ⟨hm, heq⟩ := map_lock_eq_some h
    cases heq
    rw [hm]
    exact .acquire
  | push | set => cases h; exact .keep _ _
  | unlock => cases h; exact .release _

/-- A step of `pop` and the mutex. -/
theorem pop_hands {p : PopAt α} {next : PopAt α ⊕ α} (h : s.pop θ p = some (s', next)) :
    Hands θ p.holds (next.elim PopAt.holds fun _ => false) s.m s'.m := by
  cases p with
  | lock | relock =>
    obtain ⟨hm, heq⟩ := map_lock_eq_some h
    cases heq
    rw [hm]
    exact .acquire
  | test =>
    cases h
    cases s.q with
    | nil => exact .keep _ _
    | cons => exact .keep _ _
  | unlock | release => cases h; exact .release _
  | wait =>
    obtain ⟨-, rfl, rfl⟩ := wait_eq_some h
    exact .keep _ _
  | take =>
    obtain ⟨x, -, hm, -, rfl⟩ := take_eq_some h
    rw [hm]
    exact .keep _ _

/-- A step of `empty` and the mutex. -/
theorem empty_hands {p : EmptyAt} {next : EmptyAt ⊕ Bool} (h : s.empty θ p = some (s', next)) :
    Hands θ p.holds (next.elim EmptyAt.holds fun _ => false) s.m s'.m := by
  cases p with
  | lock =>
    obtain ⟨hm, heq⟩ := map_lock_eq_some h
    cases heq
    rw [hm]
    exact .acquire
  | test => cases h; exact .keep _ _
  | unlock => cases h; exact .release _

/-- A thread in `push` goes on if it holds the mutex or nobody does. -/
theorem push_isSome {t : α} {p : PushAt} (h : p.holds = true ∨ s.m = none) :
    (s.push θ t p).isSome = true := by
  cases p with
  | lock => exact Option.isSome_map.trans (lock_isSome (h.resolve_left Bool.false_ne_true))
  | push | set | unlock => rfl

/-- A thread in `pop` goes on if it holds the mutex or nobody does, unless it has to wait for the
event; what it takes has to be there. -/
theorem pop_isSome {p : PopAt α} (h : p.holds = true ∨ s.m = none) (htake : p = .take → s.q ≠ [])
    (hwait : p = .wait → s.e = true) : (s.pop θ p).isSome = true := by
  cases p with
  | lock | relock =>
    exact Option.isSome_map.trans (lock_isSome (h.resolve_left Bool.false_ne_true))
  | test | unlock | release => rfl
  | wait => rw [pop, if_pos (hwait rfl)]; rfl
  | take =>
    rw [pop]
    split
    next hq => exact absurd hq (htake rfl)
    next => rfl

/-- A thread in `empty` goes on if it holds the mutex or nobody does. -/
theorem empty_isSome {p : EmptyAt} (h : p.holds = true ∨ s.m = none) :
    (s.empty θ p).isSome = true := by
  cases p with
  | lock => exact Option.isSome_map.trans (lock_isSome (h.resolve_left Bool.false_ne_true))
  | test | unlock => rfl

end Steps

end Queue

end ChargingPile
