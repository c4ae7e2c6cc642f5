import ChargingPile.Lib.Wire

/-!
# Readers with a state

A `StateReader` reads symbols, keeps a state besides, and may give up. `Reads` says what it makes
of the symbols at the front of a stream, whatever follows them, with one rule for each way of
putting readers together.
-/

namespace ChargingPile

/-- A reader of `α` with a state of type `σ`. It gives up with `none`. -/
def StateReader (β σ α : Type) : Type := σ → Reader β (Option (α × σ))

namespace StateReader

variable {β σ α γ : Type}

/-- Reads nothing. -/
def pure (a : α) : StateReader β σ α := fun s => .done (some (a, s))

/-- Gives up. -/
def fail : StateReader β σ α := fun _ => .done none

/-- One reader after another. -/
def bind (p : StateReader β σ α) (f : α → StateReader β σ γ) : StateReader β σ γ := fun s =>
  (p s).bind fun
    | none => .done none
    | some (a, s) => f a s

/-- A reader that does not touch the state. -/
def lift (r : Reader β α) : StateReader β σ α := fun s => r.bind fun a => .done (some (a, s))

/-- Reads `n` times, and collects what is read. -/
def loop (p : StateReader β σ α) (act : γ → α → γ) : Nat → γ → StateReader β σ γ
  | 0, c => pure c
  | n + 1, c => p.bind fun a => loop p act n (act c a)

/-- From the state `s`, the symbols `l` are read as `a`, which leads to the state `s'`. -/
def Reads (p : StateReader β σ α) (s : σ) (l : List β) (a : α) (s' : σ) : Prop :=
  ∀ rest, (p s).run (l ++ rest) = some (some (a, s'), rest)

theorem Reads.pure (a : α) (s : σ) : Reads (pure a : StateReader β σ α) s [] a s := fun _ => rfl

theorem Reads.bind {p : StateReader β σ α} {f : α → StateReader β σ γ} {s s₁ s₂ : σ}
    {l₁ l₂ : List β} {a : α} {c : γ} (h₁ : Reads p s l₁ a s₁) (h₂ : Reads (f a) s₁ l₂ c s₂) :
    Reads (p.bind f) s (l₁ ++ l₂) c s₂ := by
  intro rest
  rw [List.append_assoc, StateReader.bind, Reader.run_bind_of_run (h₁ _)]
  exact h₂ rest

theorem Reads.lift {r : Reader β α} {l : List β} {a : α}
    (h : ∀ rest, r.run (l ++ rest) = some (a, rest)) (s : σ) : Reads (lift r) s l a s := by
  intro rest
  rw [StateReader.lift, Reader.run_bind_of_run (h rest)]
  rfl

end StateReader

end ChargingPile
