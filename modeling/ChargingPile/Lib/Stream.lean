import ChargingPile.Lib.Wire

/-!
# Programs on a stream

A program that reads a stream is an `EStateM` over a state that holds the stream. `Moves` says how
the state moves whichever way the program ends, with one rule for each construct, and
`Reader.run_of_interp` reads off a successful run of a `Reader` which symbols it has taken.
`Pieces` is the shape of a stream in which a receiver has found its messages: complete pieces in
order, with anything between them.
-/

namespace ChargingPile

section
variable {ε σ α γ : Type}

/-! ## How a state moves -/

/-- The state that a program ends in, with a result or without one. -/
def endState : EStateM.Result ε σ α → σ
  | .ok _ s | .error _ s => s

/-- Every run of the program leads to a state in the relation `R` to the one it began in. -/
def Moves (R : σ → σ → Prop) (p : EStateM ε σ α) : Prop := ∀ s, R s (endState (p.run s))

namespace Moves

variable {R : σ → σ → Prop}

theorem pure [Std.Refl R] (a : α) : Moves R (pure a : EStateM ε σ α) := fun s => Std.Refl.refl s

theorem throw [Std.Refl R] (e : ε) : Moves R (throw e : EStateM ε σ α) := fun s => Std.Refl.refl s

theorem bind [IsTrans σ R] {p : EStateM ε σ α} {f : α → EStateM ε σ γ} (hp : Moves R p)
    (hf : ∀ a, Moves R (f a)) : Moves R (p >>= f) := by
  intro s
  have hfirst := hp s
  rw [EStateM.run_bind]
  cases hrun : p.run s with
  | error e s₁ =>
    rw [hrun] at hfirst
    exact hfirst
  | ok a s₁ =>
    rw [hrun] at hfirst
    exact IsTrans.trans _ _ _ hfirst (hf a s₁)

theorem ite {c : Prop} [Decidable c] {p q : EStateM ε σ α} (hp : Moves R p) (hq : Moves R q) :
    Moves R (if c then p else q) := by
  split
  · exact hp
  · exact hq

end Moves

/-- A sequence that ends with a result has had one after its first part. -/
theorem run_bind_ok {p : EStateM ε σ α} {f : α → EStateM ε σ γ} {s s' : σ} {c : γ}
    (h : (p >>= f).run s = .ok c s') : ∃ a s₁, p.run s = .ok a s₁ ∧ (f a).run s₁ = .ok c s' := by
  rw [EStateM.run_bind] at h
  cases hrun : p.run s with
  | error e s₁ =>
    rw [hrun] at h
    cases h
  | ok a s₁ =>
    rw [hrun] at h
    exact ⟨a, s₁, rfl, h⟩

end

/-! ## Readers -/

namespace Reader

variable {α β ε σ : Type} {readData : Nat → EStateM ε σ (List β)} {isInvalid : EStateM ε σ Bool}

theorem interp_moves {R : σ → σ → Prop} [Std.Refl R] [IsTrans σ R]
    (hread : ∀ n, Moves R (readData n)) (hask : Moves R isInvalid) (r : Reader β α) :
    Moves R (r.interp readData isInvalid) := by
  induction r with
  | done a => exact .pure a
  | read n k ih => exact (hread n).bind ih
  | ask k ih => exact hask.bind ih

/-- What a successful run of a reader has taken. `Taken l s` says that in `s` the symbols `l` have
been taken from the stream, and `Lost s` that the stream has become invalid, where it stays. -/
theorem run_of_interp {Taken : List β → σ → Prop} {Lost : σ → Prop}
    (hread : ∀ {n l s a s'}, Taken l s → (readData n).run s = .ok a s' →
      a.length = n ∧ Taken (l ++ a) s' ∨ Lost s')
    (hask : ∀ {l s}, Taken l s → isInvalid.run s = .ok false s)
    (hlost : ∀ {n s a s'}, Lost s → (readData n).run s = .ok a s' → Lost s')
    (hasklost : ∀ {s b s'}, Lost s → isInvalid.run s = .ok b s' → Lost s')
    {r : Reader β α} {l : List β} {s s' : σ} {a : α} (hs : Taken l s)
    (h : (r.interp readData isInvalid).run s = .ok a s') :
    (∃ m, r.run m = some (a, []) ∧ Taken (l ++ m) s') ∨ Lost s' := by
  have hstays : ∀ {r : Reader β α} {s s' : σ}, Lost s →
      (r.interp readData isInvalid).run s = .ok a s' → Lost s' := by
    intro r s s' hs h
    induction r generalizing s with
    | done b =>
      cases h
      exact hs
    | read n k ih =>
      obtain ⟨m, s₁, hm, hk⟩ := run_bind_ok h
      exact ih m (hlost hs hm) hk
    | ask k ih =>
      obtain ⟨b, s₁, hb, hk⟩ := run_bind_ok h
      exact ih b (hasklost hs hb) hk
  induction r generalizing l s with
  | done b =>
    cases h
    exact .inl ⟨[], rfl, by rwa [List.append_nil]⟩
  | read n k ih =>
    obtain ⟨m, s₁, hm, hk⟩ := run_bind_ok h
    rcases hread hs hm with ⟨hlen, htaken⟩ | hlost'
    · rcases ih m htaken hk with ⟨m', hrun, htaken'⟩ | hlost'
      · refine .inl ⟨m ++ m', ?_, by rwa [← List.append_assoc]⟩
        rw [run_read hlen, hrun]
      · exact .inr hlost'
    · exact .inr (hstays hlost' hk)
  | ask k ih =>
    obtain ⟨b, s₁, hb, hk⟩ := run_bind_ok h
    rw [hask hs] at hb
    cases hb
    exact ih false hs hk

end Reader

/-! ## Pieces of a stream -/

/-- The stream holds a piece for each of the messages, in order, with anything before, between
and behind them. -/
inductive Pieces {α μ : Type} (R : μ → List α → Prop) : List α → List μ → Prop
  | nil (l : List α) : Pieces R l []
  | skip (a : α) {l : List α} {ms : List μ} (h : Pieces R l ms) : Pieces R (a :: l) ms
  | piece {m : μ} {p l : List α} {ms : List μ} (hm : R m p) (h : Pieces R l ms) :
      Pieces R (p ++ l) (m :: ms)

theorem Pieces.append_left {α μ : Type} {R : μ → List α → Prop} {l : List α} {ms : List μ}
    (h : Pieces R l ms) (p : List α) : Pieces R (p ++ l) ms := by
  induction p with
  | nil => exact h
  | cons a p ih => exact .skip a ih

end ChargingPile
