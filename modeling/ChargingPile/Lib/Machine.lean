import Mathlib.Data.List.Induction

/-!
# Runs of a machine with outputs

A `Machine` answers one event at a time with a new state and a list of outputs. Its runs are lists
of events: `run` is the state a run ends in, `trace` everything the run emitted, and `tally` a
value that the steps of a run update. `Along C` says that each step of a run meets a condition on
the event and on the state before it. Four induction rules carry the invariants of a development:
`run_inv` for a property of the state, `trace_inv` for a property that also speaks of the outputs
so far, `history_inv` for one that speaks of the events so far, and `tally_inv` for one that
speaks of a tally. `run_rounds` is the rule for a run of several rounds, `marks_le` the one for a
bound on the number of some steps, `exists_goal` the one for something that happens within a
number of steps, `exists_report` the one for something that some run gets to, `simulate` the one
for runs of two machines with the same outputs, and `unwind` the one for two runs that share a
part of their events.
-/

namespace ChargingPile

/-- A deterministic machine with outputs. What the environment decides is part of the event. -/
structure Machine (σ ε ω : Type*) where
  step : σ → ε → σ × List ω

namespace Machine

variable {σ ε ω : Type*} (M : Machine σ ε ω)

/-- The state in which the run `es` from `s` ends. -/
def run (s : σ) : List ε → σ
  | [] => s
  | e :: es => run (M.step s e).1 es

/-- Everything the run `es` from `s` emits, in order. -/
def trace (s : σ) : List ε → List ω
  | [] => []
  | e :: es => (M.step s e).2 ++ trace (M.step s e).1 es

/-- A value that is kept along the run `es` from `s`: each step updates it, knowing the state
before the step and the event. -/
def tally {α : Type*} (f : σ → ε → α → α) (s : σ) (a : α) : List ε → α
  | [] => a
  | e :: es => tally f (M.step s e).1 (f s e a) es

/-- The machine that keeps such a value beside its state. -/
def tallied {α : Type*} (f : σ → ε → α → α) : Machine (σ × α) ε ω :=
  ⟨fun s e => (((M.step s.1 e).1, f s.1 e s.2), (M.step s.1 e).2)⟩

/-- Every step of the run `es` from `s` meets `C`, a condition on the state before the step and
on the event. -/
def Along (C : σ → ε → Prop) (s : σ) : List ε → Prop
  | [] => True
  | e :: es => C s e ∧ Along C (M.step s e).1 es

/-- A decidable condition is decided along a run step by step. -/
instance decidableAlong (C : σ → ε → Prop) [∀ s e, Decidable (C s e)] (s : σ) :
    (es : List ε) → Decidable (M.Along C s es)
  | [] => .isTrue trivial
  | e :: es =>
    have := decidableAlong C (M.step s e).1 es
    inferInstanceAs (Decidable (C s e ∧ M.Along C (M.step s e).1 es))

variable {M} {s : σ} {C : σ → ε → Prop}

@[simp] theorem run_nil : M.run s [] = s := rfl
@[simp] theorem run_cons (e : ε) (es : List ε) : M.run s (e :: es) = M.run (M.step s e).1 es := rfl
@[simp] theorem trace_nil : M.trace s [] = [] := rfl
@[simp] theorem trace_cons (e : ε) (es : List ε) :
    M.trace s (e :: es) = (M.step s e).2 ++ M.trace (M.step s e).1 es := rfl
@[simp] theorem along_nil : M.Along C s [] := trivial
@[simp] theorem along_cons (e : ε) (es : List ε) :
    M.Along C s (e :: es) ↔ C s e ∧ M.Along C (M.step s e).1 es := Iff.rfl

/-- A run of two parts ends where the second part ends. -/
theorem run_append (es fs : List ε) : M.run s (es ++ fs) = M.run (M.run s es) fs := by
  induction es generalizing s with
  | nil => rfl
  | cons e es ih => exact ih

/-- A run of two parts emits what the first part emits and then what the second does. -/
theorem trace_append (es fs : List ε) :
    M.trace s (es ++ fs) = M.trace s es ++ M.trace (M.run s es) fs := by
  induction es generalizing s with
  | nil => rfl
  | cons e es ih => simp only [List.cons_append, trace_cons, run_cons, ih, List.append_assoc]

/-- A condition holds along a run of two parts exactly if it holds along both. -/
theorem along_append (es fs : List ε) :
    M.Along C s (es ++ fs) ↔ M.Along C s es ∧ M.Along C (M.run s es) fs := by
  induction es generalizing s with
  | nil => simp
  | cons e es ih => simp only [List.cons_append, along_cons, run_cons, ih, and_assoc]

/-- The last step of a run. -/
theorem run_concat (es : List ε) (e : ε) : M.run s (es ++ [e]) = (M.step (M.run s es) e).1 := by
  rw [run_append]; rfl

/-- The outputs of the last step of a run. -/
theorem trace_concat (es : List ε) (e : ε) :
    M.trace s (es ++ [e]) = M.trace s es ++ (M.step (M.run s es) e).2 := by
  rw [trace_append]; simp

/-- An output of a run is one of a step of the run. -/
theorem mem_trace {o : ω} {es : List ε} :
    o ∈ M.trace s es ↔
      ∃ pre e post, es = pre ++ e :: post ∧ o ∈ (M.step (M.run s pre) e).2 := by
  constructor
  · intro h
    induction es generalizing s with
    | nil => cases h
    | cons e es ih =>
      rcases List.mem_append.1 h with h | h
      · exact ⟨[], e, es, rfl, h⟩
      · obtain ⟨pre, f, post, rfl, hf⟩ := ih h
        exact ⟨e :: pre, f, post, rfl, hf⟩
  · rintro ⟨pre, e, post, rfl, h⟩
    rw [trace_append]
    exact List.mem_append_right _ (List.mem_append_left _ h)

/-- The last step of a tally. -/
theorem tally_concat {α : Type*} {f : σ → ε → α → α} {a : α} (es : List ε) (e : ε) :
    M.tally f s a (es ++ [e]) = f (M.run s es) e (M.tally f s a es) := by
  induction es generalizing s a with
  | nil => rfl
  | cons d es ih => exact ih

/-- The step at a given place of a run meets the condition. -/
theorem Along.here {pre : List ε} {e : ε} {post : List ε} (h : M.Along C s (pre ++ e :: post)) :
    C (M.run s pre) e :=
  ((along_append _ _).1 h).2.1

/-- The condition holds along every beginning of a run. -/
theorem Along.left {pre post : List ε} (h : M.Along C s (pre ++ post)) : M.Along C s pre :=
  ((along_append _ _).1 h).1

/-- Two conditions hold along a run if each of them does. -/
theorem Along.and {D : σ → ε → Prop} {es : List ε} (h₁ : M.Along C s es) (h₂ : M.Along D s es) :
    M.Along (fun s e => C s e ∧ D s e) s es := by
  induction es generalizing s with
  | nil => trivial
  | cons e es ih => exact ⟨⟨h₁.1, h₂.1⟩, ih h₁.2 h₂.2⟩

/-- **The invariant rule.** What every step keeps holds at the end of every run. -/
theorem run_inv {I : σ → Prop} (hstep : ∀ s e, I s → C s e → I (M.step s e).1) {es : List ε}
    (h : M.Along C s es) (h0 : I s) : I (M.run s es) := by
  induction es generalizing s with
  | nil => exact h0
  | cons e es ih => exact ih h.2 (hstep s e h0 h.1)

/-- A condition that together with an invariant implies another one along a run. -/
theorem Along.imp {I : σ → Prop} {D : σ → ε → Prop}
    (hstep : ∀ s e, I s → C s e → I (M.step s e).1) (hCD : ∀ s e, I s → C s e → D s e)
    {es : List ε} (h : M.Along C s es) (h0 : I s) : M.Along D s es := by
  induction es generalizing s with
  | nil => trivial
  | cons e es ih => exact ⟨hCD s e h0 h.1, ih h.2 (hstep s e h0 h.1)⟩

/-- **The trace rule.** An invariant of the outputs so far together with the state. -/
theorem trace_inv {I : List ω → σ → Prop} {es : List ε} (h : M.Along C s es) (h0 : I [] s)
    (hstep : ∀ tr s e, I tr s → C s e → I (tr ++ (M.step s e).2) (M.step s e).1) :
    I (M.trace s es) (M.run s es) := by
  induction es using List.reverseRecOn with
  | nil => exact h0
  | append_singleton pre e ih =>
    rw [run_concat, trace_concat]
    exact hstep _ _ e (ih h.left) h.here

/-- **The tally rule.** An invariant of the state together with a tally. -/
theorem tally_inv {α : Type*} {f : σ → ε → α → α} {a : α} {I : σ → α → Prop}
    (hstep : ∀ s e a, I s a → C s e → I (M.step s e).1 (f s e a)) {es : List ε}
    (h : M.Along C s es) (h0 : I s a) : I (M.run s es) (M.tally f s a es) := by
  induction es generalizing s a with
  | nil => exact h0
  | cons e es ih => exact ih h.2 (hstep s e a h0 h.1)

/-- A condition that does not read the tally. -/
theorem along_tallied {α : Type*} {f : σ → ε → α → α} {a : α} {es : List ε} :
    (M.tallied f).Along (fun s e => C s.1 e) (s, a) es ↔ M.Along C s es := by
  induction es generalizing s a with
  | nil => exact Iff.rfl
  | cons e es ih => exact and_congr_right fun _ => ih

/-- **The history rule.** An invariant of the events so far together with the state. -/
theorem history_inv {I : List ε → σ → Prop} (h0 : I [] s)
    (hstep : ∀ es e, I es (M.run s es) → I (es ++ [e]) (M.step (M.run s es) e).1) (es : List ε) :
    I es (M.run s es) := by
  induction es using List.reverseRecOn with
  | nil => exact h0
  | append_singleton pre e ih =>
    rw [run_concat]
    exact hstep pre e ih

/-- A condition that every event of a run meets in every state holds along the run. -/
theorem along_of_mem {es : List ε} (h : ∀ e ∈ es, ∀ s, C s e) : M.Along C s es := by
  induction es generalizing s with
  | nil => trivial
  | cons e es ih => exact ⟨h e (.head _) s, ih fun f hf => h f (.tail _ hf)⟩

/-- A condition that each step of a run meets in the state before it holds along the run. -/
theorem along_of_forall {es : List ε}
    (h : ∀ pre e post, es = pre ++ e :: post → C (M.run s pre) e) :
    M.Along C s es := by
  induction es generalizing s with
  | nil => trivial
  | cons d es ih =>
    refine ⟨h [] d es rfl, ih ?_⟩
    rintro pre e post rfl
    exact h (d :: pre) e post rfl

/-- **The rule of the last mark.** A property `P` that does not hold at first, and that a step
without a mark does not bring about. Where it holds at the end of a run, some step was the
last one with a mark, `P` has held since then, and so does what the mark brings about and the
steps after it keep. -/
theorem exists_last_mark {α : Type*} {I P : σ → Prop} {mark : σ → ε → Option α}
    {J : α → List ε → σ → Prop} (hI : ∀ s e, I s → I (M.step s e).1)
    (hmark : ∀ s e a, I s → mark s e = some a → P (M.step s e).1 → J a [] (M.step s e).1)
    (hkeep : ∀ s e, I s → mark s e = none → P (M.step s e).1 →
      P s ∧ ∀ a post, J a post s → J a (post ++ [e]) (M.step s e).1)
    (h0 : I s) (hP : ¬ P s) {es : List ε} (h : P (M.run s es)) :
    ∃ pre e post a, es = pre ++ e :: post ∧ mark (M.run s pre) e = some a ∧
      M.Along (fun s e => P s ∧ mark s e = none) (M.run s (pre ++ [e])) post ∧
      J a post (M.run s es) := by
  induction es using List.reverseRecOn with
  | nil => exact absurd h hP
  | append_singleton es e ih =>
    have hes : I (M.run s es) :=
      run_inv (C := fun _ _ => True) (fun s e hs _ => hI s e hs)
        (along_of_mem fun _ _ _ => trivial) h0
    rw [run_concat] at h ⊢
    cases hm : mark (M.run s es) e with
    | some a => exact ⟨es, e, [], a, rfl, hm, trivial, hmark _ e a hes hm h⟩
    | none =>
      obtain ⟨hbefore, hJ⟩ := hkeep _ e hes hm h
      obtain ⟨pre, e₀, post, a, rfl, hmark₀, halong, hpost⟩ := ih hbefore
      refine ⟨pre, e₀, post ++ [e], a, by simp, hmark₀, ?_, hJ a post hpost⟩
      rw [along_append, ← run_append, List.append_assoc, List.singleton_append]
      exact ⟨halong, ⟨hbefore, hm⟩, trivial⟩

/-- Some step of the run met `A`, and none since then met `B`. -/
def Since (M : Machine σ ε ω) (A B : σ → ε → Prop) (s : σ) (es : List ε) : Prop :=
  ∃ pre a post, es = pre ++ a :: post ∧ A (M.run s pre) a ∧
    M.Along (fun s e => ¬ B s e) (M.run s (pre ++ [a])) post

theorem not_since_nil {A B : σ → ε → Prop} : ¬ M.Since A B s [] := by
  rintro ⟨pre, a, post, heq, -⟩
  exact absurd heq.symm (List.append_ne_nil_of_right_ne_nil pre (List.cons_ne_nil a post))

theorem since_concat {A B : σ → ε → Prop} (es : List ε) (e : ε) :
    M.Since A B s (es ++ [e]) ↔ A (M.run s es) e ∨ M.Since A B s es ∧ ¬ B (M.run s es) e := by
  constructor
  · rintro ⟨pre, a, post, heq, ha, halong⟩
    rcases List.eq_nil_or_concat post with rfl | ⟨post, b, rfl⟩
    · obtain ⟨rfl, hlast⟩ := List.append_inj' heq rfl
      obtain rfl := List.singleton_inj.1 hlast
      exact .inl ha
    · have heq' : es ++ [e] = (pre ++ a :: post) ++ [b] := by simp [heq]
      obtain ⟨rfl, hlast⟩ := List.append_inj' heq' rfl
      obtain rfl := List.singleton_inj.1 hlast
      rw [List.concat_eq_append, along_append, ← run_append, List.append_assoc,
        List.singleton_append] at halong
      exact .inr ⟨⟨pre, a, post, rfl, ha, halong.1⟩, halong.2.1⟩
  · rintro (ha | ⟨⟨pre, a, post, rfl, ha, halong⟩, he⟩)
    · exact ⟨es, e, [], rfl, ha, trivial⟩
    · refine ⟨pre, a, post ++ [e], by simp, ha, ?_⟩
      rw [along_append, ← run_append, List.append_assoc, List.singleton_append]
      exact ⟨halong, he, trivial⟩

/-- **The rule of flags.** A flag that the steps with `A` set and those with `B` clear is set
exactly if it was set since it was last cleared. -/
theorem iff_since {I P : σ → Prop} {A B : σ → ε → Prop} (hI : ∀ s e, I s → I (M.step s e).1)
    (hstep : ∀ s e, I s → (P (M.step s e).1 ↔ A s e ∨ P s ∧ ¬ B s e)) (h0 : I s) (hP : ¬ P s)
    (es : List ε) :
    P (M.run s es) ↔ M.Since A B s es := by
  induction es using List.reverseRecOn with
  | nil => exact iff_of_false hP not_since_nil
  | append_singleton es e ih =>
    have hes : I (M.run s es) :=
      run_inv (C := fun _ _ => True) (fun s e hs _ => hI s e hs)
        (along_of_mem fun _ _ _ => trivial) h0
    rw [run_concat, since_concat, hstep _ e hes, ih]

/-- **The rule of rounds.** A run of several rounds, each of which takes the invariant of its
number to that of the next one. -/
theorem run_rounds {I : Nat → σ → Prop} (rounds : List (List ε)) {n : Nat}
    (hround : ∀ i (hi : i < rounds.length) s, I (n + i) s → I (n + i + 1) (M.run s rounds[i]))
    (h0 : I n s) : I (n + rounds.length) (M.run s rounds.flatten) := by
  induction rounds generalizing s n with
  | nil => exact h0
  | cons es rounds ih =>
    rw [List.flatten_cons, run_append, List.length_cons, Nat.add_comm rounds.length,
      ← Nat.add_assoc]
    refine ih ?_ (hround 0 (Nat.succ_pos _) s h0)
    intro i hi t ht
    rw [Nat.add_assoc n, Nat.add_comm 1] at ht ⊢
    exact hround (i + 1) (Nat.succ_lt_succ hi) t ht

/-! ## Reaching a goal -/

/-- The number of marked steps of the run `es` from `s`. -/
def marks (M : Machine σ ε ω) (mark : σ → ε → Bool) (s : σ) : List ε → Nat
  | [] => 0
  | e :: es => (mark s e).toNat + marks M mark (M.step s e).1 es

@[simp] theorem marks_nil {mark : σ → ε → Bool} : M.marks mark s [] = 0 := rfl
@[simp] theorem marks_cons {mark : σ → ε → Bool} (e : ε) (es : List ε) :
    M.marks mark s (e :: es) = (mark s e).toNat + M.marks mark (M.step s e).1 es := rfl

/-- **The potential rule.** Each step keeps the invariant, and a marked step lowers the potential,
which only the steps of some events raise, by at most `n`. Then the number of marked steps is
bounded by that of these events. -/
theorem marks_le {mark : σ → ε → Bool} {I : σ → Prop} {μ : σ → Nat} {raises : ε → Bool} {n : Nat}
    (hstep : ∀ s e, I s → I (M.step s e).1 ∧
      μ (M.step s e).1 + (mark s e).toNat ≤ μ s + n * (raises e).toNat)
    (h0 : I s) (es : List ε) :
    M.marks mark s es + μ (M.run s es) ≤ μ s + n * es.countP raises := by
  induction es generalizing s with
  | nil => simp
  | cons e es ih =>
    obtain ⟨hI, hμ⟩ := hstep s e h0
    have hrest := ih hI
    rw [marks_cons, run_cons, List.countP_cons]
    cases hraises : raises e with
    | true =>
      simp only [hraises, Bool.toNat_true, Nat.mul_one, if_true, Nat.mul_add] at hμ ⊢
      omega
    | false =>
      simp only [hraises, Bool.toNat_false, Nat.mul_zero, Nat.add_zero, Bool.false_eq_true,
        if_false] at hμ ⊢
      omega

/-- **The rule of bounded waiting.** Each step either reaches the goal, or keeps the invariant and
the measure, which a marked step lowers. Then a run with more marked steps than the measure reaches
the goal, and does so before it has taken more than that. -/
theorem exists_goal {mark : σ → ε → Bool} {I : σ → Prop} {G : σ → ε → Prop} {μ : σ → Nat}
    (hstep : ∀ s e, I s → G s e ∨ I (M.step s e).1 ∧ μ (M.step s e).1 + (mark s e).toNat ≤ μ s)
    {es : List ε} (h0 : I s) (hn : μ s < M.marks mark s es) :
    ∃ q e r, es = q ++ e :: r ∧ M.marks mark s q ≤ μ s ∧ G (M.run s q) e := by
  induction es generalizing s with
  | nil => exact absurd hn (Nat.not_lt_zero _)
  | cons e es ih =>
    rcases hstep s e h0 with hG | ⟨hI, hμ⟩
    · exact ⟨[], e, es, rfl, Nat.zero_le _, hG⟩
    · rw [marks_cons] at hn
      obtain ⟨q, f, r, rfl, hq, hG⟩ := ih hI (by omega)
      refine ⟨e :: q, f, r, rfl, ?_, hG⟩
      rw [marks_cons]
      omega

/-- **The rule of approach.** From every position below a bound some steps lead to a later one that
is not past the bound, and emit its report. Then some steps emit the report of the bound. -/
theorem exists_report {R : Nat → σ → Prop} {G : ε → Prop} {report : Nat → ω} {bound : Nat}
    (hround : ∀ p s, R p s → p < bound → ∃ es q, (∀ e ∈ es, G e) ∧ p < q ∧ q ≤ bound ∧
      R q (M.run s es) ∧ report q ∈ M.trace s es)
    {p : Nat} (h : R p s) (hp : p < bound) :
    ∃ es, (∀ e ∈ es, G e) ∧ report bound ∈ M.trace s es := by
  induction hn : bound - p using Nat.strongRecOn generalizing p s with
  | ind n ih =>
    obtain ⟨es, q, hG, hpq, hq, hR, hmem⟩ := hround p s h hp
    rcases Nat.lt_or_eq_of_le hq with hlt | rfl
    · obtain ⟨fs, hG', hmem'⟩ := ih (bound - q) (by omega) hR hlt rfl
      refine ⟨es ++ fs, List.forall_mem_append.2 ⟨hG, hG'⟩, ?_⟩
      rw [trace_append]
      exact List.mem_append_right _ hmem'
    · exact ⟨es, hG, hmem⟩

/-! ## Two runs -/

/-- **The simulation rule.** Two machines whose steps keep a relation and have the same outputs
have the same runs. -/
theorem simulate {τ : Type*} {N : Machine τ ε ω} {R : σ → τ → Prop} {D : τ → ε → Prop}
    (hstep : ∀ s t e, R s t → D t e →
      R (M.step s e).1 (N.step t e).1 ∧ (M.step s e).2 = (N.step t e).2)
    {t : τ} {es : List ε} (h : N.Along D t es) (hR : R s t) :
    R (M.run s es) (N.run t es) ∧ M.trace s es = N.trace t es := by
  induction es generalizing s t with
  | nil => exact ⟨hR, rfl⟩
  | cons e es ih =>
    obtain ⟨hR', hout⟩ := hstep s t e hR h.1
    obtain ⟨hR'', htrace⟩ := ih h.2 hR'
    refine ⟨hR'', ?_⟩
    rw [trace_cons, trace_cons, hout, htrace]

section
variable {α : Type*} {R : σ → σ → Prop} {vis : ε → Bool} {obs : List ω → List α} {t : σ}

/-- Events that cannot be seen keep two states related, and nothing can be seen of them. -/
theorem unwind_hidden (hobs : ∀ l m, obs (l ++ m) = obs l ++ obs m) (hnil : obs [] = [])
    (hhid : ∀ s t e, R s t → vis e = false → R s (M.step t e).1 ∧ obs (M.step t e).2 = [])
    {es : List ε} (h : es.filter vis = []) (hR : R s t) :
    R s (M.run t es) ∧ obs (M.trace t es) = [] := by
  induction es generalizing t with
  | nil => exact ⟨hR, hnil⟩
  | cons e es ih =>
    cases hv : vis e with
    | true =>
      rw [List.filter_cons_of_pos hv] at h
      cases h
    | false =>
      rw [List.filter_cons_of_neg (by simp [hv])] at h
      obtain ⟨hR', ho⟩ := hhid s t e hR hv
      obtain ⟨hR'', ho'⟩ := ih h hR'
      refine ⟨hR'', ?_⟩
      rw [trace_cons, hobs, ho, ho', List.append_nil]

/-- **The unwinding rule.** If two related states stay related when one of them takes a step that
cannot be seen, or both take the same step that can, and nothing tells the two apart in what is
observed of the outputs, then two runs whose visible events agree end in related states and are
observed alike. -/
theorem unwind (R : σ → σ → Prop) (vis : ε → Bool) (obs : List ω → List α)
    (hobs : ∀ l m, obs (l ++ m) = obs l ++ obs m) (hnil : obs [] = [])
    (hsymm : ∀ s t, R s t → R t s)
    (hhid : ∀ s t e, R s t → vis e = false → R s (M.step t e).1 ∧ obs (M.step t e).2 = [])
    (hvis : ∀ s t e, R s t → vis e = true →
      R (M.step s e).1 (M.step t e).1 ∧ obs (M.step s e).2 = obs (M.step t e).2)
    {es fs : List ε} (h : es.filter vis = fs.filter vis) (hR : R s t) :
    R (M.run s es) (M.run t fs) ∧ obs (M.trace s es) = obs (M.trace t fs) := by
  induction es generalizing s t fs with
  | nil =>
    obtain ⟨hR', ho⟩ := unwind_hidden hobs hnil hhid h.symm hR
    exact ⟨hR', hnil.trans ho.symm⟩
  | cons e es ih =>
    cases hv : vis e with
    | false =>
      rw [List.filter_cons_of_neg (by simp [hv])] at h
      obtain ⟨hR', ho⟩ := hhid t s e (hsymm _ _ hR) hv
      obtain ⟨hR'', ho'⟩ := ih h (hsymm _ _ hR')
      refine ⟨hR'', ?_⟩
      rw [trace_cons, hobs, ho, List.nil_append, ho']
    | true =>
      rw [List.filter_cons_of_pos hv] at h
      -- the other run reaches the same event after some that cannot be seen
      induction fs generalizing t with
      | nil => cases h
      | cons f fs ihf =>
        cases hf : vis f with
        | true =>
          rw [List.filter_cons_of_pos hf] at h
          obtain ⟨rfl, hes⟩ := List.cons.inj h
          obtain ⟨hR', ho⟩ := hvis s t e hR hv
          obtain ⟨hR'', ho'⟩ := ih hes hR'
          refine ⟨hR'', ?_⟩
          rw [trace_cons, trace_cons, hobs, hobs, ho, ho']
        | false =>
          rw [List.filter_cons_of_neg (by simp [hf])] at h
          obtain ⟨hR', ho⟩ := hhid s t f hR hf
          obtain ⟨hR'', ho'⟩ := ihf h hR'
          refine ⟨hR'', ?_⟩
          rw [ho', trace_cons, hobs, ho, List.nil_append]

end

end Machine

end ChargingPile
