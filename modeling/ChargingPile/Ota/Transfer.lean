import ChargingPile.Ota.Stage

/-!
# The lower end's transfer over a lossy link

While the flash of the lower end does its work, every acknowledgement is one of a write that was
done, so the download is always at one of the moments of `Stage`. What the module may claim follows
from the moment: that one `Write` at most is outstanding, that only acknowledged chunks are passed,
and what is on the partition when the download is reported done.
-/

namespace ChargingPile.Ota.Lower

variable {V : Type}

section
variable [DecidableEq V] {image : V → Image} {tr : List (Output V)} {t : Lower V}

/-- The flash of the lower end does not fail. -/
def FlashHolds (_ : Lower V) (e : Event V) : Prop := ∀ junk, e ≠ .serve (.fault junk)

/-- While the flash does not fail, every answer under way is one of a request that was done. -/
theorem step_answers {e : Event V} (h : ∀ q ∈ t.link.answers, q.2.2.stored = true)
    (hc : FlashHolds t e) : ∀ q ∈ (step image t e).1.link.answers, q.2.2.stored = true := by
  rcases step_link image t e with hl | ⟨r, hl⟩ | ⟨i, id, r, rs, ok, hq, hl, hok⟩ | ⟨n, hl⟩ |
    ⟨n, hl⟩ <;>
    rw [hl]
  · exact h
  · exact h
  · cases ok with
    | false =>
      obtain ⟨junk, rfl⟩ := hok rfl
      exact absurd rfl (hc junk)
    | true =>
      rw [Link.serve_cons hq]
      intro q hq
      rcases List.mem_append.1 hq with hq | hq
      · exact h q hq
      · rw [List.mem_singleton.1 hq]
        cases r <;> rfl
  · exact h
  · exact fun q hq => h q ((List.eraseIdx_sublist _ _).subset hq)

/-- While the flash does not fail, the acknowledgements hold. -/
theorem answersHold_of_flashHolds {bytes : Nat → UInt8} {es : List (Event V)}
    (h : (machine image).Along FlashHolds (boot bytes) es) :
    (machine image).Along AnswersHold (boot bytes) es := by
  refine h.imp (I := fun t => ∀ q ∈ t.link.answers, q.2.2.stored = true)
    (fun _ _ => step_answers) ?_ nofun
  intro t e hi _
  cases e
  case respond => exact fun q hq _ _ _ _ => hi q (List.mem_of_mem_take hq)
  all_goals trivial

/-- Only a task of the Low thread changes the position of a download. -/
theorem step_currPos {e : Event V} {m m' : OtaLowerModule V} (hm : t.mod = some m)
    (hm' : (step image t e).1.mod = some m') (he : e ≠ .runTask) : m'.currPos = m.currPos := by
  have hsame : t.mod = some m' → m'.currPos = m.currPos := fun h =>
    congrArg (·.currPos) (Option.some.inj (h.symm.trans hm))
  cases e with
  | runTask => exact absurd rfl he
  | start =>
    simp only [step] at hm'
    split at hm'
    next hnone _ => exact absurd (hm.symm.trans hnone) (Option.some_ne_none m)
    · exact hsame hm'
  | invoke busy =>
    simp only [step] at hm'
    split at hm'
    · cases busy
      · exact hsame hm'
      · cases hm'
    · cases busy <;> exact hsame hm'
    · exact hsame hm'
  | fetch n =>
    simp only [step] at hm'
    split at hm'
    next m₀ hm₀ _ =>
      obtain rfl : m₀ = m := Option.some.inj (hm₀.symm.trans hm)
      split at hm'
      · cases hm'
      · cases hm'
        rfl
    · exact hsame hm'
  | raise =>
    simp only [step] at hm'
    split at hm'
    next m₀ hm₀ _ =>
      obtain rfl : m₀ = m := Option.some.inj (hm₀.symm.trans hm)
      cases hm'
      rfl
    · exact hsame hm'
  | seekFails =>
    simp only [step] at hm'
    split at hm'
    · cases hm'
    · exact hsame hm'
  | respond =>
    simp only [step] at hm'
    split at hm'
    · exact hsame hm'
    · rw [deliver_mod] at hm'
      exact hsame hm'
  | otherAnswer id ok => exact hsame ((deliver_mod t id ok).symm.trans hm')
  | timeout id => exact hsame ((deliver_mod t id false).symm.trans hm')
  | otherCall => exact hsame hm'
  | serve =>
    simp only [step] at hm'
    split at hm' <;> exact hsame hm'
  | loseRequest | loseAnswer => exact hsame hm'
  | powerFails => cases hm'

/-- A position that changes passes a chunk that was acknowledged. -/
theorem Inv.acknowledged (h : Inv image tr t) {e : Event V} {m m' : OtaLowerModule V}
    (hm : t.mod = some m) (hm' : (step image t e).1.mod = some m') (hne : m'.currPos ≠ m.currPos) :
    m.currPos < m'.currPos ∧ Acknowledged tr m.currPos (m'.currPos - m.currPos) := by
  obtain rfl : e = .runTask := Classical.byContradiction fun he => hne (step_currPos hm hm' he)
  have hadvance : ∀ t' : Lower V, (t'.proceed m).1.mod = some m' →
      m'.currPos = m.currPos + m.recvedLen := by
    intro t' hp
    obtain ⟨l, hu⟩ := advance_mod t'.spec m.toOtaModule m.recvedLen
    simp only [proceed, Option.some.injEq] at hp
    rw [← hp]
    exact congrArg (·.currPos) hu
  have hsame : t.mod ≠ some m' := fun h0 =>
    hne (congrArg (·.currPos) (Option.some.inj (h0.symm.trans hm)))
  simp only [step] at hm'
  split at hm'
  next m₀ cb ok tasks hm₀ hpc ht =>
    obtain rfl : m₀ = m := Option.some.inj (hm₀.symm.trans hm)
    obtain ⟨rfl, hp, ⟨rfl, hf, hok⟩ | ⟨rfl, hl, hok⟩⟩ := h.stage.of_task hm ht
    · cases ok with
      | false => cases hm'
      | true =>
        have hpos := hadvance _ hm'
        rw [hf.len] at hpos
        exact absurd hpos hne
    · cases ok with
      | false => exact absurd hm' hsame
      | true =>
        have hpos := hadvance _ hm'
        obtain ⟨-, -, hack⟩ := hok rfl
        refine ⟨by omega, ?_⟩
        rw [hpos, Nat.add_sub_cancel_left]
        exact hack
  · exact absurd hm' hsame

/-- Only the end of the stream ends a download well. -/
theorem done_step {e : Event V} (hd : .done ∈ (step image t e).2) :
    ∃ n m, e = .fetch n ∧ t.mod = some m ∧ t.pc = .fetching ∧ m.currPos = m.size ∧
      (step image t e).1.bytes = t.bytes := by
  cases e with
  | fetch n =>
    simp only [step] at hd ⊢
    split at hd
    next m hm hpc =>
      split at hd
      next h0 =>
        refine ⟨n, m, rfl, hm, hpc, (finish_eq_done _).1 (List.mem_singleton.1 hd).symm, ?_⟩
        rw [if_pos h0]
        rfl
      · cases hd
    · cases hd
  | runTask =>
    simp only [step] at hd
    split at hd
    · unfold task at hd
      split at hd
      · simp at hd
      · cases hd
      · rcases mem_advance _ _ _ hd with ⟨_, h0⟩ | ⟨_, _, h0⟩ <;> cases h0
    · cases hd
  | invoke busy =>
    simp only [step] at hd
    split at hd
    · cases busy <;> simp at hd
    · cases busy <;> simp at hd
    · cases hd
  | respond =>
    simp only [step] at hd
    split at hd
    · cases hd
    · exact absurd hd (not_done_deliver _ _ _)
  | otherAnswer id ok => exact absurd hd (not_done_deliver t id ok)
  | timeout id => exact absurd hd (not_done_deliver t id false)
  | serve o =>
    simp only [step] at hd
    split at hd
    next r _ _ => cases r <;> simp [Request.report] at hd
    next r _ _ _ => cases r <;> simp [Request.report] at hd
    · cases hd
    · cases hd
  | start | raise =>
    simp only [step] at hd
    split at hd <;> cases hd
  | seekFails =>
    simp only [step] at hd
    split at hd <;> simp at hd
  | otherCall | loseRequest | loseAnswer | powerFails => cases hd

/-- **The transfer of the lower end.** In every run in which the flash of the lower end does not
fail and each answer is handed to its own call, whatever else goes wrong: at most one `Write` is
outstanding; a position that changes passes a chunk that was sent and acknowledged; and a download
reported done has on the partition, from its offset to its size, the bytes of its stream. -/
theorem transfer_correct (image : V → Image) (bytes : Nat → UInt8) (es : List (Event V))
    (hflash : ∀ e ∈ es, ∀ junk, e ≠ .serve (.fault junk))
    (hown : (machine image).Along OwnAnswers (boot bytes) es) :
    let t := (machine image).run (boot bytes) es
    let tr := (machine image).trace (boot bytes) es
    (t.pendings.filter (·.cb = .write)).length + (t.tasks.filter (·.1 = .write)).length ≤ 1 ∧
    (∀ e m m', t.mod = some m → (step image t e).1.mod = some m' → m'.currPos ≠ m.currPos →
      m.currPos < m'.currPos ∧ Acknowledged tr m.currPos (m'.currPos - m.currPos)) ∧
    ∀ e, .done ∈ (step image t e).2 → ∃ m, t.mod = some m ∧
      ∀ i : Nat, m.offset ≤ i → i < m.size →
        (step image t e).1.bytes i = (image m.version).byte i := by
  intro t tr
  have hinv : Inv image tr t :=
    run_inv hown (answersHold_of_flashHolds (Machine.along_of_mem fun e he _ => hflash e he))
  refine ⟨hinv.stage.oneWrite, fun e m m' => hinv.acknowledged, ?_⟩
  intro e hd
  obtain ⟨n, m, rfl, hm, hpc, hsize, hbytes⟩ := done_step hd
  obtain ⟨-, hb⟩ := hinv.stage.of_fetching hm hpc
  refine ⟨m, hm, fun i hlo hhi => ?_⟩
  rw [hbytes]
  exact hb.kept i hlo (by omega)

end

/-- A download of three bytes whose first `Write` is done but whose acknowledgement is lost. -/
def lostAnswer : List (Event Bool) :=
  [.start true 3 (some false), .invoke false, .serve .success, .respond, .runTask, .fetch 5,
    .invoke false, .serve .success, .loseAnswer 0, .timeout 1, .runTask, .invoke false,
    .serve .success, .respond, .runTask, .raise]

/-- The second `Write` succeeds, the download is reported done, and the partition holds the three
bytes. -/
theorem transfer_correct_lostAnswer :
    .done ∈ (step sample ((machine sample).run (boot fun _ => 0) lostAnswer) (.fetch 5)).2 ∧
    ∃ m, ((machine sample).run (boot fun _ => 0) lostAnswer).mod = some m ∧
      ∀ i : Nat, m.offset ≤ i → i < m.size →
        (step sample ((machine sample).run (boot fun _ => 0) lostAnswer)
          (.fetch 5)).1.bytes i = (sample m.version).byte i := by
  have hdone : .done ∈ (step sample
      ((machine sample).run (boot fun _ => 0) lostAnswer) (.fetch 5)).2 := by decide +kernel
  obtain ⟨-, -, h⟩ := transfer_correct sample (fun _ => 0) lostAnswer (by simp [lostAnswer])
    (by decide +kernel)
  exact ⟨hdone, h (.fetch 5) hdone⟩

end ChargingPile.Ota.Lower
