import ChargingPile.Ota.Stage
import ChargingPile.Ota.Upper

/-!
# Writes that fail

Neither end looks at the result of `fal_partition_write`: `OtaUpperModule` goes on to the next
chunk, and `OtaLower` acknowledges the call. `NotHidden` says what a download should do instead:
while a chunk is not on the flash because its write failed, the progress does not go past it and
the download is not reported done. What saves a run with a failed write is never the code: at the
upper end the power fails before the loop goes on, at the lower end the answer is lost or comes too
late, and the chunk is sent again.
-/

namespace ChargingPile.Ota

variable {V : Type}

/-- The output fits the chunks that have failed: it is no progress past one of them, and no end of
the download while there is one. -/
def Output.Shows (failed : List (Nat × Nat)) : Output V → Prop
  | .progress pos _ => ∀ c ∈ failed, pos < c.1 + c.2
  | .done => failed = []
  | _ => True

/-- Every output fits the chunks that have failed before it and have not been written since. -/
def NotHidden (tr : List (Output V)) : Prop :=
  ∀ before x after, tr = before ++ x :: after → x.Shows (failedChunks before)

theorem notHidden_nil : NotHidden ([] : List (Output V)) := by
  intro before x after h
  simp at h

theorem NotHidden.left {tr out : List (Output V)} (h : NotHidden (tr ++ out)) : NotHidden tr := by
  intro before x after htr
  exact h before x (after ++ out) (by simp [htr])

/-- Without failed chunks every output fits. -/
theorem Output.shows_nil (x : Output V) : x.Shows [] := by
  cases x <;> simp [Shows]

/-- A run hides nothing exactly if it hid nothing before its last output and this one fits. -/
theorem notHidden_concat {tr : List (Output V)} {x : Output V} :
    NotHidden (tr ++ [x]) ↔ NotHidden tr ∧ x.Shows (failedChunks tr) := by
  refine ⟨fun h => ⟨h.left, h tr x [] rfl⟩, ?_⟩
  rintro ⟨h, hx⟩ before y after heq
  rcases List.eq_nil_or_concat after with rfl | ⟨l, z, rfl⟩
  · obtain ⟨rfl, hxy⟩ := List.append_inj' heq rfl
    obtain rfl := List.singleton_inj.1 hxy
    exact hx
  · rw [List.concat_eq_append, ← List.cons_append, ← List.append_assoc] at heq
    exact h before y l (List.append_inj' heq rfl).1

/-- A step hides nothing if it emits neither progress nor the end of the download, or if no chunk
has failed when it does. -/
theorem NotHidden.append {tr out : List (Output V)} (h : NotHidden tr)
    (hout : (∀ x ∈ out, ∀ f, x.Shows f) ∨
      failedChunks tr = [] ∧ ∀ x ∈ out, ∀ f, x.mark f = f) : NotHidden (tr ++ out) := by
  induction out generalizing tr with
  | nil => simpa using h
  | cons x out ih =>
    rw [List.append_cons]
    rcases hout with hout | ⟨hf, hmark⟩
    · exact ih (notHidden_concat.2 ⟨h, hout x List.mem_cons_self _⟩)
        (.inl fun y hy => hout y (List.mem_cons_of_mem _ hy))
    · have hx : failedChunks (tr ++ [x]) = failedChunks tr := by
        simpa using hmark x List.mem_cons_self (failedChunks tr)
      exact ih (notHidden_concat.2 ⟨h, hf ▸ x.shows_nil⟩)
        (.inr ⟨hx.trans hf, fun y hy => hmark y (List.mem_cons_of_mem _ hy)⟩)

/-- What an advance emits has nothing to do with failed chunks. -/
theorem mark_advance (spec : Option (ModuleSpec V)) (m : OtaModule V) (n : Nat) :
    ∀ x ∈ (m.advance spec n).outputs, ∀ f, x.mark f = f := by
  intro x hx f
  rcases mem_advance _ _ _ hx with ⟨o, rfl⟩ | ⟨pos, value, rfl⟩ <;> rfl

section
variable [DecidableEq V] {image : V → Image} {tr : List (Output V)}

namespace Upper

variable {t : Upper V} {e : Event V}

/-- A step of the upper end that goes past no failed write hides nothing. -/
theorem step_notHidden (h : Stage image tr t) (hc : WritesHold t e) :
    (∀ x ∈ (step image t e).2, ∀ f, x.Shows f) ∨
      failedChunks tr = [] ∧ ∀ x ∈ (step image t e).2, ∀ f, x.mark f = f := by
  cases e with
  | fetch n =>
    simp only [step]
    split
    next m hpc =>
      simp only [Stage, hpc] at h
      split
      · exact .inr ⟨h.2.2.2, by simp⟩
      · exact .inl (List.forall_mem_nil _)
    · exact .inl (List.forall_mem_nil _)
  | advance =>
    simp only [step]
    split
    next m n ok hpc =>
      simp only [Stage, hpc] at h
      cases ok with
      | false => exact absurd hpc (hc rfl m n)
      | true => exact .inr ⟨(h.2.2.2.1 rfl).2, mark_advance _ _ _⟩
    · exact .inl (List.forall_mem_nil _)
  | start | raise => simp only [step]; split <;> exact .inl (List.forall_mem_nil _)
  | noPartition | seekFails | erase | write =>
    simp only [step]
    split <;> simp [Output.Shows]
  | powerFails => exact .inl (List.forall_mem_nil _)

/-- **The upper end hides a failed write exactly if it goes past one.** -/
theorem notHidden_iff (image : V → Image) (bytes : Nat → UInt8) (es : List (Event V)) :
    NotHidden ((machine image).trace (boot bytes) es) ↔
      (machine image).Along WritesHold (boot bytes) es := by
  induction es using List.reverseRecOn with
  | nil => simpa using notHidden_nil
  | append_singleton es e ih =>
    rw [Machine.trace_concat, Machine.along_append]
    refine ⟨fun h => ?_, fun ⟨h, hce, _⟩ => (ih.2 h).append (step_notHidden (run_stage h) hce)⟩
    have hes := ih.1 h.left
    have hstage := run_stage hes
    refine ⟨hes, ?_, trivial⟩
    rintro rfl m n hpc
    -- the failed chunk is in hand, and the progress that is emitted now is past it
    simp only [Stage, hpc] at hstage
    obtain ⟨saved, hsaved, hout⟩ :=
      advance_outputs ((machine image).run (boot bytes) es).spec m n
    simp only [machine_step, step, hpc, hout, ← List.append_assoc, notHidden_concat] at h
    have hsaved' :
        failedChunks ((machine image).trace (boot bytes) es ++ saved) = [(m.currPos, n)] := by
      rcases hsaved with rfl | ⟨o, rfl⟩ <;> simp [Output.mark, hstage.2.2.2.2]
    have hpast := h.2 (m.currPos, n) (by simp [hsaved'])
    exact absurd hpast (Nat.lt_irrefl _)

/-- Whether a write has failed since the power last failed, after one more step. -/
def failing (t : Upper V) (e : Event V) (failed : Bool) : Bool :=
  match e, t.pc with
  | .write (some _), .writing .. => true
  | .powerFails _, _ => false
  | _, _ => failed

/-- The loop does not go on when a write has failed: the power fails before it can. -/
def CutOff (t : Upper V × Bool) (e : Event V) : Prop := e = .advance → t.2 = false

/-- While the loop does not go on after a failed write, such a write is the last thing it did. -/
theorem step_failing {failed : Bool}
    (h : failed = true ↔ ∃ m n, t.pc = .written m n false) (hc : e = .advance → failed = false) :
    failing t e failed = true ↔ ∃ m n, (step image t e).1.pc = .written m n false := by
  obtain ⟨bytes, spec, last, pc⟩ := t
  cases e with
  | write fault =>
    cases pc with
    | writing m buf =>
      cases fault with
      | none => simpa [failing, step] using h
      | some junk => simp [failing, step]
    | idle | erasing | fetching | written => cases fault <;> simpa [failing, step] using h
  | advance =>
    obtain rfl : failed = false := hc rfl
    cases pc with
    | written m n ok => simp [failing, step]
    | idle | erasing | fetching | writing => simp [failing, step]
  | powerFails junk => simp [failing, step]
  | start version size currVer =>
    cases pc with
    | idle => cases hst : Ota.start spec version size currVer <;>
        simpa [failing, step, hst] using h
    | erasing | fetching | writing | written => simpa [failing, step] using h
  | fetch n =>
    cases pc with
    | fetching m =>
      simp only [failing, step]
      split <;> simpa using h
    | idle | erasing | writing | written => simpa [failing, step] using h
  | erase fault => cases pc <;> cases fault <;> simpa [failing, step] using h
  | noPartition | raise | seekFails => cases pc <;> simpa [failing, step] using h

/-- No download goes past a failed write exactly if the power fails after each of them. -/
theorem along_writesHold_iff (bytes : Nat → UInt8) (es : List (Event V)) :
    (machine image).Along WritesHold (boot bytes) es ↔
      ((machine image).tallied failing).Along CutOff (boot bytes, false) es := by
  rw [← Machine.along_tallied (f := failing) (a := false)]
  have hstep : ∀ (s : Upper V × Bool) e, (s.2 = true ↔ ∃ m n, s.1.pc = .written m n false) →
      (CutOff s e ↔ WritesHold s.1 e) := by
    rintro ⟨t, failed⟩ e h
    refine imp_congr_right fun _ => ?_
    dsimp only at h ⊢
    rw [← Bool.not_eq_true, h]
    push Not
    rfl
  constructor
  · intro h
    refine h.imp (I := fun s => s.2 = true ↔ ∃ m n, s.1.pc = .written m n false) ?_
      (fun s e hi hc => (hstep s e hi).2 hc) (by simp [boot])
    intro s e hi hc
    exact step_failing hi ((hstep s e hi).2 hc)
  · intro h
    refine h.imp (I := fun s => s.2 = true ↔ ∃ m n, s.1.pc = .written m n false) ?_
      (fun s e hi hc => (hstep s e hi).1 hc) (by simp [boot])
    intro s e hi hc
    exact step_failing hi hc

end Upper

namespace Lower

variable {t : Lower V}

omit [DecidableEq V] in
theorem deliver_shows (t : Lower V) (id : UInt8) (ok : Bool) :
    ∀ x ∈ (t.deliver id ok).2, ∀ f, x.Shows f := by
  rcases deliver_outputs t id ok with h | ⟨n, h⟩ <;> simp [h, Output.Shows]

/-- A step of the two ends hides nothing while the answers hold. -/
theorem step_notHidden (h : Inv image tr t) (e : Event V) :
    (∀ x ∈ (step image t e).2, ∀ f, x.Shows f) ∨
      failedChunks tr = [] ∧ ∀ x ∈ (step image t e).2, ∀ f, x.mark f = f := by
  cases e with
  | fetch n =>
    simp only [step]
    split
    next m hm hpc =>
      obtain ⟨-, hb⟩ := h.stage.of_fetching hm hpc
      split
      · exact .inr ⟨hb.failed, by simp⟩
      · exact .inl (List.forall_mem_nil _)
    · exact .inl (List.forall_mem_nil _)
  | runTask =>
    simp only [step]
    split
    next m cb ok tasks hm hpc ht =>
      obtain ⟨rfl, -, ⟨rfl, -, hok⟩ | ⟨rfl, -, hok⟩⟩ := h.stage.of_task hm ht
      · cases ok with
        | false => simp [task, Output.Shows]
        | true => exact .inr ⟨(hok rfl).2, mark_advance _ _ _⟩
      · cases ok with
        | false => simp [task]
        | true => exact .inr ⟨(hok rfl).2.1.failed, mark_advance _ _ _⟩
    · exact .inl (List.forall_mem_nil _)
  | invoke busy =>
    simp only [step]
    split
    · cases busy <;> simp [Output.Shows]
    · cases busy <;> simp [Output.Shows]
    · exact .inl (List.forall_mem_nil _)
  | respond =>
    simp only [step]
    split
    · exact .inl (List.forall_mem_nil _)
    · exact .inl (deliver_shows _ _ _)
  | otherAnswer id ok => exact .inl (deliver_shows t id ok)
  | timeout id => exact .inl (deliver_shows t id false)
  | serve o =>
    simp only [step]
    split
    next r _ _ => cases r <;> simp [Request.report, Output.Shows]
    next r _ _ _ => cases r <;> simp [Request.report, Output.Shows]
    · exact .inl (List.forall_mem_nil _)
    · exact .inl (List.forall_mem_nil _)
  | start | raise => simp only [step]; split <;> exact .inl (List.forall_mem_nil _)
  | seekFails => simp only [step]; split <;> simp [Output.Shows]
  | otherCall | loseRequest | loseAnswer | powerFails => exact .inl (List.forall_mem_nil _)

/-- The two ends hide no failed write while the answers hold and reach their own calls. -/
theorem notHidden {bytes : Nat → UInt8} {es : List (Event V)}
    (hown : (machine image).Along OwnAnswers (boot bytes) es)
    (hc : (machine image).Along AnswersHold (boot bytes) es) :
    NotHidden ((machine image).trace (boot bytes) es) := by
  have hrun := Machine.trace_inv (I := fun tr t => Inv image tr t ∧ NotHidden tr) (hown.and hc)
    ⟨⟨.empty, .idle ⟨rfl, rfl, rfl, rfl⟩⟩, notHidden_nil⟩ ?_
  · exact hrun.2
  · rintro tr t e ⟨hi, h⟩ ⟨hown, hce⟩
    exact ⟨step_inv hi hown hce, h.append (step_notHidden hi e)⟩

/-- The numbers of the `Write`s that the flash has failed, after one more step. -/
def failing (t : Lower V) (e : Event V) (failed : List Nat) : List Nat :=
  match e, t.link.requests with
  | .serve (.fault _), (n, _, .write ..) :: _ => n :: failed
  | _, _ => failed

/-- The answer to a `Write` that the flash has failed is handed to no call: it is lost, or no call
has its id any more when it comes. -/
def FailuresLost (t : Lower V × List Nat) : Event V → Prop
  | .respond => ∀ q ∈ t.1.link.answers.take 1, q.1 ∈ t.2 → ∀ p ∈ t.1.pendings, p.id ≠ q.2.1
  | _ => True

instance (t : Lower V × List Nat) : DecidablePred (FailuresLost t)
  | .respond => inferInstanceAs (Decidable
      (∀ q ∈ t.1.link.answers.take 1, q.1 ∈ t.2 → ∀ p ∈ t.1.pendings, p.id ≠ q.2.1))
  | .otherAnswer .. | .start .. | .otherCall | .invoke .. | .runTask | .fetch .. | .raise
  | .seekFails | .timeout .. | .serve .. | .loseRequest .. | .loseAnswer .. | .powerFails =>
    .isTrue trivial

/-- Every answer under way that reports success for a request that was not done is one to a `Write`
that the flash has failed. -/
def Recorded (t : Lower V × List Nat) : Prop :=
  ∀ q ∈ t.1.link.answers, q.2.2.ok = true → q.2.2.stored = false → q.1 ∈ t.2

omit [DecidableEq V] in
theorem subset_failing (t : Lower V) (e : Event V) (failed : List Nat) :
    failed ⊆ failing t e failed := by
  unfold failing
  split
  · exact List.subset_cons_self _ _
  · exact List.Subset.refl _

theorem step_recorded {failed : List Nat} (h : Recorded (t, failed)) (e : Event V) :
    Recorded ((step image t e).1, failing t e failed) := by
  have hsub := subset_failing t e failed
  intro q
  dsimp only
  rcases step_link image t e with hl | ⟨r, hl⟩ | ⟨i, id, r, rs, ok, hq, hl, hok⟩ | ⟨n, hl⟩ |
    ⟨n, hl⟩ <;>
    rw [hl]
  · exact fun hq h₁ h₂ => hsub (h q hq h₁ h₂)
  · exact fun hq h₁ h₂ => hsub (h q hq h₁ h₂)
  · rw [Link.serve_cons hq]
    intro hmem h₁ h₂
    rcases List.mem_append.1 hmem with hmem | hmem
    · exact hsub (h q hmem h₁ h₂)
    · obtain rfl := List.mem_singleton.1 hmem
      cases r with
      | erase => exact absurd (h₁.symm.trans h₂) (by simp)
      | write addr data =>
        obtain ⟨junk, rfl⟩ := hok h₂
        simp [failing, hq]
  · exact fun hq h₁ h₂ => hsub (h q hq h₁ h₂)
  · exact fun hq h₁ h₂ => hsub (h q ((List.eraseIdx_sublist _ _).subset hq) h₁ h₂)

/-- While the answers to failed `Write`s are lost, every answer that reports success is one of a
request that was done. -/
theorem answersHold_of_failuresLost {bytes : Nat → UInt8} {es : List (Event V)}
    (h : ((machine image).tallied failing).Along FailuresLost (boot bytes, []) es) :
    (machine image).Along AnswersHold (boot bytes) es := by
  rw [← Machine.along_tallied (f := failing) (a := [])]
  refine h.imp (I := Recorded) (fun _ e hi _ => step_recorded hi e) ?_ nofun
  intro s e hi hc
  cases e
  case respond =>
    intro q hq p hp hid hok
    by_contra hst
    exact hc q hq (hi q (List.mem_of_mem_take hq) hok (Bool.not_eq_true _ ▸ hst)) p hp hid
  all_goals trivial

end Lower

/-- **Failed writes are shown only by what happens around the code.** For the upper end, a run
hides no failed write exactly if the loop never goes on when a write has failed since the power
last failed. For the lower end, a run hides none if each answer is handed to its own call and the
answer to a `Write` that failed to none, because it is lost or comes too late. -/
theorem failed_writes_shown (image : V → Image) (bytes : Nat → UInt8) :
    (∀ es : List (Upper.Event V), NotHidden ((Upper.machine image).trace (.boot bytes) es) ↔
      ((Upper.machine image).tallied Upper.failing).Along Upper.CutOff (.boot bytes, false) es) ∧
    ∀ es : List (Lower.Event V),
      (Lower.machine image).Along Lower.OwnAnswers (.boot bytes) es →
      ((Lower.machine image).tallied Lower.failing).Along Lower.FailuresLost (.boot bytes, []) es →
        NotHidden ((Lower.machine image).trace (.boot bytes) es) := by
  refine ⟨?_, ?_⟩
  · intro es
    rw [Upper.notHidden_iff, Upper.along_writesHold_iff]
  · intro es hown hlost
    exact Lower.notHidden hown (Lower.answersHold_of_failuresLost hlost)

end

/-- The lower end fails to write the chunk, its acknowledgement is lost, and the chunk is written
when it is sent again. -/
def repaired : List (Lower.Event Bool) :=
  [.start true 3 (some false), .invoke false, .serve .success, .respond, .runTask, .fetch 5,
    .invoke false, .serve (.fault fun _ => 0), .loseAnswer 0, .timeout 1, .runTask, .invoke false,
    .serve .success, .respond, .runTask, .fetch 5]

theorem failed_writes_shown_repaired :
    (.wrote 0 3 false ∈ (Lower.machine sample).trace (.boot fun _ => 0) repaired ∧
      .done ∈ (Lower.machine sample).trace (.boot fun _ => 0) repaired) ∧
    NotHidden ((Lower.machine sample).trace (.boot fun _ => 0) repaired) :=
  ⟨by decide +kernel, (failed_writes_shown sample fun _ => 0).2 repaired (by decide +kernel)
    (by decide +kernel)⟩

/-- Both ends report a download done whose only write has failed. -/
theorem failed_write_hidden :
    ¬ NotHidden ((Upper.machine sample).trace (.boot fun _ => 0)
      [.start true 3 (some false), .erase none, .fetch 5, .write (some fun _ => 0), .advance,
        .fetch 5]) ∧
    ¬ NotHidden ((Lower.machine sample).trace (.boot fun _ => 0)
      [.start true 3 (some false), .invoke false, .serve .success, .respond, .runTask, .fetch 5,
        .invoke false, .serve (.fault fun _ => 0), .respond, .runTask, .fetch 5]) := by
  refine ⟨fun h => ?_, fun h => ?_⟩
  · have hnone : [(0, 3)] = [] :=
      h [.erased 0 3 true, .wrote 0 3 false, .progress 3 (some 100)] .done [] (by decide +kernel)
    cases hnone
  · have hnone : [(0, 3)] = [] :=
      h [.erased 0 3 true, .progress 0 (some 0), .invoked 1 0 3, .wrote 0 3 false, .acknowledged 1,
        .progress 3 (some 100)] .done [] (by decide +kernel)
    cases hnone

end ChargingPile.Ota
