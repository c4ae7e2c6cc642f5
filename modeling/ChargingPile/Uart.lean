import ChargingPile.Lib.Machine

/-!
# The receive side of the UART

`QueuedUart` (`devices/queued_uart.cxx`) reads from the FIFO of the serial driver. Its counter
`rx_remain` says how many bytes are there: the receive interrupt sets it to the length of the FIFO,
and `recv` takes off what it is about to read. A call of `recv` takes several steps (`Pc`), and an
interrupt may come between any two of them.

`recv` counts the bytes down before it reads them. An interrupt between the two counts the bytes
that are about to be read once more, so after the read `rx_remain` is too large, and a later `recv`
returns although the FIFO is empty (`QueuedUart.window_invents_byte`). In a run without such an
interrupt the stream arrives as it was received (`QueuedUart.stream_intact`).
-/

namespace ChargingPile

namespace QueuedUart

/-- Where the reader is in `QueuedUart::recv(data, len)`: at the condition of the loop, in
`rt_event_recv`, before the assignment to `rx_remain`, and before `rt_device_read`. -/
inductive Pc
  | idle
  | check (len : Nat)
  | wait (len : Nat)
  | decrement (len : Nat)
  | read (len : Nat)
deriving DecidableEq, Repr

end QueuedUart

/-- `QueuedUart` with the FIFO of its driver and the reader. `event` is the flag `UartIndicate`. -/
structure QueuedUart where
  fifo : List UInt8 := []
  rxRemain : Int := 0
  event : Bool := false
  pc : QueuedUart.Pc := .idle
deriving DecidableEq, Repr

namespace QueuedUart

/-- The events: `recv` is called, the reader takes its next step, its wait times out, and a receive
interrupt brings bytes. -/
inductive Event
  | call (len : Nat)
  | step
  | timeout
  | interrupt (bytes : List UInt8)
deriving DecidableEq, Repr

/-- How a call ends: `recv` returns after `rt_device_read` has stored `bytes` in the buffer of
`len` bytes, or it gives up. -/
inductive Output
  | returned (len : Nat) (bytes : List UInt8)
  | timedOut
deriving DecidableEq, Repr

/-- The next step of the reader. -/
def advance (s : QueuedUart) : QueuedUart × List Output :=
  match s.pc with
  | .idle => (s, [])
  | .check len => ({ s with pc := if s.rxRemain < len then .wait len else .decrement len }, [])
  -- `RT_EVENT_FLAG_CLEAR`
  | .wait len => if s.event then ({ s with event := false, pc := .check len }, []) else (s, [])
  | .decrement len => ({ s with rxRemain := s.rxRemain - len, pc := .read len }, [])
  | .read len =>
    ({ s with fifo := s.fifo.drop len, pc := .idle }, [.returned len (s.fifo.take len)])

/-- The receive interrupt: the driver appends the bytes to its FIFO and, unless that is empty,
calls the handler with its length. -/
def interrupt (s : QueuedUart) (bytes : List UInt8) : QueuedUart :=
  if s.fifo ++ bytes = [] then s
  else { s with
    fifo := s.fifo ++ bytes
    event := true
    rxRemain := (s.fifo ++ bytes).length }

/-- One event. -/
def step (s : QueuedUart) : Event → QueuedUart × List Output
  | .call len => if s.pc = .idle then ({ s with pc := .check len }, []) else (s, [])
  | .step => s.advance
  | .timeout =>
    match s.pc with
    | .wait _ => ({ s with pc := .idle }, [.timedOut])
    | _ => (s, [])
  | .interrupt bytes => (s.interrupt bytes, [])

/-- The reader and the interrupts as a machine. -/
def machine : Machine QueuedUart Event Output := ⟨step⟩

@[simp] theorem machine_step (s : QueuedUart) (e : Event) : machine.step s e = s.step e := rfl

/-! ## The stream -/

/-- What a call leaves in its buffer. `Absorber::readAtom` passes one that is zero. -/
def Output.buffer : Output → List UInt8
  | .returned len bytes => bytes ++ List.replicate (len - bytes.length) 0
  | .timedOut => []

/-- The bytes that `recv` returned, in order. -/
def returned (tr : List Output) : List UInt8 := tr.flatMap Output.buffer

/-- The bytes that were received, in order. -/
def received (es : List Event) : List UInt8 :=
  es.flatMap fun e => match e with
    | .interrupt bytes => bytes
    | _ => []

@[simp] theorem returned_append (l m : List Output) :
    returned (l ++ m) = returned l ++ returned m :=
  List.flatMap_append

@[simp] theorem received_append (l m : List Event) :
    received (l ++ m) = received l ++ received m :=
  List.flatMap_append

/-- No interrupt comes between the assignment to `rx_remain` and the read. -/
def Undisturbed (s : QueuedUart) (e : Event) : Prop :=
  (∃ bytes, e = .interrupt bytes) → ∀ len, s.pc ≠ .read len

/-- The counter agrees with the FIFO. The reader has taken off what it is about to read, and it
waits for an event only when bytes are missing. -/
structure Inv (s : QueuedUart) : Prop where
  count : s.rxRemain = s.fifo.length - match s.pc with
    | .read len => (len : Int)
    | _ => 0
  /-- The bytes that the reader has counted are there. -/
  enough : ∀ len, s.pc = .decrement len ∨ s.pc = .read len → len ≤ s.fifo.length
  waiting : ∀ len, s.pc = .wait len → s.event = false → s.fifo.length < len

variable {s : QueuedUart} {e : Event}

theorem advance_inv (h : s.Inv) : s.advance.1.Inv := by
  obtain ⟨hcount, henough, hwaiting⟩ := h
  cases hpc : s.pc with
  | idle => simpa [advance, hpc] using ⟨hcount, henough, hwaiting⟩
  | check len =>
    simp only [hpc, Int.sub_zero] at hcount
    by_cases hlt : s.rxRemain < len
    · simp only [advance, hpc, if_pos hlt]
      refine ⟨by simpa using hcount, by simp, ?_⟩
      rintro len' ⟨⟩ _
      show s.fifo.length < len
      omega
    · simp only [advance, hpc, if_neg hlt]
      refine ⟨by simpa using hcount, ?_, by simp⟩
      rintro len' (heq | heq)
      · cases heq
        show len ≤ s.fifo.length
        omega
      · cases heq
  | wait len =>
    simp only [advance, hpc]
    split
    · exact ⟨by simpa [hpc] using hcount, by simp, by simp⟩
    · exact ⟨hcount, henough, hwaiting⟩
  | decrement len =>
    simp only [hpc, Int.sub_zero] at hcount
    refine ⟨by simp [advance, hpc, hcount], ?_, by simp [advance, hpc]⟩
    intro len' hlen
    simp only [advance, hpc, reduceCtorEq, Pc.read.injEq, false_or] at hlen ⊢
    exact hlen ▸ henough len (.inl hpc)
  | read len =>
    have hle := henough len (.inr hpc)
    simp only [hpc] at hcount
    refine ⟨?_, by simp [advance, hpc], by simp [advance, hpc]⟩
    simp only [advance, hpc, List.length_drop]
    omega

theorem interrupt_inv {bytes : List UInt8} (h : s.Inv) (hpc : ∀ len, s.pc ≠ .read len) :
    (s.interrupt bytes).Inv := by
  unfold interrupt
  split
  · exact h
  · refine ⟨?_, ?_, by simp⟩
    · cases hs : s.pc with
      | read len => exact absurd hs (hpc len)
      | _ => simp
    · intro len hlen
      have := h.enough len hlen
      simp only [List.length_append]
      omega

theorem step_inv (h : s.Inv) (he : Undisturbed s e) : (s.step e).1.Inv := by
  cases e with
  | call len =>
    simp only [step]
    split
    · rename_i hpc
      exact ⟨by simpa [hpc] using h.count, by simp, by simp⟩
    · exact h
  | step => exact advance_inv h
  | timeout =>
    simp only [step]
    split
    · rename_i hpc
      exact ⟨by simpa [hpc] using h.count, by simp, by simp⟩
    · exact h
  | interrupt bytes => exact interrupt_inv h (he ⟨bytes, rfl⟩)

/-- One event moves bytes from the FIFO to the caller, or received bytes into the FIFO. -/
theorem step_stream (h : s.Inv) (e : Event) :
    returned (s.step e).2 ++ (s.step e).1.fifo = s.fifo ++ received [e] := by
  cases e with
  | call len =>
    simp only [step]
    split <;> simp [returned, received]
  | step =>
    simp only [step, advance]
    split
    · simp [returned, received]
    · simp [returned, received]
    · split <;> simp [returned, received]
    · simp [returned, received]
    · rename_i len hpc
      have hzero : len - min len s.fifo.length = 0 := by
        have := h.enough len (.inr hpc)
        omega
      simp [returned, received, Output.buffer, hzero]
  | timeout =>
    simp only [step]
    split <;> simp [returned, received, Output.buffer]
  | interrupt bytes =>
    simp only [step, interrupt]
    split
    · rename_i h
      simp_all [returned, received]
    · simp [returned, received]

/-- A call that returns has read as many bytes as it was asked for. -/
theorem step_returned (h : s.Inv) {len : Nat} {bytes : List UInt8}
    (hmem : .returned len bytes ∈ (s.step e).2) : bytes.length = len := by
  cases e with
  | call len =>
    simp only [step] at hmem
    split at hmem <;> cases hmem
  | step =>
    simp only [step, advance] at hmem
    split at hmem
    · cases hmem
    · cases hmem
    · split at hmem <;> cases hmem
    · cases hmem
    · rename_i len' hpc
      cases List.mem_singleton.1 hmem
      rw [List.length_take]
      exact Nat.min_eq_left (h.enough len (.inr hpc))
  | timeout =>
    simp only [step] at hmem
    split at hmem
    · cases List.mem_singleton.1 hmem
    · cases hmem
  | interrupt bytes => cases hmem

theorem init_inv : ({} : QueuedUart).Inv := ⟨rfl, by simp, by simp⟩

theorem run_inv {es : List Event} (h : machine.Along Undisturbed {} es) :
    (machine.run {} es).Inv :=
  Machine.run_inv (I := Inv) (fun _ _ h he => step_inv h he) h init_inv

/-- A reader that waits without an event to wake it waits for bytes that have not come. -/
theorem blocked_of_short {es : List Event} (h : machine.Along Undisturbed {} es) {len : Nat}
    (hpc : (machine.run {} es).pc = .wait len) (hevent : (machine.run {} es).event = false) :
    (machine.run {} es).fifo.length < len :=
  (run_inv h).waiting len hpc hevent

/-- **The stream is intact** in a run in which no interrupt comes between the assignment to
`rx_remain` and the read: what the calls returned and what is still in the FIFO are the received
bytes in order, and every call returned with all the bytes it was asked for. -/
theorem stream_intact (es : List Event) (h : machine.Along Undisturbed {} es) :
    returned (machine.trace {} es) ++ (machine.run {} es).fifo = received es ∧
      ∀ len bytes, .returned len bytes ∈ machine.trace {} es → bytes.length = len := by
  induction es using List.reverseRecOn with
  | nil => exact ⟨rfl, by simp⟩
  | append_singleton es e ih =>
    obtain ⟨hstream, hlen⟩ := ih h.left
    have hs := run_inv h.left
    rw [Machine.trace_concat, Machine.run_concat, machine_step]
    refine ⟨?_, ?_⟩
    · rw [returned_append, List.append_assoc, step_stream hs, ← List.append_assoc, hstream,
        received_append]
    · intro len bytes hmem
      rcases List.mem_append.1 hmem with hmem | hmem
      · exact hlen len bytes hmem
      · exact step_returned hs hmem

/-- The steps of a call that does not have to wait. -/
def recv (len : Nat) : List Event := [.call len, .step, .step, .step]

/-- Two bytes, one after the other. -/
theorem stream_intact_two :
    let es := [.interrupt [1]] ++ recv 1 ++ [.interrupt [2]] ++ recv 1
    machine.Along Undisturbed {} es ∧
      returned (machine.trace {} es) ++ (machine.run {} es).fifo = [1, 2] := by
  intro es
  have h : machine.Along Undisturbed {} es := by
    simp [es, recv, Machine.Along, Undisturbed, step, advance, interrupt]
  exact ⟨h, (stream_intact es h).1⟩

/-! ## An interrupt in the window -/

/-- A call of one byte while `rx_remain` is positive returns, with or without a byte. -/
theorem recv_of_pos (hpc : s.pc = .idle) (hpos : 0 < s.rxRemain) :
    machine.run s (recv 1) = { s with fifo := s.fifo.drop 1, rxRemain := s.rxRemain - 1 } ∧
      machine.trace s (recv 1) = [.returned 1 (s.fifo.take 1)] := by
  have hlt : ¬ s.rxRemain < 1 := by omega
  obtain ⟨fifo, rxRemain, event, pc⟩ := s
  subst hpc
  simp [recv, step, advance, hlt]

/-- While `rx_remain` is larger than the FIFO is long, calls without an interrupt come to one that
returns with the FIFO empty. -/
theorem drain_invents {n : Nat} (hpc : s.pc = .idle) (hlen : s.fifo.length = n)
    (hcount : (n : Int) < s.rxRemain) :
    .returned 1 [] ∈ machine.trace s (List.replicate (n + 1) (recv 1)).flatten := by
  induction n generalizing s with
  | zero =>
    have hnil := List.length_eq_zero_iff.1 hlen
    obtain ⟨-, htrace⟩ := recv_of_pos hpc (by omega)
    simp [htrace, hnil]
  | succ n ih =>
    obtain ⟨hrun, htrace⟩ := recv_of_pos hpc (by omega)
    rw [List.replicate_succ, List.flatten_cons, Machine.trace_append, hrun]
    refine List.mem_append_right _ (ih hpc ?_ ?_)
    · simp [hlen]
    · show (n : Int) < s.rxRemain - 1
      omega

/-- **An interrupt in the window invents bytes.** If it comes when the reader has taken the bytes
of its call off `rx_remain` and not yet read them, then a run without further interrupts leads to a
call that returns with the FIFO empty. -/
theorem window_invents_byte {es : List Event} (h : machine.Along Undisturbed {} es) {len : Nat}
    (hpc : (machine.run {} es).pc = .read len) (hlen : 0 < len) (bytes : List UInt8) :
    ∃ n, .returned 1 [] ∈ machine.trace {}
      (es ++ [Event.interrupt bytes, .step] ++ (List.replicate n (recv 1)).flatten) := by
  have henough := (run_inv h).enough len (.inr hpc)
  have hne : (machine.run {} es).fifo ++ bytes ≠ [] := by
    intro hnil
    rw [(List.append_eq_nil_iff.1 hnil).1] at henough
    simp only [List.length_nil] at henough
    omega
  -- the interrupt counts the bytes of the call again, and the read takes them out
  have hrun : machine.run {} (es ++ [Event.interrupt bytes, .step]) = {
      fifo := ((machine.run {} es).fifo ++ bytes).drop len
      rxRemain := ((machine.run {} es).fifo ++ bytes).length
      event := true
      pc := .idle } := by
    rw [Machine.run_append]
    simp only [Machine.run_cons, Machine.run_nil, machine_step, step, interrupt, if_neg hne,
      advance, hpc]
  refine ⟨((machine.run {} es).fifo ++ bytes).length - len + 1, ?_⟩
  rw [Machine.trace_append, hrun]
  refine List.mem_append_right _ (drain_invents rfl (by rw [List.length_drop]) ?_)
  simp only [List.length_append] at henough ⊢
  omega

/-- The interrupt of the second byte comes while the first one is read: a third byte is returned
that was never received. -/
theorem interrupted_recv_invents_byte :
    let es := [.interrupt [1], .call 1, .step, .step, .interrupt [2], .step] ++ recv 1 ++ recv 1
    received es = [1, 2] ∧ returned (machine.trace {} es) = [1, 2, 0] ∧
      .returned 1 [] ∈ machine.trace {} es := by
  decide +kernel

end QueuedUart

end ChargingPile
