import ChargingPile.Lib.Machine

/-!
# Retries

`Retry` (`utilities/retry.hxx`) runs an attempt, which gets a callback for its outcome, and runs
it again from inside the callback when the outcome is an exception, at most `maxCnt` times more.
The attempt may call the callback before it returns, so that the attempts nest, or leave it for
later. The model is in the same style: `fetch` is the callback and `cbRun` runs an attempt with
it. `Retry.machine` calls the callback that has been left; `Retry.retry_contract` is about all
that such a run does.
-/

namespace ChargingPile

/-- `Retry`: its counter, with the number of attempts so far and whether the callback of the last
one has been left for later. -/
structure Retry where
  cnt : Nat
  attempts : Nat
  left : Bool
deriving DecidableEq, Repr

namespace Retry

variable {T : Type*}

/-- One attempt: whether it calls its callback before it returns, and the outcome it calls it with,
which is `none` for an exception. -/
structure Attempt (T : Type*) where
  now : Bool
  outcome : Option T

/-- Which handlers have been set by `then` and `except`. -/
structure Handlers where
  cbR : Bool
  cbE : Bool
deriving DecidableEq, Repr

/-- What a `Retry` calls: the attempt, the handler set by `then` or the one set by `except`. -/
inductive Call (T : Type*)
  | cbRun
  | cbR (value : T)
  | cbE
deriving DecidableEq, Repr

section Model

variable (attempt : Nat → Attempt T) (handlers : Handlers)

/-- `cbRun(callback)`: the attempt after the first `k` ones. -/
def cbRun (cnt k : Nat) (callback : Option T → Retry × List (Call T)) : Retry × List (Call T) :=
  if (attempt k).now then
    let result := callback (attempt k).outcome
    (result.1, .cbRun :: result.2)
  else (⟨cnt, k + 1, true⟩, [.cbRun])

/-- The callback that `Retry::fetch` makes, when it is called after `k` attempts. -/
def fetch : Nat → Nat → Option T → Retry × List (Call T)
  | cnt, k, some value => (⟨cnt, k, false⟩, if handlers.cbR then [.cbR value] else [])
  | cnt + 1, k, none => cbRun attempt cnt k (fetch cnt (k + 1))
  | 0, k, none => (⟨0, k, false⟩, if handlers.cbE then [.cbE] else [])

/-- `Retry::run`, which the destructor of the starter calls. -/
def run (maxCnt : Nat) : Retry × List (Call T) :=
  cbRun attempt maxCnt 0 (fetch attempt handlers maxCnt 1)

/-- A retry whose callback has been left for later. The event is the call of that callback; when
none has been left, there is nothing to call. -/
def machine : Machine Retry Unit (Call T) where
  step r _ :=
    if r.left then fetch attempt handlers r.cnt r.attempts (attempt (r.attempts - 1)).outcome
    else (r, [])

/-- The retry after `n` later calls. -/
def after (maxCnt n : Nat) : Retry :=
  (machine attempt handlers).run (run attempt handlers maxCnt).1 (List.replicate n ())

/-- What the retry has called by then. -/
def calls (maxCnt n : Nat) : List (Call T) :=
  (run attempt handlers maxCnt).2 ++
    (machine attempt handlers).trace (run attempt handlers maxCnt).1 (List.replicate n ())

end Model

/-! ## Where a run can be -/

/-- A retry and all that it has called: it waits for the outcome of an attempt after failed ones,
or it has called one of its handlers. -/
inductive Stage (attempt : Nat → Attempt T) (maxCnt : Nat) : Retry → List (Call T) → Prop
  | waiting {k : Nat} (hk : k ≤ maxCnt) (hfail : ∀ j < k, (attempt j).outcome = none) :
      Stage attempt maxCnt ⟨maxCnt - k, k + 1, true⟩ (List.replicate (k + 1) Call.cbRun)
  | succeeded {k : Nat} {value : T} (hk : k ≤ maxCnt) (hfail : ∀ j < k, (attempt j).outcome = none)
      (hvalue : (attempt k).outcome = some value) :
      Stage attempt maxCnt ⟨maxCnt - k, k + 1, false⟩
        (List.replicate (k + 1) Call.cbRun ++ [Call.cbR value])
  | failed (hfail : ∀ j ≤ maxCnt, (attempt j).outcome = none) :
      Stage attempt maxCnt ⟨0, maxCnt + 1, false⟩
        (List.replicate (maxCnt + 1) Call.cbRun ++ [Call.cbE])

section Stage

variable {attempt : Nat → Attempt T} {maxCnt : Nat}

/-- Where an attempt leads, if its callback leads somewhere: it calls the callback,
or leaves it. -/
theorem cbRun_stage {cnt k : Nat} {callback : Option T → Retry × List (Call T)}
    (hcnt : cnt + k = maxCnt) (hfail : ∀ j < k, (attempt j).outcome = none)
    (hcallback : Stage attempt maxCnt (callback (attempt k).outcome).1
      (List.replicate (k + 1) Call.cbRun ++ (callback (attempt k).outcome).2)) :
    Stage attempt maxCnt (cbRun attempt cnt k callback).1
      (List.replicate k Call.cbRun ++ (cbRun attempt cnt k callback).2) := by
  unfold cbRun
  split
  · rw [List.replicate_succ', List.append_assoc] at hcallback
    exact hcallback
  · obtain rfl : cnt = maxCnt - k := by omega
    rw [← List.replicate_succ']
    exact .waiting (by omega) hfail

/-- Where the callback of the attempt `k` leads. The counter goes down as the attempts go on, so
the induction is on the counter. -/
theorem fetch_stage {cnt k : Nat} (hcnt : cnt + k = maxCnt)
    (hfail : ∀ j < k, (attempt j).outcome = none) :
    Stage attempt maxCnt (fetch attempt ⟨true, true⟩ cnt (k + 1) (attempt k).outcome).1
      (List.replicate (k + 1) Call.cbRun ++
        (fetch attempt ⟨true, true⟩ cnt (k + 1) (attempt k).outcome).2) := by
  induction cnt generalizing k with
  | zero =>
    obtain rfl : k = maxCnt := by omega
    cases houtcome : (attempt k).outcome with
    | some value =>
      rw [fetch, ← Nat.sub_self k]
      exact .succeeded (Nat.le_refl k) hfail houtcome
    | none =>
      have hfail' := Nat.forall_lt_succ_right.mpr ⟨hfail, houtcome⟩
      exact .failed fun j hj => hfail' j (Nat.lt_succ_of_le hj)
  | succ cnt ih =>
    cases houtcome : (attempt k).outcome with
    | some value =>
      have hleft : cnt + 1 = maxCnt - k := by omega
      rw [fetch, hleft]
      exact .succeeded (by omega) hfail houtcome
    | none =>
      have hfail' := Nat.forall_lt_succ_right.mpr ⟨hfail, houtcome⟩
      rw [fetch]
      exact cbRun_stage (by omega) hfail' (ih (by omega) hfail')

/-- A run starts with the first attempt. -/
theorem run_stage (attempt : Nat → Attempt T) (maxCnt : Nat) :
    Stage attempt maxCnt (run attempt ⟨true, true⟩ maxCnt).1 (run attempt ⟨true, true⟩ maxCnt).2 :=
  cbRun_stage rfl (fun j hj => absurd hj (Nat.not_lt_zero j))
    (fetch_stage rfl (fun j hj => absurd hj (Nat.not_lt_zero j)))

/-- A later call leads from a stage to a stage. -/
theorem Stage.step {r : Retry} {calls : List (Call T)} (h : Stage attempt maxCnt r calls) :
    Stage attempt maxCnt ((machine attempt ⟨true, true⟩).step r ()).1
      (calls ++ ((machine attempt ⟨true, true⟩).step r ()).2) := by
  cases h with
  | waiting hk hfail => exact fetch_stage (Nat.sub_add_cancel hk) hfail
  | succeeded hk hfail hvalue =>
    change Stage attempt maxCnt _ (_ ++ [])
    rw [List.append_nil]
    exact .succeeded hk hfail hvalue
  | failed hfail =>
    change Stage attempt maxCnt _ (_ ++ [])
    rw [List.append_nil]
    exact .failed hfail

/-- A run with any number of later calls. -/
theorem after_stage (attempt : Nat → Attempt T) (maxCnt n : Nat) :
    Stage attempt maxCnt (after attempt ⟨true, true⟩ maxCnt n)
      (calls attempt ⟨true, true⟩ maxCnt n) :=
  Machine.trace_inv (C := fun _ _ => True)
    (I := fun tr r => Stage attempt maxCnt r ((run attempt ⟨true, true⟩ maxCnt).2 ++ tr))
    (Machine.along_of_mem fun _ _ _ => trivial)
    (by rw [List.append_nil]; exact run_stage attempt maxCnt)
    fun tr r _ h _ => by rw [← List.append_assoc]; exact h.step

end Stage

/-! ## The end of a run -/

section Progress

variable {attempt : Nat → Attempt T} {handlers : Handlers}

/-- A callback that an attempt leaves for later is its own or one of a further attempt. -/
theorem cbRun_left {cnt k : Nat} {callback : Option T → Retry × List (Call T)}
    (hcallback : ∀ outcome, (callback outcome).1.left = true → k < (callback outcome).1.attempts)
    (h : (cbRun attempt cnt k callback).1.left = true) :
    k < (cbRun attempt cnt k callback).1.attempts := by
  rw [cbRun] at h ⊢
  split at h
  next hnow => rw [if_pos hnow]; exact hcallback _ h
  next hnow => rw [if_neg hnow]; exact Nat.lt_succ_self k

/-- A callback that a callback leaves for later is the one of a further attempt. -/
theorem fetch_left {cnt k : Nat} {outcome : Option T}
    (h : (fetch attempt handlers cnt k outcome).1.left = true) :
    k < (fetch attempt handlers cnt k outcome).1.attempts := by
  induction cnt generalizing k outcome with
  | zero => cases outcome <;> exact absurd h Bool.false_ne_true
  | succ cnt ih =>
    cases outcome with
    | some value => exact absurd h Bool.false_ne_true
    | none => exact cbRun_left (fun _ h => Nat.lt_of_succ_lt (ih h)) h

/-- One more later call. -/
theorem after_succ (maxCnt n : Nat) : after attempt handlers maxCnt (n + 1) =
    ((machine attempt handlers).step (after attempt handlers maxCnt n) ()).1 := by
  rw [after, List.replicate_succ', Machine.run_concat]
  rfl

/-- As long as a callback is left, every later call has led to a further attempt. -/
theorem after_left {maxCnt n : Nat} (h : (after attempt handlers maxCnt n).left = true) :
    n < (after attempt handlers maxCnt n).attempts := by
  induction n with
  | zero => exact cbRun_left (fun _ h => Nat.lt_of_succ_lt (fetch_left h)) h
  | succ n ih =>
    rw [after_succ] at h ⊢
    cases hleft : (after attempt handlers maxCnt n).left with
    | true =>
      simp only [machine, hleft, if_true] at h ⊢
      exact Nat.lt_of_le_of_lt (ih hleft) (fetch_left h)
    | false =>
      simp only [machine, hleft, Bool.false_eq_true, if_false] at h

end Progress

/-- A retry with both handlers, after any number of later calls. While a callback is left it has
only made attempts, all but the last of which have failed, and at most `maxCnt + 1` of them.
Otherwise it has made the attempts up to the first success and then called `then` with its value,
or `maxCnt + 1` attempts that failed and then `except`. After `maxCnt + 1` later calls no
callback is left. -/
theorem retry_contract (attempt : Nat → Attempt T) (maxCnt n : Nat) :
    ((after attempt ⟨true, true⟩ maxCnt n).left = true →
      ∃ k ≤ maxCnt, (∀ j < k, (attempt j).outcome = none) ∧
        calls attempt ⟨true, true⟩ maxCnt n = List.replicate (k + 1) Call.cbRun) ∧
    ((after attempt ⟨true, true⟩ maxCnt n).left = false →
      (∃ k ≤ maxCnt, ∃ value, (∀ j < k, (attempt j).outcome = none) ∧
        (attempt k).outcome = some value ∧
        calls attempt ⟨true, true⟩ maxCnt n = List.replicate (k + 1) Call.cbRun ++
          [Call.cbR value]) ∨
      (∀ j ≤ maxCnt, (attempt j).outcome = none) ∧
        calls attempt ⟨true, true⟩ maxCnt n = List.replicate (maxCnt + 1) Call.cbRun ++
          [Call.cbE]) ∧
    (maxCnt < n → (after attempt ⟨true, true⟩ maxCnt n).left = false) := by
  have hstage := after_stage attempt maxCnt n
  have hleft (h : (after attempt ⟨true, true⟩ maxCnt n).left = true) :
      n < (after attempt ⟨true, true⟩ maxCnt n).attempts := after_left h
  generalize after attempt ⟨true, true⟩ maxCnt n = r at hstage hleft
  generalize calls attempt ⟨true, true⟩ maxCnt n = cs at hstage
  cases hstage with
  | @waiting k hk hfail =>
    refine ⟨fun _ => ⟨k, hk, hfail, rfl⟩, fun h => absurd h.symm Bool.false_ne_true, fun hn => ?_⟩
    have hlt : n < k + 1 := hleft rfl
    omega
  | succeeded hk hfail hvalue =>
    exact ⟨fun h => absurd h Bool.false_ne_true,
      fun _ => .inl ⟨_, hk, _, hfail, hvalue, rfl⟩, fun _ => rfl⟩
  | failed hfail =>
    exact ⟨fun h => absurd h Bool.false_ne_true, fun _ => .inr ⟨hfail, rfl⟩, fun _ => rfl⟩

/-- An exception inside the first attempt, a later one of the second, and a value in the third:
with two retries allowed, `then` gets the value. -/
theorem retry_contract_third :
    ∃ k ≤ 2, ∃ value, calls (fun k => ⟨k ≠ 1, if k = 2 then some k else none⟩) ⟨true, true⟩ 2 1 =
      List.replicate (k + 1) Call.cbRun ++ [Call.cbR value] := by
  have hend := (retry_contract (fun k => ⟨k ≠ 1, if k = 2 then some k else none⟩) 2 1).2.1
    (by decide)
  obtain ⟨k, hk, value, -, -, hcalls⟩ | ⟨hfail, -⟩ := hend
  · exact ⟨k, hk, value, hcalls⟩
  · exact absurd (hfail 2 (by decide)) (by decide)

end Retry

end ChargingPile
