import Mathlib.Algebra.GroupWithZero.Nat
import Mathlib.Data.List.Perm.Subperm
import ChargingPile.Post.Invariant

/-!
# Every call is executed once

A potential bounds the number of accesses of all threads by that of the calls, so a run in which
the threads go on comes to a rest, and at rest every call has been executed: `executed_once`.
-/

namespace ChargingPile.Post

open Queue

variable {D A : Type*}

/-! ## The number of accesses -/

/-- What a call may still cause: its own accesses, those of the polling thread for its entry, and
those after one more wake-up. -/
def Place.weight : Place → Nat
  | .push .lock => 24 | .push .push => 23 | .push .set => 22 | .push .unlock => 21
  | .enqueue .lock => 20 | .enqueue .push => 19 | .enqueue .set => 6 | .enqueue .unlock => 1
  | .returned => 0

/-- The accesses of the polling thread until it waits for the next entry. -/
def Poll.weight : Poll D A → Nat
  | .pop .lock => 3 | .pop .test => 2 | .pop .unlock => 1 | .pop .wait => 0 | .pop .relock => 3
  | .pop .take => 1 | .pop (.release _) => 12
  | .empty _ .lock => 11 | .empty _ .test => 10 | .empty _ (.unlock _) => 9
  | .ctxPop _ .lock => 8 | .ctxPop _ .test => 7 | .ctxPop _ .take => 6
  | .ctxPop _ (.release _) => 5
  | .ctxPop _ .unlock | .ctxPop _ .wait | .ctxPop _ .relock => 0
  | .apply _ _ => 4

/-- The accesses that can still follow without a further call. -/
def potential (s : Post D A) : Nat :=
  (s.calls.map (·.place.weight)).sum + 12 * s.queue.q.length + 4 * s.queue.e.toNat +
    s.poller.weight

/-- The weight of one of the calls in the sum. -/
theorem sum_weight_set {l : List (Call D A)} {i : Nat} {d : D} {args : A} {place : Place}
    (hc : l[i]? = some ⟨d, args, place⟩) (place' : Place) :
    ((l.set i ⟨d, args, place'⟩).map (·.place.weight)).sum + place.weight =
      (l.map (·.place.weight)).sum + place'.weight := by
  obtain ⟨pre, post, hl, hset⟩ := exists_split hc
  rw [hset, hl]
  simp only [List.map_append, List.map_cons, List.sum_append, List.sum_cons]
  omega

section Steps

variable [DecidableEq D] {s s' : Post D A} {tr out : List (Mail.Output D A)}

/-- A step of a call lowers the potential. -/
theorem addTo_potential {i : Nat} {c : Call D A} (hc : s.calls[i]? = some c)
    (h : s.addTo i c = some (s', out)) : s'.potential + 1 ≤ s.potential := by
  obtain ⟨d, args, place⟩ := c
  have hsum := sum_weight_set hc
  cases place with
  | push p =>
    obtain ⟨⟨queue, next⟩, hpush, heq⟩ := Option.map_eq_some_iff.mp h
    cases heq
    have hnext : (next.elim Place.push fun _ => .enqueue .lock).weight + 1 =
        (Place.push p).weight := by
      cases p with
      | lock =>
        obtain ⟨s₁, -, heq⟩ := Option.map_eq_some_iff.mp hpush
        cases heq
        rfl
      | push | set | unlock => cases hpush; rfl
    have := hsum (next.elim .push fun _ => .enqueue .lock)
    simp only [potential]
    omega
  | enqueue p =>
    obtain ⟨⟨queue, next⟩, hpush, heq⟩ := Option.map_eq_some_iff.mp h
    cases heq
    have := hsum (next.elim .enqueue fun _ => .returned)
    cases p with
    | lock =>
      obtain ⟨-, heq⟩ := map_lock_eq_some hpush
      cases heq
      simp only [Sum.elim_inl, Place.weight, potential] at this ⊢
      omega
    | push =>
      cases hpush
      simp only [Sum.elim_inl, Place.weight, potential, List.length_append, List.length_singleton]
        at this ⊢
      omega
    | set =>
      cases hpush
      simp only [Sum.elim_inl, Place.weight, potential, Bool.toNat_true] at this ⊢
      omega
    | unlock =>
      cases hpush
      simp only [Sum.elim_inr, Place.weight, potential] at this ⊢
      omega
  | returned => cases h

/-- A step of the polling thread lowers the potential. -/
theorem Inv.poll_potential (hi : Inv tr s) (h : s.poll = some (s', out)) :
    s'.potential + 1 ≤ s.potential := by
  have hastray := hi.astray
  have hfound := fun d => hi.found (d := d)
  obtain ⟨queue, ctx, calls, poller⟩ := s
  cases poller with
  | pop p =>
    obtain ⟨⟨queue', next⟩, hpop, heq⟩ := Option.map_eq_some_iff.mp h
    cases heq
    cases p with
    | lock | relock =>
      obtain ⟨-, heq⟩ := map_lock_eq_some hpop
      cases heq
      exact Nat.le_refl _
    | test =>
      cases hpop
      cases hq : queue.q with
      | nil => simp [potential, hq, Poll.weight]
      | cons => simp [potential, hq, Poll.weight]
    | unlock =>
      cases hpop
      exact Nat.le_refl _
    | wait =>
      obtain ⟨hset, rfl, rfl⟩ := wait_eq_some hpop
      have he : queue.e = true := hset
      simp only [potential, he, Bool.toNat_true, Bool.toNat_false, Sum.elim_inl, Poll.weight]
      omega
    | take =>
      obtain ⟨d, hfront, -, he, rfl⟩ := take_eq_some hpop
      have hq : queue.q = d :: queue'.q := hfront
      have he' : queue'.e = queue.e := he
      simp only [potential, hq, he', List.length_cons, Sum.elim_inl, Poll.weight]
      omega
    | release d =>
      cases hpop
      exact Nat.le_refl _
  | empty d p =>
    obtain ⟨⟨queue', next⟩, hempty, heq⟩ := Option.map_eq_some_iff.mp h
    cases heq
    cases p with
    | lock =>
      obtain ⟨s₁, -, heq⟩ := Option.map_eq_some_iff.mp hempty
      cases heq
      exact Nat.le_refl _
    | test =>
      cases hempty
      exact Nat.le_refl _
    | unlock result =>
      cases hempty
      cases result with
      | true => cases hastray
      | false => exact Nat.le_refl _
  | ctxPop d p =>
    obtain ⟨⟨queue', next⟩, hpop, heq⟩ := Option.map_eq_some_iff.mp h
    cases heq
    cases p with
    | lock =>
      obtain ⟨s₁, -, heq⟩ := Option.map_eq_some_iff.mp hpop
      cases heq
      exact Nat.le_refl _
    | test =>
      cases hpop
      have hne : (ctx d).q.isEmpty = false := by simpa using hfound d rfl
      simp [potential, hne, Poll.weight]
    | unlock | wait | relock => cases hastray
    | take =>
      obtain ⟨args, -, -, -, rfl⟩ := take_eq_some hpop
      exact Nat.le_refl _
    | release args =>
      cases hpop
      exact Nat.le_refl _
  | apply d args =>
    cases h
    exact Nat.le_refl _

/-- The event lets a thread go on that does not have to wait. -/
def goesOn (s : Post D A) : Event D A → Bool
  | .signal _ _ => false
  | .thread θ => (s.advance θ).isSome

/-- The event makes a call. -/
def Event.signals : Event D A → Bool
  | .signal _ _ => true
  | .thread _ => false

/-- An event and the potential. -/
theorem Inv.step_potential (hi : Inv tr s) (e : Event D A) :
    (machine.step s e).1.potential + (s.goesOn e).toNat ≤ s.potential + 24 * e.signals.toNat := by
  cases e with
  | signal d args =>
    simp only [machine, potential, List.map_append, List.sum_append, goesOn, Event.signals]
    simp [Place.weight]
    omega
  | thread θ =>
    cases h : s.advance θ with
    | none => simp [machine, goesOn, Event.signals, h]
    | some r =>
      have hlower : r.1.potential + 1 ≤ s.potential := by
        cases θ with
        | call i =>
          obtain ⟨c, hc, hadd⟩ := Option.bind_eq_some_iff.mp h
          exact addTo_potential hc hadd
        | poller => exact hi.poll_potential h
      simpa [machine, goesOn, Event.signals, h] using hlower

/-! ## The result -/

/-- The calls that have been signalled, in order. -/
def signalled : List (Event D A) → List (D × A) :=
  List.filterMap fun
    | .signal d args => some (d, args)
    | .thread _ => none

/-- The arguments of the calls of `d` among those. -/
def signalledTo (d : D) (es : List (Event D A)) : List A :=
  ((signalled es).filter fun call => call.1 = d).map Prod.snd

/-- The polling thread does not touch the calls. -/
theorem poll_calls (h : s.poll = some (s', out)) : s'.calls = s.calls := by
  unfold poll at h
  split at h
  case h_4 =>
    cases h
    rfl
  all_goals
    obtain ⟨r, -, heq⟩ := Option.map_eq_some_iff.mp h
    cases heq
    rfl

/-- A call goes on without a change of what it is. -/
theorem addTo_calls {i : Nat} {c : Call D A} (h : s.addTo i c = some (s', out)) :
    ∃ place, s'.calls = s.calls.set i { c with place } := by
  unfold addTo at h
  split at h
  case h_3 => cases h
  all_goals
    obtain ⟨r, -, heq⟩ := Option.map_eq_some_iff.mp h
    cases heq
    exact ⟨_, rfl⟩

/-- A thread neither makes nor changes a call. -/
theorem advance_calls {θ : Thread} (h : s.advance θ = some (s', out)) :
    s'.calls.map (fun c => (c.deliver, c.args)) = s.calls.map fun c => (c.deliver, c.args) := by
  cases θ with
  | call i =>
    obtain ⟨c, hc, hadd⟩ := Option.bind_eq_some_iff.mp h
    obtain ⟨pre, post, hcalls, hset⟩ := exists_split hc
    obtain ⟨place, hplace⟩ := addTo_calls hadd
    rw [hplace, hset, hcalls, List.map_append, List.map_append]
    rfl
  | poller => rw [poll_calls h]

/-- The calls of a post are those that have been signalled. -/
theorem calls_run (es : List (Event D A)) :
    (machine.run new es).calls.map (fun c => (c.deliver, c.args)) = signalled es := by
  refine Machine.history_inv (M := machine) (s := new) (I := fun es (s : Post D A) =>
    s.calls.map (fun c => (c.deliver, c.args)) = signalled es) rfl (fun es e h => ?_) es
  generalize machine.run new es = s at h
  rw [signalled, List.filterMap_append]
  cases e with
  | signal d args =>
    change (s.calls ++ [_]).map _ = _
    rw [List.map_append, h]
    rfl
  | thread θ =>
    change ((s.advance θ).getD (s, [])).1.calls.map _ = signalled es ++ []
    rw [List.append_nil, ← h]
    cases hθ : s.advance θ with
    | none => rfl
    | some r => exact advance_calls hθ

/-- The arguments of the abstract calls. -/
theorem args_run (d : D) (es : List (Event D A)) :
    ((machine.run new es).view.calls.filter fun c => c.deliver = d).map Mail.Call.args =
      signalledTo d es := by
  rw [signalledTo, ← calls_run, view, List.filter_map, List.filter_map, List.map_map, List.map_map]
  rfl

/-- What has been queued are calls that have been signalled. -/
theorem Inv.subperm (hi : Inv tr s) (d : D) :
    (Mail.queuedOf d tr).Subperm
    ((s.view.calls.filter fun c => c.deliver = d).map Mail.Call.args) := by
  refine (hi.mail.left d).symm.subperm.trans (List.Sublist.subperm (.map _ ?_))
  exact List.monotone_filter_right _ fun c hc => by
    rw [Mail.Call.left, Bool.and_eq_true_iff] at hc
    exact hc.1

/-- At rest all calls have left their arguments. -/
theorem Inv.left_eq (hi : Inv tr s) (hrest : AtRest s) (d : D) :
    s.view.calls.filter (Mail.Call.left · d) = s.view.calls.filter fun c => c.deliver = d := by
  refine List.filter_congr fun c hc => ?_
  obtain ⟨c, hmem, rfl⟩ := List.mem_map.mp hc
  simp [Mail.Call.left, Call.view, (hi.rest hrest).1 c hmem, Place.phase]

/-- **Every call is executed exactly once.** In every run, what has been executed of a deliver is
an initial part of what has been queued for it, which are calls that have been signalled; a deliver
that has been popped finds its arguments until it has taken them; and if the polling thread waits
with a clear event although the queue is not empty, then a thread holds the mutex between its push
and the setting of the event. When no thread can go on, all that has been signalled has been
executed, and the number of accesses is bounded by that of the signals. -/
theorem executed_once (es : List (Event D A)) :
    (∀ d, Mail.executedOf d (machine.trace new es) <+: Mail.queuedOf d (machine.trace new es) ∧
      (Mail.queuedOf d (machine.trace new es)).Subperm (signalledTo d es)) ∧
    (∀ d, (machine.run new es).poller.hand = .serving d → ((machine.run new es).ctx d).q ≠ []) ∧
    ((machine.run new es).poller = .pop .wait → (machine.run new es).queue.q ≠ [] →
      (machine.run new es).queue.e = false → ∃ i c, (machine.run new es).queue.m = some (.call i) ∧
        (machine.run new es).calls[i]? = some c ∧ c.place = .enqueue .set) ∧
    (AtRest (machine.run new es) → ∀ d,
      Mail.executedOf d (machine.trace new es) = Mail.queuedOf d (machine.trace new es) ∧
      (Mail.queuedOf d (machine.trace new es)).Perm (signalledTo d es)) ∧
    machine.marks goesOn new es ≤ 24 * es.countP Event.signals + 3 := by
  have hi := inv_run es
  refine ⟨fun d => ⟨?_, ?_⟩, fun d => hi.found, fun hp hq he => ?_, fun hrest d => ⟨?_, ?_⟩, ?_⟩
  · rw [hi.mail.logged d]
    exact List.prefix_append _ _
  · rw [← args_run]
    exact hi.subperm d
  · obtain he' | ⟨c, hc, hplace⟩ := hi.wake (.inr hp) hq
    · rw [he] at he'
      cases he'
    · obtain ⟨i, hci⟩ := List.mem_iff_getElem?.mp hc
      refine ⟨i, c, (hi.guarded.1 (.call i)).mpr ?_, hci, hplace⟩
      rw [holdsQueue, hci, Option.any_some, hplace]
      rfl
  · obtain ⟨hhand, hctx⟩ := (hi.rest hrest).2 d
    have hlogged := hi.mail.logged d
    rw [hhand, show (machine.run new es).view.ctx d = [] from hctx] at hlogged
    simpa [Mail.Hand.held] using hlogged.symm
  · rw [← args_run, ← hi.left_eq hrest d]
    exact (hi.mail.left d).symm
  · have hstep (s : Post D A) (e : Event D A) (hI : ∃ tr, Inv tr s) :
        (∃ tr, Inv tr (machine.step s e).1) ∧ (machine.step s e).1.potential + (goesOn s e).toNat ≤
          s.potential + 24 * e.signals.toNat := by
      obtain ⟨tr, hi⟩ := hI
      exact ⟨⟨_, hi.step e⟩, hi.step_potential e⟩
    have hmarks := Machine.marks_le hstep (s := new) ⟨_, inv_run []⟩ es
    have hnew : (new : Post D A).potential = 3 := rfl
    omega

end Steps

/-- The polling thread waits with a clear event although the queue is not empty: a caller stands
between its push and the setting of the event. -/
theorem poller_sleeps :
    let es : List (Event Unit Unit) := List.replicate 3 (.thread .poller) ++ [.signal () ()] ++
      List.replicate 6 (.thread (.call 0))
    (machine.run new es).poller = .pop .wait ∧ (machine.run new es).queue.q = [()] ∧
      (machine.run new es).queue.e = false :=
  ⟨rfl, rfl, rfl⟩

end ChargingPile.Post
