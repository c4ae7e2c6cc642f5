import ChargingPile.Post.Basic

/-!
# The threads of a post

The invariant of a post adds to the one of its abstract model who holds the mutexes, that the
polling thread takes from a queue only what is there, and that it does not sleep for ever: if it
has found the queue empty and something has been pushed since, then the event is set or the thread
that has pushed is about to set it (`Inv.wake`). So when no thread can go on, every call has
returned and nothing is left to be executed (`Inv.rest`).
-/

namespace ChargingPile.Post

open Queue

variable {D A : Type*}

/-! ## The invariant -/

/-- The places of a call at which it holds the mutex of the post's queue. -/
def Place.holdsQueue : Place → Bool
  | .enqueue p => p.holds
  | .push _ | .returned => false

/-- The places of a call at which it holds the mutex of its deliver's queue. -/
def Place.holdsCtx : Place → Bool
  | .push p => p.holds
  | .enqueue _ | .returned => false

/-- The places of the polling thread at which it holds the mutex of the post's queue. -/
def Poll.holdsQueue : Poll D A → Bool
  | .pop p => p.holds
  | .empty _ _ | .ctxPop _ _ | .apply _ _ => false

/-- The places of the polling thread at which it holds the mutex of the queue of `d`. -/
def Poll.holdsCtx [DecidableEq D] (d : D) : Poll D A → Bool
  | .empty d' p => d' = d && p.holds
  | .ctxPop d' p => d' = d && p.holds
  | .pop _ | .apply _ _ => false

/-- The threads that hold the mutex of the post's queue. -/
def holdsQueue (s : Post D A) : Thread → Bool
  | .call i => s.calls[i]?.any fun c => c.place.holdsQueue
  | .poller => s.poller.holdsQueue

/-- The threads that hold the mutex of the queue of `d`. -/
def holdsCtx [DecidableEq D] (s : Post D A) (d : D) : Thread → Bool
  | .call i => s.calls[i]?.any fun c => c.deliver = d && c.place.holdsCtx
  | .poller => s.poller.holdsCtx d

/-- Who holds which mutex. -/
def Guarded [DecidableEq D] (s : Post D A) : Prop :=
  (∀ θ, s.queue.m = some θ ↔ s.holdsQueue θ = true) ∧
    ∀ d θ, (s.ctx d).m = some θ ↔ s.holdsCtx d θ = true

/-- The invariant, of what has been seen so far and the post. -/
structure Inv [DecidableEq D] (tr : List (Mail.Output D A)) (s : Post D A) : Prop where
  mail : Mail.Inv tr s.view
  guarded : Guarded s
  astray : s.poller.astray = false
  take : s.poller = .pop .take → s.queue.q ≠ []
  wake : s.poller = .pop .unlock ∨ s.poller = .pop .wait → s.queue.q ≠ [] →
    s.queue.e = true ∨ ∃ c ∈ s.calls, c.place = .enqueue .set

/-- Calls that are about to set the event are still there after a step of another call. -/
theorem exists_set {l : List (Call D A)} {i : Nat} {c c' : Call D A} (hc : l[i]? = some c)
    (hplace : c.place ≠ .enqueue .set) (h : ∃ c ∈ l, c.place = .enqueue .set) :
    ∃ c ∈ l.set i c', c.place = .enqueue .set := by
  obtain ⟨pre, post, hcalls, hset⟩ := exists_split hc
  obtain ⟨c₀, hmem, hc₀⟩ := h
  refine ⟨c₀, ?_, hc₀⟩
  rw [hcalls, List.mem_append, List.mem_cons] at hmem
  rw [hset, List.mem_append, List.mem_cons]
  obtain hmem | rfl | hmem := hmem
  · exact .inl hmem
  · exact absurd hc₀ hplace
  · exact .inr (.inr hmem)

/-- A new call holds nothing. -/
theorem any_concat {l : List (Call D A)} {i : Nat} {c : Call D A} {p : Call D A → Bool}
    (hp : p c = false) : (l ++ [c])[i]?.any p = l[i]?.any p := by
  by_cases hi : i < l.length
  · rw [List.getElem?_append_left hi]
  · rw [List.getElem?_append_right (Nat.le_of_not_lt hi),
      List.getElem?_eq_none (Nat.le_of_not_lt hi)]
    cases i - l.length with
    | zero => simp [hp]
    | succ n => rfl

section Steps

variable [DecidableEq D] {s s' : Post D A} {tr out : List (Mail.Output D A)}

/-- A deliver that is being served has arguments. -/
theorem Inv.found (hi : Inv tr s) {d : D} (h : s.poller.hand = .serving d) : (s.ctx d).q ≠ [] := by
  have hcount := hi.mail.counted d
  intro hq
  have hhand : s.view.hand = .serving d := h
  have hctx : s.view.ctx d = [] := hq
  rw [hctx, hhand, Mail.Hand.entries, if_pos rfl, List.length_nil] at hcount
  omega

/-- A step that refines keeps the abstract invariant. -/
theorem Inv.mail_step (hi : Inv tr s) (h : Refines s out s') : Mail.Inv (tr ++ out) s'.view := by
  obtain ⟨hview, rfl⟩ | hstep := h
  · rw [hview, List.append_nil]
    exact hi.mail
  · exact hi.mail.step hstep

/-- The threads other than `θ` are where they were. -/
def OthersStay (s s' : Post D A) (θ : Thread) : Prop :=
  ∀ θ', θ' ≠ θ → s'.holdsQueue θ' = s.holdsQueue θ' ∧ ∀ d, s'.holdsCtx d θ' = s.holdsCtx d θ'

/-- A step of the call `i` leaves the other threads where they are. -/
theorem othersStay_call {i : Nat} {c' : Call D A} (hcalls : s'.calls = s.calls.set i c')
    (hpoller : s'.poller = s.poller) : OthersStay s s' (.call i) := by
  intro θ hθ
  cases θ with
  | call j =>
    have hj : i ≠ j := fun h => hθ (congrArg Thread.call h.symm)
    simp only [holdsQueue, holdsCtx, hcalls, List.getElem?_set_ne hj, implies_true, and_self]
  | poller => simp only [holdsQueue, holdsCtx, hpoller, implies_true, and_self]

/-- A step of the polling thread leaves the calls where they are. -/
theorem othersStay_poller (hcalls : s'.calls = s.calls) : OthersStay s s' .poller := by
  intro θ hθ
  cases θ with
  | call j => simp only [holdsQueue, holdsCtx, hcalls, implies_true, and_self]
  | poller => exact absurd rfl hθ

/-- A step of `θ` in a function of the post's queue. -/
theorem Guarded.queue_step (hg : Guarded s) {θ : Thread} (hothers : OthersStay s s' θ)
    (hctx : s'.ctx = s.ctx) (hstay : ∀ d, s'.holdsCtx d θ = s.holdsCtx d θ)
    (h : Hands θ (s.holdsQueue θ) (s'.holdsQueue θ) s.queue.m s'.queue.m) : Guarded s' := by
  refine ⟨h.guard (fun θ' hθ' => (hothers θ' hθ').1) hg.1, fun d => ?_⟩
  have hkeep : Hands θ (s.holdsCtx d θ) (s'.holdsCtx d θ) (s.ctx d).m (s'.ctx d).m := by
    rw [hstay d, hctx]
    exact .keep _ _
  exact hkeep.guard (fun θ' hθ' => (hothers θ' hθ').2 d) (hg.2 d)

/-- A step of `θ` in a function of the queue of `d`. -/
theorem Guarded.ctx_step (hg : Guarded s) {θ : Thread} (d : D) (queue : Queue Thread A)
    (hothers : OthersStay s s' θ) (hqueue : s'.queue = s.queue)
    (hctx : s'.ctx = Function.update s.ctx d queue) (hstay : s'.holdsQueue θ = s.holdsQueue θ)
    (hstayCtx : ∀ d', d' ≠ d → s'.holdsCtx d' θ = s.holdsCtx d' θ)
    (h : Hands θ (s.holdsCtx d θ) (s'.holdsCtx d θ) (s.ctx d).m queue.m) : Guarded s' := by
  have hkeep : Hands θ (s.holdsQueue θ) (s'.holdsQueue θ) s.queue.m s'.queue.m := by
    rw [hstay, hqueue]
    exact .keep _ _
  refine ⟨hkeep.guard (fun θ' hθ' => (hothers θ' hθ').1) hg.1, fun d' => ?_⟩
  have hhands : Hands θ (s.holdsCtx d' θ) (s'.holdsCtx d' θ) (s.ctx d').m (s'.ctx d').m := by
    rw [hctx]
    obtain rfl | hne := eq_or_ne d' d
    · rw [Function.update_self]
      exact h
    · rw [Function.update_of_ne hne, hstayCtx d' hne]
      exact .keep _ _
  exact hhands.guard (fun θ' hθ' => (hothers θ' hθ').2 d') (hg.2 d')

/-- A step of a call and the mutexes. -/
theorem Guarded.addTo (hg : Guarded s) {i : Nat} {c : Call D A} (hc : s.calls[i]? = some c)
    (h : s.addTo i c = some (s', out)) : Guarded s' := by
  obtain ⟨d, args, place⟩ := c
  have hself (c' : Call D A) : (s.calls.set i c')[i]? = some c' :=
    List.getElem?_set_self (List.getElem?_eq_some_iff.mp hc).1
  cases place with
  | push p =>
    obtain ⟨⟨queue, next⟩, hpush, heq⟩ := Option.map_eq_some_iff.mp h
    cases heq
    have hhands := push_hands hpush
    refine hg.ctx_step d queue (othersStay_call rfl rfl) rfl rfl ?_ (fun d' hd' => ?_) ?_
    · simp only [holdsQueue, hself, hc, Option.any_some]
      cases next <;> rfl
    · simp only [holdsCtx, hself, hc, Option.any_some, decide_eq_false (Ne.symm hd'),
        Bool.false_and]
    · simp only [holdsCtx, hself, hc, Option.any_some, decide_true, Bool.true_and]
      cases next with
      | inl p' => exact hhands
      | inr => exact hhands
  | enqueue p =>
    obtain ⟨⟨queue, next⟩, hpush, heq⟩ := Option.map_eq_some_iff.mp h
    cases heq
    have hhands := push_hands hpush
    refine hg.queue_step (othersStay_call rfl rfl) rfl (fun d' => ?_) ?_
    · simp only [holdsCtx, hself, hc, Option.any_some]
      cases next <;> rfl
    · simp only [holdsQueue, hself, hc, Option.any_some]
      cases next with
      | inl p' => exact hhands
      | inr => exact hhands
  | returned => cases h

/-- A step of the polling thread and the mutexes. -/
theorem Guarded.poll (hg : Guarded s) (h : s.poll = some (s', out)) : Guarded s' := by
  obtain ⟨queue, ctx, calls, poller⟩ := s
  cases poller with
  | pop p =>
    obtain ⟨⟨queue', next⟩, hpop, heq⟩ := Option.map_eq_some_iff.mp h
    cases heq
    have hhands := pop_hands hpop
    refine hg.queue_step (othersStay_poller rfl) rfl (fun d' => ?_) ?_
    · cases next <;> simp [holdsCtx, Poll.holdsCtx, EmptyAt.holds]
    · cases next with
      | inl p' => exact hhands
      | inr => exact hhands
  | empty d p =>
    obtain ⟨⟨queue', next⟩, hempty, heq⟩ := Option.map_eq_some_iff.mp h
    cases heq
    have hhands := empty_hands hempty
    refine hg.ctx_step d queue' (othersStay_poller rfl) rfl rfl ?_ (fun d' hd' => ?_) ?_
    · cases next with
      | inl p' => rfl
      | inr b => cases b <;> rfl
    · cases next with
      | inl p' => simp [holdsCtx, Poll.holdsCtx, Ne.symm hd']
      | inr b => cases b <;> simp [holdsCtx, Poll.holdsCtx, Ne.symm hd']
    · cases next with
      | inl p' => simpa [holdsCtx, Poll.holdsCtx] using hhands
      | inr b => cases b <;> simpa [holdsCtx, Poll.holdsCtx, PopAt.holds] using hhands
  | ctxPop d p =>
    obtain ⟨⟨queue', next⟩, hpop, heq⟩ := Option.map_eq_some_iff.mp h
    cases heq
    have hhands := pop_hands hpop
    refine hg.ctx_step d queue' (othersStay_poller rfl) rfl rfl ?_ (fun d' hd' => ?_) ?_
    · cases next <;> rfl
    · cases next <;> simp [holdsCtx, Poll.holdsCtx, Ne.symm hd']
    · cases next with
      | inl p' => simpa [holdsCtx, Poll.holdsCtx] using hhands
      | inr args => simpa [holdsCtx, Poll.holdsCtx] using hhands
  | apply d args =>
    cases h
    exact hg.queue_step (othersStay_poller rfl) rfl (fun d' => rfl) (.keep _ _)

/-- What a step of a call keeps. -/
theorem Inv.addTo (hi : Inv tr s) {i : Nat} {c : Call D A} (hc : s.calls[i]? = some c)
    (h : s.addTo i c = some (s', out)) : Inv (tr ++ out) s' := by
  have hmail := hi.mail_step (addTo_refines hc h)
  have hguarded := hi.guarded.addTo hc h
  obtain ⟨d, args, place⟩ := c
  have hmem (c' : Call D A) : c' ∈ s.calls.set i c' :=
    List.mem_set (List.getElem?_eq_some_iff.mp hc).1 c'
  cases place with
  | push p =>
    obtain ⟨⟨queue, next⟩, hpush, heq⟩ := Option.map_eq_some_iff.mp h
    cases heq
    refine ⟨hmail, hguarded, hi.astray, hi.take, fun hp hq => ?_⟩
    exact (hi.wake hp hq).imp_right (exists_set hc (by simp))
  | enqueue p =>
    obtain ⟨⟨queue, next⟩, hpush, heq⟩ := Option.map_eq_some_iff.mp h
    cases heq
    cases p with
    | lock =>
      obtain ⟨-, heq⟩ := map_lock_eq_some hpush
      cases heq
      refine ⟨hmail, hguarded, hi.astray, hi.take, fun hp hq => ?_⟩
      exact (hi.wake hp hq).imp_right (exists_set hc (by simp))
    | push =>
      cases hpush
      refine ⟨hmail, hguarded, hi.astray, fun _ => by simp, fun _ _ => .inr ⟨_, hmem _, rfl⟩⟩
    | set =>
      cases hpush
      exact ⟨hmail, hguarded, hi.astray, hi.take, fun _ _ => .inl rfl⟩
    | unlock =>
      cases hpush
      refine ⟨hmail, hguarded, hi.astray, hi.take, fun hp hq => ?_⟩
      exact (hi.wake hp hq).imp_right (exists_set hc (by simp))
  | returned => cases h

/-- What a step of the polling thread keeps. -/
theorem Inv.poll (hi : Inv tr s) (h : s.poll = some (s', out)) : Inv (tr ++ out) s' := by
  have hmail := hi.mail_step (poll_refines hi.astray h)
  have hguarded := hi.guarded.poll h
  have hastray := hi.astray
  have hfound := fun d => hi.found (d := d)
  have htake := hi.take
  have hwake := hi.wake
  obtain ⟨queue, ctx, calls, poller⟩ := s
  cases poller with
  | pop p =>
    obtain ⟨⟨queue', next⟩, hpop, heq⟩ := Option.map_eq_some_iff.mp h
    cases heq
    cases p with
    | lock | relock =>
      obtain ⟨s₁, hs₁, heq⟩ := Option.map_eq_some_iff.mp hpop
      cases heq
      exact ⟨hmail, hguarded, rfl, by simp, by simp⟩
    | test =>
      cases hpop
      refine ⟨hmail, hguarded, rfl, fun hp hq => ?_, fun hp hq => ?_⟩
      · have hempty : queue.q = [] := hq
        simp [hempty] at hp
      · have hne : queue.q ≠ [] := hq
        simp [hne] at hp
    | unlock =>
      cases hpop
      exact ⟨hmail, hguarded, rfl, by simp, fun _ hq => hwake (.inl rfl) hq⟩
    | wait =>
      obtain ⟨-, rfl, rfl⟩ := wait_eq_some hpop
      exact ⟨hmail, hguarded, rfl, by simp, by simp⟩
    | take =>
      obtain ⟨d, hq, -, -, rfl⟩ := take_eq_some hpop
      exact ⟨hmail, hguarded, rfl, by simp, by simp⟩
    | release d =>
      cases hpop
      exact ⟨hmail, hguarded, rfl, by simp, by simp⟩
  | empty d p =>
    obtain ⟨⟨queue', next⟩, hempty, heq⟩ := Option.map_eq_some_iff.mp h
    cases heq
    cases p with
    | lock =>
      obtain ⟨s₁, hs₁, heq⟩ := Option.map_eq_some_iff.mp hempty
      cases heq
      exact ⟨hmail, hguarded, rfl, by simp, by simp⟩
    | test =>
      cases hempty
      refine ⟨hmail, hguarded, ?_, by simp, by simp⟩
      have hne : (ctx d).q.isEmpty = false := by simpa using hfound d rfl
      simp only [Sum.elim_inl, hne]
      rfl
    | unlock result =>
      cases hempty
      cases result with
      | true => cases hastray
      | false => exact ⟨hmail, hguarded, rfl, by simp, by simp⟩
  | ctxPop d p =>
    obtain ⟨⟨queue', next⟩, hpop, heq⟩ := Option.map_eq_some_iff.mp h
    cases heq
    cases p with
    | lock =>
      obtain ⟨s₁, hs₁, heq⟩ := Option.map_eq_some_iff.mp hpop
      cases heq
      exact ⟨hmail, hguarded, rfl, by simp, by simp⟩
    | test =>
      cases hpop
      refine ⟨hmail, hguarded, ?_, by simp, by simp⟩
      have hne : (ctx d).q.isEmpty = false := by simpa using hfound d rfl
      simp only [Sum.elim_inl, hne]
      rfl
    | unlock | wait | relock => cases hastray
    | take =>
      obtain ⟨args, hq, -, -, rfl⟩ := take_eq_some hpop
      exact ⟨hmail, hguarded, rfl, by simp, by simp⟩
    | release args =>
      cases hpop
      exact ⟨hmail, hguarded, rfl, by simp, by simp⟩
  | apply d args =>
    cases h
    exact ⟨hmail, hguarded, rfl, by simp, by simp⟩

/-- **What one event keeps.** -/
theorem Inv.step (hi : Inv tr s) (e : Event D A) :
    Inv (tr ++ (machine.step s e).2) (machine.step s e).1 := by
  cases e with
  | signal d args =>
    have hmail := hi.mail.step (.signal d args)
    have hview : (machine.step s (.signal d args)).1.view =
        { s.view with calls := s.view.calls ++ [⟨d, args, .calling⟩] } := by
      change Mail.mk _ _ ((s.calls ++ [_]).map Call.view) _ = _
      rw [List.map_append]
      rfl
    rw [← hview] at hmail
    refine ⟨hmail, ⟨fun θ => ?_, fun d' θ => ?_⟩, hi.astray, hi.take, fun hp hq =>
      (hi.wake hp hq).imp_right fun ⟨c, hc, hplace⟩ => ⟨c, List.mem_append_left _ hc, hplace⟩⟩
    · refine (hi.guarded.1 θ).trans (.of_eq (congrArg (· = true) ?_))
      cases θ with
      | call i => exact (any_concat rfl).symm
      | poller => rfl
    · refine (hi.guarded.2 d' θ).trans (.of_eq (congrArg (· = true) ?_))
      cases θ with
      | call i => exact (any_concat (by simp [Place.holdsCtx, PushAt.holds])).symm
      | poller => rfl
  | thread θ =>
    change Inv (tr ++ ((s.advance θ).getD (s, [])).2) ((s.advance θ).getD (s, [])).1
    cases h : s.advance θ with
    | none =>
      rw [Option.getD_none, List.append_nil]
      exact hi
    | some r =>
      rw [Option.getD_some]
      cases θ with
      | call i =>
        obtain ⟨c, hc, hadd⟩ := Option.bind_eq_some_iff.mp h
        exact hi.addTo hc hadd
      | poller => exact hi.poll h

/-- What a run keeps. -/
theorem inv_run (es : List (Event D A)) :
    Inv (machine.trace new es) (machine.run new es) := by
  refine Machine.trace_inv (C := fun _ _ => True) (Machine.along_of_mem fun _ _ _ => trivial) ?_
    fun tr s e hi _ => hi.step e
  refine ⟨⟨fun _ => rfl, fun _ => rfl, fun _ => .nil⟩, ⟨fun θ => ?_, fun d θ => ?_⟩, rfl,
    by simp [new], by simp [new]⟩
  · cases θ <;> simp [new, Queue.new, holdsQueue, Poll.holdsQueue, PopAt.holds]
  · cases θ <;> simp [new, Queue.new, holdsCtx, Poll.holdsCtx]

/-! ## The end -/

/-- No thread can go on. -/
def AtRest (s : Post D A) : Prop := ∀ θ, s.advance θ = none

/-- A call goes on if it holds a mutex, or if nobody holds one and it has not returned. -/
theorem addTo_isSome {i : Nat} {c : Call D A}
    (h : c.place.holdsQueue = true ∨ c.place.holdsCtx = true ∨
      s.queue.m = none ∧ (s.ctx c.deliver).m = none ∧ c.place ≠ .returned) :
    (s.addTo i c).isSome = true := by
  obtain ⟨d, args, place⟩ := c
  cases place with
  | push p =>
    have hp : p.holds = true ∨ (s.ctx d).m = none :=
      (h.resolve_left Bool.false_ne_true).imp_right fun h => h.2.1
    exact Option.isSome_map.trans (push_isSome hp)
  | enqueue p =>
    have hp : p.holds = true ∨ s.queue.m = none :=
      h.imp_right fun h => (h.resolve_left Bool.false_ne_true).1
    exact Option.isSome_map.trans (push_isSome hp)
  | returned => simp [Place.holdsQueue, Place.holdsCtx] at h

/-- The polling thread goes on if it holds a mutex, or if nobody holds one and it does not have to
wait for the event of the post's queue. -/
theorem Inv.poll_isSome (hi : Inv tr s)
    (h : s.poller.holdsQueue = true ∨ (∃ d, s.poller.holdsCtx d = true) ∨
      s.queue.m = none ∧ (∀ d, (s.ctx d).m = none) ∧ (s.poller = .pop .wait → s.queue.e = true)) :
    s.poll.isSome = true := by
  have hastray := hi.astray
  have hfound := fun d => hi.found (d := d)
  have htake := hi.take
  obtain ⟨queue, ctx, calls, poller⟩ := s
  cases poller with
  | pop p =>
    have hp : p.holds = true ∨ queue.m = none ∧ (p = .wait → queue.e = true) := by
      obtain h | ⟨d, h⟩ | h := h
      · exact .inl h
      · cases h
      · exact .inr ⟨h.1, fun hw => h.2.2 (congrArg Poll.pop hw)⟩
    refine Option.isSome_map.trans (pop_isSome (hp.imp_right fun h => h.1)
      (fun ht => htake (congrArg Poll.pop ht)) fun hw => ?_)
    refine (hp.resolve_left ?_).2 hw
    rw [hw]
    exact Bool.false_ne_true
  | empty d p =>
    have hp : p.holds = true ∨ (ctx d).m = none := by
      obtain h | ⟨d', h⟩ | h := h
      · cases h
      · exact .inl (Bool.and_eq_true_iff.mp h).2
      · exact .inr (h.2.1 d)
    exact Option.isSome_map.trans (empty_isSome hp)
  | ctxPop d p =>
    have hp : p.holds = true ∨ (ctx d).m = none := by
      obtain h | ⟨d', h⟩ | h := h
      · cases h
      · exact .inl (Bool.and_eq_true_iff.mp h).2
      · exact .inr (h.2.1 d)
    refine Option.isSome_map.trans (pop_isSome hp (fun ht => ?_) fun hw => ?_)
    · subst ht
      exact hfound d rfl
    · subst hw
      cases hastray
  | apply d args => rfl

/-- At rest nobody holds a mutex. -/
theorem Inv.free (hi : Inv tr s) (hrest : AtRest s) :
    s.queue.m = none ∧ ∀ d, (s.ctx d).m = none := by
  have hcall (i : Nat) (c : Call D A) (hc : s.calls[i]? = some c)
      (h : c.place.holdsQueue = true ∨ c.place.holdsCtx = true) : False := by
    have hsome := addTo_isSome (s := s) (i := i) (h.imp_right .inl)
    have hnone : s.addTo i c = none := by
      have := hrest (.call i)
      rwa [advance, hc, Option.bind_some] at this
    rw [hnone] at hsome
    cases hsome
  have hpoller (h : s.poller.holdsQueue = true ∨ ∃ d, s.poller.holdsCtx d = true) : False := by
    have hsome := hi.poll_isSome (h.imp_right .inl)
    rw [show s.poll = none from hrest .poller] at hsome
    cases hsome
  constructor
  · by_contra hm
    obtain ⟨θ, hθ⟩ := Option.ne_none_iff_exists'.mp hm
    have hholds := (hi.guarded.1 θ).mp hθ
    cases θ with
    | call i =>
      obtain ⟨c, hc, hplace⟩ := (Option.any_eq_true _ _).mp hholds
      exact hcall i c hc (.inl hplace)
    | poller => exact hpoller (.inl hholds)
  · intro d
    by_contra hm
    obtain ⟨θ, hθ⟩ := Option.ne_none_iff_exists'.mp hm
    have hholds := (hi.guarded.2 d θ).mp hθ
    cases θ with
    | call i =>
      obtain ⟨c, hc, hplace⟩ := (Option.any_eq_true _ _).mp hholds
      exact hcall i c hc (.inr (Bool.and_eq_true_iff.mp hplace).2)
    | poller => exact hpoller (.inr ⟨d, hholds⟩)

/-- At rest every call has returned, and no arguments are left. -/
theorem Inv.rest (hi : Inv tr s) (hrest : AtRest s) :
    (∀ c ∈ s.calls, c.place = .returned) ∧ ∀ d, s.view.hand = .free ∧ (s.ctx d).q = [] := by
  obtain ⟨hqueue, hctx⟩ := hi.free hrest
  have hreturned (c : Call D A) (hc : c ∈ s.calls) : c.place = .returned := by
    by_contra hne
    obtain ⟨i, hi⟩ := List.mem_iff_getElem?.mp hc
    have hsome :=
      addTo_isSome (s := s) (i := i) (c := c) (.inr (.inr ⟨hqueue, hctx c.deliver, hne⟩))
    have hnone : s.addTo i c = none := by
      have := hrest (.call i)
      rwa [advance, hi, Option.bind_some] at this
    rw [hnone] at hsome
    cases hsome
  -- the polling thread waits for the event, which is not set
  have hwait : s.poller = .pop .wait ∧ s.queue.e = false := by
    by_contra hnot
    have hsome := hi.poll_isSome (.inr (.inr ⟨hqueue, hctx, fun hp => by
      cases he : s.queue.e with
      | true => rfl
      | false => exact absurd ⟨hp, he⟩ hnot⟩))
    rw [show s.poll = none from hrest .poller] at hsome
    cases hsome
  have hempty : s.queue.q = [] := by
    by_contra hne
    obtain he | ⟨c, hc, hplace⟩ := hi.wake (.inr hwait.1) hne
    · rw [hwait.2] at he
      cases he
    · rw [hreturned c hc] at hplace
      cases hplace
  have hhand : s.view.hand = .free := by rw [view, hwait.1]; rfl
  refine ⟨hreturned, fun d => ⟨hhand, ?_⟩⟩
  have hcount := hi.mail.counted d
  have howes : s.view.calls.countP (Mail.Call.owes · d) = 0 := by
    rw [List.countP_eq_zero]
    intro view hview
    obtain ⟨c, hc, rfl⟩ := List.mem_map.mp hview
    simp [Mail.Call.owes, Call.view, hreturned c hc, Place.phase]
  rw [howes, hhand] at hcount
  have hlen : (s.ctx d).q.length = s.queue.q.count d := hcount
  rw [hempty, List.count_nil] at hlen
  exact List.length_eq_zero_iff.mp hlen

end Steps

end ChargingPile.Post
