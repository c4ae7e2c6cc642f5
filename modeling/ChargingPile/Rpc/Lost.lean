import ChargingPile.Rpc.Callbacks

/-!
# Lost remote calls

A call is kept (`Rpc.Kept`) if its callback was called or waits in the table under the id of the
call's `Request`. Not every call is kept. `invoke` does not look whether the id that it is about to
use is still in the table, and `std::map::insert` leaves an entry alone that is there already, so
the callback of the new call is dropped (`Rpc.collision_loses_call`). A build without exceptions
moreover drops the callback of a call that is refused, fails or times out.

`Rpc.Drops` lists the steps that drop a callback, and `Rpc.none_lost_iff` says that a run without
them, and only such a run, loses no call. A thread that has released the mutex calls the callback
it took, or sends its request, as its next step, so the calls are counted once such threads have
gone on (`Rpc.settle`).
-/

namespace ChargingPile.Rpc

variable {T D : Type} {exceptions : Bool} {s s' : Rpc T D} {tr : List (Output T D)} {k : Nat}

/-- The callback of invocation `k` was called, or waits under the id that its request was sent
with. -/
def Kept (tr : List (Output T D)) (s : Rpc T D) (k : Nat) : Prop :=
  k ∈ calledOf tr ∨ ∃ (id : UInt8) (p : Pending T), s.pendings[id]? = some p ∧ p.number = k ∧
    ⟨id, p.toInvocation⟩ ∈ requestsOf tr

/-- Every invocation so far is kept. -/
def NoneLost (tr : List (Output T D)) (s : Rpc T D) : Prop := ∀ k < s.count, Kept tr s k

/-- The next steps of the threads that have released the mutex. -/
def settle (s : Rpc T D) : List (Event T D) :=
  .replicate s.calling.length (.call 0) ++ .replicate s.sending.length (.send 0)

/-- The callback of invocation `k` was called, is about to be called, or waits under the id of its
request. -/
def Held (tr : List (Output T D)) (s : Rpc T D) (k : Nat) : Prop :=
  k ∈ calledOf tr ++ s.callingOf ∨ ∃ (id : UInt8) (p : Pending T), s.pendings[id]? = some p ∧
    p.number = k ∧ ⟨id, p.toInvocation⟩ ∈ s.sending ++ requestsOf tr

/-- No invocation so far has been dropped. -/
def AllHeld (tr : List (Output T D)) (s : Rpc T D) : Prop := ∀ k < s.count, Held tr s k

/-- The event drops the callback of a call: the call finds its id in the table, or one of the cases
in which a build without exceptions calls nobody. -/
def Drops [DecidableEq T] (exceptions : Bool) (s : Rpc T D) : Event T D → Prop
  | .invoke _ _ => s.timer.scans = false ∧
      if s.pendings.size > kMaxParallel then exceptions = false else s.curId ∈ s.pendings
  | .arrive a => s.timer = .idle ∧ a.type ∈ s.registeredType ∧ a.id ∈ s.pendings ∧
      a.failure = true ∧ exceptions = false
  | .timerReturn => s.timer.emits ≠ none ∧ exceptions = false
  | _ => False

/-! ## Threads that have released the mutex -/

section
variable [DecidableEq T]

theorem trace_calls (s : Rpc T D) :
    (machine exceptions).run s (.replicate s.calling.length (.call 0)) = { s with calling := [] } ∧
      (machine exceptions).trace s (.replicate s.calling.length (.call 0)) =
        s.calling.map fun c => .called c.1 c.2 := by
  obtain ⟨pendings, registeredType, curId, tick, timer, calling, sending, count⟩ := s
  induction calling with
  | nil => exact ⟨rfl, rfl⟩
  | cons c calling ih => exact ⟨ih.1, congrArg (Output.called c.1 c.2 :: ·) ih.2⟩

theorem trace_sends (s : Rpc T D) :
    (machine exceptions).run s (.replicate s.sending.length (.send 0)) = { s with sending := [] } ∧
      (machine exceptions).trace s (.replicate s.sending.length (.send 0)) =
        s.sending.map .request := by
  obtain ⟨pendings, registeredType, curId, tick, timer, calling, sending, count⟩ := s
  induction sending with
  | nil => exact ⟨rfl, rfl⟩
  | cons r sending ih => exact ⟨ih.1, congrArg (Output.request r :: ·) ih.2⟩

theorem run_settle (s : Rpc T D) :
    (machine exceptions).run s s.settle = { s with calling := [], sending := [] } := by
  rw [settle, Machine.run_append, (trace_calls s).1]
  exact (trace_sends { s with calling := [] }).1

theorem trace_settle (s : Rpc T D) : (machine exceptions).trace s s.settle =
    (s.calling.map fun c => .called c.1 c.2) ++ s.sending.map .request := by
  rw [settle, Machine.trace_append, (trace_calls s).1, (trace_calls s).2]
  exact congrArg _ (trace_sends { s with calling := [] }).2

omit [DecidableEq T] in
theorem calledOf_settle (s : Rpc T D) :
    calledOf ((s.calling.map fun c => .called c.1 c.2) ++ s.sending.map .request) =
      s.callingOf := by
  have hsends : ∀ l : List (Request T), calledOf (l.map (Output.request (D := D))) = [] := by
    intro l
    simp [calledOf]
  rw [calledOf_append, hsends, List.append_nil, calledOf, callingOf, List.filterMap_map]
  exact congrFun List.filterMap_eq_map s.calling

omit [DecidableEq T] in
theorem requestsOf_settle (s : Rpc T D) :
    requestsOf ((s.calling.map fun c => .called c.1 c.2) ++ s.sending.map .request) =
      s.sending := by
  have hcalls : ∀ l : List (Invocation T × Result T D),
      requestsOf (l.map fun c => .called c.1 c.2) = [] := by
    intro l
    simp [requestsOf]
  rw [requestsOf_append, hcalls, List.nil_append, requestsOf, List.filterMap_map]
  exact List.filterMap_some

/-- Once the threads have gone on, the calls that are kept are those that were held. -/
theorem noneLost_settle (exceptions : Bool) (tr : List (Output T D)) (s : Rpc T D) :
    NoneLost (tr ++ (machine exceptions).trace s s.settle) ((machine exceptions).run s s.settle) ↔
      AllHeld tr s := by
  rw [run_settle, trace_settle]
  simp only [NoneLost, Kept, AllHeld, Held, calledOf_append tr, requestsOf_append tr,
    calledOf_settle, requestsOf_settle, List.mem_append, or_comm]

end

/-! ## A step that drops nothing -/

theorem Held.mono (h : Held tr s k) {outs : List (Output T D)}
    (hcalled : s.callingOf ⊆ calledOf outs ++ s'.callingOf)
    (hpend : ∀ (id : UInt8) (p : Pending T), s.pendings[id]? = some p →
      s'.pendings[id]? = some p ∨ p.number ∈ calledOf (tr ++ outs) ++ s'.callingOf)
    (hsend : s.sending ⊆ s'.sending ++ requestsOf outs) : Held (tr ++ outs) s' k := by
  have hdone : calledOf tr ++ s.callingOf ⊆ calledOf (tr ++ outs) ++ s'.callingOf := by
    rw [calledOf_append, List.append_assoc]
    exact List.append_subset.2 ⟨List.subset_append_left ..,
      List.subset_append_of_subset_right _ hcalled⟩
  have hreqs : s.sending ++ requestsOf tr ⊆ s'.sending ++ requestsOf (tr ++ outs) := by
    intro r hr
    rw [requestsOf_append]
    rcases List.mem_append.1 hr with hr | hr
    · rcases List.mem_append.1 (hsend hr) with hr | hr
      · exact List.mem_append_left _ hr
      · exact List.mem_append_right _ (List.mem_append_right _ hr)
    · exact List.mem_append_right _ (List.mem_append_left _ hr)
  rcases h with h | ⟨id, p, hid, hn, hreq⟩
  · exact .inl (hdone h)
  · rcases hpend id p hid with hid' | hcall
    · exact .inr ⟨id, p, hid', hn, hreqs hreq⟩
    · exact .inl (hn ▸ hcall)

/-- Lists only shrink by what is taken out of them. -/
theorem mem_eraseIdx_or {α : Type} {l : List α} {n : Nat} {a b : α} (ha : l[n]? = some a)
    (hb : b ∈ l) : b ∈ l.eraseIdx n ∨ b = a := by
  obtain ⟨hn, rfl⟩ := List.getElem?_eq_some_iff.1 ha
  rcases List.mem_cons.1 ((List.getElem_cons_eraseIdx_perm hn).mem_iff.2 hb) with h | h
  · exact .inr h
  · exact .inl h

section
variable [DecidableEq T] {e : Event T D}

theorem Effect.held {r : Rpc T D × List (Output T D)} (he : Effect exceptions s e r)
    (hdrop : ¬ Drops exceptions s e) (hinv : Inv exceptions s (calledOf tr ++ s.callingOf))
    (h : AllHeld tr s) : AllHeld (tr ++ r.2) r.1 := by
  have hsame : ∀ (id : UInt8) (p : Pending T), s.pendings[id]? = some p →
      s.pendings[id]? = some p ∨ p.number ∈ calledOf (tr ++ r.2) ++ r.1.callingOf :=
    fun _ _ hid => .inl hid
  intro k hk
  cases he with
  | quiet | waits =>
    exact (h k hk).mono (List.Subset.refl _) hsame (List.subset_append_left ..)
  | accepts type timeout hs hsize =>
    have hfree : s.curId ∉ s.pendings := by
      intro hmem
      refine hdrop ⟨hs, ?_⟩
      rwa [if_neg (by omega)]
    rcases Nat.lt_succ_iff_lt_or_eq.1 hk with hk | rfl
    · refine (h k hk).mono (List.Subset.refl _) ?_ ?_
      · exact fun _ _ hid => .inl (Table.getElem?_insert_of_some hid)
      · exact fun _ hr => List.mem_append_left _ (List.mem_append_left _ hr)
    · exact .inr ⟨s.curId, _, Table.getElem?_insert_self hfree, rfl, by simp⟩
  | refuses type timeout hs hsize calls hcalls =>
    have hexc : exceptions = true := by
      by_contra hexc
      exact hdrop ⟨hs, by rw [if_pos hsize]; simpa using hexc⟩
    rw [hexc, if_pos rfl] at hcalls
    subst hcalls
    rcases Nat.lt_succ_iff_lt_or_eq.1 hk with hk | rfl
    · exact (h k hk).mono (List.map_subset _ (List.subset_append_left ..)) hsame
        (List.subset_append_left ..)
    · refine .inl (List.mem_append_right _ ?_)
      exact List.mem_map.2 ⟨_, List.mem_append_right _ (.head _), rfl⟩
  | takes a p hs htype hp calls hcalls =>
    have hf : (a.failure && !exceptions) = false := by
      by_contra hf
      exact hdrop ⟨hs, htype, Table.mem_of_getElem? hp, by simpa using hf⟩
    rw [hf, if_neg Bool.false_ne_true] at hcalls
    subst hcalls
    refine (h k hk).mono (List.map_subset _ (List.subset_append_left ..)) ?_
      (List.subset_append_left ..)
    intro id q hq
    rcases Table.getElem?_erase_or hp hq with hq | ⟨-, rfl⟩
    · exact .inl hq
    · refine .inr (List.mem_append_right _ ?_)
      exact List.mem_map.2 ⟨_, List.mem_append_right _ (.head _), rfl⟩
  | calls n c hc =>
    refine (h k hk).mono ?_ hsame (List.subset_append_left ..)
    intro k hk
    obtain ⟨b, hb, rfl⟩ := List.mem_map.1 hk
    rcases mem_eraseIdx_or hc hb with hb | rfl
    · exact List.mem_append_right _ (List.mem_map_of_mem hb)
    · exact List.mem_append_left _ (List.mem_singleton.2 rfl)
  | sends n r hr =>
    refine (h k hk).mono (List.Subset.refl _) hsame ?_
    intro b hb
    rcases mem_eraseIdx_or hr hb with hb | rfl
    · exact List.mem_append_left _ hb
    · exact List.mem_append_right _ (List.mem_singleton.2 rfl)
  | expires currTick last id p hs hp hexp =>
    exact (h k hk).mono (List.subset_append_right ..) hsame (List.subset_append_left ..)
  | removes currTick id hs =>
    have hexc : exceptions = true := by
      by_contra hexc
      exact hdrop ⟨by simp [hs, TimerState.emits], by simpa using hexc⟩
    obtain ⟨p, hp, hdone⟩ := hinv.emitting id (by rw [hs]; rfl)
    refine (h k hk).mono (List.Subset.refl _) ?_ (List.subset_append_left ..)
    intro id' q hq
    rcases Table.getElem?_erase_or hp hq with hq | ⟨-, rfl⟩
    · exact .inl hq
    · rw [List.append_nil]
      exact .inr (hdone hexc)

/-! ## A step that drops a callback -/

omit [DecidableEq T] in
/-- A call whose callback is neither called nor in the table is lost. -/
theorem not_allHeld (hk : k < s'.count) (hdone : k ∉ calledOf tr ++ s'.callingOf)
    (hpend : ∀ (id : UInt8) (p : Pending T), s'.pendings[id]? = some p → p.number ≠ k) :
    ¬ AllHeld tr s' := by
  intro h
  rcases h k hk with h | ⟨id, p, hid, hn, -⟩
  · exact hdone h
  · exact hpend id p hid hn

theorem invoke_drops {type : T} {timeout : UInt32}
    (hdrop : Drops exceptions s (.invoke type timeout : Event T D))
    (hinv : Inv exceptions s (calledOf tr ++ s.callingOf)) :
    ¬ AllHeld tr (s.invoke exceptions type timeout) := by
  obtain ⟨hs, hdrop⟩ := hdrop
  have hnew : s.count ∉ calledOf tr ++ s.callingOf := fun hmem => Nat.lt_irrefl _ (hinv.lt _ hmem)
  have hold : ∀ (id : UInt8) (p : Pending T), s.pendings[id]? = some p → p.number ≠ s.count :=
    fun id p hid => Nat.ne_of_lt (hinv.pending_lt id p hid)
  have htaken : ∀ (id : UInt8) (p q : Pending T), s.curId ∈ s.pendings →
      (s.pendings.insertIfNew s.curId q)[id]? = some p → p.number ≠ s.count := by
    intro id p q hmem hid
    rcases Table.getElem?_insert hid with hid | ⟨-, hnot, -⟩
    · exact hold id p hid
    · exact absurd hmem hnot
  unfold invoke
  split
  · rename_i htimer
    rw [htimer] at hs
    cases hs
  all_goals
    split at hdrop
    · rename_i hsize
      rw [if_pos hsize, if_neg (by simp [hdrop])]
      exact not_allHeld (Nat.lt_succ_self _) hnew hold
    · rename_i hsize
      rw [if_neg hsize]
      exact not_allHeld (Nat.lt_succ_self _) hnew fun id p => htaken id p _ hdrop

omit [DecidableEq T] in
/-- An entry that is removed although nobody called its callback. -/
theorem erase_drops {id : UInt8} {p : Pending T}
    (hinv : Inv exceptions s (calledOf tr ++ s.callingOf)) (hp : s.pendings[id]? = some p)
    (hfresh : ¬ (exceptions = true ∧ s.timer.emits = some id))
    (hpend : s'.pendings = s.pendings.erase id) (hcall : s'.calling = s.calling)
    (hcount : s'.count = s.count) : ¬ AllHeld tr s' := by
  have hcalling : s'.callingOf = s.callingOf := by rw [callingOf, callingOf, hcall]
  refine not_allHeld (hcount ▸ hinv.pending_lt id p hp) ?_ ?_
  · rw [hcalling]
    exact hinv.fresh id p hp hfresh
  · intro id' q hq heq
    rw [hpend, Table.getElem?_erase] at hq
    exact hq.1 (hinv.pending_inj id' id q p hq.2 hp heq)

theorem step_drops (hdrop : Drops exceptions s e)
    (hinv : Inv exceptions s (calledOf tr ++ s.callingOf)) :
    ¬ AllHeld (tr ++ (s.step exceptions e).2) (s.step exceptions e).1 := by
  cases e with
  | invoke type timeout =>
    simp only [step, List.append_nil]
    exact invoke_drops hdrop hinv
  | arrive a =>
    obtain ⟨hs, htype, hmem, hf, rfl⟩ := hdrop
    obtain ⟨p, hp⟩ := Table.exists_of_mem hmem
    have harrive : s.arrive false a = { s with pendings := s.pendings.erase a.id } := by
      simp [arrive, hs, htype, hp, hf]
    simp only [step, List.append_nil, harrive]
    exact erase_drops hinv hp (by simp) rfl rfl rfl
  | timerReturn =>
    obtain ⟨hs, rfl⟩ := hdrop
    simp only [step, List.append_nil, timerReturn]
    split
    · rename_i htimer
      exact absurd (by rw [htimer]; rfl) hs
    · rename_i htimer
      exact absurd (by rw [htimer]; rfl) hs
    · rename_i currTick id htimer
      obtain ⟨p, hp, -⟩ := hinv.emitting id (by rw [htimer]; rfl)
      exact erase_drops hinv hp (by simp) rfl rfl rfl
  | call | send | timerRun | timerStep | advance => exact hdrop.elim

/-! ## Runs -/

/-- A run drops no callback exactly if none of its steps does. -/
theorem allHeld_iff (exceptions : Bool) (es : List (Event T D)) :
    (∀ pre, pre <+: es →
      AllHeld ((machine exceptions).trace {} pre) ((machine exceptions).run {} pre)) ↔
    (machine exceptions).Along (fun s e => ¬ Drops exceptions s e) {} es := by
  induction es using List.reverseRecOn with
  | nil =>
    refine ⟨fun _ => trivial, ?_⟩
    intro _ pre hpre k hk
    rw [List.prefix_nil.1 hpre] at hk
    cases hk
  | append_singleton es e ih =>
    have hinv := trace_inv exceptions es
    have hlast : AllHeld ((machine exceptions).trace {} es) ((machine exceptions).run {} es) →
        (AllHeld ((machine exceptions).trace {} (es ++ [e]))
          ((machine exceptions).run {} (es ++ [e])) ↔
        ¬ Drops exceptions ((machine exceptions).run {} es) e) := by
      intro h
      rw [Machine.run_concat, Machine.trace_concat, machine_step]
      exact ⟨fun hnone hdrop => step_drops hdrop hinv hnone,
        fun hdrop => (step_effect _ e).held hdrop hinv h⟩
    rw [Machine.along_append, ← ih, Machine.along_cons]
    refine ⟨?_, ?_⟩
    · intro h
      have hes : ∀ pre, pre <+: es →
          AllHeld ((machine exceptions).trace {} pre) ((machine exceptions).run {} pre) :=
        fun pre hpre => h pre (hpre.trans (List.prefix_append ..))
      exact ⟨hes, (hlast (hes es (List.prefix_refl _))).1 (h _ (List.prefix_refl _)), trivial⟩
    · rintro ⟨hes, hdrop, -⟩ pre hpre
      rcases List.prefix_concat_iff.1 hpre with rfl | hpre
      · exact (hlast (hes es (List.prefix_refl _))).2 hdrop
      · exact hes pre hpre

/-- **Lost calls.** A run loses no call in any of its states, once the threads that have released
the mutex have gone on, exactly if none of its steps drops a callback. -/
theorem none_lost_iff (exceptions : Bool) (es : List (Event T D)) :
    (∀ pre, pre <+: es →
      let settled := pre ++ ((machine exceptions).run {} pre).settle
      NoneLost ((machine exceptions).trace {} settled) ((machine exceptions).run {} settled)) ↔
    (machine exceptions).Along (fun s e => ¬ Drops exceptions s e) {} es := by
  simp only [Machine.trace_append, Machine.run_append, noneLost_settle]
  exact allHeld_iff exceptions es

end

/-! ## A call that is lost -/

/-- A call that is answered at once. `n` is the number of the call. -/
def answered (n : Nat) : List (Event Unit Unit) :=
  [.invoke () 10000, .send 0, .arrive ⟨UInt8.ofNat n, (), false, ()⟩, .call 0]

/-- The first of `n` calls still waits for its answer, the others have got theirs. -/
structure Waiting (n : Nat) (s : Rpc Unit Unit) : Prop where
  timer : s.timer = .idle
  curId : s.curId = UInt8.ofNat n
  calling : s.calling = []
  sending : s.sending = []
  size : s.pendings.size = 1
  mem : ∀ id, id ∈ s.pendings ↔ id = 0

theorem Waiting.answered {n : Nat} {s : Rpc Unit Unit} (h : Waiting n s) (h1 : 1 ≤ n)
    (h2 : n ≤ 255) : Waiting (n + 1) ((machine true).run s (answered n)) := by
  have hne : UInt8.ofNat n ≠ 0 := by
    intro h0
    have := congrArg UInt8.toNat h0
    simp at this
    omega
  have hfree : UInt8.ofNat n ∉ s.pendings := fun hmem => hne ((h.mem _).1 hmem)
  have hrun : (machine true).run s (Rpc.answered n) = { s with
      registeredType := s.registeredType.insert ()
      count := s.count + 1
      pendings := (s.pendings.insertIfNew (UInt8.ofNat n) ⟨⟨s.count, ()⟩, s.tick, 10000⟩).erase
        (UInt8.ofNat n)
      curId := UInt8.ofNat n + 1 } := by
    obtain ⟨htimer, hcur, hcalling, hsending, hsize, -⟩ := h
    simp [Rpc.answered, Machine.run, step, invoke, send, arrive, call, htimer, hcur, hcalling,
      hsending, hsize, kMaxParallel]
  rw [hrun]
  refine ⟨h.timer, by simp, h.calling, h.sending, ?_, ?_⟩
  · exact (Table.size_erase_insert hfree).trans h.size
  · intro id
    rw [Std.TreeMap.mem_erase, Std.TreeMap.mem_insertIfNew, h.mem, ne_eq,
      Std.LawfulEqCmp.compare_eq_iff_eq]
    refine ⟨fun hid => hid.2.resolve_left hid.1, ?_⟩
    rintro rfl
    exact ⟨hne, .inr rfl⟩

/-- A call that waits, and 255 that are answered meanwhile. -/
def collision : List (Event Unit Unit) :=
  [.invoke () 10000, .send 0] ++ (List.range 255).flatMap fun n => answered (n + 1)

theorem collision_waiting : Waiting 256 ((machine true).run {} collision) := by
  have hfirst : Waiting 1 ((machine true).run {} [.invoke () 10000, .send 0]) := by
    refine ⟨rfl, rfl, rfl, rfl, rfl, ?_⟩
    intro id
    show id ∈ Std.TreeMap.insertIfNew {} _ _ ↔ _
    simp only [Std.TreeMap.mem_insertIfNew, Std.TreeMap.not_mem_emptyc, or_false,
      Std.LawfulEqCmp.compare_eq_iff_eq]
    exact eq_comm
  rw [collision, Machine.run_append, List.flatMap_def]
  have hrounds := Machine.run_rounds (M := machine true)
    ((List.range 255).map fun n => answered (n + 1)) (fun i hi s hs => ?_) hfirst
  · simpa using hrounds
  · rw [List.length_map, List.length_range] at hi
    rw [List.getElem_map, List.getElem_range, Nat.add_comm i 1]
    exact hs.answered (by omega) (by omega)

/-- The call after that has the id of the one that waits, and is lost. -/
theorem collision_loses_call :
    let es := collision ++ [.invoke () 10000]
    let settled := es ++ ((machine true).run {} es).settle
    ¬ NoneLost ((machine true).trace {} settled) ((machine true).run {} settled) := by
  intro es settled
  have hwait := collision_waiting
  have hheld : ¬ AllHeld ((machine true).trace {} es) ((machine true).run {} es) := by
    rw [Machine.trace_concat, Machine.run_concat, machine_step]
    refine step_drops ⟨by rw [hwait.timer]; rfl, ?_⟩ (trace_inv true collision)
    rw [hwait.size, if_neg (by decide), hwait.mem, hwait.curId]
    rfl
  rwa [← noneLost_settle true, ← Machine.trace_append, ← Machine.run_append] at hheld

/-- A call whose answer has been taken is not lost: the thread that took it calls the callback. -/
theorem none_lost_answered :
    let es : List (Event Unit Unit) := [.invoke () 10000, .send 0, .arrive ⟨0, (), false, ()⟩]
    let settled := es ++ ((machine true).run {} es).settle
    NoneLost ((machine true).trace {} settled) ((machine true).run {} settled) := by
  refine (none_lost_iff true _).2 ?_ _ (List.prefix_refl _)
  simp [Drops, kMaxParallel, Machine.Along]

end ChargingPile.Rpc
