import Mathlib.Data.UInt
import ChargingPile.Rpc.Callbacks

/-!
# Whom an answer reaches

`Rpc.Remote` is an `Rpc` with the other end: its requests go over a link that keeps their order,
the other end (`Rpc::def`) takes them and answers them, and the answers come back over a link that
keeps their order too. Both may delay their messages as long as they like, and may lose them.

An answer is handed to whatever call has its id in the table at the time, of whatever type. With
ids of eight bits, a call may get the id of an earlier one that has timed out and whose answer is
still under way (`Rpc.late_answer`). Answers reach their own calls in every run in which each call
finds its id unused (`Rpc.answers_reach_own_caller`): it is not in the table, and no request and no
answer under way carries it.
-/

namespace ChargingPile.Rpc

/-- An `Rpc` and the other end. The data of an answer is the number of the invocation whose request
it answers. -/
structure Remote (T : Type) where
  rpc : Rpc T Nat := {}
  requests : List (Request T) := []
  serving : List (Request T) := []
  answers : List (Answer T Nat) := []

namespace Remote

/-- The events: a step of the `Rpc` other than an arrival, the other end takes the oldest request,
it answers one that it has taken, the oldest answer reaches its handler, and losses. -/
inductive Event (T : Type)
  | own (e : Rpc.Event T Nat)
  | serve
  | answer (n : Nat) (failure : Bool)
  | deliver
  | loseRequest (n : Nat)
  | loseAnswer (n : Nat)

variable {T : Type} [DecidableEq T] (exceptions : Bool)

/-- One event. The handler of an answer waits while the timer holds the mutex. -/
def step (s : Remote T) : Event T → Remote T × List (Output T Nat)
  | .own (.arrive _) => (s, [])
  | .own e =>
    let r := s.rpc.step exceptions e
    ({ s with rpc := r.1, requests := s.requests ++ requestsOf r.2 }, r.2)
  | .serve =>
    match s.requests with
    | [] => (s, [])
    | r :: rs => ({ s with requests := rs, serving := s.serving ++ [r] }, [])
  | .answer n failure =>
    match s.serving[n]? with
    | none => (s, [])
    | some r => ({ s with
        serving := s.serving.eraseIdx n
        answers := s.answers ++ [⟨r.id, r.invocation.type, failure, r.invocation.number⟩] }, [])
  | .deliver =>
    match s.answers with
    | [] => (s, [])
    | a :: as =>
      if s.rpc.timer = .idle then
        ({ s with rpc := s.rpc.arrive exceptions a, answers := as }, [])
      else (s, [])
  | .loseRequest n => ({ s with requests := s.requests.eraseIdx n }, [])
  | .loseAnswer n => ({ s with answers := s.answers.eraseIdx n }, [])

/-- Both ends as a machine. -/
def machine : Machine (Remote T) (Event T) (Output T Nat) := ⟨step exceptions⟩

@[simp] theorem machine_step (s : Remote T) (e : Event T) :
    (machine exceptions).step s e = s.step exceptions e := rfl

end Remote

/-! ## Messages under way -/

/-- The invocation that an answer belongs to. -/
def Answer.invocation {T : Type} (a : Answer T Nat) : Invocation T := ⟨a.data, a.type⟩

namespace Remote

variable {T : Type} {s s' : Remote T}

/-- The ids that are under way, each with the invocation it was given to. -/
def underway (s : Remote T) : List (UInt8 × Invocation T) :=
  (s.rpc.sending ++ s.requests ++ s.serving).map (fun r => (r.id, r.invocation)) ++
    s.answers.map fun a => (a.id, a.invocation)

/-- A call that is given an id finds it unused: it is not in the table and nothing under way has
it. -/
def IdUnused (s : Remote T) : Event T → Prop
  | .own (.invoke _ _) => s.rpc.timer.scans = false → s.rpc.pendings.size ≤ kMaxParallel →
      s.rpc.curId ∉ s.rpc.pendings ∧ ∀ m ∈ s.underway, m.1 ≠ s.rpc.curId
  | _ => True

/-- The callback is called with its own answer, or with none. -/
def Answered (i : Invocation T) : Result T Nat → Prop
  | .answer a => a.invocation = i
  | .timeout => True

/-- What is under way with an id that is in the table belongs to the call there, and the callbacks
about to be called get their own answers. -/
structure Own (s : Remote T) : Prop where
  table : ∀ m ∈ s.underway, ∀ p : Pending T, s.rpc.pendings[m.1]? = some p → p.toInvocation = m.2
  calling : ∀ c ∈ s.rpc.calling, Answered c.1 c.2

/-- Messages leave, entries of the table leave, and callbacks come with their own answers. -/
theorem Own.mono (h : Own s) (hway : s'.underway ⊆ s.underway)
    (htable : ∀ (id : UInt8) (p : Pending T), s'.rpc.pendings[id]? = some p →
      s.rpc.pendings[id]? = some p)
    (hcalling : ∀ c ∈ s'.rpc.calling, c ∈ s.rpc.calling ∨ Answered c.1 c.2) : Own s' where
  table m hm p hp := h.table m (hway hm) p (htable m.1 p hp)
  calling c hc := (hcalling c hc).elim (h.calling c) id

/-- Only messages move. -/
theorem Own.moves (h : Own s) (hway : s'.underway ⊆ s.underway)
    (htable : s'.rpc.pendings = s.rpc.pendings) (hcalling : s'.rpc.calling = s.rpc.calling) :
    Own s' :=
  h.mono hway (fun _ _ hp => htable ▸ hp) (fun _ hc => .inl (hcalling ▸ hc))

theorem underway_subset
    (hreq : s'.rpc.sending ++ s'.requests ++ s'.serving ⊆ s.rpc.sending ++ s.requests ++ s.serving)
    (hans : s'.answers ⊆ s.answers) : s'.underway ⊆ s.underway :=
  List.append_subset.2 ⟨List.subset_append_of_subset_left _ (List.map_subset _ hreq),
    List.subset_append_of_subset_right _ (List.map_subset _ hans)⟩

/-- A call that finds its id unused. -/
theorem Own.accepts {i : Invocation T} {p : Pending T} (h : Own s) (hpi : p.toInvocation = i)
    (hfree : s.rpc.curId ∉ s.rpc.pendings) (hunused : ∀ m ∈ s.underway, m.1 ≠ s.rpc.curId)
    (htable : s'.rpc.pendings = s.rpc.pendings.insertIfNew s.rpc.curId p)
    (hway : s'.underway ⊆ (s.rpc.curId, i) :: s.underway)
    (hcalling : s'.rpc.calling = s.rpc.calling) : Own s' where
  table m hm q hq := by
    rw [htable] at hq
    rcases List.mem_cons.1 (hway hm) with rfl | hm
    · rw [Table.getElem?_insert_self hfree] at hq
      rw [← Option.some.inj hq, hpi]
    · rcases Table.getElem?_insert hq with hq | ⟨heq, -, -⟩
      · exact h.table m hm q hq
      · exact absurd heq (hunused m hm)
  calling := hcalling ▸ h.calling

/-! ## Runs -/

section
variable [DecidableEq T] {exceptions : Bool}

/-- A step of the `Rpc` other than an arrival. -/
theorem Own.effect {e : Rpc.Event T Nat} {r : Rpc T Nat × List (Output T Nat)} (h : Own s)
    (he : Effect exceptions s.rpc e r) (hne : ∀ a, e ≠ .arrive a) (hid : IdUnused s (.own e)) :
    Own { s with rpc := r.1, requests := s.requests ++ requestsOf r.2 } ∧
      ∀ i res, .called i res ∈ r.2 → Answered i res := by
  cases he with
  | quiet | waits =>
    refine ⟨h.moves ?_ rfl rfl, by simp⟩
    exact underway_subset (by simp) (List.Subset.refl _)
  | accepts type timeout hs hsize =>
    obtain ⟨hfree, hunused⟩ := hid hs hsize
    refine ⟨h.accepts (i := ⟨s.rpc.count, type⟩) rfl hfree hunused rfl ?_ rfl, by simp⟩
    intro m hm
    simp only [underway, requestsOf_nil, List.append_nil, List.map_append, List.map_cons,
      List.map_nil, List.mem_append, List.mem_cons, List.not_mem_nil, or_false] at hm ⊢
    tauto
  | refuses type timeout hs hsize calls hcalls =>
    refine ⟨h.mono ?_ (fun _ _ hp => hp) ?_, by simp⟩
    · exact underway_subset (by simp) (List.Subset.refl _)
    · intro c hc
      rcases List.mem_append.1 hc with hc | hc
      · exact .inl hc
      · rw [hcalls] at hc
        cases exceptions with
        | false => cases hc
        | true =>
          rw [List.mem_singleton.1 hc]
          exact .inr trivial
  | takes a => exact absurd rfl (hne a)
  | calls n c hc =>
    refine ⟨h.mono ?_ (fun _ _ hp => hp) (fun _ hc => .inl (List.mem_of_mem_eraseIdx hc)), ?_⟩
    · exact underway_subset (by simp [requestsOf]) (List.Subset.refl _)
    · intro i res hmem
      cases List.mem_singleton.1 hmem
      exact h.calling c (List.mem_of_getElem? hc)
  | sends n r hr =>
    refine ⟨h.moves ?_ rfl rfl, by simp⟩
    refine underway_subset ?_ (List.Subset.refl _)
    intro q hq
    have hmem := List.mem_of_getElem? hr
    simp only [requestsOf, List.filterMap_cons, List.filterMap_nil, List.mem_append,
      List.mem_singleton] at hq ⊢
    rcases hq with (hq | hq | rfl) | hq
    · exact .inl (.inl (List.mem_of_mem_eraseIdx hq))
    · exact .inl (.inr hq)
    · exact .inl (.inl hmem)
    · exact .inr hq
  | expires currTick last id p hs hp hexp =>
    refine ⟨h.moves ?_ rfl rfl, ?_⟩
    · refine underway_subset ?_ (List.Subset.refl _)
      cases exceptions <;> simp [requestsOf]
    · intro i res hmem
      cases exceptions with
      | false => cases hmem
      | true =>
        cases List.mem_singleton.1 hmem
        trivial
  | removes currTick id hs =>
    refine ⟨h.mono ?_ ?_ (fun _ hc => .inl hc), by simp⟩
    · exact underway_subset (by simp) (List.Subset.refl _)
    · exact fun _ _ hp => (Table.getElem?_erase.1 hp).2

/-- An answer reaches its handler. -/
theorem Own.arrive {a : Answer T Nat} {as : List (Answer T Nat)} (h : Own s)
    (ha : s.answers = a :: as) :
    Own { s with rpc := s.rpc.arrive exceptions a, answers := as } := by
  have hmem : (a.id, a.invocation) ∈ s.underway := by
    simp [underway, ha]
  have he : Effect exceptions s.rpc (.arrive a) (s.rpc.step exceptions (.arrive a)) :=
    step_effect ..
  have hr : s.rpc.arrive exceptions a = (s.rpc.step exceptions (.arrive a)).1 := rfl
  rw [hr]
  generalize s.rpc.step exceptions (.arrive a) = r at he
  have hsub : as ⊆ s.answers := by
    rw [ha]
    exact List.subset_cons_self ..
  cases he with
  | quiet | waits =>
    exact h.moves (underway_subset (List.Subset.refl _) hsub) rfl rfl
  | takes a p hs htype hp calls hcalls =>
    refine h.mono (underway_subset (List.Subset.refl _) hsub)
      (fun _ _ hp => (Table.getElem?_erase.1 hp).2) ?_
    intro c hc
    rcases List.mem_append.1 hc with hc | hc
    · exact .inl hc
    · rw [hcalls] at hc
      split at hc
      · cases hc
      · rw [List.mem_singleton.1 hc]
        exact .inr (h.table _ hmem p hp).symm

theorem step_own {e : Event T} (h : Own s) (hid : IdUnused s e) :
    Own (s.step exceptions e).1 ∧
      ∀ i res, .called i res ∈ (s.step exceptions e).2 → Answered i res := by
  cases e with
  | own e =>
    cases e with
    | arrive a => exact ⟨h, by simp [step]⟩
    | _ => exact h.effect (step_effect s.rpc _) nofun hid
  | serve =>
    simp only [step]
    split
    · exact ⟨h, by simp⟩
    · rename_i r rs hr
      refine ⟨h.moves ?_ rfl rfl, by simp⟩
      refine underway_subset ?_ (List.Subset.refl _)
      rw [hr]
      intro q hq
      simp only [List.mem_append, List.mem_cons, List.not_mem_nil, or_false] at hq ⊢
      tauto
  | answer n failure =>
    simp only [step]
    split
    · exact ⟨h, by simp⟩
    · rename_i r hr
      refine ⟨h.moves ?_ rfl rfl, by simp⟩
      have hmem := List.mem_of_getElem? hr
      intro m hm
      rcases List.mem_append.1 hm with hm | hm
      · refine List.mem_append_left _ (List.map_subset _ ?_ hm)
        intro q hq
        simp only [List.mem_append] at hq ⊢
        exact hq.imp_right List.mem_of_mem_eraseIdx
      · obtain ⟨b, hb, rfl⟩ := List.mem_map.1 hm
        rcases List.mem_append.1 hb with hb | hb
        · exact List.mem_append_right _ (List.mem_map_of_mem hb)
        -- the answer carries the id and the invocation of its request
        · rw [List.mem_singleton.1 hb]
          exact List.mem_append_left _ (List.mem_map.2 ⟨r, List.mem_append_right _ hmem, rfl⟩)
  | deliver =>
    simp only [step]
    split
    · exact ⟨h, by simp⟩
    · rename_i a as ha
      split
      · exact ⟨h.arrive ha, by simp⟩
      · exact ⟨h, by simp⟩
  | loseRequest n =>
    refine ⟨h.moves ?_ rfl rfl, by simp [step]⟩
    refine underway_subset ?_ (List.Subset.refl _)
    intro q hq
    simp only [step, List.mem_append] at hq ⊢
    exact hq.imp_left (Or.imp_right List.mem_of_mem_eraseIdx)
  | loseAnswer n =>
    refine ⟨h.moves ?_ rfl rfl, by simp [step]⟩
    exact underway_subset (List.Subset.refl _) (fun _ => List.mem_of_mem_eraseIdx)

/-- A run in which each call finds its id unused. -/
theorem trace_own {es : List (Event T)} (h : (machine exceptions).Along IdUnused {} es) :
    Own ((machine exceptions).run {} es) ∧
      ∀ i res, .called i res ∈ (machine exceptions).trace {} es → Answered i res := by
  refine Machine.trace_inv (I := fun tr s => Own s ∧
    ∀ i res, Output.called i res ∈ tr → Answered i res) h ⟨⟨by simp [underway], by simp⟩, by
    simp⟩ ?_
  rintro tr s e ⟨hown, htr⟩ hid
  have hstep : Own (s.step exceptions e).1 ∧
      ∀ i res, .called i res ∈ (s.step exceptions e).2 → Answered i res := step_own hown hid
  obtain ⟨hown', hout⟩ := hstep
  refine ⟨hown', ?_⟩
  intro i res hmem
  rcases List.mem_append.1 hmem with hmem | hmem
  · exact htr i res hmem
  · exact hout i res hmem

/-- **Answers reach their own callers.** In every run in which each call finds its id unused, a
callback that is called with an answer gets the answer to its own request, of its own type. -/
theorem answers_reach_own_caller (exceptions : Bool) (es : List (Event T))
    (h : (machine exceptions).Along IdUnused {} es) (i : Invocation T) (a : Answer T Nat)
    (hmem : .called i (.answer a) ∈ (machine exceptions).trace {} es) :
    a.data = i.number ∧ a.type = i.type := by
  have hans : a.invocation = i := (trace_own h).2 i _ hmem
  exact ⟨congrArg Invocation.number hans, congrArg Invocation.type hans⟩

end

/-- A call times out, the next one is made while the answer to the first is under way, and both
answers arrive. -/
theorem answers_reach_own_caller_late :
    let es : List (Event Bool) :=
      [.own (.invoke false 10000), .own (.send 0), .serve, .own (.advance 10100), .own .timerRun,
        .own .timerStep, .own .timerReturn, .own .timerStep, .answer 0 false,
        .own (.invoke true 10000), .own (.send 0), .serve, .answer 0 false, .deliver, .deliver,
        .own (.call 0)]
    let a : Answer Bool Nat := ⟨1, true, false, 1⟩
    .called ⟨1, true⟩ (.answer a) ∈ (machine true).trace {} es ∧
      a.data = (⟨1, true⟩ : Invocation Bool).number ∧ a.type = true := by
  intro es a
  have hmem : .called ⟨1, true⟩ (.answer a) ∈ (machine true).trace {} es :=
    .tail _ (.tail _ (.tail _ (.head _)))
  refine ⟨hmem, answers_reach_own_caller true es ?_ ⟨1, true⟩ a hmem⟩
  refine ⟨?_, trivial, trivial, trivial, trivial, trivial, trivial, trivial, trivial, ?_, trivial,
    trivial, trivial, trivial, trivial, trivial, trivial⟩
  · intro _ _
    exact ⟨by simp, by simp [underway]⟩
  · intro _ _
    exact ⟨by decide +kernel, by decide +kernel⟩

/-! ## An answer that reaches another call -/

/-- A call that times out, as the `Rpc` goes through it. -/
def timedOut : List (Rpc.Event Bool Nat) :=
  [.invoke false 10000, .send 0, .advance 10100, .timerRun, .timerStep, .timerReturn, .timerStep]

/-- `n` calls were made, all of them timed out, and the oldest answer under way is that to the
first. -/
structure Lapsed (n : Nat) (s : Remote Bool) : Prop where
  timer : s.rpc.timer = .idle
  type : false ∈ s.rpc.registeredType
  curId : s.rpc.curId = UInt8.ofNat n
  count : s.rpc.count = n
  calling : s.rpc.calling = []
  sending : s.rpc.sending = []
  size : s.rpc.pendings.size = 0
  answers : s.answers = [⟨0, false, false, 0⟩]

theorem run_own (es : List (Rpc.Event Bool Nat)) (hes : ∀ e ∈ es, ∀ a, e ≠ .arrive a)
    (s : Remote Bool) : (machine true).run s (es.map .own) = { s with
      rpc := (Rpc.machine true).run s.rpc es
      requests := s.requests ++ requestsOf ((Rpc.machine true).trace s.rpc es) } := by
  induction es generalizing s with
  | nil => simp
  | cons e es ih =>
    have hstep : s.step true (.own e) = ({ s with
        rpc := (s.rpc.step true e).1
        requests := s.requests ++ requestsOf (s.rpc.step true e).2 }, (s.rpc.step true e).2) := by
      cases e with
      | arrive a => exact absurd rfl (hes _ (.head _) a)
      | _ => rfl
    rw [List.map_cons, Machine.run_cons, machine_step, hstep, ih fun f hf => hes f (.tail _ hf)]
    simp

theorem timedOut_run {s : Rpc Bool Nat} (htimer : s.timer = .idle) (hsending : s.sending = [])
    (hsize : s.pendings.size = 0) :
    (Rpc.machine true).run s timedOut = { s with
      registeredType := s.registeredType.insert false
      count := s.count + 1
      pendings := (s.pendings.insertIfNew s.curId ⟨⟨s.count, false⟩, s.tick, 10000⟩).erase s.curId
      curId := s.curId + 1
      tick := s.tick + 10100 } := by
  have hlist :=
    Table.toList_insert_of_empty (k := s.curId) (a := ⟨⟨s.count, false⟩, s.tick, 10000⟩)
    hsize
  have hempty : ((s.pendings.insertIfNew s.curId
      ⟨⟨s.count, false⟩, s.tick, 10000⟩).erase s.curId).toList = [] := by
    rw [← List.length_eq_zero_iff, Std.TreeMap.length_toList]
    exact (Table.size_erase_insert (Table.not_mem_of_empty hsize)).trans hsize
  simp [timedOut, Machine.run, Rpc.step, invoke, send, timerRun, timerStep, timerReturn, next,
    htimer, hsending, hsize, hlist, hempty, kMaxParallel]

theorem Lapsed.timedOut {n : Nat} {s : Remote Bool} (h : Lapsed n s) :
    Lapsed (n + 1) ((machine true).run s (timedOut.map .own)) := by
  rw [run_own _ (by simp [Remote.timedOut]) s, timedOut_run h.timer h.sending h.size]
  refine ⟨h.timer, by simp, ?_, ?_, h.calling, h.sending,
    (Table.size_erase_insert (Table.not_mem_of_empty h.size)).trans h.size, h.answers⟩
  · simp [h.curId]
  · simp [h.count]

/-- The first call times out and is answered, but the answer is delayed, and 255 more time out. -/
def delayed : List (Event Bool) :=
  timedOut.map .own ++ [.serve, .answer 0 false] ++
    (List.replicate 255 (timedOut.map Event.own)).flatten

theorem delayed_lapsed : Lapsed 256 ((machine true).run {} delayed) := by
  have hfirst : Lapsed 1
      ((machine true).run {} (timedOut.map .own ++ [.serve, .answer 0 false])) := by
    rw [Machine.run_append, run_own _ (by simp [timedOut]) {}, timedOut_run rfl rfl rfl]
    exact ⟨rfl, .head _, rfl, rfl, rfl, rfl,
      Table.size_erase_insert (Table.not_mem_of_empty rfl), rfl⟩
  rw [delayed, Machine.run_append]
  have hrounds := Machine.run_rounds (M := machine true)
    (List.replicate 255 (timedOut.map Event.own)) (fun i hi s hs => ?_) hfirst
  · rwa [List.length_replicate] at hrounds
  · rw [List.getElem_replicate]
    exact hs.timedOut

/-- The call with number 256 is given the id 0 again. -/
theorem Lapsed.deliver {s : Remote Bool} (h : Lapsed 256 s) :
    .called ⟨256, true⟩ (.answer ⟨0, false, false, 0⟩) ∈
      (machine true).trace s [.own (.invoke true 10000), .deliver, .own (.call 0)] := by
  obtain ⟨htimer, htype, hcur, hcount, hcalling, -, hsize, hanswers⟩ := h
  have hzero : UInt8.ofNat 256 = 0 := rfl
  have hself : ∀ p : Pending Bool, (s.rpc.pendings.insertIfNew 0 p)[(0 : UInt8)]? = some p :=
    fun p => Table.getElem?_insert_self (Table.not_mem_of_empty hsize)
  have hinvoke : s.rpc.invoke true true 10000 = { s.rpc with
      registeredType := s.rpc.registeredType.insert true
      count := 257
      pendings := s.rpc.pendings.insertIfNew 0 ⟨⟨256, true⟩, s.rpc.tick, 10000⟩
      curId := 1
      sending := s.rpc.sending ++ [⟨0, ⟨256, true⟩⟩] } := by
    simp [invoke, htimer, hcur, hcount, hsize, hzero, kMaxParallel]
  have harrive : (s.rpc.invoke true true 10000).arrive true ⟨0, false, false, 0⟩ =
      { s.rpc.invoke true true 10000 with
        pendings := (s.rpc.invoke true true 10000).pendings.erase 0
        calling := [(⟨256, true⟩, .answer ⟨0, false, false, 0⟩)] } := by
    simp only [hinvoke, Rpc.arrive, htimer, hself, hcalling]
    rw [if_pos (List.mem_insert_of_mem htype)]
    rfl
  simp only [Machine.trace_cons, Machine.trace_nil, machine_step, step, Rpc.step, hanswers]
  have htimer' : (s.rpc.invoke true true 10000).timer = .idle := by rw [hinvoke, htimer]
  rw [if_pos htimer', harrive]
  exact .head _

/-- The next call is given the id of the first one, and gets its answer, of another type. -/
theorem late_answer :
    .called ⟨256, true⟩ (.answer ⟨0, false, false, 0⟩) ∈
      (machine true).trace {}
      (delayed ++ [.own (.invoke true 10000), .deliver, .own (.call 0)]) := by
  rw [Machine.trace_append]
  exact List.mem_append_right _ delayed_lapsed.deliver

end Remote

end ChargingPile.Rpc
