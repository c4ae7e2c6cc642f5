import Mathlib.Data.List.Nodup
import Mathlib.Data.List.Perm.Basic
import ChargingPile.Lib.Table
import ChargingPile.Rpc.Basic

/-!
# Callbacks of remote calls

`Rpc.Inv` is the invariant that tells the callbacks apart that were called, that a thread is about
to call, and that still wait in `pendings`. It gives that no callback is called twice
(`Rpc.called_at_most_once`), whatever arrives and however the threads interleave.
-/

namespace ChargingPile.Rpc

variable {T D : Type} {exceptions : Bool} {s s' : Rpc T D} {l m : List Nat}

/-! ## The invariant -/

/-- The numbers of the callbacks that a thread is about to call. -/
def callingOf (s : Rpc T D) : List Nat := s.calling.map (·.1.number)

/-- `l` are the numbers of the callbacks that were called or are about to be. -/
structure Inv (exceptions : Bool) (s : Rpc T D) (l : List Nat) : Prop where
  nodup : l.Nodup
  lt : ∀ k ∈ l, k < s.count
  pending_lt : ∀ (id : UInt8) (p : Pending T), s.pendings[id]? = some p → p.number < s.count
  pending_inj : ∀ (id id' : UInt8) (p p' : Pending T), s.pendings[id]? = some p →
    s.pendings[id']? = some p' → p.number = p'.number → id = id'
  /-- Only the entry whose callback the timer is running was called. -/
  fresh : ∀ (id : UInt8) (p : Pending T), s.pendings[id]? = some p →
    ¬ (exceptions = true ∧ s.timer.emits = some id) → p.number ∉ l
  /-- The timer is at an entry, and has called its callback. -/
  emitting : ∀ id, s.timer.emits = some id →
    ∃ p, s.pendings[id]? = some p ∧ (exceptions = true → p.number ∈ l)

namespace Inv

theorem perm (h : Inv exceptions s l) (hl : l.Perm m) : Inv exceptions s m where
  nodup := hl.nodup h.nodup
  lt k hk := h.lt k (hl.mem_iff.2 hk)
  pending_lt := h.pending_lt
  pending_inj := h.pending_inj
  fresh id p hp he hk := h.fresh id p hp he (hl.mem_iff.2 hk)
  emitting id he := by
    obtain ⟨p, hp, hl'⟩ := h.emitting id he
    exact ⟨p, hp, fun hx => hl.mem_iff.1 (hl' hx)⟩

/-- Nothing that tells the callbacks apart changed, but calls may have been refused. -/
theorem grow (h : Inv exceptions s l) (hp : s'.pendings = s.pendings) (hc : s.count ≤ s'.count)
    (ht : s'.timer.emits = s.timer.emits) : Inv exceptions s' l := by
  obtain ⟨hn, hlt, hplt, hinj, hfresh, hemit⟩ := h
  rw [← hp] at hplt hinj hfresh hemit
  rw [← ht] at hfresh hemit
  exact ⟨hn, fun k hk => Nat.lt_of_lt_of_le (hlt k hk) hc,
    fun id p hid => Nat.lt_of_lt_of_le (hplt id p hid) hc, hinj, hfresh, hemit⟩

/-- One more callback, which no entry has but the one the timer is at. -/
theorem add {k : Nat} (h : Inv exceptions s l) (hp : s'.pendings = s.pendings)
    (hc : s'.count = s.count) (hk : k ∉ l) (hlt : k < s.count)
    (hfree : ∀ (id : UInt8) (p : Pending T), s.pendings[id]? = some p →
      ¬ (exceptions = true ∧ s'.timer.emits = some id) →
      ¬ (exceptions = true ∧ s.timer.emits = some id) ∧ p.number ≠ k)
    (hemit : ∀ id, s'.timer.emits = some id →
      s.timer.emits = some id ∨ ∃ p, s.pendings[id]? = some p ∧ p.number = k) :
    Inv exceptions s' (l ++ [k]) where
  nodup := by
    rw [← List.concat_eq_append]
    exact h.nodup.concat hk
  lt a ha := by
    rw [hc]
    rcases List.mem_append.1 ha with ha | ha
    · exact h.lt a ha
    · exact List.mem_singleton.1 ha ▸ hlt
  pending_lt := hp ▸ hc ▸ h.pending_lt
  pending_inj := hp ▸ h.pending_inj
  fresh id p hid he hmem := by
    rw [hp] at hid
    obtain ⟨he', hne⟩ := hfree id p hid he
    rcases List.mem_append.1 hmem with hmem | hmem
    · exact h.fresh id p hid he' hmem
    · exact hne (List.mem_singleton.1 hmem)
  emitting id he := by
    rw [hp]
    rcases hemit id he with he | ⟨p, hid, rfl⟩
    · obtain ⟨p, hid, hl⟩ := h.emitting id he
      exact ⟨p, hid, fun hx => List.mem_append_left _ (hl hx)⟩
    · exact ⟨p, hid, fun _ => List.mem_append_right _ (List.mem_singleton.2 rfl)⟩

/-- An entry is removed, and the timer is at no other one. -/
theorem erase {id : UInt8} (h : Inv exceptions s l) (hp : s'.pendings = s.pendings.erase id)
    (hc : s'.count = s.count) (ht : s'.timer.emits = none)
    (hs : ∀ k, s.timer.emits = some k → k = id) : Inv exceptions s' l where
  nodup := h.nodup
  lt k hk := hc ▸ h.lt k hk
  pending_lt k p hk := by
    rw [hp, Table.getElem?_erase] at hk
    exact hc ▸ h.pending_lt k p hk.2
  pending_inj k k' p p' hk hk' := by
    rw [hp, Table.getElem?_erase] at hk hk'
    exact h.pending_inj k k' p p' hk.2 hk'.2
  fresh k p hk _ := by
    rw [hp, Table.getElem?_erase] at hk
    exact h.fresh k p hk.2 fun he => hk.1 (hs k he.2)
  emitting k hk := by
    rw [ht] at hk
    cases hk

/-- A new call enters the table, or finds its id taken. -/
theorem insert {k : UInt8} {p : Pending T} (h : Inv exceptions s l)
    (hp : s'.pendings = s.pendings.insertIfNew k p) (hc : s'.count = s.count + 1)
    (hn : p.number = s.count) (ht : s'.timer = s.timer) : Inv exceptions s' l where
  nodup := h.nodup
  lt a ha := by
    have := h.lt a ha
    omega
  pending_lt id q hq := by
    rw [hp] at hq
    rcases Table.getElem?_insert hq with hq | ⟨-, -, rfl⟩
    · have := h.pending_lt id q hq
      omega
    · omega
  pending_inj id id' q q' hq hq' heq := by
    rw [hp] at hq hq'
    rcases Table.getElem?_insert hq with hq | ⟨rfl, -, rfl⟩
    · rcases Table.getElem?_insert hq' with hq' | ⟨-, -, rfl⟩
      · exact h.pending_inj id id' q q' hq hq' heq
      · have hlt := h.pending_lt id q (by assumption)
        omega
    · rcases Table.getElem?_insert hq' with hq' | ⟨rfl, -, -⟩
      · have := h.pending_lt id' q' hq'
        omega
      · rfl
  fresh id q hq he hmem := by
    rw [hp] at hq
    rw [ht] at he
    rcases Table.getElem?_insert hq with hq | ⟨-, -, rfl⟩
    · exact h.fresh id q hq he hmem
    · have := h.lt q.number hmem
      omega
  emitting id he := by
    rw [ht] at he
    obtain ⟨q, hq, hl⟩ := h.emitting id he
    exact ⟨q, by rw [hp]; exact Table.getElem?_insert_of_some hq, hl⟩

/-- The timer calls the callback of an entry. -/
theorem expire {id : UInt8} {p : Pending T} (h : Inv exceptions s l)
    (hid : s.pendings[id]? = some p) (hs : s.timer.emits = none) (hp : s'.pendings = s.pendings)
    (hc : s'.count = s.count) (ht : s'.timer.emits = some id) :
    Inv exceptions s' (l ++ if exceptions then [p.number] else []) := by
  have hidle : ∀ k, ¬ (exceptions = true ∧ s.timer.emits = some k) := by simp [hs]
  have hemit : ∀ k, s'.timer.emits = some k → k = id := by
    intro k hk
    exact Option.some.inj (hk.symm.trans ht)
  cases exceptions with
  | false =>
    rw [if_neg Bool.false_ne_true, List.append_nil]
    refine ⟨h.nodup, hc ▸ h.lt, hp ▸ hc ▸ h.pending_lt, hp ▸ h.pending_inj, ?_, ?_⟩
    · intro k q hq _
      exact h.fresh k q (hp ▸ hq) (hidle k)
    · intro k hk
      exact ⟨p, hp ▸ hemit k hk ▸ hid, nofun⟩
  | true =>
    rw [if_pos rfl]
    refine h.add hp hc (h.fresh id p hid (hidle id)) (h.pending_lt id p hid) ?_ ?_
    · intro k q hq he
      refine ⟨hidle k, ?_⟩
      intro heq
      exact he ⟨rfl, by rw [ht, h.pending_inj k id q p hq hid heq]⟩
    · intro k hk
      exact .inr ⟨p, hemit k hk ▸ hid, rfl⟩

end Inv

/-! ## Callbacks are called at most once -/

section
variable [DecidableEq T]

/-- One event keeps the invariant. `l` are the numbers of the callbacks that were called before. -/
theorem Effect.inv {e : Event T D} {r : Rpc T D × List (Output T D)}
    (he : Effect exceptions s e r) (h : Inv exceptions s (l ++ s.callingOf)) :
    Inv exceptions r.1 (l ++ calledOf r.2 ++ r.1.callingOf) := by
  cases he with
  | quiet e tick timer hs ht =>
    rw [calledOf_nil, List.append_nil]
    exact h.grow rfl (Nat.le_refl _) (ht.trans hs.symm)
  | waits e tick =>
    rw [calledOf_nil, List.append_nil]
    exact h.grow rfl (Nat.le_refl _) rfl
  | accepts type timeout hs hsize =>
    rw [calledOf_nil, List.append_nil]
    exact h.insert rfl rfl rfl rfl
  | refuses type timeout hs hsize calls hcalls =>
    rw [calledOf_nil, List.append_nil]
    subst hcalls
    have hgrow : Inv exceptions { s with
        registeredType := s.registeredType.insert type, count := s.count + 1 }
        (l ++ s.callingOf) := h.grow rfl (Nat.le_succ _) rfl
    cases exceptions with
    | false => simpa [callingOf] using hgrow
    | true =>
      have hnew : s.count ∉ l ++ s.callingOf := fun hmem => Nat.lt_irrefl _ (h.lt _ hmem)
      have hadd : Inv true { s with
          registeredType := s.registeredType.insert type
          count := s.count + 1
          calling := s.calling ++ [(⟨s.count, type⟩, .timeout)] }
            (l ++ s.callingOf ++ [s.count]) :=
        hgrow.add rfl rfl hnew (Nat.lt_succ_self _)
          (fun id p hid he => ⟨he, Nat.ne_of_lt (h.pending_lt id p hid)⟩) (fun _ he => .inl he)
      simpa [callingOf] using hadd
  | takes a p hs htype hp calls hcalls =>
    rw [calledOf_nil, List.append_nil]
    subst hcalls
    have hidle : ∀ k, ¬ (exceptions = true ∧ s.timer.emits = some k) := by
      simp [hs, TimerState.emits]
    have herase : Inv exceptions { s with pendings := s.pendings.erase a.id } (l ++ s.callingOf) :=
      h.erase rfl rfl (by simp [hs, TimerState.emits]) (by simp [hs, TimerState.emits])
    cases hf : a.failure && !exceptions with
    | true => simpa [callingOf, hf] using herase
    | false =>
      have hadd : Inv exceptions { s with
          pendings := s.pendings.erase a.id
          calling := s.calling ++ [(p.toInvocation, .answer a)] }
          (l ++ s.callingOf ++ [p.number]) := by
        refine herase.add rfl rfl (h.fresh a.id p hp (hidle _)) (h.pending_lt a.id p hp) ?_
          (fun _ he => .inl he)
        intro id q hq he
        obtain ⟨hne, hq⟩ := Table.getElem?_erase.1 hq
        exact ⟨he, fun heq => hne (h.pending_inj id a.id q p hq hp heq)⟩
      simpa [callingOf, hf] using hadd
  | calls n c hc =>
    obtain ⟨hn, rfl⟩ := List.getElem?_eq_some_iff.1 hc
    have hperm := (List.getElem_cons_eraseIdx_perm hn).map (·.1.number)
    refine (h.perm (m := l ++ [s.calling[n].1.number] ++ _) ?_).grow rfl (Nat.le_refl _) rfl
    rw [List.append_assoc]
    exact hperm.symm.append_left l
  | sends n r hr =>
    simp only [calledOf, List.filterMap_cons, List.filterMap_nil, List.append_nil]
    exact h.grow rfl (Nat.le_refl _) rfl
  | expires currTick last id p hs hp hexp =>
    have hcalled : calledOf
        (if exceptions then [Output.called p.toInvocation Result.timeout (D := D)] else []) =
          if exceptions then [p.number] else [] := by
      cases exceptions <;> rfl
    rw [hcalled]
    have hexpire : Inv exceptions { s with timer := .emitting currTick id }
        (l ++ s.callingOf ++ if exceptions then [p.number] else []) :=
      h.expire hp (by rw [hs]; rfl) rfl rfl rfl
    refine hexpire.perm ?_
    rw [List.append_assoc, List.append_assoc]
    exact List.perm_append_comm.append_left l
  | removes currTick id hs =>
    rw [calledOf_nil, List.append_nil]
    refine h.erase rfl rfl rfl ?_
    intro k hk
    rw [hs] at hk
    exact (Option.some.inj hk).symm

omit [DecidableEq T] in
theorem init_inv : Inv exceptions ({} : Rpc T D) [] where
  nodup := List.nodup_nil
  lt := by simp
  pending_lt := by simp
  pending_inj := by simp
  fresh := by simp
  emitting := nofun

/-- Every run keeps the invariant. -/
theorem trace_inv (exceptions : Bool) (es : List (Event T D)) :
    Inv exceptions ((machine exceptions).run {} es)
      (calledOf ((machine exceptions).trace {} es) ++
        ((machine exceptions).run {} es).callingOf) := by
  refine Machine.trace_inv (C := fun _ _ => True)
    (I := fun tr s => Inv exceptions s (calledOf tr ++ s.callingOf))
    (Machine.along_of_mem fun _ _ _ => trivial) init_inv ?_
  intro tr s e h _
  rw [machine_step, calledOf_append]
  exact (step_effect s e).inv h

/-- **Callbacks are called at most once**, in every interleaving of calls, answers
and timer runs. -/
theorem called_at_most_once (exceptions : Bool) (es : List (Event T D)) (k : Nat) :
    (calledOf ((machine exceptions).trace {} es)).count k ≤ 1 :=
  List.nodup_iff_count_le_one.1 (List.nodup_append.1 (trace_inv exceptions es).nodup).1 k

end

end ChargingPile.Rpc
