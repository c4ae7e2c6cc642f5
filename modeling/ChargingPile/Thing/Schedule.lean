import Mathlib.Data.List.Find
import ChargingPile.Lib.RoundRobin
import ChargingPile.Thing.Backup

/-!
# The scheduling of the backups

Every thirtieth tick of the `Backuper` is a scheduling round. It writes the first due port
after the last one that was written, and postpones the other due ports to the next round: the
ports are served round robin (`Thing.backupRound_spec`). `Thing.backup_scheduling` says what
follows for whole runs.
-/

namespace ChargingPile

/-- The records written to the backup partition, with their ports. -/
def backupsOf (l : List (InnerPort × Output)) : List (InnerPort × Backup) :=
  l.filterMap fun a => match a.2 with
    | .backup b => some (a.1, b)
    | _ => none

@[simp] theorem backupsOf_append (l m : List (InnerPort × Output)) :
    backupsOf (l ++ m) = backupsOf l ++ backupsOf m :=
  List.filterMap_append ..

theorem mem_backupsOf {l : List (InnerPort × Output)} {j : InnerPort} {b : Backup} :
    (j, b) ∈ backupsOf l ↔ .backup b ∈ outputsOf j l := by
  simp only [backupsOf, outputsOf, List.mem_filterMap]
  constructor
  · rintro ⟨⟨i, o⟩, hmem, heq⟩
    cases o with
    | backup b' =>
      cases heq
      exact ⟨_, hmem, if_pos rfl⟩
    | state | currentLimit | currentData => cases heq
  · rintro ⟨⟨i, o⟩, hmem, heq⟩
    rw [Option.ite_none_right_eq_some] at heq
    obtain ⟨rfl, rfl⟩ : i = j ∧ o = .backup b := ⟨heq.1, Option.some.inj heq.2⟩
    exact ⟨_, hmem, rfl⟩

theorem backupsOf_eq_nil {l : List (InnerPort × Output)} (h : ∀ j b, .backup b ∉ outputsOf j l) :
    backupsOf l = [] := by
  rw [List.eq_nil_iff_forall_not_mem]
  rintro ⟨j, b⟩ hmem
  exact h j b (mem_backupsOf.1 hmem)

namespace Port

variable {x : Ctx} {p : Port}

/-- The port is written at its next visit, or postponed. -/
def due (p : Port) : Bool := p.backuper.backupCount.updateAndCheck.1

/-- What is written for a port. -/
def record (p : Port) : Backup where
  leftSeconds := p.info.leftSeconds
  timerId := p.info.timerId
  consumption := p.info.consumption

theorem due_iff : p.due = true ↔
    p.backuper.backupCount.counting = true ∧ p.backuper.backupCount.currVal = 1 :=
  CountDown.updateAndCheck_fst _

theorem backupPostpone_due (p : Port) : p.backupPostpone.due = true := due_iff.2 ⟨rfl, rfl⟩

/-- A new state keeps a due port due. -/
theorem notify_due (l : List State) (h : p.due = true) : (notify x l p).due = true := by
  induction l generalizing x p with
  | nil => exact h
  | cons s l ih =>
    refine ih ?_
    have hs : (p.onStateChanged x s).backuper = p.backuper.onStateChanged s := rfl
    rw [due, hs, Backuper.onStateChanged]
    split
    · exact h
    · split
      · exact due_iff (p := { p with backuper := { p.backuper with
          backupCount := p.backuper.backupCount.forceTrigger } }).2 ⟨rfl, rfl⟩
      · exact h

/-- No operation but the scheduling makes a due port miss its visit. -/
theorem exec_due {op : Op}
    (hop : op ≠ .backupUpdate ∧ op ≠ .backupWrite ∧ op ≠ .backupPostpone) (h : p.due = true) :
    (p.exec x op).1.due = true := by
  have hbefore : (op.before p).due = true := by
    cases op with
    | resume backup =>
      obtain ⟨hc, hv⟩ := due_iff.1 h
      rw [due_iff]
      simp only [Op.before]
      split
      · exact ⟨rfl, hv⟩
      · exact ⟨hc, hv⟩
    | _ => exact h
  have hq : ((op.before p).drive x (op.call x p)).1.due = true := notify_due _ hbefore
  rw [exec_eq, due, after_backuper _ hop]
  exact hq

end Port

namespace Thing

variable {t : Thing} {i j : InnerPort} {e : Event}

/-! ## The turn of the scheduling -/

/-- The fields that belong to the scheduling. -/
structure SameTurn (t t' : Thing) : Prop where
  nextCount : t'.nextCount = t.nextCount
  backupPort : t'.backupPort = t.backupPort

theorem SameTurn.trans {t₁ t₂ t₃ : Thing} (h : SameTurn t₁ t₂) (h' : SameTurn t₂ t₃) :
    SameTurn t₁ t₃ :=
  ⟨h'.1.trans h.1, h'.2.trans h.2⟩

theorem foldl_absorb_turn (l : List Output) (t : Thing) : SameTurn t (l.foldl (absorb i) t) := by
  induction l generalizing t with
  | nil => exact ⟨rfl, rfl⟩
  | cons o l ih =>
    have ho : SameTurn t (absorb i t o) := by cases o <;> exact ⟨rfl, rfl⟩
    exact ho.trans (ih _)

theorem exec_turn (t : Thing) (i : InnerPort) (op : Op) : SameTurn t (t.exec i op).1 := by
  have h := foldl_absorb_turn (i := i) ((t.ports i).exec (t.ctx i) op).2
    { t with ports := Function.update t.ports i ((t.ports i).exec (t.ctx i) op).1 }
  exact ⟨h.1, h.2⟩

theorem execAll_turn (l : List (InnerPort × Op)) (t : Thing) : SameTurn t (t.execAll l).1 := by
  induction l generalizing t with
  | nil => exact ⟨rfl, rfl⟩
  | cons a l ih => exact (exec_turn t a.1 a.2).trans (ih _)

theorem step_turn_of_ne (he : e ≠ .backupTick) : SameTurn t (t.step e).1 := by
  cases e with
  | backupTick => exact absurd rfl he
  | query | counterTick | limiterTick | measureTick | voltage => exact execAll_turn _ t
  | config | advance => exact ⟨rfl, rfl⟩
  | control | stop | current | detector => exact exec_turn t ..
  | noloadTick =>
    have h := exec_turn { t with noloadPort := t.noloadPort + 1 } t.noloadPort .noload
    exact ⟨h.1, h.2⟩
  | dataTick =>
    have h := exec_turn { t with dataPort := t.dataPort + 1 } t.dataPort .data
    exact ⟨h.1, h.2⟩

/-! ## A round -/

/-- The ports that are due. -/
def due (t : Thing) (i : InnerPort) : Bool := (t.ports i).due

/-- Another operation at the port keeps it due. -/
theorem due_exec_of_ne (h : j ≠ i) (op : Op) : (t.exec i op).1.due j = t.due j := by
  rw [due, (exec_other h op).1, due]

theorem backupsOf_backupWrite (t : Thing) (i : InnerPort) :
    backupsOf (t.exec i .backupWrite).2 = [(i, (t.ports i).record)] := by
  simp only [exec, Port.exec, Port.backupWrite]
  split <;> rfl

/-- With a port written already, due ports are postponed. -/
theorem backupLoop_ignored (next : InnerPort) (l : List InnerPort) (t : Thing) :
    backupsOf (t.backupLoop true next l).2 = [] ∧
      (t.backupLoop true next l).1.backupPort = next ∧
      ∀ j, t.due j = true → (t.backupLoop true next l).1.due j = true := by
  induction l generalizing t with
  | nil => exact ⟨rfl, rfl, fun _ h => h⟩
  | cons i l ih =>
    rw [backupLoop]
    split
    · obtain ⟨hb, hn, hd⟩ := ih (t.exec i .backupPostpone).1
      refine ⟨hb, hn, fun j hj => hd j ?_⟩
      by_cases hij : j = i
      · subst hij
        rw [due, (exec_self t j _).1]
        exact Port.backupPostpone_due _
      · rwa [due_exec_of_ne hij]
    · rename_i hdue
      obtain ⟨hb, hn, hd⟩ := ih (t.exec i .backupUpdate).1
      refine ⟨hb, hn, fun j hj => hd j ?_⟩
      have hij : j ≠ i := by
        rintro rfl
        exact hdue hj
      rwa [due_exec_of_ne hij]

/-- The first due port of the visit is written, and the turn passes to the port after it. -/
theorem backupLoop_spec (next : InnerPort) {l : List InnerPort} (hl : l.Nodup) (t : Thing) :
    backupsOf (t.backupLoop false next l).2 =
        (l.find? t.due).toList.map (fun i => (i, (t.ports i).record)) ∧
      (t.backupLoop false next l).1.backupPort = ((l.find? t.due).map (· + 1)).getD next ∧
      ∀ j, t.due j = true → l.find? t.due ≠ some j →
        (t.backupLoop false next l).1.due j = true := by
  induction l generalizing t with
  | nil => exact ⟨rfl, rfl, fun _ h _ => h⟩
  | cons i l ih =>
    obtain ⟨hi, hl⟩ := List.nodup_cons.1 hl
    rw [backupLoop]
    split
    · rename_i hdue
      have hfind : (i :: l).find? t.due = some i := List.find?_cons_of_pos hdue
      obtain ⟨hb, hn, hd⟩ := backupLoop_ignored (i + 1) l (t.exec i .backupWrite).1
      rw [hfind]
      refine ⟨?_, hn, fun j hj hne => hd j ?_⟩
      · show backupsOf (_ ++ _) = _
        rw [backupsOf_append, backupsOf_backupWrite, hb]
        rfl
      · rwa [due_exec_of_ne fun hij => hne (by rw [hij])]
    · rename_i hdue
      have hfind : (i :: l).find? t.due = l.find? t.due := List.find?_cons_of_neg hdue
      obtain ⟨hb, hn, hd⟩ := ih hl (t.exec i .backupUpdate).1
      -- the ports to come are as they were
      have hne : ∀ k ∈ l, k ≠ i := fun k hk hki => hi (hki ▸ hk)
      have hrest : l.find? (t.exec i .backupUpdate).1.due = l.find? t.due :=
        List.find?_congr fun k hk => due_exec_of_ne (hne k hk) _
      rw [hrest] at hb hn hd
      rw [hfind]
      refine ⟨?_, hn, fun j hj hne => hd j ?_ hne⟩
      · refine hb.trans (List.map_congr_left ?_)
        intro k hk
        rw [(exec_other (hne k (List.mem_of_find?_eq_some (Option.mem_toList.1 hk))) _).1]
      · rwa [due_exec_of_ne]
        rintro rfl
        exact hdue hj

/-- **A round serves the due ports round robin.** -/
theorem backupRound_spec (h : t.nextCount.updateAndCheck.1 = true) :
    backupsOf t.backupRound.2 =
        (RoundRobin.next t.backupPort t.due).toList.map (fun i => (i, (t.ports i).record)) ∧
      t.backupRound.1.backupPort =
        ((RoundRobin.next t.backupPort t.due).map (· + 1)).getD t.backupPort ∧
      ∀ j, t.due j = true → RoundRobin.next t.backupPort t.due ≠ some j →
        t.backupRound.1.due j = true := by
  rw [backupRound, if_pos h]
  exact backupLoop_spec t.backupPort (RoundRobin.nodup_visits t.backupPort)
    { t with nextCount := t.nextCount.updateAndCheck.2.retrigger }

theorem backupLoop_nextCount (ingore : Bool) (next : InnerPort) (l : List InnerPort) (t : Thing) :
    (t.backupLoop ingore next l).1.nextCount = t.nextCount := by
  induction l generalizing t ingore next with
  | nil => rfl
  | cons i l ih =>
    rw [backupLoop]
    split
    · split
      · exact (ih ..).trans (exec_turn t i _).nextCount
      · exact (ih ..).trans (exec_turn t i _).nextCount
    · exact (ih ..).trans (exec_turn t i _).nextCount

/-- The countdown to the next round. -/
theorem backupRound_nextCount (t : Thing) :
    t.backupRound.1.nextCount = if t.nextCount.updateAndCheck.1 then
      t.nextCount.updateAndCheck.2.retrigger else t.nextCount.updateAndCheck.2 := by
  rw [backupRound]
  split
  · exact backupLoop_nextCount ..
  · rfl

/-! ## One event -/

/-- The event is a scheduling round. -/
def schedules (t : Thing) (e : Event) : Bool := e == .backupTick && t.nextCount.updateAndCheck.1

/-- The controller when the scheduling comes: a tick of the `Backuper` may first resume a port. -/
def resumed (t : Thing) : Thing :=
  (exec { t with resumePort := t.resumePort + 1 } t.resumePort (.resume (t.man t.resumePort))).1

theorem resumed_turn (t : Thing) : SameTurn t t.resumed := by
  have h := exec_turn { t with resumePort := t.resumePort + 1 } t.resumePort
    (.resume (t.man t.resumePort))
  exact ⟨h.1, h.2⟩

/-- What an event does at a port before the scheduling keeps it due and writes nothing. -/
theorem execOpt_due (x : Ctx) (e : Event) (h : t.due j = true) :
    ((t.ports j).execOpt x (e.opOn t j)).1.due = true := by
  cases hop : e.opOn t j with
  | none => exact h
  | some op => exact Port.exec_due (opOn_scheduling hop) h

theorem execOpt_backup (x : Ctx) (e : Event) (b : Backup) :
    .backup b ∉ ((t.ports j).execOpt x (e.opOn t j)).2 := by
  cases hop : e.opOn t j with
  | none => exact List.not_mem_nil
  | some op => exact Port.backup_notMem_exec (opOn_scheduling hop).2.1 b

theorem resumed_due (h : t.due j = true) : t.resumed.due j = true := by
  obtain ⟨x, -, hp, -⟩ := resume_local t j
  rw [due, resumed, hp]
  exact execOpt_due x _ h

/-- A tick of the `Backuper` writes what its scheduling writes. -/
theorem backupsOf_backupTick (t : Thing) :
    backupsOf (t.step .backupTick).2 = backupsOf t.resumed.backupRound.2 := by
  have hresume : backupsOf (exec { t with resumePort := t.resumePort + 1 } t.resumePort
      (.resume (t.man t.resumePort))).2 = [] := by
    refine backupsOf_eq_nil fun j b => ?_
    obtain ⟨x, -, -, ho⟩ := resume_local t j
    rw [ho]
    exact execOpt_backup x _ b
  show backupsOf (_ ++ _) = _
  rw [backupsOf_append, hresume]
  rfl

/-- An event that is no round writes nothing, and a due port stays due. -/
theorem step_of_not_schedules (h : t.schedules e = false) :
    backupsOf (t.step e).2 = [] ∧ (t.step e).1.backupPort = t.backupPort ∧
      ∀ j, t.due j = true → (t.step e).1.due j = true := by
  by_cases he : e = .backupTick
  · subst he
    have hround : t.resumed.nextCount.updateAndCheck.1 = false := by
      rw [t.resumed_turn.nextCount]
      exact h
    have heq : t.resumed.backupRound =
        ({ t.resumed with nextCount := t.resumed.nextCount.updateAndCheck.2 }, []) := by
      rw [backupRound, if_neg (by simp [hround])]
    refine ⟨?_, ?_, fun j hj => ?_⟩
    · rw [backupsOf_backupTick, heq]
      rfl
    · show t.resumed.backupRound.1.backupPort = _
      rw [heq]
      exact t.resumed_turn.backupPort
    · show t.resumed.backupRound.1.due j = true
      rw [heq]
      exact resumed_due hj
  · refine ⟨?_, (step_turn_of_ne he).backupPort, fun j hj => ?_⟩
    · refine backupsOf_eq_nil fun j b => ?_
      obtain ⟨x, -, -, ho⟩ := step_local_of_ne (t := t) (j := j) he
      rw [ho]
      exact execOpt_backup x e b
    · obtain ⟨x, -, hp, -⟩ := step_local_of_ne (t := t) (j := j) he
      rw [due, hp]
      exact execOpt_due x e hj

/-- A round writes one port, unless none is due. A due port that is not written stays due, and the
turn passes to the port after the one that was. -/
theorem step_of_schedules (h : t.schedules e = true) :
    ∃ o : Option InnerPort, o = RoundRobin.next t.backupPort t.resumed.due ∧
      backupsOf (t.step e).2 = o.toList.map (fun i => (i, (t.resumed.ports i).record)) ∧
      (t.step e).1.backupPort = (o.map (· + 1)).getD t.backupPort ∧
      ∀ j, t.due j = true → o ≠ some j → (t.step e).1.due j = true := by
  rw [schedules, Bool.and_eq_true, beq_iff_eq] at h
  obtain ⟨rfl, hround⟩ := h
  rw [← t.resumed_turn.nextCount] at hround
  obtain ⟨hb, hn, hd⟩ := backupRound_spec hround
  rw [t.resumed_turn.backupPort] at hb hn hd
  refine ⟨_, rfl, ?_, hn, fun j hj hne => hd j (resumed_due hj) hne⟩
  rw [backupsOf_backupTick, hb]

/-- A record holds what the port holds when the event is over. -/
theorem mem_backupsOf_step {b : Backup} (h : (j, b) ∈ backupsOf (t.step e).2) :
    b = ((t.step e).1.ports j).record := by
  cases hs : t.schedules e with
  | false =>
    rw [(step_of_not_schedules hs).1] at h
    cases h
  | true =>
    obtain ⟨o, -, hb, -⟩ := step_of_schedules hs
    rw [hb] at h
    obtain ⟨i, -, heq⟩ := List.mem_map.1 h
    obtain ⟨rfl, rfl⟩ := Prod.mk.inj heq
    rw [schedules, Bool.and_eq_true, beq_iff_eq] at hs
    obtain ⟨rfl, -⟩ := hs
    -- the scheduling touches the `Backuper` record of a port only
    obtain ⟨spec, bs, hp, -⟩ := backupRound_backupOnly (j := i) t.resumed
    show _ = (t.resumed.backupRound.1.ports i).record
    rw [hp]
    rfl

/-! ## Runs -/

/-- The countdown to the next round runs, from 30 to 1. -/
structure Cycles (c : CountDown) : Prop where
  counting : c.counting = true
  initVal : c.initVal = 30
  pos : 1 ≤ c.currVal
  le : c.currVal ≤ 30

/-- An event takes as many ticks off the countdown as it is, and a round loads it again. -/
theorem step_cycles (e : Event) (h : Cycles t.nextCount) :
    Cycles (t.step e).1.nextCount ∧
      (t.step e).1.nextCount.currVal + [e].count .backupTick =
        t.nextCount.currVal + 30 * (t.schedules e).toNat := by
  obtain ⟨hc, hi, hpos, hle⟩ := h
  by_cases he : e = .backupTick
  · subst he
    have hn : (t.step .backupTick).1.nextCount = if t.nextCount.updateAndCheck.1 then
        t.nextCount.updateAndCheck.2.retrigger else t.nextCount.updateAndCheck.2 := by
      rw [← t.resumed_turn.nextCount]
      exact backupRound_nextCount t.resumed
    rw [hn, List.count_singleton_self, schedules, beq_self_eq_true, Bool.true_and]
    by_cases hone : t.nextCount.currVal = 1
    · have hexp : t.nextCount.updateAndCheck.1 = true :=
        (CountDown.updateAndCheck_fst _).2 ⟨hc, hone⟩
      have hval : t.nextCount.updateAndCheck.2.retrigger.currVal = 30 := by
        simp [CountDown.retrigger, hc, hone, hi]
      rw [if_pos hexp, hexp, Bool.toNat_true, hval, hone]
      refine ⟨⟨rfl, ?_, ?_, ?_⟩, rfl⟩
      · exact (CountDown.updateAndCheck_initVal _).trans hi
      · rw [hval]; decide
      · rw [hval]
    · have hexp : ¬ t.nextCount.updateAndCheck.1 = true :=
        fun h => hone ((CountDown.updateAndCheck_fst _).1 h).2
      have hval : t.nextCount.updateAndCheck.2.currVal = t.nextCount.currVal - 1 := by
        rw [CountDown.updateAndCheck_currVal, if_pos hc]
      rw [if_neg hexp, Bool.eq_false_of_not_eq_true hexp, Bool.toNat_false]
      refine ⟨⟨?_, ?_, ?_, ?_⟩, ?_⟩
      · exact (CountDown.updateAndCheck_counting _).trans hc
      · exact (CountDown.updateAndCheck_initVal _).trans hi
      all_goals
        rw [hval]
        omega
  · rw [(step_turn_of_ne he).nextCount, List.count_singleton, if_neg (by simpa using he),
      schedules, beq_false_of_ne he]
    exact ⟨⟨hc, hi, hpos, hle⟩, rfl⟩

/-- The ticks and the rounds of a run. -/
theorem run_cycles (es : List Event) (h : Cycles t.nextCount) :
    Cycles (machine.run t es).nextCount ∧
      (machine.run t es).nextCount.currVal + es.count .backupTick =
        t.nextCount.currVal + 30 * machine.marks schedules t es := by
  induction es generalizing t with
  | nil => exact ⟨h, rfl⟩
  | cons e es ih =>
    obtain ⟨h', hval⟩ := step_cycles e h
    obtain ⟨h'', hval'⟩ := ih h'
    refine ⟨h'', ?_⟩
    have hcount : (e :: es).count .backupTick = [e].count .backupTick + es.count .backupTick := by
      rw [← List.count_append]
      rfl
    rw [Machine.run_cons, Machine.marks_cons, hcount, machine_step]
    omega

theorem init_cycles (b : Boot) : Cycles b.init.nextCount := by
  show Cycles (CountDown.ofInit 30).retrigger
  exact ⟨rfl, rfl, by decide, le_rfl⟩

/-- A run writes at most one port in a round. -/
theorem length_backups_le (es : List Event) (t : Thing) :
    (backupsOf (machine.trace t es)).length ≤ machine.marks schedules t es := by
  induction es generalizing t with
  | nil => exact le_rfl
  | cons e es ih =>
    have hstep : (backupsOf (t.step e).2).length ≤ (t.schedules e).toNat := by
      cases hs : t.schedules e with
      | false =>
        rw [(step_of_not_schedules hs).1]
        exact le_rfl
      | true =>
        obtain ⟨o, -, hb, -⟩ := step_of_schedules hs
        rw [hb, List.length_map]
        cases o <;> simp
    have := ih (t.step e).1
    rw [Machine.trace_cons, Machine.marks_cons, backupsOf_append, List.length_append, machine_step]
    omega

/-- A due port is written in a round, or it stays due and comes nearer to its turn. -/
theorem step_due (e : Event) (h : t.due j = true) :
    (∃ b, (j, b) ∈ backupsOf (t.step e).2) ∨
      (t.step e).1.due j = true ∧
        RoundRobin.wait (t.step e).1.backupPort j + (t.schedules e).toNat ≤
          RoundRobin.wait t.backupPort j := by
  cases hs : t.schedules e with
  | false =>
    obtain ⟨-, hp, hd⟩ := step_of_not_schedules hs
    rw [hp]
    exact .inr ⟨hd j h, le_rfl⟩
  | true =>
    obtain ⟨o, ho, hb, hp, hd⟩ := step_of_schedules hs
    have hdue : t.resumed.due j = true := resumed_due h
    obtain ⟨i, rfl⟩ : ∃ i, o = some i := by
      rw [← Option.isSome_iff_exists, ho]
      exact RoundRobin.next_isSome hdue
    by_cases hij : i = j
    · subst hij
      refine .inl ⟨(t.resumed.ports i).record, ?_⟩
      rw [hb]
      exact .head _
    · refine .inr ⟨hd j h fun heq => hij (Option.some.inj heq), ?_⟩
      rw [hp]
      exact RoundRobin.wait_next ho.symm hdue hij

/-- **Backup scheduling.** After any run from boot: in the next 30 ticks at most one backup is
written. A due port is written in one of the next ten rounds, whatever happens meanwhile, and 300
ticks contain ten rounds. A record holds what the port holds at that time. -/
theorem backup_scheduling (b : Boot) (es : List Event) :
    (∀ fs, fs.count .backupTick ≤ 30 →
      (backupsOf (machine.trace (machine.run b.init es) fs)).length ≤ 1) ∧
    (∀ j fs, (machine.run b.init es).due j = true →
      10 ≤ machine.marks schedules (machine.run b.init es) fs →
      ∃ q e r record, fs = q ++ e :: r ∧
        machine.marks schedules (machine.run b.init es) q < 10 ∧
        (j, record) ∈ backupsOf ((machine.run b.init (es ++ q)).step e).2) ∧
    (∀ fs, 300 ≤ fs.count .backupTick →
      10 ≤ machine.marks schedules (machine.run b.init es) fs) ∧
    ∀ e j record, (j, record) ∈ backupsOf ((machine.run b.init es).step e).2 →
      record = ((machine.run b.init (es ++ [e])).ports j).record := by
  obtain ⟨hcycles, -⟩ := run_cycles es (init_cycles b)
  simp only [Machine.run_append]
  generalize machine.run b.init es = t at hcycles
  refine ⟨?_, ?_, ?_, ?_⟩
  · intro fs hfs
    obtain ⟨⟨-, -, hpos', hle'⟩, hval⟩ := run_cycles fs hcycles
    have := length_backups_le fs t
    have := hcycles.pos
    omega
  · intro j fs hdue hrounds
    have hwait := RoundRobin.wait_lt t.backupPort j
    obtain ⟨q, e, r, heq, hq, record, hrec⟩ := Machine.exists_goal (M := machine)
      (μ := fun t : Thing => RoundRobin.wait t.backupPort j) (I := fun t : Thing => t.due j = true)
      (G := fun t e => ∃ record, (j, record) ∈ backupsOf (t.step e).2)
      (fun t e h => step_due e h) hdue (lt_of_lt_of_le hwait hrounds)
    exact ⟨q, e, r, record, heq, lt_of_le_of_lt hq hwait, hrec⟩
  · intro fs hfs
    obtain ⟨⟨-, -, hpos', hle'⟩, hval⟩ := run_cycles fs hcycles
    have := hcycles.le
    omega
  · intro e j record h
    exact mem_backupsOf_step h

end Thing

end ChargingPile
