import ChargingPile.Thing.Published

/-!
# The backup partition and the `Backuper` record of a port

The `Backuper` keeps in a port's record whether the port was resumed (`stateHasTransitioned`),
whether it is due to be (`fResume`), and when to write it to the backup partition next
(`backupCount`). `Thing.step_settles` says what one event does to the record: its operation at the
port comes first, and the scheduling of the backups only counts `backupCount` down and writes ports
whose `backupCount` counts.

A port that was not resumed yet is never written, so its record in the partition is still the one
found at boot (`Boot.unresumed`), and a port is resumed once (`Thing.run_resumed`).
-/

namespace ChargingPile

/-- The port was resumed, or its turn to be resumed came when nothing was saved. -/
def Port.Resumed (p : Port) : Prop := p.backuper.stateHasTransitioned = true

instance (p : Port) : Decidable p.Resumed := inferInstanceAs (Decidable (_ = _))

theorem Backuper.onStateChanged_record (spec : Backuper) (s : State) :
    (spec.onStateChanged s).stateHasTransitioned = spec.stateHasTransitioned ∧
      (spec.stateHasTransitioned = false →
        (spec.onStateChanged s).backupCount = spec.backupCount) := by
  simp only [onStateChanged]
  split
  · exact ⟨rfl, fun _ => rfl⟩
  · rename_i ht
    refine ⟨by split <;> rfl, ?_⟩
    intro h
    simp [h] at ht

namespace Port

variable {x : Ctx} {p : Port}

/-- Only the writing of a backup emits one. -/
theorem backup_notMem_exec {op : Op} (hop : op ≠ .backupWrite) (b : Backup) :
    .backup b ∉ (p.exec x op).2 := by
  rw [exec_eq]
  intro hmem
  rcases List.mem_append.1 hmem with hmem | hmem
  · simp at hmem
  · cases op with
    | backupWrite => exact hop rfl
    | limiter =>
      simp only [Op.emits] at hmem
      split at hmem <;> simp at hmem
    | data =>
      simp only [Op.emits, dataTick, emitPortData] at hmem
      split at hmem <;> simp at hmem
    | _ => cases hmem

/-- The decorators never touch `stateHasTransitioned`, and arm `backupCount` only in a port
that was resumed. -/
theorem notify_backuper (l : List State) (p : Port) :
    (notify x l p).backuper.stateHasTransitioned = p.backuper.stateHasTransitioned ∧
      (p.backuper.stateHasTransitioned = false →
        (notify x l p).backuper.backupCount = p.backuper.backupCount) := by
  induction l generalizing x p with
  | nil => exact ⟨rfl, fun _ => rfl⟩
  | cons s l ih =>
    obtain ⟨ht, hb⟩ := ih (x := x.published s) (p.onStateChanged x s)
    obtain ⟨ht', hb'⟩ := p.backuper.onStateChanged_record s
    exact ⟨ht.trans ht', fun h => (hb (ht'.trans h)).trans (hb' h)⟩

theorem after_backuper (q : Port) {op : Op}
    (hop : op ≠ .backupUpdate ∧ op ≠ .backupWrite ∧ op ≠ .backupPostpone) :
    (op.after x p q).backuper = q.backuper := by
  cases op with
  | backupUpdate => exact absurd rfl hop.1
  | backupWrite => exact absurd rfl hop.2.1
  | backupPostpone => exact absurd rfl hop.2.2
  | current | voltage => simp only [Op.after]; split <;> rfl
  | data =>
    simp only [Op.after, dataTick, emitPortData]
    split
    · split <;> rfl
    · rfl
  | _ => rfl

/-- A port that is not resumed after an operation was not resumed before it, and its `backupCount`
is as it was. -/
theorem exec_backuper {op : Op}
    (hop : op ≠ .backupUpdate ∧ op ≠ .backupWrite ∧ op ≠ .backupPostpone) :
    (p.Resumed → (p.exec x op).1.Resumed) ∧
      (¬ (p.exec x op).1.Resumed →
        (p.exec x op).1.backuper.backupCount = p.backuper.backupCount) := by
  obtain ⟨ht, hb⟩ := notify_backuper (x := x) (op.call x p).2
    { op.before p with charger := (op.call x p).1 }
  have hbefore : (p.Resumed → (op.before p).Resumed) ∧ (¬ (op.before p).Resumed →
      (op.before p).backuper.backupCount = p.backuper.backupCount) := by
    cases op with
    | resume backup =>
      simp only [Op.before, Resumed]
      refine ⟨fun h => by simp [h], ?_⟩
      intro h
      rw [if_neg]
      rintro ⟨hr, -⟩
      simp [hr] at h
    | _ => exact ⟨id, fun _ => rfl⟩
  unfold Resumed at *
  rw [exec_eq, after_backuper _ hop, drive, ht]
  refine ⟨hbefore.1, ?_⟩
  intro h
  rw [← hbefore.2 h]
  exact hb (Bool.eq_false_of_not_eq_true h)

end Port

namespace Thing

variable {t t' : Thing} {i j : InnerPort} {e : Event}

/-! ## The partition -/

/-- Only a backup of port `j` changes the record of port `j` in the partition. -/
theorem foldl_absorb_man {l : List Output} (h : j ≠ i ∨ ∀ b, .backup b ∉ l) (t : Thing) :
    (l.foldl (absorb i) t).man j = t.man j := by
  induction l generalizing t with
  | nil => rfl
  | cons o l ih =>
    rw [List.foldl_cons, ih (h.imp_right fun h b hb => h b (.tail _ hb))]
    cases o with
    | backup b =>
      rcases h with h | h
      · exact Function.update_of_ne h _ _
      · exact absurd (.head _) (h b)
    | state | currentLimit | currentData => rfl

theorem exec_man {op : Op} (h : j ≠ i ∨ op ≠ .backupWrite) (t : Thing) :
    (t.exec i op).1.man j = t.man j :=
  foldl_absorb_man (h.imp_right Port.backup_notMem_exec) _

theorem execAll_man {l : List (InnerPort × Op)} (h : ∀ a ∈ l, a.2 ≠ .backupWrite) (t : Thing) :
    (t.execAll l).1.man j = t.man j := by
  induction l generalizing t with
  | nil => rfl
  | cons a l ih =>
    exact (ih (fun b hb => h b (.tail _ hb)) _).trans (exec_man (.inr (h a (.head _))) t)

theorem forPorts_man {op : Op} (h : op ≠ .backupWrite) (t : Thing) :
    (t.execAll (forPorts op)).1.man j = t.man j := by
  refine execAll_man ?_ t
  intro a ha
  obtain ⟨i, -, rfl⟩ := List.mem_map.1 ha
  exact h

/-- Only a tick of the `Backuper` changes the partition. -/
theorem step_man_of_ne (he : e ≠ .backupTick) : (t.step e).1.man j = t.man j := by
  cases e <;> rw [step]
  case backupTick => exact absurd rfl he
  case query | counterTick | limiterTick | measureTick => exact forPorts_man (by simp) t
  case voltage m value => exact execAll_man (by simp) t
  all_goals exact exec_man (.inr (by simp)) _

/-! ## The scheduling of the backups -/

/-- What the scheduling of the backups leaves of the record of port `j`. -/
structure Scheduled (t : Thing) (j : InnerPort) (t' : Thing) : Prop where
  transitioned : (t'.ports j).backuper.stateHasTransitioned =
    (t.ports j).backuper.stateHasTransitioned
  fResume : (t'.ports j).backuper.fResume = (t.ports j).backuper.fResume
  /-- A port whose `backupCount` does not count is not written. -/
  idle : (t.ports j).backuper.backupCount.counting = false →
    (t'.ports j).backuper.backupCount = (t.ports j).backuper.backupCount ∧ t'.man j = t.man j

namespace Scheduled

theorem of_eq (hp : t'.ports j = t.ports j) (hm : t'.man j = t.man j) : Scheduled t j t' := by
  refine ⟨?_, ?_, ?_⟩
  · rw [hp]
  · rw [hp]
  · intro _
    exact ⟨by rw [hp], hm⟩

theorem trans {t'' : Thing} (h : Scheduled t j t') (h' : Scheduled t' j t'') :
    Scheduled t j t'' := by
  refine ⟨h'.transitioned.trans h.transitioned, h'.fResume.trans h.fResume, ?_⟩
  intro hc
  obtain ⟨hb, hm⟩ := h.idle hc
  obtain ⟨hb', hm'⟩ := h'.idle (hb ▸ hc)
  exact ⟨hb'.trans hb, hm'.trans hm⟩

end Scheduled

theorem updateAndCheck_idle {c : CountDown} (h : c.counting = false) : c.updateAndCheck.2 = c := by
  simp [CountDown.updateAndCheck, h]

theorem exec_backupUpdate_scheduled (t : Thing) (i j : InnerPort) :
    Scheduled t j (t.exec i .backupUpdate).1 := by
  by_cases hij : j = i
  · subst hij
    have hp := (exec_self t j .backupUpdate).1
    refine ⟨by rw [hp]; rfl, by rw [hp]; rfl, ?_⟩
    intro hc
    refine ⟨?_, exec_man (.inr (by simp)) t⟩
    rw [hp]
    exact updateAndCheck_idle hc
  · exact .of_eq (exec_other hij _).1 (exec_man (.inl hij) t)

/-- A due port that is written or postponed counts. -/
theorem exec_due_scheduled {op : Op} (hop : op = .backupWrite ∨ op = .backupPostpone)
    (hdue : (t.ports i).backuper.backupCount.updateAndCheck.1 = true) :
    Scheduled t j (t.exec i op).1 := by
  by_cases hij : j = i
  · subst hij
    have hp := (exec_self t j op).1
    have hcount := ((CountDown.updateAndCheck_fst _).1 hdue).1
    have hkeep : ((t.ports j).exec (t.ctx j) op).1.backuper.stateHasTransitioned =
          (t.ports j).backuper.stateHasTransitioned ∧
        ((t.ports j).exec (t.ctx j) op).1.backuper.fResume = (t.ports j).backuper.fResume := by
      rcases hop with rfl | rfl
      · simp only [Port.exec, Port.backupWrite]
        split <;> exact ⟨rfl, rfl⟩
      · exact ⟨rfl, rfl⟩
    refine ⟨by rw [hp]; exact hkeep.1, by rw [hp]; exact hkeep.2, ?_⟩
    intro hc
    rw [hcount] at hc
    cases hc
  · exact .of_eq (exec_other hij _).1 (exec_man (.inl hij) t)

theorem backupLoop_scheduled (ingore : Bool) (next : InnerPort) (l : List InnerPort) (t : Thing) :
    Scheduled t j (t.backupLoop ingore next l).1 := by
  induction l generalizing t ingore next with
  | nil => exact .of_eq rfl rfl
  | cons i l ih =>
    unfold backupLoop
    split
    · rename_i hdue
      split
      · exact (exec_due_scheduled (.inl rfl) hdue).trans (ih ..)
      · exact (exec_due_scheduled (.inr rfl) hdue).trans (ih ..)
    · exact (exec_backupUpdate_scheduled t i j).trans (ih ..)

theorem backupRound_scheduled (t : Thing) (j : InnerPort) : Scheduled t j t.backupRound.1 := by
  simp only [backupRound]
  split
  · have h := backupLoop_scheduled (j := j) false t.backupPort
      ((List.finRange kPortNum).map (t.backupPort + ·))
      { t with nextCount := t.nextCount.updateAndCheck.2.retrigger }
    exact ⟨h.1, h.2, h.3⟩
  · exact .of_eq rfl rfl

/-! ## One event -/

/-- The event's operation at port `j` left `q`, and the controller is `t'` at the end of the
event. -/
structure Settles (t : Thing) (j : InnerPort) (q : Port) (t' : Thing) : Prop where
  port : t'.ports j = { q with backuper := (t'.ports j).backuper }
  transitioned : (t'.ports j).backuper.stateHasTransitioned = q.backuper.stateHasTransitioned
  fResume : (t'.ports j).backuper.fResume = q.backuper.fResume
  idle : q.backuper.backupCount.counting = false →
    (t'.ports j).backuper.backupCount = q.backuper.backupCount ∧ t'.man j = t.man j

namespace Settles

variable {q : Port}

theorem charger (h : Settles t j q t') : (t'.ports j).charger = q.charger := by rw [h.port]

theorem info (h : Settles t j q t') : (t'.ports j).info = q.info := by rw [h.port]

theorem of_backupRound (mid : Thing) (hm : mid.man j = t.man j) :
    Settles t j (mid.ports j) mid.backupRound.1 := by
  obtain ⟨spec, bs, hp, -⟩ := backupRound_backupOnly (j := j) mid
  have hs := backupRound_scheduled mid j
  refine ⟨by rw [hp], hs.transitioned, hs.fResume, ?_⟩
  intro hc
  obtain ⟨hb, hm'⟩ := hs.idle hc
  exact ⟨hb, hm'.trans hm⟩

end Settles

/-- **What one event does to one port, with its `Backuper` record.** -/
theorem step_settles (t : Thing) (e : Event) (j : InnerPort) :
    ∃ x : Ctx, x.At t j ∧
      Settles t j ((t.ports j).execOpt x (e.opOn t j)).1 (t.step e).1 ∧
      t.publishes j e = statesOf ((t.ports j).execOpt x (e.opOn t j)).2 := by
  by_cases he : e = .backupTick
  · subst he
    obtain ⟨x, hx, hp, ho⟩ := resume_local t j
    refine ⟨x, hx, ?_, ?_⟩
    · rw [← hp]
      exact .of_backupRound _ (exec_man (.inr (by simp)) _)
    · obtain ⟨spec, bs, -, ho'⟩ := backupRound_backupOnly (j := j)
        (exec { t with resumePort := t.resumePort + 1 } t.resumePort
          (.resume (t.man t.resumePort))).1
      show statesOf (outputsOf j (_ ++ (backupRound _).2)) = _
      rw [outputsOf_append, statesOf_append, ho, ho', statesOf_map_backup, List.append_nil]
  · obtain ⟨x, hx, hp, ho⟩ := step_local_of_ne (t := t) (j := j) he
    refine ⟨x, hx, ⟨?_, ?_, ?_, ?_⟩, congrArg statesOf ho⟩
    · rw [hp]
    · rw [hp]
    · rw [hp]
    · intro _
      exact ⟨by rw [hp], step_man_of_ne he⟩

/-! ## Runs -/

theorem opOn_scheduling {op : Op} (h : e.opOn t j = some op) :
    op ≠ .backupUpdate ∧ op ≠ .backupWrite ∧ op ≠ .backupPostpone := by
  refine ⟨?_, ?_, ?_⟩ <;> rintro rfl <;> cases e <;> simp [Event.opOn] at h

/-- A resumed port stays resumed. -/
theorem step_resumed (e : Event) (h : (t.ports j).Resumed) : ((t.step e).1.ports j).Resumed := by
  obtain ⟨x, -, hs, -⟩ := t.step_settles e j
  refine hs.transitioned.trans ?_
  cases hop : e.opOn t j with
  | none => exact h
  | some op => exact (Port.exec_backuper (opOn_scheduling hop)).1 h

theorem run_resumed (h : (t.ports j).Resumed) (es : List Event) :
    ((machine.run t es).ports j).Resumed :=
  Machine.run_inv (C := fun _ _ => True) (I := fun (t : Thing) => (t.ports j).Resumed)
    (fun _ e h _ => step_resumed e h) (Machine.along_of_mem fun _ _ _ => trivial) h

/-- Until port `j` is resumed, it is not due to be written and the partition holds `saved` for
it. -/
def Unresumed (saved : Backup) (j : InnerPort) (t : Thing) : Prop :=
  ¬ (t.ports j).Resumed →
    (t.ports j).backuper.backupCount.counting = false ∧ t.man j = saved

theorem step_unresumed {saved : Backup} (e : Event) (h : Unresumed saved j t) :
    Unresumed saved j (t.step e).1 := by
  obtain ⟨x, -, hs, -⟩ := t.step_settles e j
  intro hr
  have hq : ¬ ((t.ports j).execOpt x (e.opOn t j)).1.Resumed := by
    unfold Port.Resumed at hr ⊢
    rwa [← hs.transitioned]
  have hp : ¬ (t.ports j).Resumed ∧
      ((t.ports j).execOpt x (e.opOn t j)).1.backuper.backupCount =
        (t.ports j).backuper.backupCount := by
    cases hop : e.opOn t j with
    | none =>
      rw [hop] at hq
      exact ⟨hq, rfl⟩
    | some op =>
      rw [hop] at hq
      obtain ⟨hres, hb⟩ := Port.exec_backuper (x := x) (p := t.ports j) (opOn_scheduling hop)
      exact ⟨fun h => hq (hres h), hb hq⟩
  obtain ⟨hc, hm⟩ := h hp.1
  obtain ⟨hb, hm'⟩ := hs.idle (by rw [hp.2]; exact hc)
  exact ⟨by rw [hb, hp.2]; exact hc, hm'.trans hm⟩

end Thing

/-- In every run from boot, a port that was not resumed yet still has the record it had at boot. -/
theorem Boot.unresumed (b : Boot) (es : List Event) (j : InnerPort) :
    Thing.Unresumed (b.man j) j (Thing.machine.run b.init es) := by
  refine Machine.run_inv (C := fun _ _ => True) (I := Thing.Unresumed (b.man j) j)
    (fun _ e h _ => Thing.step_unresumed e h) (Machine.along_of_mem fun _ _ _ => trivial) ?_
  intro _
  refine ⟨?_, rfl⟩
  simp only [init]
  split <;> rfl

end ChargingPile
