import Mathlib.Data.List.FinRange
import ChargingPile.Thing.Basic

/-!
# What one event does to one port

An event runs at most one operation at a given port, and after it the scheduling of the backups may
touch the port's `Backuper` record. `Event.opOn` names the operation and `Thing.step_local` is the
statement. Every result about a port is proved of `Port.exec` and lifted to runs through it.
-/

namespace ChargingPile

/-- `x` is what port `j` reads of the controller `t`, up to the flag `isFirstCharge` that an
earlier port may have cleared within the same event. -/
structure Ctx.At (x : Ctx) (t : Thing) (j : InnerPort) : Prop where
  port : x.port = j
  conf : x.conf = t.conf
  tick : x.tick = t.tick
  nullRunning : x.nullRunning = t.nullRunning

/-! ## Outputs of a port -/

@[simp] theorem outputsOf_nil (j : InnerPort) : outputsOf j [] = [] := rfl

@[simp] theorem outputsOf_append (j : InnerPort) (l m : List (InnerPort × Output)) :
    outputsOf j (l ++ m) = outputsOf j l ++ outputsOf j m :=
  List.filterMap_append ..

theorem outputsOf_map (j i : InnerPort) (l : List Output) :
    outputsOf j (l.map (i, ·)) = if i = j then l else [] := by
  induction l with
  | nil => simp
  | cons o l ih =>
    rw [List.map_cons, outputsOf, List.filterMap_cons]
    rw [outputsOf] at ih
    split <;> simp_all

namespace Thing

variable {t : Thing} {i j : InnerPort}

/-- The fields that no operation on a port changes. -/
structure Fixed (t t' : Thing) : Prop where
  conf : t'.conf = t.conf
  tick : t'.tick = t.tick
  nullRunning : t'.nullRunning = t.nullRunning
  noloadPort : t'.noloadPort = t.noloadPort
  dataPort : t'.dataPort = t.dataPort
  resumePort : t'.resumePort = t.resumePort

theorem Fixed.refl (t : Thing) : Fixed t t := ⟨rfl, rfl, rfl, rfl, rfl, rfl⟩

theorem Fixed.trans {t₁ t₂ t₃ : Thing} (h : Fixed t₁ t₂) (h' : Fixed t₂ t₃) : Fixed t₁ t₃ :=
  ⟨h'.1.trans h.1, h'.2.trans h.2, h'.3.trans h.3, h'.4.trans h.4, h'.5.trans h.5, h'.6.trans h.6⟩

theorem Fixed.at {t t' : Thing} (h : Fixed t t') {x : Ctx} (hx : x.At t' j) : x.At t j :=
  ⟨hx.port, hx.conf.trans h.conf, hx.tick.trans h.tick, hx.nullRunning.trans h.nullRunning⟩

theorem ctx_at (t : Thing) (j : InnerPort) : (t.ctx j).At t j := ⟨rfl, rfl, rfl, rfl⟩

/-- What an operation emits changes neither the ports nor the fixed fields. -/
theorem foldl_absorb (l : List Output) (t : Thing) :
    (l.foldl (absorb i) t).ports = t.ports ∧ Fixed t (l.foldl (absorb i) t) := by
  induction l generalizing t with
  | nil => exact ⟨rfl, .refl t⟩
  | cons o l ih =>
    obtain ⟨hp, hf⟩ := ih (absorb i t o)
    have ho : (absorb i t o).ports = t.ports ∧ Fixed t (absorb i t o) := by
      cases o <;> exact ⟨rfl, rfl, rfl, rfl, rfl, rfl, rfl⟩
    exact ⟨hp.trans ho.1, ho.2.trans hf⟩

theorem exec_ports (t : Thing) (i : InnerPort) (op : Op) :
    (t.exec i op).1.ports = Function.update t.ports i ((t.ports i).exec (t.ctx i) op).1 :=
  (foldl_absorb _ _).1

theorem exec_fixed (t : Thing) (i : InnerPort) (op : Op) : Fixed t (t.exec i op).1 := by
  have h := (foldl_absorb (i := i) ((t.ports i).exec (t.ctx i) op).2
    { t with ports := Function.update t.ports i ((t.ports i).exec (t.ctx i) op).1 }).2
  exact ⟨h.1, h.2, h.3, h.4, h.5, h.6⟩

/-- The operation at its own port. -/
theorem exec_self (t : Thing) (i : InnerPort) (op : Op) :
    (t.exec i op).1.ports i = ((t.ports i).exec (t.ctx i) op).1 ∧
      outputsOf i (t.exec i op).2 = ((t.ports i).exec (t.ctx i) op).2 := by
  rw [exec_ports, Function.update_self]
  simp [exec, outputsOf_map]

/-- The operation at another port. -/
theorem exec_other (h : j ≠ i) (op : Op) :
    (t.exec i op).1.ports j = t.ports j ∧ outputsOf j (t.exec i op).2 = [] := by
  rw [exec_ports, Function.update_of_ne h]
  simp [exec, outputsOf_map, h.symm]

end Thing

/-- An operation, if there is one. -/
def Port.execOpt (x : Ctx) (p : Port) : Option Op → Port × List Output
  | none => (p, [])
  | some op => p.exec x op

/-- The operation an event runs at port `j`. -/
def Event.opOn (t : Thing) (j : InnerPort) : Event → Option Op
  | .control i timerId minutes => if i = j then some (.control timerId minutes) else none
  | .stop i timerId => if i = j then some (.stop timerId) else none
  | .query => some .query
  | .config _ => none
  | .current i value => if i = j then some (.current value) else none
  | .voltage m value => if j = m.portA ∨ j = m.portB then some (.voltage value) else none
  | .detector i => if i = j then some .detector else none
  | .counterTick => some .counter
  | .limiterTick => some .limiter
  | .noloadTick => if t.noloadPort = j then some .noload else none
  | .backupTick => if t.resumePort = j then some (.resume (t.man j)) else none
  | .dataTick => if t.dataPort = j then some .data else none
  | .measureTick => some .measure
  | .advance _ => none

namespace Event

variable {t : Thing} {j : InnerPort} {e : Event}

theorem opOn_stop {timerId : Int} : e.opOn t j = some (.stop timerId) ↔ e = .stop j timerId := by
  cases e <;> simp [opOn]

theorem opOn_current {value : Int} :
    e.opOn t j = some (.current value) ↔ e = .current j value := by
  cases e <;> simp [opOn]

theorem opOn_limiter : e.opOn t j = some .limiter ↔ e = .limiterTick := by
  cases e <;> simp [opOn]

theorem opOn_data : e.opOn t j = some .data ↔ e = .dataTick ∧ t.dataPort = j := by
  cases e <;> simp [opOn]

end Event

namespace Thing

variable {t : Thing} {i j : InnerPort}

/-- Port `j` after `r`, with what it emitted, is what the operation `o` makes of it. -/
def Local (t : Thing) (j : InnerPort) (o : Option Op) (r : Thing × List (InnerPort × Output)) :
    Prop :=
  ∃ x : Ctx, x.At t j ∧ r.1.ports j = ((t.ports j).execOpt x o).1 ∧
    outputsOf j r.2 = ((t.ports j).execOpt x o).2

theorem Local.none {r : Thing × List (InnerPort × Output)} (h : r.1.ports j = t.ports j)
    (h' : outputsOf j r.2 = []) : Local t j none r :=
  ⟨t.ctx j, ctx_at t j, h, h'⟩

theorem exec_local (t : Thing) (i j : InnerPort) (op : Op) :
    Local t j (if i = j then some op else none) (t.exec i op) := by
  by_cases h : i = j
  · subst h
    rw [if_pos rfl]
    exact ⟨t.ctx i, ctx_at t i, exec_self t i op⟩
  · rw [if_neg h]
    exact ⟨t.ctx j, ctx_at t j, exec_other (Ne.symm h) op⟩

/-- A loop that visits each port at most once. -/
theorem execAll_local {l : List (InnerPort × Op)} (hl : (l.map Prod.fst).Nodup) (t : Thing) :
    Local t j (l.lookup j) (t.execAll l) := by
  induction l generalizing t with
  | nil => exact .none rfl rfl
  | cons a l ih =>
    obtain ⟨i, op⟩ := a
    rw [List.map_cons, List.nodup_cons] at hl
    obtain ⟨x, hx, hxe⟩ := ih hl.2 (t.exec i op).1
    by_cases h : j = i
    · subst h
      have hnone : l.lookup j = Option.none := by
        rw [List.lookup_eq_none_iff]
        intro b hb
        have : b.1 ≠ j := fun hbj => hl.1 (List.mem_map.2 ⟨b, hb, hbj⟩)
        simp [this.symm]
      rw [hnone] at hxe
      have hs := exec_self t j op
      refine ⟨t.ctx j, ctx_at t j, ?_⟩
      rw [List.lookup_cons_self]
      simp [execAll, hxe, hs, Port.execOpt]
    · have ho := exec_other h op (t := t)
      refine ⟨x, (exec_fixed t i op).at hx, ?_⟩
      have hlk : ((i, op) :: l).lookup j = l.lookup j := by
        rw [List.lookup_cons, beq_false_of_ne h]
      rw [hlk, ← ho.1]
      simp [execAll, ho.2, hxe]

theorem lookup_forPorts (op : Op) (j : InnerPort) : (forPorts op).lookup j = some op := by
  have hmem : j ∈ List.finRange kPortNum := List.mem_finRange j
  unfold forPorts
  generalize List.finRange kPortNum = l at hmem
  induction l with
  | nil => cases hmem
  | cons i l ih =>
    rw [List.map_cons, List.lookup_cons]
    rcases List.mem_cons.1 hmem with rfl | hj
    · simp
    · rw [ih hj]
      split <;> rfl

theorem forPorts_nodup (op : Op) : ((forPorts op).map Prod.fst).Nodup := by
  have : (forPorts op).map Prod.fst = List.finRange kPortNum := by
    simp [forPorts, Function.comp_def]
  rw [this]
  exact List.nodup_finRange _

theorem forPorts_local (t : Thing) (op : Op) (j : InnerPort) :
    Local t j (some op) (t.execAll (forPorts op)) := by
  have h := execAll_local (forPorts_nodup op) t (j := j)
  rwa [lookup_forPorts] at h

/-- Another controller that looks the same to port `j`. -/
theorem Local.congr {t' : Thing} {o : Option Op} {r : Thing × List (InnerPort × Output)}
    (h : Local t' j o r) (hp : t'.ports j = t.ports j) (hc : t'.conf = t.conf)
    (hk : t'.tick = t.tick) (hn : t'.nullRunning = t.nullRunning) : Local t j o r := by
  obtain ⟨x, hx, hxe⟩ := h
  exact ⟨x, ⟨hx.1, hx.2.trans hc, hx.3.trans hk, hx.4.trans hn⟩, hp ▸ hxe⟩

/-! ## The scheduling of the backups -/

/-- Only the `Backuper` record of port `j` changed, and only backups were emitted. -/
def BackupOnly (t : Thing) (j : InnerPort) (r : Thing × List (InnerPort × Output)) : Prop :=
  ∃ (spec : Backuper) (bs : List Backup), r.1.ports j = { t.ports j with backuper := spec } ∧
    outputsOf j r.2 = bs.map Output.backup

theorem BackupOnly.trans {r r' : Thing × List (InnerPort × Output)} (h : BackupOnly t j r)
    (h' : BackupOnly r.1 j r') : BackupOnly t j (r'.1, r.2 ++ r'.2) := by
  obtain ⟨_, bs, hp, ho⟩ := h
  obtain ⟨spec', bs', hp', ho'⟩ := h'
  refine ⟨spec', bs ++ bs', ?_, ?_⟩
  · rw [hp', hp]
  · rw [outputsOf_append, ho, ho', List.map_append]

theorem exec_backupOnly {op : Op}
    (h : op = .backupUpdate ∨ op = .backupWrite ∨ op = .backupPostpone) :
    BackupOnly t j (t.exec i op) := by
  by_cases hij : j = i
  · subst hij
    have he := exec_self t j op
    unfold BackupOnly
    rw [he.1, he.2]
    rcases h with rfl | rfl | rfl
    · exact ⟨_, [], rfl, rfl⟩
    · refine ⟨(t.ports j).backupWrite.1.backuper, [_], ?_, rfl⟩
      simp only [Port.exec, Port.backupWrite]
      split <;> rfl
    · exact ⟨_, [], rfl, rfl⟩
  · have he := exec_other hij op (t := t)
    exact ⟨_, [], he.1, he.2⟩

theorem backupLoop_backupOnly (ingore : Bool) (next : InnerPort) (l : List InnerPort)
    (t : Thing) : BackupOnly t j (t.backupLoop ingore next l) := by
  induction l generalizing t ingore next with
  | nil => exact ⟨_, [], rfl, rfl⟩
  | cons i l ih =>
    unfold backupLoop
    split
    · split
      · exact (exec_backupOnly (.inr (.inl rfl))).trans (ih ..)
      · exact (exec_backupOnly (.inr (.inr rfl))).trans (ih ..)
    · exact (exec_backupOnly (.inl rfl)).trans (ih ..)

theorem backupLoop_fixed (ingore : Bool) (next : InnerPort) (l : List InnerPort) (t : Thing) :
    Fixed t (t.backupLoop ingore next l).1 := by
  induction l generalizing t ingore next with
  | nil => exact ⟨rfl, rfl, rfl, rfl, rfl, rfl⟩
  | cons i l ih =>
    unfold backupLoop
    split
    · split <;> exact (exec_fixed ..).trans (ih ..)
    · exact (exec_fixed ..).trans (ih ..)

theorem backupRound_backupOnly (t : Thing) : BackupOnly t j t.backupRound := by
  simp only [backupRound]
  split
  · obtain ⟨spec, bs, hp, ho⟩ := backupLoop_backupOnly (j := j) false t.backupPort
      ((List.finRange kPortNum).map (t.backupPort + ·))
      { t with nextCount := t.nextCount.updateAndCheck.2.retrigger }
    exact ⟨spec, bs, hp, ho⟩
  · exact ⟨_, [], rfl, rfl⟩

theorem backupRound_fixed (t : Thing) : Fixed t t.backupRound.1 := by
  simp only [backupRound]
  split
  · have h := backupLoop_fixed false t.backupPort ((List.finRange kPortNum).map (t.backupPort + ·))
      { t with nextCount := t.nextCount.updateAndCheck.2.retrigger }
    exact ⟨h.1, h.2, h.3, h.4, h.5, h.6⟩
  · exact ⟨rfl, rfl, rfl, rfl, rfl, rfl⟩

/-! ## The statement -/

/-- Any event but a tick of the `Backuper` runs its operation at port `j` and nothing else. -/
theorem step_local_of_ne {e : Event} (he : e ≠ .backupTick) :
    Local t j (e.opOn t j) (t.step e) := by
  cases e with
  | control i timerId minutes => exact exec_local t i j _
  | stop i timerId => exact exec_local t i j _
  | query => exact forPorts_local t _ j
  | config conf => exact .none rfl rfl
  | current i value => exact exec_local t i j _
  | voltage m value =>
    have hne : m.portA ≠ m.portB := by
      intro h
      have := congrArg Fin.val h
      simp only [Meter.portA, Meter.portB] at this
      omega
    have h := execAll_local (l := [(m.portA, Op.voltage value), (m.portB, Op.voltage value)])
      (by simp [hne]) t (j := j)
    have hl : List.lookup j [(m.portA, Op.voltage value), (m.portB, Op.voltage value)] =
        Event.opOn t j (.voltage m value) := by
      rw [Event.opOn, List.lookup_cons, List.lookup_cons, List.lookup_nil]
      by_cases hA : j = m.portA
      · simp [hA]
      · rw [beq_false_of_ne hA]
        by_cases hB : j = m.portB
        · simp [hB]
        · rw [beq_false_of_ne hB, if_neg (by simp [hA, hB])]
    rwa [hl] at h
  | detector i => exact exec_local t i j _
  | counterTick => exact forPorts_local t _ j
  | limiterTick => exact forPorts_local t _ j
  | noloadTick => exact (exec_local _ t.noloadPort j .noload).congr rfl rfl rfl rfl
  | backupTick => exact absurd rfl he
  | dataTick => exact (exec_local _ t.dataPort j .data).congr rfl rfl rfl rfl
  | measureTick => exact forPorts_local t _ j
  | advance n => exact .none rfl rfl

/-- The first part of a tick of the `Backuper`: it resumes the port whose turn it is. -/
theorem resume_local (t : Thing) (j : InnerPort) : Local t j (Event.opOn t j .backupTick)
    (exec { t with resumePort := t.resumePort + 1 } t.resumePort
      (.resume (t.man t.resumePort))) := by
  have hop : (if t.resumePort = j then some (Op.resume (t.man t.resumePort)) else none) =
      Event.opOn t j .backupTick := by
    simp only [Event.opOn]
    split
    · rename_i h; rw [h]
    · rfl
  rw [← hop]
  exact (exec_local { t with resumePort := t.resumePort + 1 } t.resumePort j _).congr rfl rfl rfl
    rfl

/-- **What one event does to one port**: the operation `Event.opOn`, and after it, for a tick of
the `Backuper`, changes of the port's `Backuper` record only. -/
theorem step_local (t : Thing) (e : Event) (j : InnerPort) :
    ∃ (x : Ctx) (spec : Backuper) (bs : List Backup), x.At t j ∧
      (t.step e).1.ports j = { ((t.ports j).execOpt x (e.opOn t j)).1 with backuper := spec } ∧
      outputsOf j (t.step e).2 =
        ((t.ports j).execOpt x (e.opOn t j)).2 ++ bs.map Output.backup := by
  by_cases he : e = .backupTick
  · subst he
    obtain ⟨x, hx, hxe⟩ := resume_local t j
    obtain ⟨spec, bs, hp, ho⟩ := backupRound_backupOnly (j := j)
      (exec { t with resumePort := t.resumePort + 1 } t.resumePort
        (.resume (t.man t.resumePort))).1
    refine ⟨x, spec, bs, hx, ?_, ?_⟩
    · show (backupRound _).1.ports j = _
      rw [hp, hxe.1]
    · show outputsOf j (_ ++ (backupRound _).2) = _
      rw [outputsOf_append, hxe.2, ho]
  · obtain ⟨x, hx, hxe⟩ := step_local_of_ne (t := t) (j := j) he
    refine ⟨x, ((t.ports j).execOpt x (e.opOn t j)).1.backuper, [], hx, hxe.1, ?_⟩
    simp [hxe.2]

/-! ## The shared fields -/

theorem execAll_fixed (l : List (InnerPort × Op)) (t : Thing) : Fixed t (t.execAll l).1 := by
  induction l generalizing t with
  | nil => exact .refl t
  | cons a l ih => exact (exec_fixed t a.1 a.2).trans (ih _)

/-- The controller with the shared fields that an event changes by itself: the configuration, the
clock and the decorator's turn. -/
def turned (t : Thing) : Event → Thing
  | .config conf => { t with conf := conf }
  | .advance n => { t with tick := t.tick + n }
  | .noloadTick => { t with noloadPort := t.noloadPort + 1 }
  | .dataTick => { t with dataPort := t.dataPort + 1 }
  | .backupTick => { t with resumePort := t.resumePort + 1 }
  | _ => t

/-- The operations of an event change no other shared field. -/
theorem step_fixed (t : Thing) (e : Event) : Fixed (t.turned e) (t.step e).1 := by
  cases e with
  | config | advance => exact ⟨rfl, rfl, rfl, rfl, rfl, rfl⟩
  | control | stop | current | detector => exact exec_fixed t ..
  | noloadTick | dataTick => exact exec_fixed ..
  | query | voltage | counterTick | limiterTick | measureTick => exact execAll_fixed _ t
  | backupTick => exact (exec_fixed ..).trans (backupRound_fixed _)

/-- Only a `config` command changes the configuration. -/
theorem step_conf (t : Thing) {e : Event} (he : ∀ c, e ≠ .config c) :
    (t.step e).1.conf = t.conf := by
  rw [(t.step_fixed e).conf]
  cases e with
  | config conf => exact absurd rfl (he conf)
  | _ => rfl

/-- Only a tick of the `DataSetter` passes its turn on. -/
theorem step_dataPort (t : Thing) (e : Event) :
    (t.step e).1.dataPort = if e = .dataTick then t.dataPort + 1 else t.dataPort := by
  rw [(t.step_fixed e).dataPort]
  cases e <;> rfl

end Thing

end ChargingPile
