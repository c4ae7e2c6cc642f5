import ChargingPile.Handshake.Basic

/-!
# What the handshake guarantees

An end that was connected by the handshake knows that the other end has received one of its packets
(`Ends.handshake_agreement`). It may be wrong about that until the first `sync`, since `connected`
is not initialised (`Ends.uninitialised_connected`).

The handshake can get stuck. An end sends `sync` once per boot, and once that packet is lost, or
its receiver reboots after it, the other end will not be connected any more
(`Ends.can_connect_iff`, `Ends.lost_sync_sticks`).
-/

namespace ChargingPile.Ends

/-! ## Agreement -/

/-- The output is a `sync` of the end `s`. -/
def Output.isSync (s : Side) : Output → Bool
  | .sent s' p => s' == s && p.sync
  | .received _ _ => false

/-- What the end `s`, with the state `a` and the packets `l` under way to it, has to do with what
was sent and received so far. `junk` is what the memory of its `connected` held at boot. -/
structure Inv (junk : Bool) (s : Side) (tr : List Output) (a : Handshake)
    (l : List HandshakePacket) :
    Prop where
  underway : ∀ p ∈ l, .sent s.other p ∈ tr
  sent : ∀ p, .sent s p ∈ tr → p.type = a.type ∧ (p.sync = true → a.responsed = true)
  responsed : a.responsed = true → ∃ p, .received s p ∈ tr ∧ .sent s.other p ∈ tr ∧ p.type = a.type
  connected : a.connected.assigned = true →
    ∃ p, .sent s.other p ∈ tr ∧ p.sync = true ∧ p.type = a.type
  unassigned : a.connected.assigned = false → a.connected.val = junk
  syncs : tr.countP (Output.isSync s) = if a.once then 1 else 0

namespace Inv

variable {junk : Bool} {s : Side} {tr : List Output} {a : Handshake} {l : List HandshakePacket}

/-- Packets under way are lost or copied. -/
theorem link (h : Inv junk s tr a l) {l' : List HandshakePacket} (hl : ∀ p ∈ l', p ∈ l) :
    Inv junk s tr a l' :=
  ⟨fun p hp => h.underway p (hl p hp), h.sent, h.responsed, h.connected, h.unassigned, h.syncs⟩

/-- One more output, with the end as it is but for `once`. -/
theorem concat (h : Inv junk s tr a l) {o : Output} {once : Bool}
    (hsent : ∀ p, o = .sent s p → p.type = a.type ∧ (p.sync = true → a.responsed = true))
    (hsyncs : (if a.once then 1 else 0) + [o].countP (Output.isSync s) = if once then 1 else 0) :
    Inv junk s (tr ++ [o]) { a with once := once } l := by
  have hup : ∀ {o'}, o' ∈ tr → o' ∈ tr ++ [o] := fun h => List.mem_append_left _ h
  refine ⟨fun p hp => hup (h.underway p hp), ?_, ?_, ?_, h.unassigned, ?_⟩
  · intro p hp
    rcases List.mem_append.1 hp with hp | hp
    · exact h.sent p hp
    · exact hsent p (List.mem_singleton.1 hp).symm
  · intro hr
    obtain ⟨p, hrec, hsent, htype⟩ := h.responsed hr
    exact ⟨p, hup hrec, hup hsent, htype⟩
  · intro hc
    obtain ⟨p, hsent, hsync⟩ := h.connected hc
    exact ⟨p, hup hsent, hsync⟩
  · rw [List.countP_append, h.syncs, hsyncs]

/-- The end itself sends nothing, and stays as it is. -/
theorem quiet (h : Inv junk s tr a l) {o : Output} (ho : ∀ p, o ≠ .sent s p) :
    Inv junk s (tr ++ [o]) a l := by
  have hsync : Output.isSync s o = false := by
    cases o with
    | sent s' p =>
      rw [Output.isSync, Bool.and_eq_false_iff, beq_eq_false_iff_ne]
      exact .inl fun hs => ho p (hs ▸ rfl)
    | received => rfl
  refine h.concat (fun p hp => absurd hp (ho p)) ?_
  rw [List.countP_singleton, hsync, if_neg Bool.false_ne_true, Nat.add_zero]

/-- The timer of the end. -/
theorem tick (h : Inv junk s tr a l) :
    Inv junk s (tr ++ [Output.sent s a.timerRun.2]) a.timerRun.1 l := by
  refine h.concat ?_ ?_
  · intro p hp
    cases hp
    simp [Handshake.timerRun]
  · rw [List.countP_singleton]
    cases ho : a.once <;> cases hr : a.responsed <;>
      simp [Output.isSync, Handshake.timerRun, ho, hr]

/-- A packet of the other end is on its way. -/
theorem arrive (h : Inv junk s tr a l) (p : HandshakePacket) :
    Inv junk s (tr ++ [Output.sent s.other p]) a (l ++ [p]) := by
  have h' : Inv junk s (tr ++ [Output.sent s.other p]) a l := by
    refine h.quiet fun q hq => ?_
    exact s.other_ne (Output.sent.inj hq).1
  refine ⟨?_, h'.sent, h'.responsed, h'.connected, h'.unassigned, h'.syncs⟩
  intro q hq
  rcases List.mem_append.1 hq with hq | hq
  · exact h'.underway q hq
  · rw [List.mem_singleton.1 hq]
    exact List.mem_append_right _ (.head _)

/-- The end handles a packet. -/
theorem handle (h : Inv junk s tr a l) {p : HandshakePacket} (hp : p ∈ l) :
    Inv junk s (tr ++ [Output.received s p]) (a.handle p).1 l := by
  have hq := h.quiet (o := .received s p) nofun
  have hsent := hq.underway p hp
  refine ⟨hq.underway, ?_, ?_, ?_, ?_, ?_⟩
  · intro q hmem
    obtain ⟨htype, hsync⟩ := hq.sent q hmem
    rw [Handshake.handle_type, Handshake.handle_responsed]
    exact ⟨htype, fun h => by rw [hsync h, Bool.true_or]⟩
  · rw [Handshake.handle_type, Handshake.handle_responsed, Bool.or_eq_true, beq_iff_eq]
    rintro (hr | htype)
    · exact hq.responsed hr
    · exact ⟨p, List.mem_append_right _ (.head _), hsent, htype⟩
  · rw [Handshake.handle_type]
    by_cases hsync : p.sync = true ∧ p.type = a.type
    · exact fun _ => ⟨p, hsent, hsync⟩
    · rw [(Handshake.handle_other fun hy ht => hsync ⟨hy, ht⟩).1]
      exact hq.connected
  · by_cases hsync : p.sync = true ∧ p.type = a.type
    · rw [(Handshake.handle_sync hsync.1 hsync.2).1]
      nofun
    · rw [(Handshake.handle_other fun hy ht => hsync ⟨hy, ht⟩).1]
      exact hq.unassigned
  · rw [Handshake.handle_once]
    exact hq.syncs

end Inv

/-- No event but a reboot breaks the invariant of an end. -/
theorem step_inv {junk : Side → Bool} {tr : List Output} {t : Ends} {e : Event}
    (h : ∀ s, Inv (junk s) s tr (t.ends s) (t.link s)) (he : ∀ s b, e ≠ .reboot s b) (s : Side) :
    Inv (junk s) s (tr ++ (t.step e).2) ((t.step e).1.ends s) ((t.step e).1.link s) := by
  cases e with
  | tick s' =>
    simp only [step]
    by_cases hs : s = s'
    · subst hs
      rw [Function.update_self, Function.update_of_ne (Side.other_ne s).symm]
      exact (h s).tick
    · obtain rfl : s' = s.other := by cases s <;> cases s' <;> trivial
      rw [Function.update_of_ne hs, Side.other_other, Function.update_self]
      exact (h s).arrive _
  | deliver s' n =>
    simp only [step]
    split
    · rw [List.append_nil]
      exact h s
    · rename_i p hp
      by_cases hs : s = s'
      · subst hs
        simp only [Function.update_self]
        exact ((h s).handle (List.mem_of_getElem? hp)).link fun _ => List.mem_of_mem_eraseIdx
      · simp only [Function.update_of_ne hs]
        exact (h s).quiet fun _ h => by cases h
  | lose s' n =>
    simp only [step, List.append_nil]
    by_cases hs : s = s'
    · subst hs
      rw [Function.update_self]
      exact (h s).link fun _ => List.mem_of_mem_eraseIdx
    · rw [Function.update_of_ne hs]
      exact h s
  | duplicate s' n =>
    simp only [step]
    split
    · rw [List.append_nil]
      exact h s
    · rename_i p hp
      rw [List.append_nil]
      by_cases hs : s = s'
      · subst hs
        simp only [Function.update_self]
        refine (h s).link fun q hq => ?_
        rcases List.mem_append.1 hq with hq | hq
        · exact hq
        · rw [List.mem_singleton.1 hq]
          exact List.mem_of_getElem? hp
      · simp only [Function.update_of_ne hs]
        exact h s
  | reboot s' b => exact absurd rfl (he s' b)

theorem boot_inv (type : Side → HandshakeType) (junk : Side → Bool) (s : Side) :
    Inv (junk s) s [] ((boot type junk).ends s) ((boot type junk).link s) where
  underway := nofun
  sent := nofun
  responsed := nofun
  connected := nofun
  unassigned _ := rfl
  syncs := rfl

/-- **Handshake agreement.** Without a reboot, an end whose memory of `connected` was clear at boot
and that has `connected` set was heard: the other end has received a packet of the same type from
it. And each end sends `sync` at most once. -/
theorem handshake_agreement (type : Side → HandshakeType) (junk : Side → Bool) (es : List Event)
    (hes : ∀ s b, .reboot s b ∉ es) :
    (∀ s, junk s = false → ((machine.run (boot type junk) es).ends s).connected.val = true →
      ∃ p, .received s.other p ∈ machine.trace (boot type junk) es ∧
        .sent s p ∈ machine.trace (boot type junk) es ∧ p.type = type s) ∧
    ∀ s, (machine.trace (boot type junk) es).countP (Output.isSync s) ≤ 1 := by
  have hinv : ∀ s, Inv (junk s) s (machine.trace (boot type junk) es)
      ((machine.run (boot type junk) es).ends s) ((machine.run (boot type junk) es).link s) := by
    refine Machine.trace_inv
      (I := fun tr (t : Ends) => ∀ s, Inv (junk s) s tr (t.ends s) (t.link s))
      (C := fun _ e => ∀ s b, e ≠ .reboot s b)
      (Machine.along_of_mem ?_) (boot_inv type junk) (fun _ _ _ h he => step_inv h he)
    rintro e he - s b rfl
    exact hes s b he
  refine ⟨?_, ?_⟩
  · intro s hjunk hconn
    have hassigned : ((machine.run (boot type junk) es).ends s).connected.assigned = true := by
      by_contra hne
      rw [(hinv s).unassigned (by simpa using hne), hjunk] at hconn
      cases hconn
    -- its `sync` was sent by an end that had received a packet before
    obtain ⟨q, hq, hsync, htype⟩ := (hinv s).connected hassigned
    obtain ⟨htype', hresp⟩ := (hinv s.other).sent q hq
    obtain ⟨p, hrec, hsent, hptype⟩ := (hinv s.other).responsed (hresp hsync)
    rw [Side.other_other] at hsent
    refine ⟨p, hrec, hsent, ?_⟩
    rw [hptype, ← htype', htype, run_type]
    rfl
  · intro s
    rw [(hinv s).syncs]
    split <;> omega

/-- Both ends hear each other and are connected. -/
theorem handshake_agreement_connected :
    ∃ p, .received .lower p ∈ machine.trace (boot (fun _ => .major) fun _ => false)
        [.tick .upper, .deliver .lower 0, .tick .lower, .deliver .upper 0] ∧
      .sent .upper p ∈ machine.trace (boot (fun _ => .major) fun _ => false)
        [.tick .upper, .deliver .lower 0, .tick .lower, .deliver .upper 0] ∧ p.type = .major :=
  (handshake_agreement (fun _ => .major) (fun _ => false)
    [.tick .upper, .deliver .lower 0, .tick .lower, .deliver .upper 0] (by simp)).1
    .upper rfl (by decide)

/-- An end whose memory of `connected` was not clear is connected after its boot, without a
packet of either end. -/
theorem uninitialised_connected :
    ((machine.run (boot (fun _ => .major) fun _ => true) []).ends .upper).connected.val = true ∧
    machine.trace (boot (fun _ => .major) fun _ => true) [] = [] := by
  decide

/-! ## Getting stuck -/

/-- Timer ticks, and deliveries in the order of sending. -/
def Event.InOrder : Event → Prop
  | .tick _ => True
  | .deliver _ n => n = 0
  | _ => False

/-- Timer ticks and deliveries: no loss, no duplication, no reboot. -/
def Event.Progress : Event → Prop
  | .tick _ | .deliver _ _ => True
  | _ => False

/-- The end `s` is going to be sent a `sync`, or one is on its way. -/
def Awaits (t : Ends) (s : Side) : Prop :=
  (∃ p ∈ t.link s, p.sync = true ∧ p.type = (t.ends s).type) ∨ (t.ends s.other).once = false

/-- The end handles packets one after the other. -/
def handleAll (a : Handshake) (l : List HandshakePacket) : Handshake :=
  l.foldl (fun a p => (a.handle p).1) a

section
variable {a : Handshake} {l : List HandshakePacket}

@[simp] theorem handleAll_cons (p : HandshakePacket) :
    handleAll a (p :: l) = handleAll (a.handle p).1 l := rfl

theorem handleAll_type : (handleAll a l).type = a.type := by
  induction l generalizing a with
  | nil => rfl
  | cons p l ih => rw [handleAll_cons, ih, Handshake.handle_type]

theorem handleAll_once : (handleAll a l).once = a.once := by
  induction l generalizing a with
  | nil => rfl
  | cons p l ih => rw [handleAll_cons, ih, Handshake.handle_once]

theorem handleAll_responsed (h : a.responsed = true ∨ ∃ p ∈ l, p.type = a.type) :
    (handleAll a l).responsed = true := by
  induction l generalizing a with
  | nil => simpa [handleAll] using h
  | cons p l ih =>
    rw [handleAll_cons]
    refine ih ?_
    rw [Handshake.handle_responsed, Handshake.handle_type, Bool.or_eq_true, beq_iff_eq]
    simp only [List.mem_cons, exists_eq_or_imp, ← or_assoc] at h
    exact h

theorem handleAll_connected
    (h : a.connected.val = true ∨ ∃ p ∈ l, p.sync = true ∧ p.type = a.type) :
    (handleAll a l).connected.val = true := by
  induction l generalizing a with
  | nil => simpa [handleAll] using h
  | cons p l ih =>
    rw [handleAll_cons]
    refine ih ?_
    rw [Handshake.handle_type]
    by_cases hp : p.sync = true ∧ p.type = a.type
    · rw [(Handshake.handle_sync hp.1 hp.2).1]
      exact .inl rfl
    · rw [(Handshake.handle_other fun hy ht => hp ⟨hy, ht⟩).1]
      simp only [List.mem_cons, exists_eq_or_imp] at h
      exact h.imp_right fun h => h.resolve_left hp

end

/-- Everything under way to `s` is delivered. -/
def drain (t : Ends) (s : Side) : List Event :=
  .replicate (t.link s).length (.deliver s 0)

theorem run_drain (t : Ends) (s : Side) :
    machine.run t (t.drain s) =
      ⟨Function.update t.ends s (handleAll (t.ends s) (t.link s)),
        Function.update t.link s []⟩ := by
  generalize hl : t.link s = l
  induction l generalizing t with
  | nil =>
    have hlink : Function.update t.link s [] = t.link := by rw [← hl, Function.update_eq_self]
    rw [drain, hl, handleAll, List.foldl_nil, Function.update_eq_self, hlink]
    rfl
  | cons p l ih =>
    have hstep : (t.step (.deliver s 0)).1 =
        ⟨Function.update t.ends s ((t.ends s).handle p).1, Function.update t.link s l⟩ := by
      simp [step, hl]
    have hlink : ((t.step (.deliver s 0)).1).link s = l := by
      simp only [hstep, Function.update_self]
    have := ih _ hlink
    rw [drain, hlink, hstep] at this
    rw [drain, hl, List.length_cons, List.replicate_succ, Machine.run_cons, machine_step, hstep,
      this]
    simp

theorem drain_inOrder (t : Ends) (s : Side) : ∀ e ∈ t.drain s, e.InOrder := by
  intro e he
  rw [List.eq_of_mem_replicate he]
  rfl

/-- With a `sync` on its way the end gets connected. -/
theorem connects_of_sync {t : Ends} {s : Side}
    (h : ∃ p ∈ t.link s, p.sync = true ∧ p.type = (t.ends s).type) :
    ((machine.run t (t.drain s)).ends s).connected.val = true := by
  simp only [run_drain, Function.update_self]
  exact handleAll_connected (.inr h)

/-- With its `sync` not yet sent, the other end sends it once it has received a packet of `s`. -/
theorem exists_sync {t : Ends} {s : Side} (htype : (t.ends s).type = (t.ends s.other).type)
    (hconn : (t.ends s.other).once = false) :
    ∃ fs, (∀ e ∈ fs, e.InOrder) ∧ ∃ p ∈ (machine.run t fs).link s,
      p.sync = true ∧ p.type = ((machine.run t fs).ends s).type := by
  set t₁ := (t.step (.tick s)).1 with ht₁
  refine ⟨.tick s :: (t₁.drain s.other ++ [Event.tick s.other]), ?_, ?_⟩
  · simp only [List.mem_cons, List.mem_append, List.not_mem_nil, or_false]
    rintro e (rfl | he | rfl)
    · trivial
    · exact drain_inOrder _ _ e he
    · trivial
  · -- the packet of `s` is among those delivered to the other end
    have hother : t₁.ends s.other = t.ends s.other := Function.update_of_ne s.other_ne ..
    have hresp : (handleAll (t.ends s.other) (t₁.link s.other)).responsed = true := by
      refine handleAll_responsed (.inr ⟨(t.ends s).timerRun.2, ?_, ?_⟩)
      · simp only [ht₁, step, Function.update_self]
        exact List.mem_append_right _ (.head _)
      · exact htype
    have honce : (handleAll (t.ends s.other) (t₁.link s.other)).once = false := by
      rw [handleAll_once, hconn]
    refine ⟨⟨true, (t.ends s).type⟩, ?_, rfl, (run_type t _ s).symm⟩
    rw [Machine.run_cons, machine_step, ← ht₁, Machine.run_concat, run_drain, machine_step]
    simp only [step, Side.other_other, Function.update_self, Handshake.timerRun, hother, hresp,
      honce, handleAll_type, htype]
    exact List.mem_append_right _ (.head _)

/-- Without hope of a `sync` an end stays as it is under ticks and deliveries. -/
theorem step_stuck {t : Ends} {s : Side} {e : Event} (he : e.Progress)
    (h : ¬ t.Awaits s ∧ (t.ends s).connected.val = false) :
    ¬ (t.step e).1.Awaits s ∧ ((t.step e).1.ends s).connected.val = false := by
  obtain ⟨hawaits, hconn⟩ := h
  simp only [Awaits, not_or, not_exists, not_and, Bool.not_eq_false] at hawaits ⊢
  obtain ⟨hlink, honce⟩ := hawaits
  cases e with
  | tick s' =>
    by_cases hs : s' = s
    · subst hs
      simp only [step, Function.update_self, Function.update_of_ne s'.other_ne,
        Function.update_of_ne s'.other_ne.symm]
      exact ⟨⟨hlink, honce⟩, hconn⟩
    · obtain rfl : s' = s.other := by cases s <;> cases s' <;> trivial
      simp only [step, Side.other_other, Function.update_self,
        Function.update_of_ne s.other_ne.symm]
      refine ⟨⟨?_, by simp [Handshake.timerRun, honce]⟩, hconn⟩
      intro p hp hsync
      rcases List.mem_append.1 hp with hp | hp
      · exact hlink p hp hsync
      · rw [List.mem_singleton.1 hp] at hsync
        simp [Handshake.timerRun, honce] at hsync
  | deliver s' n =>
    simp only [step]
    split
    · exact ⟨⟨hlink, honce⟩, hconn⟩
    · rename_i p hp
      by_cases hs : s' = s
      · subst hs
        simp only [Function.update_self, Function.update_of_ne s'.other_ne, Handshake.handle_type,
          (Handshake.handle_other (hlink p (List.mem_of_getElem? hp))).1]
        exact ⟨⟨fun q hq => hlink q (List.mem_of_mem_eraseIdx hq), honce⟩, hconn⟩
      · obtain rfl : s' = s.other := by cases s <;> cases s' <;> trivial
        simp only [Function.update_self, Function.update_of_ne s.other_ne.symm,
          Handshake.handle_once]
        exact ⟨⟨hlink, honce⟩, hconn⟩
  | lose | duplicate | reboot => exact he.elim

theorem run_stuck {t : Ends} {s : Side} {fs : List Event} (hfs : ∀ e ∈ fs, e.Progress)
    (h : ¬ t.Awaits s ∧ (t.ends s).connected.val = false) :
    ((machine.run t fs).ends s).connected.val = false :=
  (Machine.run_inv (M := machine) (C := fun _ e => Event.Progress e)
    (I := fun t : Ends => ¬ t.Awaits s ∧ (t.ends s).connected.val = false)
    (fun _ _ h he => step_stuck he h) (Machine.along_of_mem fun e he _ => hfs e he) h).2

/-- **When the handshake is stuck.** In every reachable state of two ends of one type, an end that
is not connected can be connected by ticks and deliveries, even by deliveries in the order of
sending, if the `sync` of the other end is under way to it or still to be sent. Otherwise no
continuation of ticks and deliveries connects it. -/
theorem can_connect_iff (type : HandshakeType) (junk : Side → Bool) (es : List Event) (s : Side)
    (hconn : ((machine.run (boot (fun _ => type) junk) es).ends s).connected.val = false) :
    ((machine.run (boot (fun _ => type) junk) es).Awaits s →
      ∃ fs, (∀ e ∈ fs, e.InOrder) ∧
        ((machine.run (boot (fun _ => type) junk) (es ++ fs)).ends s).connected.val = true) ∧
    (¬ (machine.run (boot (fun _ => type) junk) es).Awaits s →
      ∀ fs, (∀ e ∈ fs, e.Progress) →
        ((machine.run (boot (fun _ => type) junk) (es ++ fs)).ends s).connected.val = false) := by
  have htype : ∀ s', ((machine.run (boot (fun _ => type) junk) es).ends s').type = type :=
    fun s' => run_type _ es s'
  simp only [Machine.run_append]
  generalize machine.run (boot (fun _ => type) junk) es = t at hconn htype
  refine ⟨?_, ?_⟩
  · rintro (hsync | honce)
    · exact ⟨t.drain s, drain_inOrder t s, connects_of_sync hsync⟩
    · obtain ⟨fs, hfs, hsync⟩ := exists_sync ((htype s).trans (htype s.other).symm) honce
      refine ⟨fs ++ (machine.run t fs).drain s, ?_, ?_⟩
      · intro e he
        rcases List.mem_append.1 he with he | he
        · exact hfs e he
        · exact drain_inOrder _ s e he
      · rw [Machine.run_append]
        exact connects_of_sync hsync
  · intro hawaits fs hfs
    exact run_stuck hfs ⟨hawaits, hconn⟩

/-- The `sync` of the upper end is lost, but it reboots and sends another one: the lower end can be
connected. -/
theorem can_connect_reboot :
    let es : List Event := [.tick .upper, .lose .lower 0, .reboot .upper false]
    ((machine.run (boot (fun _ => .major) fun _ => false) es).ends .lower).connected.val = false ∧
    ∃ fs, (∀ e ∈ fs, e.InOrder) ∧
      ((machine.run (boot (fun _ => .major) fun _ => false) (es ++ fs)).ends
        .lower).connected.val = true := by
  intro es
  have hconn :
      ((machine.run (boot (fun _ => .major) fun _ => false) es).ends .lower).connected.val =
      false := by decide
  exact ⟨hconn, (can_connect_iff .major (fun _ => false) es .lower hconn).1 (.inr (by decide))⟩

/-- The `sync` of the lower end is lost. No continuation of ticks and deliveries connects the upper
end then. -/
theorem lost_sync_sticks :
    ¬ ∃ fs, (∀ e ∈ fs, e.Progress) ∧
      ((machine.run (boot (fun _ => .major) fun _ => false)
        ([.tick .upper, .deliver .lower 0, .tick .lower, .lose .upper 0] ++ fs)).ends
          .upper).connected.val = true := by
  rintro ⟨fs, hfs, hconn⟩
  rw [Machine.run_append, run_stuck hfs ⟨?_, by decide⟩] at hconn
  · cases hconn
  · rintro (⟨p, hp, -⟩ | honce)
    · exact absurd hp (List.not_mem_nil)
    · exact absurd honce (by decide)

end ChargingPile.Ends
