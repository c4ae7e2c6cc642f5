import ChargingPile.Packet.RoundTrip

/-!
# After a truncated frame

A frame breaks off and another one follows. The reader that is at work reads on into the second
frame, takes its head for a data byte and fails, with the head consumed: the second frame is lost.
It is delivered only if no reader was at work, because nothing of the first frame came or because
the receiver had dropped it as one of an unknown type (`resync_iff`).
-/

namespace ChargingPile

namespace Packet

variable {T : Type} (P : Protocol T) (B : Build) (typeInfos : List T)

/-- What a call ends with that finds a data byte where a frame should begin. -/
def skipped : Outcome P := if B.exceptions then .halted (.thrown .invalidFrame) else .returned

/-- What a call ends with that meets an unknown type. -/
def unknown : Outcome P := if B.exceptions then .halted (.thrown .typeInfoNotFound) else .returned

/-- A call that finds a data byte where a frame should begin consumes that byte. -/
theorem handleFrame_data (b : UInt8) (w : List UInt8) :
    handleFrame P B typeInfos (stuffOne ControlChar.head ControlChar.escape b ++ w) =
      (skipped P B, w) := by
  simp only [handleFrame, absorbFrame, Absorber.construct, EStateM.run_bind,
    Absorber.readByte_stuffOne, skipped]
  cases B.exceptions <;> rfl

theorem skipped_ne (h : Halt) (hh : h ≠ .thrown .invalidFrame) : skipped P B ≠ .halted h := by
  unfold skipped
  split
  · intro heq
    cases heq
    exact hh rfl
  · nofun

/-- The receive loop passes over data bytes one by one. -/
theorem receive_data (l w : List UInt8) (n : Nat) :
    receive P B typeInfos (l.length + n) (stuffed l ++ w) =
      (List.replicate l.length (skipped P B) ++ (receive P B typeInfos n w).1,
        (receive P B typeInfos n w).2) := by
  induction l with
  | nil => simp
  | cons b l ih =>
    have hlen : (b :: l).length + n = (l.length + n) + 1 := by
      rw [List.length_cons]
      omega
    rw [hlen, stuffed, stuff_cons, List.append_assoc,
      receive_cons P B typeInfos _ (handleFrame_data P B typeInfos b _)
        (skipped_ne P B _ nofun) (skipped_ne P B _ nofun), ih]
    rfl

/-- A call on a frame of an unknown type ends after the hash. -/
theorem handleFrame_unknown {t : T} (ht : t ∉ typeInfos) (w : List UInt8) :
    handleFrame P B typeInfos
        (ControlChar.head :: (stuffed (leBytes 4 (P.hash t).toNat) ++ w)) =
      (unknown P B, w) := by
  have hfind : find P typeInfos (P.hash t) = none := by
    refine List.find?_eq_none.2 ?_
    intro t' ht' heq
    exact ht (P.hash_injective (by simpa using heq) ▸ ht')
  simp only [handleFrame, absorbFrame, EStateM.run_bind, Absorber.construct_run,
    Absorber.isInvalid_run, Bool.false_eq_true, if_false, hfind, unknown]
  cases B.exceptions <;> rfl

/-! ## The reader that is cut -/

/-- The constructor of the absorber, cut in the hash. -/
theorem construct_cut {l : List UInt8} (hl : l.length < 4) (w : List UInt8) (c : UInt16) :
    ∃ c', (Absorber.construct B).run
        ⟨ControlChar.head :: (stuffed l ++ ControlChar.head :: w), c, false⟩ =
      .error (Absorber.cut B) ⟨w, c', false⟩ := by
  obtain ⟨c', hc'⟩ := Absorber.readData_cut (B := B) (w := w)
    (c := Crc16.update c ControlChar.head) hl
  refine ⟨c', ?_⟩
  simp only [Absorber.construct, EStateM.run_bind, Absorber.readByte_head,
    Absorber.isInvalid_run, Bool.false_eq_true, if_false, hc']

/-- The deserializer, cut in the message. -/
theorem parse_cut {t : T} (m : P.Msg t) {k : Nat} (hk : k < (P.build t m).length)
    (w : List UInt8) (c : UInt16) :
    ∃ c', ((P.parse t).interp (Absorber.readData B) Absorber.isInvalid).run
        ⟨stuffed ((P.build t m).take k) ++ ControlChar.head :: w, c, false⟩ =
      .error (Absorber.cut B) ⟨w, c', false⟩ := by
  have hrun : (P.parse t).run ((P.build t m).take k ++ (P.build t m).drop k) = some (m, []) := by
    rw [List.take_append_drop]
    exact P.parse_build t m
  have hserves : Absorber.Serves (ControlChar.head :: w)
      (Crc16.updates c (stuffed ((P.build t m).take k))) ((P.build t m).take k)
      ⟨stuffed ((P.build t m).take k) ++ ControlChar.head :: w, c, false⟩ := ⟨c, rfl, rfl⟩
  have hshort : ∀ n l s, Absorber.Serves (ControlChar.head :: w)
      (Crc16.updates c (stuffed ((P.build t m).take k))) l s → l.length < n →
      ∃ s', (Absorber.readData B n).run s = .error (Absorber.cut B) s' ∧
        ∃ c', s' = ⟨w, c', false⟩ := by
    rintro n l _ ⟨c, rfl, -⟩ hn
    obtain ⟨c', hc'⟩ := Absorber.readData_cut (B := B) (w := w) (c := c) hn
    exact ⟨_, hc', c', rfl⟩
  obtain ⟨s, hs, c', rfl⟩ := Reader.interp_of_none (fun _ _ _ hs hn => hs.readData hn) hshort
    (fun _ _ hs => hs.isInvalid) (Reader.run_eq_none_of_append hrun (by simp; omega)) hserves
  exact ⟨c', hs⟩

/-- The check of the CRC, cut in the CRC. -/
theorem check_cut {l : List UInt8} (hl : l.length < 2) (w : List UInt8) (c : UInt16) :
    ∃ c', (Absorber.check B).run ⟨stuffed l ++ ControlChar.head :: w, c, false⟩ =
      .error (Absorber.cut B) ⟨w, c', false⟩ := by
  obtain ⟨c', hc'⟩ := Absorber.readData_cut (B := B) (w := w) (c := c) hl
  refine ⟨c', ?_⟩
  simp only [Absorber.check, EStateM.run_bind, EStateM.run_get, hc']

/-- The rest of a frame, cut in the message or in the CRC. -/
theorem absorbMessage_cut {t : T} (m : P.Msg t) {crc : List UInt8} (hcrc : crc.length = 2)
    {k : Nat} (hk : k < (P.build t m ++ crc).length) (w : List UInt8) (c : UInt16) :
    ∃ c', (absorbMessage P B t).run
        ⟨stuffed ((P.build t m ++ crc).take k) ++ ControlChar.head :: w, c, false⟩ =
      .error (Absorber.cut B) ⟨w, c', false⟩ := by
  rw [List.length_append, hcrc] at hk
  by_cases hkm : k < (P.build t m).length
  · obtain ⟨c', hc'⟩ := parse_cut P B m hkm w c
    refine ⟨c', ?_⟩
    rw [List.take_append_of_le_length hkm.le]
    simp only [absorbMessage, EStateM.run_bind, hc']
  · have hl : (crc.take (k - (P.build t m).length)).length < 2 := by
      rw [List.length_take]
      omega
    obtain ⟨c', hc'⟩ := check_cut B hl w (Crc16.updates c (stuffed (P.build t m)))
    refine ⟨c', ?_⟩
    rw [List.take_append, List.take_of_length_le (by omega), stuffed_append, List.append_assoc]
    simp only [absorbMessage, EStateM.run_bind, parse_run, hc']

/-- The body of a frame is its hash and the rest. -/
theorem body_eq (t : T) (m : P.Msg t) :
    body P t m = leBytes 4 (P.hash t).toNat ++
      (P.build t m ++ leBytes 2 (Crc16.get (contentCrc P t m)).toNat) := by
  rw [body, content, List.append_assoc]

/-- A beginning of the body that has the whole hash. -/
theorem take_body (t : T) (m : P.Msg t) {k : Nat} (hk : 4 ≤ k) :
    (body P t m).take k = leBytes 4 (P.hash t).toNat ++
      (P.build t m ++ leBytes 2 (Crc16.get (contentCrc P t m)).toNat).take (k - 4) := by
  rw [body_eq, List.take_append, length_leBytes,
    List.take_of_length_le (by rw [length_leBytes]; exact hk)]

/-- A call on a frame of a registered type that breaks off, or on one that breaks off in the hash,
fails at the head of the next frame and consumes it. -/
theorem handleFrame_cut {t : T} (m : P.Msg t) {k : Nat} (hk : k < (body P t m).length)
    (h : k < 4 ∨ t ∈ typeInfos) (w : List UInt8) :
    handleFrame P B typeInfos
        (ControlChar.head :: (stuffed ((body P t m).take k) ++ ControlChar.head :: w)) =
      (.halted (Absorber.cut B), w) := by
  by_cases hk4 : k < 4
  · have hl : ((body P t m).take k).length < 4 := by
      rw [List.length_take]
      omega
    obtain ⟨c', hc'⟩ := construct_cut B hl w Crc16.initVal
    simp only [handleFrame, absorbFrame, EStateM.run_bind, hc']
  · rw [body_eq, List.length_append, length_leBytes] at hk
    obtain ⟨c', hc'⟩ := absorbMessage_cut P B m (k := k - 4)
      (length_leBytes 2 (Crc16.get (contentCrc P t m)).toNat) (by omega) w
      (Crc16.updates (Crc16.update Crc16.initVal ControlChar.head)
        (stuffed (leBytes 4 (P.hash t).toNat)))
    rw [handleFrame, take_body P t m (by omega), stuffed_append, List.append_assoc,
      absorbFrame_run P B typeInfos (h.resolve_left hk4)]
    simp only [hc']

/-! ## The statement -/

/-- A proper beginning of a frame that does not end in an escape pair is empty, or it is the head
and some whole bytes of the body. -/
theorem prefix_frame (t : T) (m : P.Msg t) {p : List UInt8} (hp : p <+: frame P t m)
    (hne : p ≠ frame P t m) (he : endsInEscape ControlChar.escape p = false) :
    p = [] ∨ ∃ k, k < (body P t m).length ∧
      p = ControlChar.head :: stuffed ((body P t m).take k) := by
  rcases List.prefix_cons_iff.1 hp with rfl | ⟨q, rfl, hq⟩
  · exact .inl rfl
  · have he' : endsInEscape ControlChar.escape q = false := by
      cases q with
      | nil => rfl
      | cons b q => exact he
    obtain ⟨k, hk, rfl⟩ := prefix_stuff hq he'
    refine .inr ⟨k, lt_of_le_of_ne hk ?_, rfl⟩
    rintro rfl
    rw [List.take_length] at hne
    exact hne rfl

/-- The whole hash has come exactly if four bytes of the body have. -/
theorem hash_prefix_iff (t : T) (m : P.Msg t) (k : Nat) :
    ControlChar.head :: stuffed (leBytes 4 (P.hash t).toNat) <+:
      ControlChar.head :: stuffed ((body P t m).take k) ↔ 4 ≤ k := by
  rw [List.cons_prefix_cons]
  refine ⟨?_, ?_⟩
  · rintro ⟨-, hp⟩
    by_contra hk
    -- the bytes of the hash that are missing take room on the wire
    have htake : (body P t m).take k = (leBytes 4 (P.hash t).toNat).take k := by
      rw [body_eq, List.take_append_of_le_length (by rw [length_leBytes]; omega)]
    have hsplit : stuffed (leBytes 4 (P.hash t).toNat) =
        stuffed ((leBytes 4 (P.hash t).toNat).take k) ++
          stuffed ((leBytes 4 (P.hash t).toNat).drop k) := by
      rw [← stuffed_append, List.take_append_drop]
    have hrest := length_le_stuffed ((leBytes 4 (P.hash t).toNat).drop k)
    have hle := hp.length_le
    rw [htake, hsplit, List.length_append] at hle
    rw [List.length_drop, length_leBytes] at hrest
    omega
  · intro hk
    refine ⟨rfl, ?_⟩
    rw [take_body P t m hk, stuffed_append]
    exact List.prefix_append ..

/-- After the head of a frame was consumed, nothing of it is delivered. -/
theorem called_notMem_lost {t t' : T} (m : P.Msg t) (m' : P.Msg t') {n : Nat}
    (hn : (body P t m).length < n) :
    .called t' m' ∉ (receive P B typeInfos n (stuffed (body P t m))).1 := by
  obtain ⟨n, rfl⟩ := Nat.exists_eq_add_of_lt hn
  have h := receive_data P B typeInfos (body P t m) [] (n + 1)
  rw [List.append_nil, ← Nat.add_assoc] at h
  rw [h, List.mem_append, not_or]
  refine ⟨?_, ?_⟩
  · intro hmem
    have heq := List.eq_of_mem_replicate hmem
    unfold skipped at heq
    split at heq <;> cases heq
  · simp [receive, handleFrame_nil]

/-- A frame that is read from its head on is delivered. -/
theorem called_mem_frame {t : T} (ht : t ∈ typeInfos) (m : P.Msg t) (n : Nat) :
    .called t m ∈ (receive P B typeInfos (n + 1) (frame P t m)).1 := by
  have h := handleFrame_frame P B typeInfos ht m []
  rw [List.append_nil] at h
  rw [receive_cons P B typeInfos n h nofun nofun]
  exact List.mem_cons_self

/-- After a frame of an unknown type that breaks off behind its hash, the next frame is delivered:
the bytes in between are passed over one by one. -/
theorem called_mem_unknown {t₁ t₂ : T} (ht₁ : t₁ ∉ typeInfos) (ht₂ : t₂ ∈ typeInfos)
    (m₂ : P.Msg t₂) (l : List UInt8) {n : Nat} (hn : l.length + 1 < n) :
    .called t₂ m₂ ∈ (receive P B typeInfos n (ControlChar.head ::
      (stuffed (leBytes 4 (P.hash t₁).toNat) ++ (stuffed l ++ frame P t₂ m₂)))).1 := by
  obtain ⟨n, rfl⟩ : ∃ n', n = l.length + (n' + 1) + 1 := ⟨n - l.length - 2, by omega⟩
  have hun : ∀ h, h ≠ .thrown .typeInfoNotFound → unknown P B ≠ .halted h := by
    intro h hh
    unfold unknown
    split
    · intro heq
      cases heq
      exact hh rfl
    · nofun
  rw [receive_cons P B typeInfos _ (handleFrame_unknown P B typeInfos ht₁ _) (hun _ nofun)
    (hun _ nofun), receive_data]
  refine List.mem_cons_of_mem _ (List.mem_append_right _ ?_)
  exact called_mem_frame P B typeInfos ht₂ m₂ n

/-- After a frame that breaks off while a reader is at work, the next frame is not delivered. -/
theorem called_notMem_cut {t₁ t₂ : T} (m₁ : P.Msg t₁) (m₂ : P.Msg t₂) {k : Nat}
    (hk : k < (body P t₁ m₁).length) (h : k < 4 ∨ t₁ ∈ typeInfos) {n : Nat}
    (hn : (body P t₂ m₂).length + 1 < n) :
    .called t₂ m₂ ∉ (receive P B typeInfos n (ControlChar.head ::
      (stuffed ((body P t₁ m₁).take k) ++ frame P t₂ m₂))).1 := by
  obtain ⟨n, rfl⟩ : ∃ n', n = n' + 1 := ⟨n - 1, by omega⟩
  have hcut := handleFrame_cut P B typeInfos m₁ hk h (stuffed (body P t₂ m₂))
  unfold Absorber.cut at hcut
  split at hcut
  · rw [frame, receive_cons P B typeInfos n hcut (by simp) (by simp), List.mem_cons, not_or]
    exact ⟨by simp, called_notMem_lost P B typeInfos m₂ m₂ (by omega)⟩
  · rw [frame, receive, hcut]
    simp

/-- **After a truncated frame.** The receiver gets a proper beginning of a frame that does
not end in an escape pair, and then a frame of a registered type. The message of the second
frame is delivered exactly if the beginning is empty, or it has the whole hash of a type that
is not registered. -/
theorem resync_iff {t₁ t₂ : T} (m₁ : P.Msg t₁) (m₂ : P.Msg t₂) (ht₂ : t₂ ∈ typeInfos)
    {p : List UInt8} (hp : p <+: frame P t₁ m₁) (hne : p ≠ frame P t₁ m₁)
    (he : endsInEscape ControlChar.escape p = false) {n : Nat}
    (hn : (p ++ frame P t₂ m₂).length < n) :
    .called t₂ m₂ ∈ (receive P B typeInfos n (p ++ frame P t₂ m₂)).1 ↔
      p = [] ∨ t₁ ∉ typeInfos ∧
        ControlChar.head :: stuffed (leBytes 4 (P.hash t₁).toNat) <+: p := by
  rcases prefix_frame P t₁ m₁ hp hne he with rfl | ⟨k, hk, rfl⟩
  · obtain ⟨n, rfl⟩ := Nat.exists_eq_add_of_lt hn
    refine ⟨fun _ => .inl rfl, ?_⟩
    intro _
    exact called_mem_frame P B typeInfos ht₂ m₂ _
  · have hlen₁ := length_le_stuffed ((body P t₁ m₁).take k)
    have hlen₂ := length_le_stuffed (body P t₂ m₂)
    rw [List.length_take, Nat.min_eq_left hk.le] at hlen₁
    simp only [frame, List.cons_append, List.length_cons, List.length_append] at hn
    rw [hash_prefix_iff, List.cons_append]
    by_cases hdrop : t₁ ∉ typeInfos ∧ 4 ≤ k
    · refine ⟨fun _ => .inr hdrop, ?_⟩
      intro _
      rw [take_body P t₁ m₁ hdrop.2, stuffed_append, List.append_assoc]
      refine called_mem_unknown P B typeInfos hdrop.1 ht₂ m₂ _ ?_
      rw [List.length_take]
      omega
    · have h : k < 4 ∨ t₁ ∈ typeInfos := by
        rw [not_and_or, not_not] at hdrop
        exact hdrop.symm.imp_left Nat.lt_of_not_le
      refine ⟨?_, fun h => absurd (h.resolve_left (List.cons_ne_nil _ _)) hdrop⟩
      intro hmem
      exact absurd hmem (called_notMem_cut P B typeInfos m₁ m₂ hk h (by omega))

/-- A message of either type of `Protocol.pair`. -/
def seven (t : Bool) : Protocol.pair.Msg t := (7 : UInt8)

/-- A head of a frame of an unknown type, and then a frame. -/
theorem resync_iff_pair :
    .called true (seven true) ∈
        (receive .pair .upper [true] 20 ([ControlChar.head] ++ frame .pair true (seven true))).1 ↔
      [ControlChar.head] = [] ∨ false ∉ [true] ∧
        ControlChar.head :: stuffed (leBytes 4 (Protocol.pair.hash false).toNat) <+:
          [ControlChar.head] :=
  resync_iff .pair .upper [true] (seven false) (seven true) (by simp) ⟨_, rfl⟩
    (by decide +kernel) (by decide) (by decide +kernel)

/-- The outcome is an invocation of a callback. -/
def Outcome.isCalled {P : Protocol T} : Outcome P → Bool
  | .called _ _ => true
  | _ => false

/-- A head alone makes the frame after it go unread, although both types are registered. All bytes
are consumed. -/
theorem frame_after_head_lost :
    let wire := [ControlChar.head] ++ frame .pair true (seven true)
    [ControlChar.head] <+: frame .pair false (seven false) ∧
      [ControlChar.head] ≠ frame .pair false (seven false) ∧
      endsInEscape ControlChar.escape [ControlChar.head] = false ∧
      .called true (seven true) ∉
        (receive .pair .upper [true, false] (wire.length + 1) wire).1 ∧
      (receive .pair .upper [true, false] (wire.length + 1) wire).2 = [] := by
  refine ⟨⟨_, rfl⟩, by decide +kernel, rfl, ?_, by decide +kernel⟩
  intro hmem
  have hnone : ((receive .pair .upper [true, false]
      (([ControlChar.head] ++ frame .pair true (seven true)).length + 1)
      ([ControlChar.head] ++ frame .pair true (seven true))).1.any Outcome.isCalled) = false := by
    decide +kernel
  have := List.any_eq_false.1 hnone _ hmem
  exact absurd rfl this

end Packet

end ChargingPile
