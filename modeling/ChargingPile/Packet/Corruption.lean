import ChargingPile.Cloud
import ChargingPile.Packet.Resync

/-!
# Corrupted frames

The CRC register determines which byte came last and what the register was before it: the upper
bytes of the table are all different (`Crc16.place_table`). So two registers that differ once stay
different as long as the same bytes follow, and a frame of which one byte was replaced on the wire
ends with a CRC that does not match (`Packet.handleFrame_corrupted`). The message has to be of a
type of a fixed size; otherwise the replaced byte may be one that decides how many bytes the
deserializer takes.
-/

namespace ChargingPile

namespace Crc16

/-- The place in the table of an entry, from its upper byte. The table is linear, so the places of
the powers of two are enough. -/
def place (val : UInt16) : UInt8 :=
  [(8, 0x03), (9, 0x06), (10, 0x0f), (11, 0x1e), (12, 0x3f), (13, 0x7e), (14, 0xff),
    (15, 0xfe)].foldl (fun i e => if val.toNat.testBit e.1 then i ^^^ e.2 else i) 0

theorem map_place_table : crc16Table.toList.map place = (List.range 256).map UInt8.ofNat := by
  decide +kernel

theorem place_table (i : Fin 256) : place (crc16Table.getD i 0) = UInt8.ofNat i := by
  have hmap := congrArg (·[i.val]?) map_place_table
  simp only [List.getElem?_map, List.getElem?_range i.isLt, Option.map_some] at hmap
  obtain ⟨t, ht, hplace⟩ := Option.map_eq_some_iff.1 hmap
  rw [Array.getD_eq_getD_getElem?, ← Array.getElem?_toList, ht]
  exact hplace

/-- The register tells which entry of the table came last. -/
theorem place_update (c : UInt16) (b : UInt8) : place (update c b) = c.toUInt8 ^^^ b := by
  have hbit : ∀ t : UInt16, ∀ k, 8 ≤ k → ((c >>> 8) ^^^ t).toNat.testBit k =
      t.toNat.testBit k := by
    intro t k hk
    have hlt : (c >>> 8).toNat < 2 ^ k := by
      have hc : c.toNat < 2 ^ 16 := c.toNat_lt
      have hhigh : (c >>> 8).toNat < 2 ^ 8 := by
        simp [UInt16.toNat_shiftRight, Nat.shiftRight_eq_div_pow]
        omega
      exact Nat.lt_of_lt_of_le hhigh (Nat.pow_le_pow_right (by decide) hk)
    rw [UInt16.toNat_xor, Nat.testBit_xor, Nat.testBit_lt_two_pow hlt, Bool.false_xor]
  have hplace : ∀ t : UInt16, place ((c >>> 8) ^^^ t) = place t := by
    intro t
    refine List.foldl_ext _ _ _ ?_
    intro i e he
    have hk : 8 ≤ e.1 := by
      revert e
      decide
    rw [hbit t e.1 hk]
  have htable := place_table ⟨(c.toUInt8 ^^^ b).toNat, (c.toUInt8 ^^^ b).toNat_lt⟩
  rw [UInt8.ofNat_toNat] at htable
  rw [update, hplace, htable]

/-- The register determines the entry of the table that came last and what was left of the register
before. -/
theorem update_inj {c d : UInt16} {a b : UInt8} (h : update c a = update d b) :
    c >>> 8 = d >>> 8 ∧ c.toUInt8 ^^^ a = d.toUInt8 ^^^ b := by
  have hplace : c.toUInt8 ^^^ a = d.toUInt8 ^^^ b := by
    rw [← place_update, ← place_update, h]
  rw [update, update, hplace] at h
  exact ⟨(UInt16.xor_left_inj _).1 h, hplace⟩

theorem update_inj_byte {c : UInt16} {a b : UInt8} (h : update c a = update c b) : a = b :=
  (UInt8.xor_right_inj _).1 (update_inj h).2

theorem update_inj_val {c d : UInt16} {b : UInt8} (h : update c b = update d b) : c = d := by
  obtain ⟨hhigh, hlow⟩ := update_inj h
  have hhigh := congrArg UInt16.toNat hhigh
  have hlow := congrArg UInt8.toNat ((UInt8.xor_left_inj _).1 hlow)
  simp [UInt16.toNat_shiftRight, Nat.shiftRight_eq_div_pow] at hhigh hlow
  exact UInt16.toNat_inj.1 (by omega)

/-- Registers that differ still differ after the same bytes. -/
theorem updates_inj {l : List UInt8} {c d : UInt16} (h : updates c l = updates d l) : c = d := by
  induction l generalizing c d with
  | nil => exact h
  | cons b l ih => exact update_inj_val (ih h)

/-- One byte that is replaced changes the register at the end. -/
theorem updates_replace_ne {a b : UInt8} (hab : a ≠ b) (c : UInt16) (l m : List UInt8) :
    updates c (l ++ a :: m) ≠ updates c (l ++ b :: m) := by
  intro h
  rw [updates_append, updates_append] at h
  exact hab (update_inj_byte (updates_inj h))

theorem get_inj {c d : UInt16} (h : get c = get d) : c = d :=
  (UInt16.xor_left_inj _).1 h

end Crc16

/-! ## Frames -/

/-- A byte that is on the wire as it is. -/
def Unescaped (b : UInt8) : Prop := ¬ (b = ControlChar.head ∨ b = ControlChar.escape)

instance (b : UInt8) : Decidable (Unescaped b) := inferInstanceAs (Decidable (¬ _))

theorem stuffed_replace {b : UInt8} (hb : Unescaped b) (l m : List UInt8) :
    stuffed (l ++ b :: m) = stuffed l ++ b :: stuffed m := by
  have hone : stuffOne ControlChar.head ControlChar.escape b = [b] := if_neg hb
  rw [stuffed_append, stuffed, stuffed, stuff_cons, hone]
  rfl

namespace Packet

variable {T : Type} (P : Protocol T) (B : Build) (typeInfos : List T)

/-- How `handleFrame` ends that rejects a frame. -/
def rejected (e : PacketError) : Outcome P :=
  if B.exceptions then .halted (.thrown e) else .returned

/-- A message whose CRC is not the one that follows it. -/
theorem absorbMessage_mismatch {t : T} {m : P.Msg t} {d k : List UInt8}
    (hd : (P.parse t).run d = some (m, [])) (hk : k.length = 2) {c : UInt16}
    (hne : Crc16.get (Crc16.updates c (stuffed d)) ≠ UInt16.ofNat (ofLeBytes k)) (w : List UInt8) :
    ∃ c', (absorbMessage P B t).run ⟨stuffed d ++ (stuffed k ++ w), c, false⟩ =
      if B.exceptions then .error (.thrown .invalidFrame) ⟨w, c', false⟩
        else .ok none ⟨w, c', false⟩ := by
  obtain ⟨c', hcheck⟩ := Absorber.check_stuffed (B := B) hk w (Crc16.updates c (stuffed d))
  refine ⟨c', ?_⟩
  rw [decide_eq_false hne] at hcheck
  simp only [absorbMessage, EStateM.run_bind, parse_stuffed P B hd, hcheck, Bool.false_eq_true,
    if_false]
  split <;> rfl

/-- A frame of a registered type with another message or another CRC. -/
theorem handleFrame_mismatch {t : T} (ht : t ∈ typeInfos) {m : P.Msg t} {d k : List UInt8}
    (hd : (P.parse t).run d = some (m, [])) (hk : k.length = 2)
    (hne : Crc16.get (Crc16.updates (Crc16.update Crc16.initVal ControlChar.head)
      (stuffed (leBytes 4 (P.hash t).toNat ++ d))) ≠ UInt16.ofNat (ofLeBytes k)) (w : List UInt8) :
    handleFrame P B typeInfos
        (ControlChar.head :: (stuffed (leBytes 4 (P.hash t).toNat) ++ (stuffed (d ++ k) ++ w))) =
      (rejected P B .invalidFrame, w) := by
  rw [stuffed_append, Crc16.updates_append] at hne
  obtain ⟨c', habsorb⟩ := absorbMessage_mismatch P B hd hk hne w
  rw [handleFrame, stuffed_append, List.append_assoc, absorbFrame_run P B typeInfos ht, habsorb,
    rejected]
  cases B.exceptions <;> rfl

/-- Two bytes that are read as the same word stand for the same number. -/
theorem ofNat_ofLeBytes_inj {k k' : List UInt8} (hk : k.length = 2) (hk' : k'.length = 2)
    (h : UInt16.ofNat (ofLeBytes k) = UInt16.ofNat (ofLeBytes k')) :
    ofLeBytes k = ofLeBytes k' := by
  have hlt := ofLeBytes_lt k
  have hlt' := ofLeBytes_lt k'
  rw [hk] at hlt
  rw [hk'] at hlt'
  have hnat := congrArg UInt16.toNat h
  rwa [UInt16.toNat_ofNat_of_lt' hlt, UInt16.toNat_ofNat_of_lt' hlt'] at hnat

/-- **A replaced byte is detected.** A frame of a message of a fixed size, of which one byte after
the type hash was replaced on the wire, is rejected: no callback is called, and the frame is
consumed if its type is registered. -/
theorem handleFrame_corrupted (handshake : T) (connected : Bool) (t : T) (ty : Ty .value (P.Msg t))
    (n : Nat) (hsize : ty.size = some n) (hbuild : ∀ m, P.build t m = Serializer.build ty m)
    (hparse : P.parse t = Deserializer.parse ty) (m : P.Msg t) (p q : List UInt8) (a b : UInt8)
    (hemit : emit P handshake connected t m =
      ControlChar.head :: (stuffed (leBytes 4 (P.hash t).toNat) ++ (p ++ a :: q)))
    (ha : Unescaped a) (hb : Unescaped b) (hab : a ≠ b) (w : List UInt8) :
    (t ∈ typeInfos → handleFrame P B typeInfos
        (ControlChar.head :: (stuffed (leBytes 4 (P.hash t).toNat) ++ ((p ++ b :: q) ++ w))) =
      (rejected P B .invalidFrame, w)) ∧
    (t ∉ typeInfos → handleFrame P B typeInfos
        (ControlChar.head :: (stuffed (leBytes 4 (P.hash t).toNat) ++ ((p ++ b :: q) ++ w))) =
      (rejected P B .typeInfoNotFound, (p ++ b :: q) ++ w)) := by
  refine ⟨fun ht => ?_, fun ht => handleFrame_unknown P B typeInfos ht _⟩
  -- the replaced byte is one of the message or one of the CRC
  have hframe : stuffed (P.build t m ++ leBytes 2 (Crc16.get (contentCrc P t m)).toNat) =
      p ++ a :: q := by
    rw [emit_eq] at hemit
    split at hemit
    · simp only [frame, body, content, List.append_assoc, stuffed_append, List.cons.injEq,
        true_and, List.append_cancel_left_eq] at hemit
      rw [stuffed_append, hemit]
    · cases hemit
  obtain ⟨l₁, l₂, hl, rfl, rfl⟩ := stuff_eq_append_cons ha hframe
  rw [← stuffed_replace hb]
  have hlen := length_leBytes 2 (Crc16.get (contentCrc P t m)).toNat
  have hcrc := Absorber.ofNat_ofLeBytes_crc (contentCrc P t m)
  generalize leBytes 2 (Crc16.get (contentCrc P t m)).toNat = k at hl hlen hcrc
  have hcontent : Crc16.updates (Crc16.update Crc16.initVal ControlChar.head)
      (stuffed (leBytes 4 (P.hash t).toNat ++ P.build t m)) = contentCrc P t m := rfl
  rcases append_eq_append_cons hl with ⟨k₁, rfl, rfl⟩ | ⟨d₂, hd, rfl⟩
  · have hlen' : (k₁ ++ b :: l₂).length = 2 := by simpa using hlen
    rw [List.append_assoc]
    refine handleFrame_mismatch P B typeInfos ht (P.parse_build t m) hlen' ?_ w
    rw [hcontent, ← hcrc]
    intro heq
    have hk := ofLeBytes_inj (by simp) (ofNat_ofLeBytes_inj hlen hlen' heq)
    exact hab (List.cons.inj (List.append_cancel_left hk)).1
  · have hlen' : (l₁ ++ b :: d₂).length = n := by
      rw [← Serializer.length_build hsize m, ← hbuild, hd]
      simp
    obtain ⟨m', hm'⟩ := Deserializer.run_parse_of_size hsize hlen' []
    rw [List.append_nil, ← hparse] at hm'
    rw [show l₁ ++ b :: (d₂ ++ k) = (l₁ ++ b :: d₂) ++ k by simp]
    refine handleFrame_mismatch P B typeInfos ht hm' hlen ?_ w
    rw [hcrc, ← hcontent, hd]
    intro heq
    have hregs := Crc16.get_inj heq
    rw [← List.append_assoc, ← List.append_assoc, stuffed_replace ha, stuffed_replace hb] at hregs
    exact Crc16.updates_replace_ne hab _ _ _ hregs.symm

end Packet

/-- A `stop` message for port 3 in which the port becomes 4 on the wire. -/
theorem Packet.handleFrame_corrupted_stop :
    handleFrame (MsgType.protocol MsgType.number MsgType.number_injective) .lower [.stop]
      (ControlChar.head :: (stuffed (leBytes 4 3) ++ ([4, 7, 0, 0, 0, 200, 238] ++ []))) =
        (.returned, []) :=
  (handleFrame_corrupted (MsgType.protocol MsgType.number MsgType.number_injective) .lower [.stop]
    .handshake true .stop (MsgType.ty .stop) 5 rfl (MsgType.build_eq .stop)
    (MsgType.parse_eq .stop)
    ⟨3, 7⟩ [] [7, 0, 0, 0, 200, 238] 3 4 (by decide +kernel) (by decide) (by decide) (by decide)
    []).1 (List.mem_singleton_self _)

end ChargingPile
