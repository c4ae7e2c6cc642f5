import ChargingPile.Lib.Stream
import ChargingPile.Packet.Corruption

/-!
# What the receiver takes for a message

The receive loop on a link that carries anything: frames, parts of frames and noise. Each reader of
the absorber is taken backwards, from a run that ended well to the bytes it has consumed (`Taken`).
With exceptions, a message is handed to a callback exactly if a whole frame with its hash, its data
and the right CRC is on the link. Without them, an escape that is followed by another byte does not
end the call (`Lost`): from then on nothing is read, the CRC included, and what the callback gets
depends on what the memory held.

`receive_pieces` is the result for streams: the messages that are handed out stand on the link one
behind the other, each as a piece of its own.
-/

namespace ChargingPile

namespace Absorber

variable {B : Build} {s s' : Absorber}

/-! ## Bytes are only consumed -/

/-- What is left to receive is an end of what was. -/
def Consumes (s s' : Absorber) : Prop := s'.wire <:+ s.wire

instance : Std.Refl Consumes := ⟨fun _ => List.suffix_rfl⟩

instance : IsTrans Absorber Consumes := ⟨fun _ _ _ h h' => h'.trans h⟩

theorem isInvalid_consumes : Moves Consumes isInvalid := fun _ => List.suffix_rfl

theorem invalidate_consumes : Moves Consumes invalidate := fun _ => List.suffix_rfl

theorem readAtom_consumes : Moves Consumes readAtom := by
  rintro ⟨w, c, i⟩
  cases w with
  | nil => exact List.suffix_rfl
  | cons b w => exact List.suffix_cons b w

theorem readByte_consumes : Moves Consumes (readByte B) := by
  refine isInvalid_consumes.bind fun i => .ite (.pure _) (readAtom_consumes.bind fun b => ?_)
  refine .ite (.pure _) (.ite (readAtom_consumes.bind fun b => .ite ?_ (.pure _)) (.pure _))
  exact .ite ((Moves.throw _).bind fun _ => invalidate_consumes.bind fun _ => .pure _)
    (invalidate_consumes.bind fun _ => .pure _)

theorem readLoop_consumes (data buffer : List UInt8) :
    Moves Consumes (readLoop B data buffer) := by
  induction buffer generalizing data with
  | nil => exact .pure data
  | cons old buffer ih =>
    refine readByte_consumes.bind fun d => isInvalid_consumes.bind fun i => .ite (.pure _) ?_
    cases d with
    | data b => exact ih _
    | head | invalid => exact .ite (.throw _) (.throw _)

theorem get_consumes : Moves Consumes (get : Absorb Absorber) := fun _ => List.suffix_rfl

theorem readData_consumes (n : Nat) : Moves Consumes (readData B n) :=
  get_consumes.bind
    fun _ => isInvalid_consumes.bind fun _ => .ite (.pure _) (readLoop_consumes _ _)

theorem construct_consumes : Moves Consumes (construct B) := by
  have hhash : Moves Consumes (do
      if ← isInvalid then return UInt32.ofNat (ofLeBytes (B.garbage (← get) 4))
      return UInt32.ofNat (ofLeBytes (← readData B 4)) : Absorb UInt32) :=
    isInvalid_consumes.bind fun _ => .ite (get_consumes.bind fun _ => .pure _)
      ((readData_consumes 4).bind fun _ => .pure _)
  refine readByte_consumes.bind fun d => ?_
  cases d with
  | head => exact (Moves.pure ()).bind fun _ => hhash
  | data | invalid =>
    exact .ite ((Moves.throw _).bind fun _ => invalidate_consumes.bind fun _ => hhash)
      (invalidate_consumes.bind fun _ => hhash)

theorem check_consumes : Moves Consumes (check B) :=
  get_consumes.bind fun _ => (readData_consumes 2).bind fun _ => .pure _

/-! ## What a reader has taken -/

/-- From the bytes `w`, with the CRC register `c`, the data `l` has been read. -/
structure Taken (w : List UInt8) (c : UInt16) (l : List UInt8) (s : Absorber) : Prop where
  valid : s.invalid = false
  wire : w = stuffed l ++ s.wire
  crc : s.crc = Crc16.updates c (stuffed l)

/-- From the bytes `w`, data has been read up to an escape that belongs to no byte. -/
structure Lost (B : Build) (w : List UInt8) (s : Absorber) : Prop where
  invalid : s.invalid = true
  exceptions : B.exceptions = false
  wire : ∃ l b, Unescaped b ∧ w = stuffed l ++ ControlChar.escape :: b :: s.wire

variable {w l : List UInt8} {c : UInt16}

theorem Taken.nil (w : List UInt8) (c : UInt16) : Taken w c [] ⟨w, c, false⟩ := ⟨rfl, rfl, rfl⟩

/-- One byte more. -/
theorem Taken.concat {b : UInt8} (h : Taken w c l s) (hs' : s'.invalid = false)
    (hwire : s.wire = stuffOne ControlChar.head ControlChar.escape b ++ s'.wire)
    (hcrc : s'.crc = Crc16.updates s.crc (stuffOne ControlChar.head ControlChar.escape b)) :
    Taken w c (l ++ [b]) s' := by
  have hone :
      stuffed (l ++ [b]) = stuffed l ++ stuffOne ControlChar.head ControlChar.escape b := by
    rw [stuffed_append, stuffed, stuffed, stuff_cons, stuff_nil, List.append_nil]
  refine ⟨hs', ?_, ?_⟩
  · rw [hone, List.append_assoc, ← hwire]
    exact h.wire
  · rw [hone, Crc16.updates_append, ← h.crc]
    exact hcrc

theorem Taken.lost {b : UInt8} (h : Taken w c l s) (hs' : s'.invalid = true)
    (hB : B.exceptions = false) (hb : Unescaped b)
    (hwire : s.wire = ControlChar.escape :: b :: s'.wire) : Lost B w s' :=
  ⟨hs', hB, l, b, hb, by rw [← hwire]; exact h.wire⟩

/-- What `readByte` returns while the absorber is valid: the head of a frame, a data byte, or a
byte behind an escape that does not belong to it. -/
inductive Got (B : Build) (s : Absorber) : Token → Absorber → Prop
  | head {s' : Absorber} (hs' : s'.invalid = false) (hwire : s.wire = ControlChar.head :: s'.wire)
      (hcrc : s'.crc = Crc16.update s.crc ControlChar.head) : Got B s .head s'
  | data {b : UInt8} {s' : Absorber} (hs' : s'.invalid = false)
      (hwire : s.wire = stuffOne ControlChar.head ControlChar.escape b ++ s'.wire)
      (hcrc : s'.crc = Crc16.updates s.crc (stuffOne ControlChar.head ControlChar.escape b)) :
      Got B s (.data b) s'
  | lost {b : UInt8} {s' : Absorber} (hs' : s'.invalid = true) (hB : B.exceptions = false)
      (hb : Unescaped b) (hwire : s.wire = ControlChar.escape :: b :: s'.wire) :
      Got B s (.data b) s'

theorem readByte_ok {d : Token} (hs : s.invalid = false) (h : (readByte B).run s = .ok d s') :
    Got B s d s' := by
  obtain ⟨w, c, i⟩ := s
  obtain rfl : i = false := hs
  cases w with
  | nil => cases h
  | cons b w =>
    simp only [readByte, EStateM.run_bind, isInvalid_run, Bool.false_eq_true, if_false,
      readAtom_run_cons] at h
    by_cases hhead : b = ControlChar.head
    · rw [if_pos hhead] at h
      cases h
      exact hhead ▸ .head rfl rfl rfl
    rw [if_neg hhead] at h
    by_cases hescape : b = ControlChar.escape
    · rw [if_pos hescape] at h
      subst hescape
      cases w with
      | nil => cases h
      | cons b w =>
        simp only [EStateM.run_bind, readAtom_run_cons] at h
        by_cases hb : b ≠ ControlChar.head ∧ b ≠ ControlChar.escape
        · rw [if_pos hb] at h
          cases hB : B.exceptions with
          | true =>
            rw [hB] at h
            cases h
          | false =>
            rw [hB] at h
            cases h
            exact .lost rfl hB (not_or.2 hb) rfl
        · have hpair : stuffOne ControlChar.head ControlChar.escape b = [ControlChar.escape, b] :=
            if_pos (by rwa [not_and_or, not_not, not_not] at hb)
          rw [if_neg hb] at h
          cases h
          exact .data rfl (by rw [hpair]; rfl) (by rw [hpair]; rfl)
    · have hone : stuffOne ControlChar.head ControlChar.escape b = [b] :=
        if_neg (not_or.2 ⟨hhead, hescape⟩)
      rw [if_neg hescape] at h
      cases h
      exact .data rfl (by rw [hone]; rfl) (by rw [hone]; rfl)

/-- The read loop has filled the buffer, or met an escape that belongs to no byte. -/
theorem readLoop_ok {data buffer m : List UInt8} (hs : Taken w c l s)
    (h : (readLoop B data buffer).run s = .ok m s') :
    (∃ a, a.length = buffer.length ∧ m = data ++ a ∧ Taken w c (l ++ a) s') ∨ Lost B w s' := by
  induction buffer generalizing data l s with
  | nil =>
    cases h
    exact .inl ⟨[], rfl, (List.append_nil _).symm, by rwa [List.append_nil]⟩
  | cons old buffer ih =>
    obtain ⟨d, s₁, hd, h⟩ := run_bind_ok h
    obtain ⟨i, s₂, hi, h⟩ := run_bind_ok h
    rw [isInvalid_run] at hi
    cases hi
    cases readByte_ok hs.valid hd with
    | head hs₁ =>
      rw [if_neg (by simp [hs₁])] at h
      dsimp only at h
      split at h <;> cases h
    | @data b _ hs₁ hwire hcrc =>
      rw [if_neg (by simp [hs₁])] at h
      rcases ih (hs.concat hs₁ hwire hcrc) h with ⟨a, hlen, rfl, htaken⟩ | hlost
      · exact .inl ⟨b :: a, congrArg (· + 1) hlen, by simp, by simpa using htaken⟩
      · exact .inr hlost
    | lost hs₁ hB hb hwire =>
      rw [if_pos hs₁] at h
      cases h
      exact .inr (hs.lost hs₁ hB hb hwire)

theorem readData_ok {n : Nat} {m : List UInt8} (hs : Taken w c l s)
    (h : (readData B n).run s = .ok m s') :
    m.length = n ∧ Taken w c (l ++ m) s' ∨ Lost B w s' := by
  simp only [readData, EStateM.run_bind, EStateM.run_get, isInvalid_run, hs.valid,
    Bool.false_eq_true, if_false] at h
  rcases readLoop_ok hs h with ⟨a, hlen, rfl, htaken⟩ | hlost
  · rw [B.length_garbage] at hlen
    exact .inl ⟨hlen, htaken⟩
  · exact .inr hlost

/-- An absorber that has become invalid reads nothing any more. -/
theorem readData_lost {n : Nat} {m : List UInt8} (hs : Lost B w s)
    (h : (readData B n).run s = .ok m s') :
    Lost B w s' := by
  simp only [readData, EStateM.run_bind, EStateM.run_get, isInvalid_run, hs.invalid, if_true] at h
  cases h
  exact hs

/-- A deserializer has read its data, or met an escape that belongs to no byte. -/
theorem interp_ok {α : Type} {r : Reader UInt8 α} {a : α} (hs : Taken w c l s)
    (h : (r.interp (readData B) isInvalid).run s = .ok a s') :
    (∃ m, r.run m = some (a, []) ∧ Taken w c (l ++ m) s') ∨ Lost B w s' := by
  refine Reader.run_of_interp (fun hs h => readData_ok hs h) ?_ (fun hs h => readData_lost hs h) ?_
    hs h
  · intro l s hs
    rw [isInvalid_run, hs.valid]
  · intro s b s' hs h
    cases h
    exact hs

/-- The constructor leaves a valid absorber behind only if it has read a head and four bytes. -/
theorem construct_ok {hash : UInt32} (hs : s.invalid = false)
    (h : (construct B).run s = .ok hash s') (hs' : s'.invalid = false) :
    ∃ w k, s.wire = ControlChar.head :: w ∧ k.length = 4 ∧ UInt32.ofNat (ofLeBytes k) = hash ∧
      Taken w (Crc16.update s.crc ControlChar.head) k s' := by
  obtain ⟨d, s₁, hd, h⟩ := run_bind_ok h
  -- without a head the absorber is invalid when the hash is to be read
  have hinvalid (hd : d ≠ .head) : False := by
    have hs₂ : ∀ s₂ : Absorber, s₂.invalid = true →
        ((do if ← isInvalid then return UInt32.ofNat (ofLeBytes (B.garbage (← get) 4))
             return UInt32.ofNat (ofLeBytes (← readData B 4))) : Absorb UInt32).run s₂ =
               .ok hash s' → False := by
      intro s₂ hs₂ h
      simp only [EStateM.run_bind, isInvalid_run, hs₂, if_true, EStateM.run_get, EStateM.run_pure]
        at h
      cases h
      simp [hs₂] at hs'
    cases d with
    | head => exact hd rfl
    | data | invalid =>
      dsimp only at h
      split at h
      · cases h
      · exact hs₂ { s₁ with invalid := true } rfl h
  cases readByte_ok hs hd with
  | data | lost => exact (hinvalid nofun).elim
  | head hs₁ hwire hcrc =>
    simp only [EStateM.run_bind, EStateM.run_pure, isInvalid_run, hs₁, Bool.false_eq_true,
      if_false] at h
    obtain ⟨k, s₂, hk, h⟩ := run_bind_ok h
    cases h
    obtain ⟨w, c, i⟩ := s₁
    obtain rfl : i = false := hs₁
    rcases readData_ok (Taken.nil w c) hk with ⟨hlen, htaken⟩ | hlost
    · exact ⟨w, k, hwire, hlen, rfl, hcrc ▸ htaken⟩
    · rw [hlost.invalid] at hs'
      cases hs'

/-- The check has passed: the next two bytes are the CRC, unless the absorber is invalid. -/
theorem check_ok (hs : Taken w c l s) (h : (check B).run s = .ok true s') :
    Taken w c (l ++ leBytes 2 (Crc16.get (Crc16.updates c (stuffed l))).toNat) s' ∨
      Lost B w s' := by
  simp only [check, EStateM.run_bind, EStateM.run_get] at h
  cases hread : (readData B 2).run s with
  | error e s₁ =>
    rw [hread] at h
    cases h
  | ok k s₁ =>
    rw [hread] at h
    obtain ⟨heq, rfl⟩ := EStateM.Result.ok.inj h
    rcases readData_ok hs hread with ⟨hlen, htaken⟩ | hlost
    · have hcrc : UInt16.ofNat (ofLeBytes (leBytes 2 (Crc16.get s.crc).toNat)) =
          UInt16.ofNat (ofLeBytes k) := by
        rw [ofNat_ofLeBytes_crc]
        exact of_decide_eq_true heq
      have hk := ofLeBytes_inj (by rw [length_leBytes, hlen])
        (Packet.ofNat_ofLeBytes_inj (length_leBytes 2 _) hlen hcrc)
      rw [← hs.crc, hk]
      exact .inl htaken
    · exact .inr hlost

theorem check_lost {b : Bool} (hs : Lost B w s) (h : (check B).run s = .ok b s') :
    Lost B w s' := by
  obtain ⟨s₀, s₁, hget, h⟩ := run_bind_ok h
  cases hget
  obtain ⟨k, s₂, hk, h⟩ := run_bind_ok h
  cases h
  exact readData_lost hs hk

end Absorber

/-! ## Frames -/

namespace Packet

variable {T : Type} (P : Protocol T) (B : Build) (typeInfos : List T)

/-- The frame of a type with the given data. -/
def frameOf (t : T) (data : List UInt8) : List UInt8 :=
  let content := leBytes 4 (P.hash t).toNat ++ data
  let crc :=
    Crc16.get (Crc16.updates (Crc16.update Crc16.initVal ControlChar.head) (stuffed content))
  ControlChar.head :: stuffed (content ++ leBytes 2 crc.toNat)

/-- What the emitter sends is such a frame. -/
theorem frameOf_build (t : T) (m : P.Msg t) : frameOf P t (P.build t m) = frame P t m := rfl

/-- The bytes are a whole frame, the data of which is read as the message. -/
def Genuine (a : (t : T) × P.Msg t) (f : List UInt8) : Prop :=
  a.1 ∈ typeInfos ∧ ∃ data, (P.parse a.1).run data = some (a.2, []) ∧ f = frameOf P a.1 data

/-- The bytes are the beginning of a frame, up to an escape that belongs to no byte. -/
def Broken (f : List UInt8) : Prop :=
  ∃ l b, Unescaped b ∧ f = ControlChar.head :: (stuffed l ++ [ControlChar.escape, b])

/-- The receiver may take the bytes for the message. -/
def Accepted (a : (t : T) × P.Msg t) (f : List UInt8) : Prop :=
  Genuine P typeInfos a f ∨ B.exceptions = false ∧ Broken f

variable {P B typeInfos}

theorem absorbMessage_ok {t : T} {a : (t : T) × P.Msg t} {w l : List UInt8} {c : UInt16}
    {s s' : Absorber} (hs : Absorber.Taken w c l s)
    (h : (absorbMessage P B t).run s = .ok (some a) s') :
    a.1 = t ∧ ((∃ data, (P.parse a.1).run data = some (a.2, []) ∧
      Absorber.Taken w c
        (l ++ data ++ leBytes 2 (Crc16.get (Crc16.updates c (stuffed (l ++ data)))).toNat) s') ∨
      Absorber.Lost B w s') := by
  obtain ⟨p, s₁, hp, h⟩ := run_bind_ok h
  obtain ⟨passed, s₂, hcheck, h⟩ := run_bind_ok h
  cases passed with
  | false =>
    cases hB : B.exceptions with
    | true =>
      rw [hB] at h
      cases h
    | false =>
      rw [hB] at h
      cases h
  | true =>
    cases h
    refine ⟨rfl, ?_⟩
    rcases Absorber.interp_ok hs hp with ⟨data, hdata, htaken⟩ | hlost
    · rcases Absorber.check_ok htaken hcheck with htaken | hlost
      · exact .inl ⟨data, hdata, htaken⟩
      · exact .inr hlost
    · exact .inr (Absorber.check_lost hlost hcheck)

/-- A call that hands out a message has consumed bytes that may be taken for it. -/
theorem handleFrame_called {t : T} {m : P.Msg t} {wire rest : List UInt8}
    (h : handleFrame P B typeInfos wire = (.called t m, rest)) :
    ∃ f, wire = f ++ rest ∧ Accepted P B typeInfos ⟨t, m⟩ f := by
  unfold handleFrame at h
  split at h
  next a s' hrun =>
    obtain ⟨hcalled, rfl⟩ := Prod.mk.inj h
    obtain ⟨t', m'⟩ := a
    cases hcalled
    obtain ⟨hash, s₁, hconstruct, hrun⟩ := run_bind_ok hrun
    obtain ⟨i, s₂, hi, hrun⟩ := run_bind_ok hrun
    cases hi
    cases hs₁ : s₁.invalid with
    | true =>
      rw [hs₁] at hrun
      cases hrun
    | false =>
      rw [if_neg (by simp [hs₁])] at hrun
      obtain ⟨w, k, hwire, hk, hhash, htaken⟩ := Absorber.construct_ok rfl hconstruct hs₁
      split at hrun
      next =>
        split at hrun <;> cases hrun
      next u hfind =>
        obtain ⟨hu, hdone⟩ := absorbMessage_ok htaken hrun
        subst hu
        have heq : P.hash t' = hash := by simpa using List.find?_some hfind
        have hword : k = leBytes 4 (P.hash t').toNat := by
          have hlt : ofLeBytes k < 256 ^ 4 := hk ▸ ofLeBytes_lt k
          rw [heq, ← hhash, UInt32.toNat_ofNat_of_lt' hlt]
          exact ofLeBytes_inj (by rw [hk, length_leBytes])
            (by rw [ofLeBytes_leBytes, Nat.mod_eq_of_lt hlt])
        subst hword
        rcases hdone with ⟨data, hdata, htaken'⟩ | hlost
        · refine ⟨frameOf P t' data, ?_, .inl ⟨List.mem_of_find?_eq_some hfind, data, hdata, rfl⟩⟩
          show wire = ControlChar.head :: (stuffed _ ++ s'.wire)
          rw [← htaken'.wire]
          exact hwire
        · obtain ⟨l, b, hb, hw⟩ := hlost.wire
          refine ⟨ControlChar.head :: (stuffed l ++ [ControlChar.escape, b]), ?_,
            .inr ⟨hlost.exceptions, l, b, hb, rfl⟩⟩
          rw [show wire = ControlChar.head :: w from hwire, hw]
          simp
  next => cases h
  next => cases h

/-- A genuine frame is taken for its message, in every build. -/
theorem handleFrame_genuine {a : (t : T) × P.Msg t} {f : List UInt8} (h : Genuine P typeInfos a f)
    (rest : List UInt8) : handleFrame P B typeInfos (f ++ rest) = (.called a.1 a.2, rest) := by
  obtain ⟨t, m⟩ := a
  obtain ⟨ht, data, hdata, rfl⟩ := h
  have hframe :
      frameOf P t data ++ rest = ControlChar.head :: (stuffed (leBytes 4 (P.hash t).toNat) ++
      (stuffed data ++ (stuffed (leBytes 2 (Crc16.get (Crc16.updates (Crc16.update Crc16.initVal
        ControlChar.head) (stuffed (leBytes 4 (P.hash t).toNat ++ data)))).toNat) ++ rest))) := by
    simp [frameOf]
  obtain ⟨c', hcheck⟩ :=
    Absorber.check_run (B := B) rest (Crc16.updates (Crc16.update Crc16.initVal
    ControlChar.head) (stuffed (leBytes 4 (P.hash t).toNat ++ data)))
  rw [stuffed_append, Crc16.updates_append] at hcheck
  rw [handleFrame, hframe, absorbFrame_run P B typeInfos ht]
  simp only [absorbMessage, EStateM.run_bind, parse_stuffed P B hdata, stuffed_append,
    Crc16.updates_append, hcheck, if_true, EStateM.run_pure]

/-! ## Streams -/

/-- Whatever a call comes to, it leaves an end of the stream. -/
theorem handleFrame_suffix (wire : List UInt8) : (handleFrame P B typeInfos wire).2 <:+ wire := by
  have hmessage (t : T) : Moves Absorber.Consumes (absorbMessage P B t) :=
    (Reader.interp_moves Absorber.readData_consumes Absorber.isInvalid_consumes _).bind fun _ =>
      Absorber.check_consumes.bind fun _ => .ite (.pure _) (.ite (.throw _) (.pure _))
  have hconsumes : Moves Absorber.Consumes (absorbFrame P B typeInfos) := by
    refine Absorber.construct_consumes.bind
      fun hash => Absorber.isInvalid_consumes.bind fun _ => .ite (.pure _) ?_
    cases find P typeInfos hash with
    | none => exact .ite (.throw _) (.pure _)
    | some t => exact hmessage t
  have hrun := hconsumes { wire := wire }
  unfold handleFrame
  cases h : (absorbFrame P B typeInfos).run { wire := wire } with
  | error e s =>
    rw [h] at hrun
    exact hrun
  | ok a s =>
    rw [h] at hrun
    cases a with
    | none => exact hrun
    | some a => exact hrun

/-- The messages that a sequence of calls hands out. -/
def calledOf (os : List (Outcome P)) : List ((t : T) × P.Msg t) :=
  os.filterMap fun
    | .called t m => some ⟨t, m⟩
    | _ => none

variable (P B typeInfos)

/-- **The receiver makes up no message.** On a link that carries anything, the messages that the
receive loop hands to callbacks stand on the link in the same order, each as bytes of its own that
may be taken for it: a whole frame with the right CRC or, in a build without exceptions, the
beginning of a frame that breaks off with a wrong escape. Conversely a whole frame is taken for its
message wherever a call begins. -/
theorem receive_pieces (n : Nat) (wire : List UInt8) :
    Pieces (Accepted P B typeInfos) wire (calledOf (receive P B typeInfos n wire).1) ∧
    ∀ a f rest, Genuine P typeInfos a f → handleFrame P B typeInfos (f ++ rest) =
      (.called a.1 a.2, rest) := by
  refine ⟨?_, fun a f rest h => handleFrame_genuine h rest⟩
  induction n generalizing wire with
  | zero => exact .nil wire
  | succ n ih =>
    have hsuffix : (handleFrame P B typeInfos wire).2 <:+ wire := handleFrame_suffix wire
    rw [receive]
    split
    next => exact .nil wire
    next => exact .nil wire
    next o rest hblocked haborted h =>
      rw [h] at hsuffix
      obtain ⟨p, rfl⟩ := hsuffix
      cases o with
      | called t m =>
        obtain ⟨f, hf, haccepted⟩ := handleFrame_called h
        rw [hf]
        exact .piece haccepted (ih rest)
      | returned | halted => exact (ih rest).append_left p

/-- A frame that is followed by noise. -/
theorem receive_pieces_noise :
    handleFrame .pair .upper [true, false] (frame .pair false (0xa5 : UInt8) ++ [0xff, 0]) =
      (.called false (0xa5 : UInt8), [0xff, 0]) :=
  (receive_pieces .pair .upper [true, false] 0 []).2 ⟨false, (0xa5 : UInt8)⟩ _ [0xff, 0]
    ⟨by simp, [0xa5], rfl, rfl⟩

/-- A frame that breaks off with a wrong escape is taken for a message if the memory happens
to hold the CRC. -/
example : (calledOf (receive .pair ⟨false, fun s n => leBytes n (Crc16.get s.crc).toNat,
    fun _ _ => length_leBytes _ _⟩ [false] 1 [0xa5, 2, 0, 0, 0, 0xff, 0]).1).length =
      1 := by decide +kernel

end Packet

end ChargingPile
