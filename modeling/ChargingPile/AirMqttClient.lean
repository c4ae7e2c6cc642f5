import Mathlib.Data.List.Basic

/-!
# Payloads for the modem

`AirMqttClient::publish` (`components/air_mqtt_client.cxx`) hands a topic and a payload to the
modem in one AT command, between quotation marks, so a quotation mark in them is written as `\22`.
A backslash is left as it is, and so a payload that holds `\22` already is sent like the one with a
quotation mark in its place: `unescape` is what the modem can make of what it gets, and two
payloads are sent alike exactly if they are alike after `unescape` (`AirMqttClient.escape_eq_iff`).
-/

namespace ChargingPile.AirMqttClient

/-- The quotation mark. -/
def quote : UInt8 := 0x22

/-- `\22`. -/
def escaped : List UInt8 := [0x5c, 0x32, 0x32]

/-- The loop of `AirMqttClient::escape`, at the character `i` of the payload. -/
def escapeLoop : List UInt8 → Nat → Nat → List UInt8 → List UInt8
  | [], _, _, result => result
  | c :: raw, i, offset, result =>
    if c ≠ quote then escapeLoop raw (i + 1) offset (result.set (i + offset) c)
    else
      let result := result.set (i + offset) 0x5c
      let result := result.set (i + offset + 1) 0x32
      let result := result.set (i + offset + 2) 0x32
      escapeLoop raw (i + 1) (offset + 2) result

/-- `AirMqttClient::escape`. -/
def escape (raw : List UInt8) : List UInt8 :=
  escapeLoop raw 0 0 (List.replicate (raw.length + raw.count quote * 2) 0)

/-! ## What the loop computes -/

/-- One character of a payload as it is sent. -/
def escapeOne (c : UInt8) : List UInt8 := if c = quote then escaped else [c]

theorem length_flatMap_escapeOne (raw : List UInt8) :
    (raw.flatMap escapeOne).length = raw.length + raw.count quote * 2 := by
  induction raw with
  | nil => rfl
  | cons c raw ih =>
    rw [List.flatMap_cons, List.length_append, ih, List.length_cons, List.count_cons, escapeOne]
    by_cases hc : c = quote
    · rw [if_pos hc, if_pos (by simpa using hc)]
      simp only [escaped, List.length_cons, List.length_nil]
      omega
    · rw [if_neg hc, if_neg (by simpa using hc)]
      simp only [List.length_cons, List.length_nil]
      omega

/-- Writing behind what has been written. -/
theorem set_behind {done rest : List UInt8} {old c : UInt8} {n : Nat} (h : done.length = n) :
    (done ++ old :: rest).set n c = (done ++ [c]) ++ rest := by
  rw [← h, List.set_append_right _ _ (Nat.le_refl _), Nat.sub_self, List.set_cons_zero]
  simp

/-- The loop writes behind what it has written, and fills the buffer. -/
theorem escapeLoop_eq (raw : List UInt8) (i offset : Nat) (done rest : List UInt8)
    (hdone : done.length = i + offset) (hrest : rest.length = (raw.flatMap escapeOne).length) :
    escapeLoop raw i offset (done ++ rest) = done ++ raw.flatMap escapeOne := by
  induction raw generalizing i offset done rest with
  | nil =>
    obtain rfl := List.eq_nil_of_length_eq_zero hrest
    rfl
  | cons c raw ih =>
    rw [List.flatMap_cons, List.length_append, escapeOne] at hrest
    rw [escapeLoop, List.flatMap_cons, escapeOne]
    by_cases hc : c = quote
    · rw [if_pos hc] at hrest
      rw [if_neg (not_not.2 hc), if_pos hc]
      match rest, hrest with
      | old₀ :: old₁ :: old₂ :: rest, hrest =>
        dsimp only
        rw [set_behind hdone, set_behind (by simp [hdone]), set_behind (by simp [hdone]),
          ih _ _ _ rest (by simp [hdone]; omega)
            (by simp only [escaped, List.length_cons, List.length_nil] at hrest; omega)]
        simp [escaped]
      | [], hrest | [_], hrest | [_, _], hrest =>
        simp only [escaped, List.length_cons, List.length_nil] at hrest
        omega
    · rw [if_neg hc] at hrest
      rw [if_pos hc, if_neg hc]
      match rest, hrest with
      | old :: rest, hrest =>
        rw [set_behind hdone, ih _ _ _ rest (by simp [hdone]; omega)
          (by simp only [List.length_cons, List.length_nil] at hrest; omega)]
        simp
      | [], hrest =>
        simp only [List.length_cons, List.length_nil] at hrest
        omega

theorem escape_eq (raw : List UInt8) : escape raw = raw.flatMap escapeOne := by
  have hlen := length_flatMap_escapeOne raw
  exact escapeLoop_eq raw 0 0 [] _ rfl (by rw [List.length_replicate, hlen])

@[simp] theorem escape_nil : escape [] = [] := rfl

theorem escape_cons (c : UInt8) (raw : List UInt8) :
    escape (c :: raw) = escapeOne c ++ escape raw := by
  rw [escape_eq, escape_eq, List.flatMap_cons]

/-! ## What can be recovered -/

/-- Every `\22` becomes a quotation mark again. -/
def unescape : List UInt8 → List UInt8
  | 0x5c :: 0x32 :: 0x32 :: l => quote :: unescape l
  | c :: l => c :: unescape l
  | [] => []

theorem escape_quote (raw : List UInt8) : escape (quote :: raw) = escaped ++ escape raw :=
  escape_cons quote raw

theorem escape_other {c : UInt8} (hc : c ≠ quote) (raw : List UInt8) :
    escape (c :: raw) = c :: escape raw := by
  rw [escape_cons, escapeOne, if_neg hc]
  rfl

/-- A character of the escape sequence that is sent was in the payload, except for
the backslash. -/
theorem escape_eq_cons_two {raw l : List UInt8} (h : escape raw = 0x32 :: l) :
    ∃ raw', raw = 0x32 :: raw' ∧ escape raw' = l := by
  cases raw with
  | nil => cases h
  | cons c raw =>
    by_cases hc : c = quote
    · rw [hc, escape_quote] at h
      cases h
    · rw [escape_other hc] at h
      obtain ⟨rfl, rfl⟩ := List.cons.inj h
      exact ⟨raw, rfl, rfl⟩

/-- What is sent is the same for a payload and for what can be recovered from it. -/
theorem escape_unescape (raw : List UInt8) : escape (unescape raw) = escape raw := by
  fun_induction unescape raw with
  | case1 l ih =>
    rw [escape_quote, ih, escape_other (by decide), escape_other (by decide),
      escape_other (by decide)]
    rfl
  | case2 c l _ ih => rw [escape_cons, escape_cons, ih]
  | case3 => rfl

/-- The modem recovers the same from what is sent as from the payload. -/
theorem unescape_escape (raw : List UInt8) : unescape (escape raw) = unescape raw := by
  fun_induction unescape raw with
  | case1 l ih =>
    rw [escape_other (by decide), escape_other (by decide), escape_other (by decide), unescape, ih]
  | case2 c l hl ih =>
    by_cases hc : c = quote
    · rw [hc, escape_quote]
      show quote :: unescape (escape l) = quote :: unescape l
      rw [ih]
    · -- no escape sequence begins here, or the payload would hold it
      have hnot : ∀ l', c = 0x5c → escape l = 0x32 :: 0x32 :: l' → False := by
        intro l' hback hl'
        obtain ⟨m, rfl, hm⟩ := escape_eq_cons_two hl'
        obtain ⟨m', rfl, -⟩ := escape_eq_cons_two hm
        exact hl m' hback rfl
      rw [escape_other hc, unescape.eq_2 _ _ hnot, ih]
  | case3 => rfl

/-- What is recovered is the payload exactly if there is no escape sequence in it. -/
theorem unescape_eq_self_iff (raw : List UInt8) : unescape raw = raw ↔ ¬ escaped <:+: raw := by
  fun_induction unescape raw with
  | case1 l ih =>
    refine iff_of_false ?_ (not_not.2 (List.infix_append [] escaped l))
    intro h
    cases (List.cons.inj h).1
  | case2 c l hl ih =>
    have hhead : ¬ escaped <+: c :: l := by
      rintro ⟨l', hl'⟩
      obtain ⟨hc, hrest⟩ := List.cons.inj hl'
      exact hl l' hc.symm hrest.symm
    rw [List.infix_cons_iff, not_or, ← ih]
    constructor
    · intro h
      exact ⟨hhead, (List.cons.inj h).2⟩
    · rintro ⟨-, h⟩
      rw [h]
  | case3 => exact iff_of_true rfl (by decide)

/-- **What the modem gets.** Two payloads are sent alike exactly if they are alike with a quotation
mark for every `\22`, and a payload can be recovered exactly if it holds no `\22`. In particular
different payloads without `\22` are sent differently. -/
theorem escape_eq_iff (raw raw' : List UInt8) :
    (escape raw = escape raw' ↔ unescape raw = unescape raw') ∧
    (unescape (escape raw) = raw ↔ ¬ escaped <:+: raw) ∧
    (¬ escaped <:+: raw → ¬ escaped <:+: raw' → raw ≠ raw' → escape raw ≠ escape raw') := by
  have hiff : escape raw = escape raw' ↔ unescape raw = unescape raw' := by
    constructor
    · intro h
      rw [← unescape_escape raw, h, unescape_escape]
    · intro h
      rw [← escape_unescape raw, h, escape_unescape]
  refine ⟨hiff, ?_, ?_⟩
  · rw [unescape_escape]
    exact unescape_eq_self_iff raw
  · intro h h' hne heq
    rw [hiff, (unescape_eq_self_iff raw).2 h, (unescape_eq_self_iff raw').2 h'] at heq
    exact hne heq

/-- A quotation mark and a `\22` are sent alike. -/
theorem escape_ambiguous : escape [quote] = escape escaped ∧ [quote] ≠ escaped := by
  decide

/-! ## The command -/

/-- `c_str` as a `%s` of a format takes it: up to the first zero. -/
def cStr (s : List UInt8) : List UInt8 := s.takeWhile (· ≠ 0)

/-- `AT+MPUB=`. -/
def mpub : List UInt8 := [0x41, 0x54, 0x2b, 0x4d, 0x50, 0x55, 0x42, 0x3d]

/-- `,0,0,`. -/
def qosRetain : List UInt8 := [0x2c, 0x30, 0x2c, 0x30, 0x2c]

/-- `AirMqttClient::publish`: the command for the modem. -/
def publish (topic data : List UInt8) : List UInt8 :=
  mpub ++ quote :: (cStr (escape topic) ++ quote ::
    (qosRetain ++ quote :: (cStr (escape data) ++ [quote])))

/-- No quotation mark is left between those of the command. -/
theorem quote_notMem_cStr (raw : List UInt8) : quote ∉ cStr (escape raw) := by
  intro h
  have hmem := (List.takeWhile_sublist _).subset h
  rw [escape_eq, List.mem_flatMap] at hmem
  obtain ⟨c, -, hc⟩ := hmem
  rw [escapeOne] at hc
  split at hc
  · revert hc
    decide
  · rename_i hne
    exact hne (List.mem_singleton.1 hc).symm

/-- The first quotation mark ends what has none. -/
theorem append_quote_inj {x x' r r' : List UInt8} (hx : quote ∉ x) (hx' : quote ∉ x')
    (h : x ++ quote :: r = x' ++ quote :: r') : x = x' ∧ r = r' := by
  rcases List.append_eq_append_iff.1 h with ⟨c, rfl, hc⟩ | ⟨c, rfl, hc⟩ <;> cases c with
  | nil => exact ⟨by simp, (List.cons.inj hc).2.symm ▸ rfl⟩
  | cons q c =>
    obtain ⟨hq, -⟩ := List.cons.inj hc
    simp [hq] at hx hx'

/-- The command tells its topic from its payload. -/
theorem publish_inj {topic topic' data data' : List UInt8}
    (h : publish topic data = publish topic' data') :
    cStr (escape topic) = cStr (escape topic') ∧ cStr (escape data) = cStr (escape data') := by
  have h₁ := (List.cons.inj (List.append_cancel_left h)).2
  obtain ⟨htopic, h₂⟩ := append_quote_inj (quote_notMem_cStr topic) (quote_notMem_cStr topic') h₁
  have h₃ := (List.cons.inj (List.append_cancel_left h₂)).2
  exact ⟨htopic, List.append_cancel_right h₃⟩

end ChargingPile.AirMqttClient
