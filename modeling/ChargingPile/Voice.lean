import Mathlib.Data.Nat.Log
import Mathlib.Algebra.GroupWithZero.Nat

/-!
# Spoken amounts

A `Voice` (`components/voice.cxx`) is a list of fragments that the player starts one after another.
`Voice::amount` speaks an amount of cents: the yuan as a Chinese numeral (`Voice::integer`), a dot
and the cents as decimals if there are any, and the word yuan. `readAmount` is the way back, by the
rules by which such a numeral is read: `Voice.amount_read` says that it gives the amount for every
amount of at most seven digits.

The digits are computed with the signed division and remainder of C and index two tables without a
check. An index outside its table is `none` here, so a voice is built without such an index exactly
if the result is `some` (`VoiceNotifierLite.boradcast_indexes_iff`).
-/

namespace ChargingPile

/-- `VoiceFragment`: the fragments that the functions below speak. -/
inductive VoiceFragment
  | dot | zero | one | two | three | four | five | six | seven | eight | nine
  | ten | hundred | thousand | tenThousand | yuan | no | port
  | balance | cardNotActivated | balanceInsufficient | deviceAbnormal
deriving DecidableEq, Repr

/-- `Voice`, with the fragments of the `std::list`. -/
structure Voice where
  seq : List VoiceFragment := []
deriving DecidableEq, Repr

/-- `BroadcastType`. It is cast from an integer of the request, which may have none
of the names. -/
inductive BroadcastType
  | succeed | cardNotActivated | balanceInsufficient | deviceAbnormal
  | other (value : Int32)
deriving DecidableEq, Repr

namespace Voice

/-- `Voice::fragm`. -/
def fragm (voice : Voice) (fragm : VoiceFragment) : Voice := ⟨voice.seq ++ [fragm]⟩

/-- `Voice::numbers`. -/
def numbers : List VoiceFragment :=
  [.zero, .one, .two, .three, .four, .five, .six, .seven, .eight, .nine]

/-- `Voice::bits`. -/
def bits : List VoiceFragment := [.ten, .hundred, .thousand, .tenThousand]

/-- `fragm(table[i])`. The access is not checked: it is undefined outside the table. -/
def fragmAt (table : List VoiceFragment) (i : Int) (voice : Voice) : Option Voice :=
  if 0 ≤ i then table[i.toNat]?.map voice.fragm else none

/-- `if(c) fragm(table[i])`. -/
def fragmIf (c : Prop) [Decidable c] (table : List VoiceFragment) (i : Int) (voice : Voice) :
    Option Voice :=
  if c then voice.fragmAt table i else some voice

/-- The loop of `Voice::msb10`. -/
def msbLoop (msb : Nat) (n : Int) : Nat :=
  if n = 0 then msb else msbLoop (msb + 1) (n.tdiv 10)
termination_by n.natAbs
decreasing_by
  rw [Int.natAbs_tdiv]
  exact Nat.div_lt_self (Int.natAbs_pos.mpr ‹_›) (by decide)

/-- `Voice::msb10`: the number of digits after the first. -/
def msb10 (n : Int) : Nat := msbLoop 0 (n.tdiv 10)

/-- `(number / int(pow(10, i))) % 10`, with the division and the remainder of C. -/
def currBit (number : Int) (i : Nat) : Int := (number.tdiv (10 ^ i : Nat)).tmod 10

/-- The loop of `Voice::integer`, at the index `i - 1`. -/
def integerLoop (number : Int) (msb : Nat) : Nat → Bool → Voice → Option Voice
  | 0, _, voice => some voice
  | i + 1, meetZero, voice =>
    if currBit number i ≠ 0 then do
      let voice ← voice.fragmIf meetZero numbers 0
      let voice ← voice.fragmIf (msb ≠ 1 ∨ i ≠ 1 ∨ currBit number i ≠ 1) numbers (currBit number i)
      let voice ← voice.fragmIf (i ≠ 0) bits (i - 1)
      integerLoop number msb i false voice
    else integerLoop number msb i true voice

/-- `Voice::integer`. -/
def integer (voice : Voice) (number : Int) : Option Voice := do
  let voice ← integerLoop number (msb10 number) (msb10 number + 1) false voice
  voice.fragmIf (number = 0) numbers 0

/-- The loop over the decimals in `Voice::amount`, at the index `i - 1`. -/
def amountLoop (centRemained : Int) : Nat → Voice → Option Voice
  | 0, voice => some voice
  | i + 1, voice => do
    let voice ← voice.fragmIf (currBit centRemained i ≠ 0 ∨ i ≠ 0) numbers (currBit centRemained i)
    amountLoop centRemained i voice

/-- `Voice::amount`. -/
def amount (voice : Voice) (cents : Int) : Option Voice := do
  let voice ← voice.integer (cents.tdiv 100)
  let centRemained := cents.tmod 100
  let voice ← if centRemained ≠ 0 then amountLoop centRemained 2 (voice.fragm .dot) else some voice
  return voice.fragm .yuan

/-- `Voice::port`, at the number that `NatPort::get` returns. -/
def port (voice : Voice) (port : UInt8) : Option Voice := do
  let voice ← voice.integer port.toNat
  return (voice.fragm .no).fragm .port

end Voice

/-- `VoiceNotifierLite::boradcast`: the voice that it gives to the player. -/
def VoiceNotifierLite.boradcast (balance : Int) : BroadcastType → Option Voice
  | .succeed => (Voice.fragm {} .balance).amount balance
  | .balanceInsufficient => some (Voice.fragm {} .balanceInsufficient)
  | .cardNotActivated => some (Voice.fragm {} .cardNotActivated)
  | .deviceAbnormal => some (Voice.fragm {} .deviceAbnormal)
  | .other _ => some {}

/-! ## Reading a numeral -/

namespace VoiceFragment

/-- The digit that a fragment speaks. -/
def digit : VoiceFragment → Option Nat
  | .zero => some 0 | .one => some 1 | .two => some 2 | .three => some 3 | .four => some 4
  | .five => some 5 | .six => some 6 | .seven => some 7 | .eight => some 8 | .nine => some 9
  | _ => none

/-- The unit that a fragment speaks. -/
def unit : VoiceFragment → Option Nat
  | .ten => some 10 | .hundred => some 100 | .thousand => some 1000 | .tenThousand => some 10000
  | _ => none

end VoiceFragment

/-- The value of a numeral: digits with their units, the last one without, and zeros
as placeholders. -/
def readTerms : List VoiceFragment → Option Nat
  | [] => some 0
  | [f] => f.digit
  | f :: u :: rest =>
    if f = .zero then readTerms (u :: rest)
    else do
      let d ← f.digit
      let w ← u.unit
      let n ← readTerms rest
      return d * w + n

/-- The value of a numeral, whose leading ten stands for 10. -/
def readInteger : List VoiceFragment → Option Nat
  | .ten :: rest => (10 + ·) <$> readTerms rest
  | s => readTerms s

/-- What is read from the end of the integer on, in cents: at most two decimals, then the yuan. -/
def readDecimals : List VoiceFragment → Option Nat
  | [.yuan] => some 0
  | [.dot, f, .yuan] => (10 * ·) <$> f.digit
  | [.dot, f, g, .yuan] => do
    let d ← f.digit
    let e ← g.digit
    return 10 * d + e
  | _ => none

/-- The fragments of the integer part: all up to the dot or the yuan. -/
def inInteger (f : VoiceFragment) : Bool := f ≠ .dot && f ≠ .yuan

/-- The amount in cents that a sequence of fragments speaks. -/
def readAmount (s : List VoiceFragment) : Option Nat := do
  let yuan ← readInteger (s.takeWhile inInteger)
  let cents ← readDecimals (s.dropWhile inInteger)
  return 100 * yuan + cents

section Reading

variable {s : List VoiceFragment} {f u : VoiceFragment} {d w n : Nat}

/-- A zero in front is a placeholder. -/
theorem readTerms_zero (h : readTerms s = some n) : readTerms (.zero :: s) = some n := by
  cases s with
  | nil => exact h
  | cons f s => rw [readTerms, if_pos rfl, h]

/-- A digit with its unit. -/
theorem readTerms_term (hf : f ≠ .zero) (hd : f.digit = some d) (hu : u.unit = some w)
    (h : readTerms s = some n) : readTerms (f :: u :: s) = some (d * w + n) := by
  rw [readTerms, if_neg hf, hd, hu, h]
  rfl

/-- A numeral that is read term by term does not start with a ten. -/
theorem readInteger_of_readTerms (h : readTerms s = some n) : readInteger s = some n := by
  unfold readInteger
  split
  next rest =>
    cases rest with
    | nil => cases h
    | cons u rest => cases h
  · exact h

/-- Neither the dot nor the yuan is part of a numeral. -/
theorem inInteger_of_readTerms (h : readTerms s = some n) : ∀ f ∈ s, inInteger f = true := by
  have hdigit (f : VoiceFragment) (d : Nat) (h : f.digit = some d) : inInteger f = true := by
    cases f <;> first | rfl | cases h
  have hunit (f : VoiceFragment) (d : Nat) (h : f.unit = some d) : inInteger f = true := by
    cases f <;> first | rfl | cases h
  induction s using readTerms.induct generalizing n with
  | case1 => simp
  | case2 f => simpa using hdigit f n h
  | case3 u rest ih =>
    rw [readTerms, if_pos rfl] at h
    exact List.forall_mem_cons.mpr ⟨rfl, ih h⟩
  | case4 f u rest hf ih =>
    rw [readTerms, if_neg hf] at h
    obtain ⟨d, hd, h⟩ := Option.bind_eq_some_iff.mp h
    obtain ⟨w, hw, h⟩ := Option.bind_eq_some_iff.mp h
    obtain ⟨m, hm, -⟩ := Option.bind_eq_some_iff.mp h
    exact List.forall_mem_cons.mpr ⟨hdigit f d hd, List.forall_mem_cons.mpr ⟨hunit u w hw, ih hm⟩⟩

/-- Neither the dot nor the yuan is part of a numeral with a leading ten. -/
theorem inInteger_of_readInteger (h : readInteger s = some n) : ∀ f ∈ s, inInteger f = true := by
  unfold readInteger at h
  split at h
  next rest =>
    obtain ⟨m, hm, -⟩ := Option.map_eq_some_iff.mp h
    exact List.forall_mem_cons.mpr ⟨rfl, inInteger_of_readTerms hm⟩
  · exact inInteger_of_readTerms h

/-- An amount is read from its numeral and what follows it. -/
theorem readAmount_append {t : List VoiceFragment} {c : Nat} (hs : readInteger s = some n)
    (ht : readDecimals t = some c) (hhead : ∀ f ∈ t.head?, inInteger f = false) :
    readAmount (s ++ t) = some (100 * n + c) := by
  have hall := inInteger_of_readInteger hs
  have htake : t.takeWhile inInteger = [] := by
    cases t with
    | nil => rfl
    | cons f t => rw [List.takeWhile_cons_of_neg (by simp [hhead f rfl])]
  have hdrop : t.dropWhile inInteger = t := by
    cases t with
    | nil => rfl
    | cons f t => rw [List.dropWhile_cons_of_neg (by simp [hhead f rfl])]
  rw [readAmount, List.takeWhile_append_of_pos hall, List.dropWhile_append_of_pos hall, htake,
    hdrop, List.append_nil, hs, ht]
  rfl

end Reading

/-! ## The digits -/

namespace Voice

/-- The digits of a natural number. -/
theorem currBit_natCast (n i : Nat) : currBit n i = (n / 10 ^ i % 10 : Nat) := by
  rw [currBit, ← Int.ofNat_tdiv]
  rfl

/-- The digits of a negative number are negative. -/
theorem currBit_neg (n : Int) (i : Nat) : currBit (-n) i = -currBit n i := by
  rw [currBit, Int.neg_tdiv, Int.neg_tmod, currBit]

/-- The loop of `msb10` counts the digits that are left. -/
theorem msbLoop_tdiv (msb : Nat) (n : Int) :
    msbLoop msb (n.tdiv 10) = msb + Nat.log 10 n.natAbs := by
  have habs : (n.tdiv 10).natAbs = n.natAbs / 10 := Int.natAbs_tdiv n 10
  rw [msbLoop]
  split
  next h =>
    rw [h] at habs
    rw [Nat.log_of_lt ((Nat.div_eq_zero_iff_lt (by decide)).mp habs.symm), Nat.add_zero]
  next h =>
    have hle : 10 ≤ n.natAbs := by
      by_contra hlt
      exact h (Int.natAbs_eq_zero.mp (habs.trans (Nat.div_eq_of_lt (Nat.not_le.mp hlt))))
    have hpos : 0 < Nat.log 10 n.natAbs := Nat.log_pos (by decide) hle
    rw [msbLoop_tdiv (msb + 1) (n.tdiv 10), habs, Nat.log_div_base]
    omega
termination_by n.natAbs
decreasing_by
  rw [habs]
  exact Nat.div_lt_self (by omega) (by decide)

/-- `msb10` is the logarithm to the base of ten. -/
theorem msb10_eq (n : Int) : msb10 n = Nat.log 10 n.natAbs := by
  rw [msb10, msbLoop_tdiv, Nat.zero_add]

/-- The first digit of a number is none of the zeros. -/
theorem firstDigit_pos {n : Nat} (hn : n ≠ 0) :
    0 < n / 10 ^ Nat.log 10 n % 10 ∧ n / 10 ^ Nat.log 10 n < 10 := by
  have hpos : 0 < 10 ^ Nat.log 10 n := Nat.pow_pos (by decide)
  have hlow : 1 ≤ n / 10 ^ Nat.log 10 n :=
    (Nat.one_le_div_iff hpos).mpr (Nat.pow_log_le_self 10 hn)
  have hhigh : n / 10 ^ Nat.log 10 n < 10 := by
    rw [Nat.div_lt_iff_lt_mul hpos, Nat.mul_comm, ← Nat.pow_succ]
    exact Nat.lt_pow_succ_log_self (by decide) n
  rw [Nat.mod_eq_of_lt hhigh]
  exact ⟨hlow, hhigh⟩

/-! ## The tables -/

section Tables

variable {table : List VoiceFragment} {voice : Voice} {f : VoiceFragment}

/-- An access inside a table. -/
theorem fragmAt_of_getElem? {k : Nat} (h : table[k]? = some f) :
    voice.fragmAt table k = some (voice.fragm f) := by
  rw [fragmAt, if_pos (Int.natCast_nonneg k), Int.toNat_natCast, h]
  rfl

/-- An access behind a table. -/
theorem fragmAt_of_length_le {k : Nat} (h : table.length ≤ k) : voice.fragmAt table k = none := by
  rw [fragmAt, if_pos (Int.natCast_nonneg k), Int.toNat_natCast, List.getElem?_eq_none h]
  rfl

/-- An access before a table. -/
theorem fragmAt_of_neg {i : Int} (h : i < 0) : voice.fragmAt table i = none :=
  if_neg (Int.not_le.mpr h)

end Tables

/-- The fragment of a digit. -/
def numberAt (d : Nat) : VoiceFragment := numbers.getD d .zero

/-- The fragment of the unit of the digit `i`. -/
def bitAt (i : Nat) : VoiceFragment := bits.getD (i - 1) .ten

theorem numbers_getElem? : ∀ d < 10, numbers[d]? = some (numberAt d) := by decide

theorem digit_numberAt : ∀ d < 10, (numberAt d).digit = some d := by decide

theorem numberAt_ne_zero : ∀ d < 10, d ≠ 0 → numberAt d ≠ .zero := by decide

theorem bits_getElem? : ∀ i ≤ 4, i ≠ 0 → bits[i - 1]? = some (bitAt i) := by decide

theorem unit_bitAt : ∀ i ≤ 4, i ≠ 0 → (bitAt i).unit = some (10 ^ i) := by decide

section Conditions

variable {c : Prop} [Decidable c] {voice : Voice}

/-- Speaking a fragment under a condition, with an access inside the table. -/
theorem fragmIf_of_getElem? {table : List VoiceFragment} {k : Int} {j : Nat} {f : VoiceFragment}
    (hk : c → k = j) (h : c → table[j]? = some f) :
    voice.fragmIf c table k = some ⟨voice.seq ++ if c then [f] else []⟩ := by
  rw [fragmIf]
  split
  next hc => rw [hk hc, fragmAt_of_getElem? (h hc)]; rfl
  next => rw [List.append_nil]

/-- Speaking a digit under a condition. -/
theorem fragmIf_digit {d : Nat} (hd : d < 10) :
    voice.fragmIf c numbers d = some ⟨voice.seq ++ if c then [numberAt d] else []⟩ :=
  fragmIf_of_getElem? (fun _ => rfl) (fun _ => numbers_getElem? d hd)

/-- Speaking a zero under a condition. -/
theorem fragmIf_zero :
    voice.fragmIf c numbers 0 = some ⟨voice.seq ++ if c then [VoiceFragment.zero] else []⟩ :=
  fragmIf_digit (d := 0) (by decide)

/-- Speaking the unit of a digit, which the last digit does not have. -/
theorem fragmIf_unit {i : Nat} (hi : i ≤ 4) :
    voice.fragmIf (i ≠ 0) bits ((i : Int) - 1) =
      some ⟨voice.seq ++ if i ≠ 0 then [bitAt i] else []⟩ :=
  fragmIf_of_getElem? (fun h0 => by omega) (bits_getElem? i hi)

end Conditions

/-! ## What the loop over the digits speaks -/

section Loop

variable {n msb i : Nat} {meetZero : Bool} {voice : Voice}

/-- A digit that is zero is left out. -/
theorem integerLoop_zero (h : n / 10 ^ i % 10 = 0) :
    integerLoop n msb (i + 1) meetZero voice = integerLoop n msb i true voice := by
  rw [integerLoop, if_neg]
  rw [currBit_natCast, h]
  exact fun hne => hne rfl

/-- A digit other than zero is spoken, after a placeholder for the zeros before it and with its
unit; the digit of a leading ten is left out. -/
theorem integerLoop_digit (h : n / 10 ^ i % 10 ≠ 0) (hi : i ≤ 4) :
    integerLoop n msb (i + 1) meetZero voice = integerLoop n msb i false
      ⟨voice.seq ++ ((if meetZero then [VoiceFragment.zero] else []) ++
        ((if msb ≠ 1 ∨ i ≠ 1 ∨ n / 10 ^ i % 10 ≠ 1 then [numberAt (n / 10 ^ i % 10)] else []) ++
          if i ≠ 0 then [bitAt i] else []))⟩ := by
  have hd : n / 10 ^ i % 10 < 10 := Nat.mod_lt _ (by decide)
  have hcast : ((n / 10 ^ i % 10 : Nat) : Int) ≠ 1 ↔ n / 10 ^ i % 10 ≠ 1 := by omega
  rw [integerLoop, currBit_natCast, if_pos (by omega)]
  simp only [fragmIf_zero, fragmIf_digit hd, fragmIf_unit hi, Option.bind_eq_bind,
    Option.bind_some, hcast, List.append_assoc]

/-- The loop over the lowest `i` digits of a number speaks a numeral for them, if none of them is
the digit of a leading ten. -/
theorem integerLoop_read (hi : i ≤ 5) (hfull : ∀ j < i, msb ≠ 1 ∨ j ≠ 1 ∨ n / 10 ^ j % 10 ≠ 1)
    (meetZero : Bool) (voice : Voice) :
    ∃ s, integerLoop n msb i meetZero voice = some ⟨voice.seq ++ s⟩ ∧
      readTerms s = some (n % 10 ^ i) := by
  induction i generalizing meetZero voice with
  | zero =>
    exact ⟨[], by rw [integerLoop, List.append_nil], by rw [Nat.pow_zero, Nat.mod_one]; rfl⟩
  | succ i ih =>
    have hrest := fun j hj => hfull j (Nat.lt_succ_of_lt hj)
    have hvalue : n % 10 ^ (i + 1) = n / 10 ^ i % 10 * 10 ^ i + n % 10 ^ i := by
      rw [Nat.mod_pow_succ, Nat.mul_comm, Nat.add_comm]
    by_cases hd : n / 10 ^ i % 10 = 0
    · obtain ⟨s, hs, hread⟩ := ih (Nat.le_of_succ_le hi) hrest true voice
      exact ⟨s, (integerLoop_zero hd).trans hs,
        by rw [hvalue, hd, Nat.zero_mul, Nat.zero_add, hread]⟩
    · have hlt : n / 10 ^ i % 10 < 10 := Nat.mod_lt _ (by decide)
      obtain ⟨s, hs, hread⟩ := ih (Nat.le_of_succ_le hi) hrest false
        ⟨voice.seq ++ ((if meetZero then [VoiceFragment.zero] else []) ++
          ([numberAt (n / 10 ^ i % 10)] ++ if i ≠ 0 then [bitAt i] else []))⟩
      refine ⟨(if meetZero then [VoiceFragment.zero] else []) ++
        ([numberAt (n / 10 ^ i % 10)] ++ if i ≠ 0 then [bitAt i] else []) ++ s, ?_, ?_⟩
      · rw [integerLoop_digit hd (Nat.le_of_succ_le_succ hi),
          if_pos (hfull i (Nat.lt_succ_self i)), hs]
        simp only [List.append_assoc]
      · -- without the placeholder; the last digit has no unit, and nothing stands behind it
        have hterm :
            readTerms ([numberAt (n / 10 ^ i % 10)] ++ (if i ≠ 0 then [bitAt i] else []) ++ s) =
            some (n % 10 ^ (i + 1)) := by
          by_cases h0 : i = 0
          · subst h0
            obtain rfl : s = [] := by simpa [integerLoop] using hs
            rw [Nat.zero_add, Nat.pow_one, Nat.pow_zero, Nat.div_one]
            exact digit_numberAt _ (Nat.mod_lt _ (by decide))
          · rw [hvalue, if_pos h0]
            exact readTerms_term (numberAt_ne_zero _ hlt hd) (digit_numberAt _ hlt)
              (unit_bitAt i (Nat.le_of_succ_le_succ hi) h0) hread
        cases meetZero with
        | false => exact hterm
        | true => exact readTerms_zero hterm

end Loop

/-! ## What an amount speaks -/

section Amount

variable {n : Nat} {voice : Voice}

/-- `Voice::integer` speaks a numeral for every number below 100000. -/
theorem integer_read (hn : n < 100000) (voice : Voice) :
    ∃ s, voice.integer n = some ⟨voice.seq ++ s⟩ ∧ readInteger s = some n := by
  by_cases h0 : n = 0
  · subst h0
    refine ⟨[.zero], ?_, rfl⟩
    have hloop : integerLoop (0 : Nat) 0 1 false voice = some voice := integerLoop_zero rfl
    rw [integer, msb10_eq]
    change (integerLoop (0 : Nat) 0 1 false voice).bind _ = _
    rw [hloop]
    rfl
  · have hmsb : Nat.log 10 n ≤ 4 := Nat.lt_succ_iff.mp (Nat.log_lt_of_lt_pow h0 hn)
    have hwhole : n % 10 ^ (Nat.log 10 n + 1) = n :=
      Nat.mod_eq_of_lt (Nat.lt_pow_succ_log_self (by decide) n)
    have hend (v : Option Voice) : (v.bind fun v => v.fragmIf ((n : Int) = 0) numbers 0) = v := by
      have : ¬ (n : Int) = 0 := by omega
      simp only [fragmIf, if_neg this, Option.bind_fun_some]
    rw [integer, msb10_eq, Int.natAbs_natCast, Option.bind_eq_bind, hend]
    by_cases hten : Nat.log 10 n = 1 ∧ n / 10 % 10 = 1
    · -- a leading ten
      obtain ⟨hlog, hone⟩ := hten
      rw [hlog] at hwhole ⊢
      have hfull : ∀ j < 1, 1 ≠ 1 ∨ j ≠ 1 ∨ n / 10 ^ j % 10 ≠ 1 :=
        fun j hj => .inr (.inl (by omega))
      obtain ⟨s, hs, hread⟩ :=
        integerLoop_read (by decide) hfull false ⟨voice.seq ++ [VoiceFragment.ten]⟩
      refine ⟨.ten :: s, ?_, ?_⟩
      · rw [integerLoop_digit (by rw [Nat.pow_one, hone]; decide) (by decide), Nat.pow_one, hone]
        simpa [bitAt, bits] using hs
      · rw [readInteger, hread]
        simp only [Option.map_eq_map, Option.map_some, Option.some.injEq]
        omega
    · have hfull (j : Nat) (hj : j < Nat.log 10 n + 1) :
          Nat.log 10 n ≠ 1 ∨ j ≠ 1 ∨ n / 10 ^ j % 10 ≠ 1 := by
        by_cases hj1 : j = 1
        · subst hj1
          rw [Nat.pow_one]
          by_cases hlog : Nat.log 10 n = 1
          · exact .inr (.inr fun hone => hten ⟨hlog, hone⟩)
          · exact .inl hlog
        · exact .inr (.inl hj1)
      obtain ⟨s, hs, hread⟩ := integerLoop_read (by omega) hfull false voice
      exact ⟨s, hs, readInteger_of_readTerms (by rw [hread, hwhole])⟩

/-- The decimals: the tens are always spoken, the ones only if they are not zero. -/
theorem amountLoop_natCast {c : Nat} (hc : c < 100) (voice : Voice) :
    amountLoop c 2 voice =
      some
        ⟨voice.seq ++ (numberAt (c / 10) :: if c % 10 ≠ 0 then [numberAt (c % 10)] else [])⟩ := by
  have hten : c / 10 < 10 := by omega
  have hone : c % 10 < 10 := Nat.mod_lt _ (by decide)
  have hcast : ((c % 10 : Nat) : Int) ≠ 0 ↔ c % 10 ≠ 0 := by omega
  simp only [amountLoop, currBit_natCast, Nat.pow_one, Nat.pow_zero, Nat.div_one,
    Nat.mod_eq_of_lt hten, fragmIf_digit hten, fragmIf_digit hone, Option.bind_eq_bind,
    Option.bind_some, hcast, ne_eq, Nat.one_ne_zero, not_false_eq_true, or_true, if_true,
    not_true_eq_false, or_false, List.append_assoc, List.singleton_append]

/-- `Voice::amount` speaks every amount of at most seven digits as it is read. -/
theorem amount_read_natCast {c : Nat} (hc : c ≤ 9999999) (voice : Voice) :
    ∃ s, voice.amount c = some ⟨voice.seq ++ s⟩ ∧ readAmount s = some c := by
  obtain ⟨s, hs, hread⟩ := integer_read (n := c / 100) (by omega) voice
  have hdiv : (c : Int).tdiv 100 = (c / 100 : Nat) := (Int.ofNat_tdiv c 100).symm
  have hmod : (c : Int).tmod 100 = (c % 100 : Nat) := (Int.ofNat_tmod c 100).symm
  have hval : 100 * (c / 100) + c % 100 = c := Nat.div_add_mod c 100
  rw [amount, hdiv, hmod, hs]
  by_cases h0 : c % 100 = 0
  · refine ⟨s ++ [VoiceFragment.yuan], ?_, ?_⟩
    · simp [h0, fragm]
    · rw [readAmount_append hread (c := 0) rfl (by simp [inInteger])]
      exact congrArg some (by omega)
  · have hlt : c % 100 < 100 := Nat.mod_lt _ (by decide)
    have hne : ((c % 100 : Nat) : Int) ≠ 0 := by omega
    refine ⟨s ++ (VoiceFragment.dot :: numberAt (c % 100 / 10) ::
      ((if c % 100 % 10 ≠ 0 then [numberAt (c % 100 % 10)] else []) ++ [VoiceFragment.yuan])), ?_,
        ?_⟩
    · simp only [Option.bind_eq_bind, Option.bind_some, if_pos hne, amountLoop_natCast hlt]
      simp [fragm]
    · have htail : readDecimals (VoiceFragment.dot :: numberAt (c % 100 / 10) ::
          ((if c % 100 % 10 ≠ 0 then [numberAt (c % 100 % 10)] else []) ++ [VoiceFragment.yuan])) =
          some (c % 100) := by
        have hten := digit_numberAt (c % 100 / 10) (by omega)
        have hone := digit_numberAt (c % 100 % 10) (Nat.mod_lt _ (by decide))
        split
        next =>
          simp only [List.singleton_append, readDecimals, hten, hone, Option.bind_eq_bind,
            Option.bind_some, Option.pure_def, Option.some.injEq]
          omega
        next h =>
          simp only [List.nil_append, readDecimals, hten, Option.map_eq_map, Option.map_some,
            Option.some.injEq]
          omega
      rw [readAmount_append hread htail (by simp [inInteger]), hval]

/-- Reading the fragments of `Voice::amount` gives the amount back, for every amount from 0 to
9999999 cents and whatever has been spoken before; so different amounts are spoken differently. -/
theorem amount_read {cents : Int} (hpos : 0 ≤ cents) (hle : cents ≤ 9999999) :
    (∀ voice : Voice, ∃ s, voice.amount cents = some ⟨voice.seq ++ s⟩ ∧
      readAmount s = some cents.toNat) ∧
    ∀ (cents' : Int) (voice : Voice), 0 ≤ cents' → cents' ≤ 9999999 → cents ≠ cents' →
      voice.amount cents ≠ voice.amount cents' := by
  obtain ⟨c, rfl⟩ := Int.eq_ofNat_of_zero_le hpos
  have hc : c ≤ 9999999 := by omega
  refine ⟨fun voice => amount_read_natCast hc voice, fun cents' voice hpos' hle' hne heq => hne ?_⟩
  obtain ⟨c', rfl⟩ := Int.eq_ofNat_of_zero_le hpos'
  obtain ⟨s, hs, hread⟩ := amount_read_natCast hc voice
  obtain ⟨s', hs', hread'⟩ := amount_read_natCast (c := c') (by omega) voice
  have hseq : s = s' := by
    have : voice.seq ++ s = voice.seq ++ s' :=
      congrArg Voice.seq (Option.some.inj (hs.symm.trans (heq.trans hs')))
    exact List.append_cancel_left this
  rw [hseq, hread'] at hread
  exact congrArg Int.ofNat (Option.some.inj hread).symm

/-- An amount with a leading ten, zeros between digits and one decimal left out: ten yuan, and a
hundred thousand and ten cents. -/
theorem amount_read_ten :
    (∃ s, Voice.amount {} 1000 = some ⟨s⟩ ∧ readAmount s = some 1000) ∧
    Voice.amount {} 1000 ≠ Voice.amount {} 100010 :=
  ⟨(amount_read (by decide) (by decide)).1 {},
    (amount_read (by decide) (by decide)).2 100010 {} (by decide) (by decide) (by decide)⟩

end Amount

/-! ## Amounts that are not spoken -/

section Outside

variable {n : Nat}

/-- A condition under which a fragment outside its table is spoken. -/
theorem fragmIf_of_none {c : Prop} [Decidable c] {table : List VoiceFragment} {k : Int}
    {voice : Voice} (hc : c) (h : voice.fragmAt table k = none) :
    voice.fragmIf c table k = none := by
  rw [fragmIf, if_pos hc, h]

/-- From 100000 on, the first digit has no unit. -/
theorem integer_of_le (hn : 100000 ≤ n) (voice : Voice) : voice.integer n = none := by
  have hmsb : 5 ≤ Nat.log 10 n := Nat.le_log_of_pow_le (by decide) hn
  obtain ⟨hpos, -⟩ := firstDigit_pos (n := n) (by omega)
  have hd : n / 10 ^ Nat.log 10 n % 10 < 10 := Nat.mod_lt _ (by decide)
  have hunit (voice : Voice) :
      voice.fragmIf (Nat.log 10 n ≠ 0) bits ((Nat.log 10 n : Int) - 1) = none := by
    refine fragmIf_of_none (by omega) ?_
    have hcast : (Nat.log 10 n : Int) - 1 = (Nat.log 10 n - 1 : Nat) := by omega
    rw [hcast]
    exact fragmAt_of_length_le (show 4 ≤ Nat.log 10 n - 1 by omega)
  rw [integer, msb10_eq, Int.natAbs_natCast, integerLoop, currBit_natCast, if_pos (by omega)]
  simp only [fragmIf_zero, fragmIf_digit hd, hunit, Option.bind_eq_bind, Option.bind_some,
    Option.bind_none]

/-- The first digit of a negative number is negative. -/
theorem integer_neg (hn : n ≠ 0) (voice : Voice) : voice.integer (-(n : Int)) = none := by
  obtain ⟨hpos, -⟩ := firstDigit_pos hn
  have hdigit (voice : Voice) (c : Prop) [Decidable c] (hc : c) :
      voice.fragmIf c numbers (-((n / 10 ^ Nat.log 10 n % 10 : Nat) : Int)) = none :=
    fragmIf_of_none hc (fragmAt_of_neg (by omega))
  rw [integer, msb10_eq, Int.natAbs_neg, Int.natAbs_natCast, integerLoop, currBit_neg,
    currBit_natCast, if_pos (by omega)]
  simp only [fragmIf_zero, Option.bind_eq_bind, Option.bind_some]
  rw [hdigit _ _ (.inr (.inr (by omega)))]
  rfl

/-- The decimals of a negative amount are negative. -/
theorem amountLoop_neg (h0 : n ≠ 0) (hn : n < 100) (voice : Voice) :
    amountLoop (-(n : Int)) 2 voice = none := by
  have hdigit (voice : Voice) (d : Nat) (c : Prop) [Decidable c] (hd : d ≠ 0) (hc : c) :
      voice.fragmIf c numbers (-(d : Int)) = none :=
    fragmIf_of_none hc (fragmAt_of_neg (by omega))
  simp only [amountLoop, currBit_neg, currBit_natCast, Nat.pow_one, Nat.pow_zero, Nat.div_one]
  by_cases hten : n / 10 % 10 = 0
  · -- below ten cents the first decimal is zero and the second is not
    rw [hten]
    change (voice.fragmIf _ numbers 0).bind _ = _
    rw [fragmIf_zero, Option.bind_some, hdigit _ _ _ (by omega) (.inl (by omega))]
    rfl
  · rw [hdigit _ _ _ hten (.inr (by decide))]
    rfl

/-- An amount is spoken exactly if it is neither negative nor of more than seven digits. -/
theorem amount_isSome_iff (cents : Int) (voice : Voice) :
    (voice.amount cents).isSome ↔ 0 ≤ cents ∧ cents ≤ 9999999 := by
  constructor
  · intro h
    by_contra hout
    obtain ⟨c, rfl | rfl⟩ := Int.eq_nat_or_neg cents
    · have hdiv : (c : Int).tdiv 100 = (c / 100 : Nat) := (Int.ofNat_tdiv c 100).symm
      rw [amount, hdiv, integer_of_le (by omega)] at h
      cases h
    · have hc : c ≠ 0 := by
        rintro rfl
        exact hout (by decide)
      have hdiv : (-(c : Int)).tdiv 100 = -(c / 100 : Nat) := by
        rw [Int.neg_tdiv, Int.ofNat_tdiv]
        rfl
      have hmod : (-(c : Int)).tmod 100 = -(c % 100 : Nat) := by
        rw [Int.neg_tmod, Int.ofNat_tmod]
        rfl
      rw [amount, hdiv, hmod] at h
      by_cases hy : c / 100 = 0
      · -- less than a yuan: the decimals are left
        rw [hy] at h
        obtain ⟨s, hs, -⟩ := integer_read (n := 0) (by decide) voice
        have hs' : voice.integer (-((0 : Nat) : Int)) = some ⟨voice.seq ++ s⟩ := hs
        rw [hs', Option.bind_eq_bind, Option.bind_some, if_pos (by omega),
          amountLoop_neg (by omega) (by omega)] at h
        cases h
      · rw [integer_neg hy] at h
        cases h
  · rintro ⟨hpos, hle⟩
    obtain ⟨c, rfl⟩ := Int.eq_ofNat_of_zero_le hpos
    obtain ⟨s, hs, -⟩ := amount_read_natCast (c := c) (by omega) voice
    rw [hs]
    rfl

end Outside

end Voice

/-- The voice of a successful broadcast is built without an index outside its table exactly if the
balance is not negative and has at most seven digits. -/
theorem VoiceNotifierLite.boradcast_indexes_iff (balance : Int32) :
    (boradcast balance.toInt .succeed).isSome ↔ 0 ≤ balance.toInt ∧ balance.toInt ≤ 9999999 :=
  Voice.amount_isSome_iff balance.toInt _

/-- A debt of one cent, whose second decimal indexes the digits with -1, and 100000 yuan, whose
first digit indexes the units with 4. -/
theorem VoiceNotifierLite.boradcast_debt :
    boradcast (-1 : Int32).toInt .succeed = none ∧
      boradcast (10000000 : Int32).toInt .succeed = none := by
  constructor
  · rw [← Option.not_isSome_iff_eq_none, boradcast, Voice.amount_isSome_iff]
    decide
  · rw [← Option.not_isSome_iff_eq_none, boradcast, Voice.amount_isSome_iff]
    decide

end ChargingPile
