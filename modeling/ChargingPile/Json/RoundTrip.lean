import ChargingPile.Json.Text
import Mathlib.Data.List.TakeWhile
import Mathlib.Data.Nat.Digits.Lemmas

/-!
# A printed document is read back

The wrapper builds documents from `int`s, strings without a NUL, booleans, null, arrays and
objects (`Printable`). What `print` makes of such a document, `parse` reads as the same
document (`parse_print`).

A value is read in front of the text that follows it. Only a number looks at that text, so the text
must not go on with what could belong to a number (`Ends`).
-/

namespace ChargingPile.Json

variable {D : Doubles} {t rest : Text}

/-! ## Numbers -/

/-- The text does not go on with a part of a number. -/
def Ends (rest : Text) : Prop :=
  ∀ c ∈ rest.head?, c.isDigit = false ∧ c ≠ '.' ∧ c ≠ 'e' ∧ c ≠ 'E'

@[simp] theorem ends_nil : Ends [] := nofun

theorem ends_cons {c : Char} (h : c.isDigit = false ∧ c ≠ '.' ∧ c ≠ 'e' ∧ c ≠ 'E') :
    Ends (c :: t) := by
  intro c' hc'
  obtain rfl : c = c' := by simpa using hc'
  exact h

theorem parseFraction_of_ends (n : UInt64) (h : Ends rest) :
    parseFraction D n rest = ((n, D.ofInt 0), rest) := by
  match rest with
  | [] | [_] => rfl
  | c :: c' :: t =>
    rw [parseFraction, if_neg]
    rintro ⟨rfl, -⟩
    exact (h '.' rfl).2.1 rfl

theorem parseExponent_of_ends (h : Ends rest) : parseExponent rest = (0, rest) := by
  cases rest with
  | nil => rfl
  | cons c t =>
    obtain ⟨-, -, he, hE⟩ := h c rfl
    simp only [parseExponent, he, hE, or_self, if_false]

/-- The number that digits append to `n`. -/
def pushAll (n : Nat) (ds : List Nat) : Nat := ds.foldl (fun n d => n * 10 + d) n

@[simp] theorem pushAll_nil (n : Nat) : pushAll n [] = n := rfl
@[simp] theorem pushAll_cons (n d : Nat) (ds : List Nat) :
    pushAll n (d :: ds) = pushAll (n * 10 + d) ds := rfl

theorem le_pushAll (n : Nat) (ds : List Nat) : n ≤ pushAll n ds := by
  induction ds generalizing n with
  | nil => exact le_rfl
  | cons d ds ih => exact (by omega : n ≤ n * 10 + d).trans (ih _)

theorem pushAll_digits (m : Nat) : pushAll 0 (Nat.digits 10 m).reverse = m := by
  have hfold := Nat.ofDigits_eq_foldr 10 (Nat.digits 10 m)
  rw [Nat.ofDigits_digits] at hfold
  rw [pushAll, List.foldl_reverse]
  conv_rhs => rw [hfold]
  refine congrArg (fun f => List.foldr f 0 _) ?_
  funext d n
  rw [Nat.cast_id, Nat.mul_comm, Nat.add_comm]

theorem digitVal_digitChar {d : Nat} (h : d < 10) : digitVal d.digitChar = d := by
  rw [digitVal, Nat.toNat_digitChar_of_lt_ten h, Nat.add_sub_cancel_left]

/-- A digit is added to an exact integer exactly. -/
theorem push_ofInt {n d : Nat} (hd : d < 10) (hn : n * 10 + d ≤ 2 ^ 53) :
    D.push (D.ofInt n) d.digitChar = D.ofInt (n * 10 + d : Nat) := by
  have hmul := D.mul_ofInt n 10 (by omega) (fun _ => ⟨by omega, by omega⟩)
  have hadd := D.add_ofInt ((n : Int) * 10) d (by omega) (by omega) (by omega)
  rw [Doubles.push, digitVal_digitChar hd, hmul, hadd]
  norm_cast

theorem integerLoop_digits {n : Nat} {ds : List Nat} (hds : ∀ d ∈ ds, d < 10)
    (hn : pushAll n ds ≤ 2 ^ 53) (h : Ends rest) :
    integerLoop D (D.ofInt n) (ds.map Nat.digitChar ++ rest) = (D.ofInt (pushAll n ds), rest) := by
  induction ds generalizing n with
  | nil =>
    cases rest with
    | nil => rfl
    | cons c t =>
      rw [List.map_nil, List.nil_append, integerLoop, if_neg (by simp [(h c rfl).1])]
      rfl
  | cons d ds ih =>
    have hd := hds d List.mem_cons_self
    have hle := (le_pushAll (n * 10 + d) ds).trans hn
    rw [List.map_cons, List.cons_append, integerLoop, Nat.isDigit_digitChar,
      if_pos (by simpa using hd), push_ofInt hd hle]
    exact ih (fun d' hd' => hds d' (List.mem_cons_of_mem d hd')) hn

/-- The digits of a positive number begin with one that is not zero. -/
theorem decimal_eq_cons {m : Nat} (hm : m ≠ 0) :
    ∃ d ds, (Nat.digits 10 m).reverse = d :: ds ∧ d ≠ 0 ∧ d < 10 ∧
      decimal m = d.digitChar :: ds.map Nat.digitChar := by
  have hne := (Nat.digits_ne_nil_iff_ne_zero (b := 10)).2 hm
  obtain ⟨d, ds, hds⟩ := List.exists_cons_of_ne_nil (mt List.reverse_eq_nil_iff.1 hne)
  have hlast : (Nat.digits 10 m).getLast hne = d := by
    rw [List.getLast_eq_head_reverse]
    simp [hds]
  refine ⟨d, ds, hds, ?_, ?_, by rw [decimal, hds, List.map_cons]⟩
  · rw [← hlast]
    exact Nat.getLast_digit_ne_zero 10 hm
  · exact Nat.digits_lt_base (by omega) (List.mem_reverse.1 (hds ▸ List.mem_cons_self))

theorem digitChar_ne_zero {d : Nat} (hd : d ≠ 0) (h : d < 10) : d.digitChar ≠ '0' := by
  intro hc
  have hval := congrArg digitVal hc
  rw [digitVal_digitChar h] at hval
  exact hd hval

theorem digitChar_ne_minus (d : Nat) : d.digitChar ≠ '-' := Nat.digitChar_ne '-' rfl

/-- The digits of a positive number are read as the number. -/
theorem parseInteger_decimal {m : Nat} (hm : m ≠ 0) (hle : m ≤ 2 ^ 53) (h : Ends rest) :
    parseInteger D (skipZero (decimal m ++ rest)) = (D.ofInt m, rest) := by
  obtain ⟨d, ds, hds, hd0, hd, hdec⟩ := decimal_eq_cons hm
  have hval : pushAll 0 (d :: ds) = m := hds ▸ pushAll_digits m
  have hlt : ∀ e ∈ d :: ds, e < 10 := by
    intro e he
    exact Nat.digits_lt_base (by omega) (List.mem_reverse.1 (hds ▸ he))
  have hloop := integerLoop_digits (D := D) hlt (hval.trans_le hle) h
  have hne := digitChar_ne_zero hd0 hd
  rw [hdec, List.cons_append, skipZero, if_neg hne, parseInteger,
    if_pos ⟨by simpa [Nat.isDigit_digitChar] using hd, hne⟩]
  rw [hval, List.map_cons, List.cons_append] at hloop
  exact hloop

/-- What `parse_number` makes of a sign and an integer. -/
theorem parseNumber_eq {n : UInt64} (hsign : parseInteger D (skipZero (parseSign t).2) = (n, rest))
    (h : Ends rest) :
    parseNumber D t =
      (let x := D.mul (D.mul (D.ofInt (if (parseSign t).1 then -1 else 1)) n) (D.ofInt 1)
       (.number (D.toInt x) x, rest)) := by
  have hadd := D.add_ofInt 0 0 (by decide) (by decide) (by decide)
  have hzero : (0 : Int32).toInt = 0 := rfl
  simp only [parseNumber, hsign, parseFraction_of_ends n h, parseExponent_of_ends h, hzero, hadd,
    Int.add_zero, D.pow10_zero]

/-- **A printed integer is read back.** -/
theorem parseNumber_printNumber (i : Int32) (h : Ends rest) :
    parseNumber D (printNumber D i (D.ofInt i.toInt) ++ rest) =
      (.number i (D.ofInt i.toInt), rest) := by
  have hlo := i.le_toInt
  have hhi := i.toInt_lt
  rw [printNumber, D.isZero_ofInt, D.isInt_ofInt]
  by_cases hi : i = 0
  · subst hi
    have hinteger : parseInteger D (skipZero (parseSign ('0' :: rest)).2) = (D.ofInt 0, rest) := by
      cases rest with
      | nil => rfl
      | cons c t =>
        show parseInteger D (c :: t) = _
        rw [parseInteger, if_neg (by simp [(h c rfl).1])]
    have hmul := D.mul_ofInt 1 0 (by decide) (fun _ => by decide)
    have hmul' := D.mul_ofInt 0 1 (by decide) (fun _ => by decide)
    have hto := D.toInt_ofInt 0
    have hsign : (parseSign ('0' :: rest)).1 = false := rfl
    rw [beq_self_eq_true, if_pos rfl, List.singleton_append, parseNumber_eq hinteger h, hsign,
      if_neg Bool.false_ne_true, hmul, Int.mul_zero, hmul', Int.zero_mul]
    exact congrArg (fun j => (Value.number j _, rest)) hto
  · have hne : i.toInt ≠ 0 := fun h0 => hi (Int32.toInt_inj.1 h0)
    have hm : i.toInt.natAbs ≠ 0 := Int.natAbs_ne_zero.2 hne
    have hinteger := parseInteger_decimal (D := D) hm (by omega) h
    obtain ⟨d, ds, -, -, -, hdec⟩ := decimal_eq_cons hm
    rw [beq_false_of_ne hi, if_neg Bool.false_ne_true, if_pos rfl]
    by_cases hneg : i < 0
    · have hlt : i.toInt < 0 := Int32.lt_iff_toInt_lt.1 hneg
      have hsign : parseSign ('-' :: decimal i.toInt.natAbs ++ rest) =
          (true, decimal i.toInt.natAbs ++ rest) := rfl
      have habs : (-1 : Int) * (i.toInt.natAbs : Int) = i.toInt := by omega
      have hmul := D.mul_ofInt (-1) i.toInt.natAbs (by omega) (by omega)
      have hmul' := D.mul_ofInt i.toInt 1 (by omega) (by omega)
      rw [if_pos hneg, parseNumber_eq (by rw [hsign]; exact hinteger) h, hsign, if_pos rfl, hmul,
        habs, hmul', Int.mul_one]
      exact congrArg (fun j => (Value.number j _, rest)) (D.toInt_ofInt i)
    · have hge : 0 ≤ i.toInt := Int.not_lt.1 fun hlt => hneg (Int32.lt_iff_toInt_lt.2 hlt)
      have hsign : parseSign (decimal i.toInt.natAbs ++ rest) =
          (false, decimal i.toInt.natAbs ++ rest) := by
        rw [hdec, List.cons_append, parseSign, if_neg (digitChar_ne_minus d)]
      have habs : (1 : Int) * (i.toInt.natAbs : Int) = i.toInt := by omega
      have hmul := D.mul_ofInt 1 i.toInt.natAbs (by omega) (by omega)
      have hmul' := D.mul_ofInt i.toInt 1 (by omega) (by omega)
      rw [if_neg hneg, parseNumber_eq (by rw [hsign]; exact hinteger) h, hsign,
        if_neg Bool.false_ne_true, hmul, habs, hmul', Int.mul_one]
      exact congrArg (fun j => (Value.number j _, rest)) (D.toInt_ofInt i)

/-! ## Strings -/

/-- The escapes of one character, by what they look like. -/
inductive Escape (c : Char) : Text → Prop
  | plain (h : c ≠ '"') (h' : c ≠ '\\') : Escape c [c]
  | short (e : Char) (he : e ≠ 'u') (h : escaped e = c) : Escape c ['\\', e]
  | long (h : 0 < c.toNat) (h' : c.toNat < 32) :
      Escape c ['\\', 'u', '0', '0', hexDigit (c.toNat / 16), hexDigit (c.toNat % 16)]

theorem escape_spec {c : Char} (hc : c ≠ '\x00') : Escape c (escape c) := by
  have hpos : 0 < c.toNat := by
    refine Nat.pos_of_ne_zero fun h0 => hc ?_
    rw [← Char.ofNat_toNat c, h0]
  unfold escape
  split
  next h => exact .plain h.2.1 h.2.2
  next hplain =>
    split
    next h => exact .short _ (by decide) h.symm
    next hb =>
      split
      next h => exact .short _ (by decide) h.symm
      next hq =>
        have hlt : c.toNat < 32 := by
          by_contra hge
          exact hplain ⟨by omega, hq, hb⟩
        split
        next h => exact .short _ (by decide) h.symm
        split
        next h => exact .short _ (by decide) h.symm
        split
        next h => exact .short _ (by decide) h.symm
        split
        next h => exact .short _ (by decide) h.symm
        split
        next h => exact .short _ (by decide) h.symm
        next => exact .long hpos hlt

theorem hexVal_hexDigit : ∀ d < 16, hexVal (hexDigit d) = some d := by decide

theorem parseHex4_hexDigit {n : Nat} (h : n < 256) :
    parseHex4 '0' '0' (hexDigit (n / 16)) (hexDigit (n % 16)) = n := by
  have hzero : hexVal '0' = some 0 := hexVal_hexDigit 0 (by decide)
  rw [parseHex4, hzero, hexVal_hexDigit _ (by omega), hexVal_hexDigit _ (by omega)]
  show ((0 * 16 + 0) * 16 + n / 16) * 16 + n % 16 = n
  omega

/-- The second pass takes an escape for the character. -/
theorem unescape_escape {c : Char} (hc : c ≠ '\x00') (t : Text) :
    unescape (escape c ++ t) = emit [c] (unescape t) := by
  have hesc := escape_spec hc
  generalize escape c = l at hesc ⊢
  cases hesc with
  | plain h h' => exact unescape_plain h h' t
  | short e he h => rw [List.cons_append, List.singleton_append, unescape_backslash he, h]
  | long h h' =>
    have hval := parseHex4_hexDigit (n := c.toNat) (by omega)
    have hone := unescape_unicode t (hval.trans_ne (by omega)) (by omega)
    rw [hval, utf8, if_pos (by omega), Char.ofNat_toNat] at hone
    exact hone

/-- The first pass counts a byte for an escape, or five for a long one. -/
theorem scan_escape {c : Char} (hc : c ≠ '\x00') (t : Text) :
    ∃ k, scan (escape c ++ t) = (scan t).map (· + (k + 1)) := by
  have hmap (j k : Nat) : ∀ r : Except Fault Nat,
      (r.map (· + j)).map (· + k) = r.map (· + (j + k)) := by
    rintro (e | n)
    · rfl
    · exact congrArg Except.ok (Nat.add_assoc n j k)
  have hesc := escape_spec hc
  generalize escape c = l at hesc ⊢
  cases hesc with
  | plain h h' => exact ⟨0, scan_plain h h' t⟩
  | short e he h => exact ⟨0, scan_backslash e t⟩
  | long h h' =>
    refine ⟨4, ?_⟩
    have hhigh : ∀ n t', scan (hexDigit n :: t') = (scan t').map (· + 1) := fun n t' =>
      scan_plain (Nat.digitChar_ne _ rfl) (Nat.digitChar_ne _ rfl) t'
    simp only [List.cons_append, List.nil_append]
    rw [scan_backslash, scan_plain (by decide) (by decide), scan_plain (by decide) (by decide),
      hhigh, hhigh, hmap, hmap, hmap, hmap]

theorem escapeAll_cons {c : Char} {s : Text} (hs : '\x00' ∉ c :: s) :
    escapeAll (c :: s) = escape c ++ escapeAll s := by
  rw [escapeAll, if_neg fun h : c = '\x00' => hs (h ▸ List.mem_cons_self)]

theorem unescape_escapeAll {s : Text} (hs : '\x00' ∉ s) :
    unescape (escapeAll s ++ '"' :: rest) = .ok (s, '"' :: rest) := by
  induction s with
  | nil => exact unescape_quote rest
  | cons c s ih =>
    rw [escapeAll_cons hs, List.append_assoc,
      unescape_escape fun h => hs (h ▸ List.mem_cons_self),
      ih fun h => hs (List.mem_cons_of_mem c h)]
    rfl

theorem scan_escapeAll {s : Text} (hs : '\x00' ∉ s) (rest : Text) :
    ∃ len, scan (escapeAll s ++ '"' :: rest) = .ok len ∧ s.length ≤ len := by
  induction s with
  | nil => exact ⟨0, scan_quote rest, le_rfl⟩
  | cons c s ih =>
    obtain ⟨len, hlen, hle⟩ := ih fun h => hs (List.mem_cons_of_mem c h)
    obtain ⟨k, hk⟩ :=
      scan_escape (fun h => hs (h ▸ List.mem_cons_self)) (escapeAll s ++ '"' :: rest)
    refine ⟨len + (k + 1), ?_, ?_⟩
    · rw [escapeAll_cons hs, List.append_assoc, hk, hlen]
      rfl
    · rw [List.length_cons]
      omega

/-- **A printed string is read back.** -/
theorem parseString_printString {s : Text} (hs : '\x00' ∉ s) :
    parseString (escapeAll s ++ '"' :: rest) = .ok (s, rest) := by
  obtain ⟨len, hlen, hle⟩ := scan_escapeAll hs rest
  simp only [parseString, hlen, unescape_escapeAll hs]
  rw [if_neg (by omega)]
  rfl

/-! ## Values -/

/-- The documents that the wrapper builds without a `float`. -/
inductive Printable (D : Doubles) : Value → Prop
  | null : Printable D .null
  | bool (b : Bool) : Printable D (.bool b)
  | number (i : Int32) : Printable D (.number i (D.ofInt i.toInt))
  | string {s : Text} (h : '\x00' ∉ s) : Printable D (.string s)
  | array {items : List Value} (h : ∀ v ∈ items, Printable D v) : Printable D (.array items)
  | object {fields : List (Text × Value)} (hname : ∀ f ∈ fields, '\x00' ∉ f.1)
      (h : ∀ f ∈ fields, Printable D f.2) : Printable D (.object fields)

variable {v : Value}

theorem skip_cons {c : Char} (h : 32 < c.toNat) : skip (c :: t) = c :: t := by
  rw [skip, if_neg (by omega)]

theorem exists_printNumber (i : Int32) :
    ∃ c t, printNumber D i (D.ofInt i.toInt) = c :: t ∧ (c = '-' ∨ c.isDigit = true) := by
  rw [printNumber, D.isZero_ofInt, D.isInt_ofInt]
  by_cases hi : i = 0
  · subst hi
    exact ⟨'0', [], rfl, .inr rfl⟩
  · have hm : i.toInt.natAbs ≠ 0 := by
      intro h0
      exact hi (Int32.toInt_inj.1 (Int.natAbs_eq_zero.1 h0))
    obtain ⟨d, ds, -, -, hd, hdec⟩ := decimal_eq_cons hm
    rw [beq_false_of_ne hi, if_neg Bool.false_ne_true, if_pos rfl]
    split
    · exact ⟨'-', _, rfl, .inl rfl⟩
    · exact ⟨_, _, hdec, .inr (by simpa [Nat.isDigit_digitChar] using hd)⟩

theorem isDigit_bounds {c : Char} (h : c.isDigit = true) : 48 ≤ c.toNat ∧ c.toNat ≤ 57 := by
  have hval : 48 ≤ c.val ∧ c.val ≤ 57 := by simpa [Char.isDigit] using h
  exact ⟨UInt32.le_iff_toNat_le.1 hval.1, UInt32.le_iff_toNat_le.1 hval.2⟩

/-- The characters a number begins with are visible. -/
theorem isDigit_or_minus_gt {c : Char} (h : c = '-' ∨ c.isDigit = true) : 32 < c.toNat := by
  rcases h with rfl | h
  · decide
  · have hbounds := isDigit_bounds h
    omega

/-- A printed value begins with a visible character that closes nothing. -/
theorem Printable.exists_cons (h : Printable D v) :
    ∃ c t, printValue D v = c :: t ∧ 32 < c.toNat ∧ c ≠ ']' ∧ c ≠ '}' := by
  cases h with
  | null => exact ⟨'n', _, rfl, by decide⟩
  | bool b =>
    cases b with
    | true => exact ⟨'t', _, rfl, by decide⟩
    | false => exact ⟨'f', _, rfl, by decide⟩
  | number i =>
    obtain ⟨c, t, hc, hnum⟩ := exists_printNumber (D := D) i
    refine ⟨c, t, hc, isDigit_or_minus_gt hnum, ?_, ?_⟩ <;> rintro rfl <;> revert hnum <;> decide
  | string => exact ⟨'"', _, rfl, by decide⟩
  | array => exact ⟨'[', _, rfl, by decide⟩
  | object => exact ⟨'{', _, rfl, by decide⟩

theorem Printable.skip (h : Printable D v) (rest : Text) :
    Json.skip (printValue D v ++ rest) = printValue D v ++ rest := by
  obtain ⟨c, t, hc, hgt, -⟩ := h.exists_cons
  rw [hc, List.cons_append, skip_cons hgt]

/-- The first characters of a text rule out the keywords. -/
theorem parseValue_cons {fuel : Nat} {c : Char} (hn : c ≠ 'n') (hf : c ≠ 'f') (ht : c ≠ 't') :
    parseValue D (fuel + 1) (c :: t) =
      if c = '"' then asValue .string (parseString t)
      else if c = '-' ∨ c.isDigit then .ok (parseNumber D (c :: t))
      else if c = '[' then asValue .array (parseArray D fuel (skip t))
      else if c = '{' then asValue .object (parseObject D fuel (skip t))
      else .error .null := by
  have hnull : ¬ "null".toList <+: c :: t := by
    show ¬ ['n', 'u', 'l', 'l'] <+: c :: t
    rw [List.cons_prefix_cons]
    exact fun h => hn h.1.symm
  have hfalse : ¬ "false".toList <+: c :: t := by
    show ¬ ['f', 'a', 'l', 's', 'e'] <+: c :: t
    rw [List.cons_prefix_cons]
    exact fun h => hf h.1.symm
  have htrue : ¬ "true".toList <+: c :: t := by
    show ¬ ['t', 'r', 'u', 'e'] <+: c :: t
    rw [List.cons_prefix_cons]
    exact fun h => ht h.1.symm
  rw [parseValue, if_neg hnull, if_neg hfalse, if_neg htrue]

/-- What is to be shown of a value: it is read in front of any text, with fuel for its length. -/
def ReadsBack (D : Doubles) (v : Value) : Prop :=
  ∀ rest fuel, Ends rest → 3 * (printValue D v).length + 1 ≤ fuel →
    parseValue D fuel (printValue D v ++ rest) = .ok (v, rest)

theorem ends_comma : Ends (',' :: t) := ends_cons (by decide)
theorem ends_bracket : Ends (']' :: t) := ends_cons (by decide)
theorem ends_brace : Ends ('}' :: t) := ends_cons (by decide)

/-- The elements of an array are read back, by induction on them. -/
theorem parseItem_printItems {vs : List Value} (hp : ∀ w ∈ v :: vs, Printable D w)
    (hr : ∀ w ∈ v :: vs, ReadsBack D w) (rest : Text) (fuel : Nat)
    (hfuel : 3 * (printItems D (v :: vs)).length + 2 ≤ fuel) :
    parseItem D fuel (printItems D (v :: vs) ++ ']' :: rest) = .ok (v :: vs, rest) := by
  induction vs generalizing v fuel with
  | nil =>
    obtain ⟨fuel, rfl⟩ : ∃ n, fuel = n + 2 := ⟨fuel - 2, by omega⟩
    have hv := hp v List.mem_cons_self
    have hread := hr v List.mem_cons_self (']' :: rest) (fuel + 1) ends_bracket
      (by rw [printItems] at hfuel; omega)
    rw [parseItem, printItems, hv.skip, hread]
    dsimp only
    rw [skip_cons (by decide), parseItems, if_neg (by decide), if_pos rfl]
  | cons w vs ih =>
    have hlen : (printItems D (v :: w :: vs)).length =
        (printValue D v).length + 1 + (printItems D (w :: vs)).length := by
      rw [printItems, List.length_append, List.length_cons]
      omega
    obtain ⟨fuel, rfl⟩ : ∃ n, fuel = n + 2 := ⟨fuel - 2, by omega⟩
    have hv := hp v List.mem_cons_self
    have hread := hr v List.mem_cons_self (',' :: (printItems D (w :: vs) ++ ']' :: rest))
      (fuel + 1) ends_comma (by omega)
    have hrest := ih (fun x hx => hp x (List.mem_cons_of_mem v hx))
      (fun x hx => hr x (List.mem_cons_of_mem v hx)) fuel (by omega)
    rw [parseItem, printItems, List.append_assoc, List.cons_append, hv.skip, hread]
    simp only [skip_cons (show 32 < ','.toNat by decide), parseItems, if_true, hrest]

/-- A field is read back, and the fields after it are left to the loop. -/
theorem parseField_cons {name : Text} (hname : '\x00' ∉ name) (hp : Printable D v)
    (hr : ReadsBack D v) (h : Ends rest) {fuel : Nat}
    (hfuel : 3 * (printValue D v).length + 1 ≤ fuel) {fs : List (Text × Value)}
    (hfs : parseFields D fuel (skip rest) = .ok (fs, t)) :
    parseField D (fuel + 1) (printString name ++ ':' :: (printValue D v ++ rest)) =
      .ok ((name, v) :: fs, t) := by
  have htext : printString name ++ ':' :: (printValue D v ++ rest) =
      '"' :: (escapeAll name ++ '"' :: ':' :: (printValue D v ++ rest)) := by
    simp [printString]
  have hcolon : skip (':' :: (printValue D v ++ rest)) = ':' :: (printValue D v ++ rest) :=
    skip_cons (by decide)
  rw [htext, parseField, skip_cons (by decide)]
  simp only [ne_eq, not_true_eq_false, if_false, parseString_printString hname, hcolon, hp.skip,
    hr rest fuel h hfuel, hfs]

/-- The fields of an object are read back, by induction on them. -/
theorem parseField_printFields {f : Text × Value} {fs : List (Text × Value)}
    (hname : ∀ g ∈ f :: fs, '\x00' ∉ g.1) (hp : ∀ g ∈ f :: fs, Printable D g.2)
    (hr : ∀ g ∈ f :: fs, ReadsBack D g.2) (rest : Text) (fuel : Nat)
    (hfuel : 3 * (printFields D (f :: fs)).length + 2 ≤ fuel) :
    parseField D fuel (printFields D (f :: fs) ++ '}' :: rest) = .ok (f :: fs, rest) := by
  induction fs generalizing f fuel with
  | nil =>
    obtain ⟨name, v⟩ := f
    obtain ⟨fuel, rfl⟩ : ∃ n, fuel = n + 2 := ⟨fuel - 2, by omega⟩
    have hlen : (printFields D [(name, v)]).length =
        (printString name).length + 1 + (printValue D v).length := by
      rw [printFields, List.length_append, List.length_cons]
      omega
    have hv : Printable D v := hp _ List.mem_cons_self
    have hend : parseFields D (fuel + 1) (skip ('}' :: rest)) = .ok ([], rest) := by
      rw [skip_cons (by decide), parseFields, if_neg (by decide), if_pos rfl]
    rw [printFields, List.append_assoc, List.cons_append]
    exact parseField_cons (hname _ List.mem_cons_self) hv (hr _ List.mem_cons_self) ends_brace
      (by omega) hend
  | cons g fs ih =>
    obtain ⟨name, v⟩ := f
    have hlen : (printFields D ((name, v) :: g :: fs)).length =
        (printString name).length + 1 + (printValue D v).length + 1 +
          (printFields D (g :: fs)).length := by
      rw [printFields, List.length_append, List.length_cons, List.length_append, List.length_cons]
      omega
    obtain ⟨fuel, rfl⟩ : ∃ n, fuel = n + 2 := ⟨fuel - 2, by omega⟩
    have hrest := ih (fun x hx => hname x (List.mem_cons_of_mem _ hx))
      (fun x hx => hp x (List.mem_cons_of_mem _ hx)) (fun x hx => hr x (List.mem_cons_of_mem _ hx))
      fuel (by omega)
    have hv : Printable D v := hp _ List.mem_cons_self
    have hnext :
        parseFields D (fuel + 1) (skip (',' :: (printFields D (g :: fs) ++ '}' :: rest))) =
        .ok (g :: fs, rest) := by
      rw [skip_cons (by decide), parseFields, if_pos rfl, hrest]
    rw [printFields, List.append_assoc, List.cons_append, List.append_assoc, List.cons_append]
    exact parseField_cons (hname _ List.mem_cons_self) hv (hr _ List.mem_cons_self) ends_comma
      (by omega) hnext

/-- **A printed value is read back**, by induction on the value. -/
theorem Printable.readsBack (h : Printable D v) : ReadsBack D v := by
  induction h with
  | null =>
    intro rest fuel _ hfuel
    obtain ⟨fuel, rfl⟩ : ∃ n, fuel = n + 1 := ⟨fuel - 1, by omega⟩
    simp [printValue, parseValue]
  | bool b =>
    intro rest fuel _ hfuel
    obtain ⟨fuel, rfl⟩ : ∃ n, fuel = n + 1 := ⟨fuel - 1, by omega⟩
    cases b with
    | true => simp [printValue, parseValue]
    | false => simp [printValue, parseValue]
  | number i =>
    intro rest fuel hends hfuel
    obtain ⟨fuel, rfl⟩ : ∃ n, fuel = n + 1 := ⟨fuel - 1, by omega⟩
    obtain ⟨c, t, hc, hnum⟩ := exists_printNumber (D := D) i
    have hread := parseNumber_printNumber (D := D) i hends
    rw [printValue]
    rw [hc, List.cons_append] at hread ⊢
    rw [parseValue_cons (by rintro rfl; revert hnum; decide) (by rintro rfl; revert hnum; decide)
      (by rintro rfl; revert hnum; decide), if_neg (by rintro rfl; revert hnum; decide),
      if_pos hnum,
      hread]
  | @string s hs =>
    intro rest fuel _ hfuel
    obtain ⟨fuel, rfl⟩ : ∃ n, fuel = n + 1 := ⟨fuel - 1, by omega⟩
    have htext : printValue D (.string s) ++ rest = '"' :: (escapeAll s ++ '"' :: rest) := by
      simp [printValue, printString]
    rw [htext, parseValue_cons (by decide) (by decide) (by decide), if_pos rfl,
      parseString_printString hs]
    rfl
  | @array items hp hr =>
    intro rest fuel _ hfuel
    have htext : printValue D (.array items) ++ rest =
        '[' :: (printItems D items ++ ']' :: rest) := by
      simp [printValue]
    have hlen : (printValue D (.array items)).length = (printItems D items).length + 2 := by
      simp [printValue]
    obtain ⟨fuel, rfl⟩ : ∃ n, fuel = n + 3 := ⟨fuel - 3, by omega⟩
    rw [htext, parseValue_cons (by decide) (by decide) (by decide), if_neg (by decide),
      if_neg (by decide), if_pos rfl]
    cases items with
    | nil =>
      rw [printItems, List.nil_append, skip_cons (by decide), parseArray]
      rfl
    | cons v vs =>
      obtain ⟨c, t, hc, hgt, hbracket, -⟩ := (hp v List.mem_cons_self).exists_cons
      obtain ⟨t', ht'⟩ : ∃ t', printItems D (v :: vs) ++ ']' :: rest = c :: t' := by
        cases vs with
        | nil => exact ⟨t ++ ']' :: rest, by rw [printItems, hc, List.cons_append]⟩
        | cons w vs => exact ⟨_, by rw [printItems, hc, List.cons_append, List.cons_append]⟩
      have hread := parseItem_printItems hp hr rest (fuel + 1) (by omega)
      rw [ht'] at hread ⊢
      rw [skip_cons hgt, parseArray]
      rw [if_neg hbracket, hread]
      rfl
  | @object fields hname hp hr =>
    intro rest fuel _ hfuel
    have htext : printValue D (.object fields) ++ rest =
        '{' :: (printFields D fields ++ '}' :: rest) := by
      simp [printValue]
    have hlen : (printValue D (.object fields)).length = (printFields D fields).length + 2 := by
      simp [printValue]
    obtain ⟨fuel, rfl⟩ : ∃ n, fuel = n + 3 := ⟨fuel - 3, by omega⟩
    rw [htext, parseValue_cons (by decide) (by decide) (by decide), if_neg (by decide),
      if_neg (by decide), if_neg (by decide), if_pos rfl]
    cases fields with
    | nil =>
      rw [printFields, List.nil_append, skip_cons (by decide), parseObject]
      rfl
    | cons f fs =>
      obtain ⟨t', ht'⟩ : ∃ t', printFields D (f :: fs) ++ '}' :: rest = '"' :: t' := by
        obtain ⟨name, v⟩ := f
        cases fs with
        | nil => exact ⟨_, by rw [printFields, printString, List.cons_append, List.cons_append]⟩
        | cons g fs =>
          exact ⟨_, by rw [printFields, printString, List.cons_append, List.cons_append]⟩
      have hread := parseField_printFields hname hp hr rest (fuel + 1) (by omega)
      rw [ht'] at hread ⊢
      rw [skip_cons (by decide), parseObject]
      rw [if_neg (by decide), hread]
      rfl

/-! ## Texts -/

theorem nul_not_mem_escape {c : Char} (hc : c ≠ '\x00') : '\x00' ∉ escape c := by
  have hesc := escape_spec hc
  generalize escape c = l at hesc ⊢
  have hdigit (n : Nat) : '\x00' ≠ hexDigit n := (Nat.digitChar_ne _ rfl).symm
  cases hesc with
  | plain => simpa using hc.symm
  | short e he h =>
    have hne : '\x00' ≠ e := by
      rintro rfl
      exact hc h.symm
    simpa using hne
  | long => simp [hdigit]

theorem nul_not_mem_printString {s : Text} (hs : '\x00' ∉ s) : '\x00' ∉ printString s := by
  have hall : '\x00' ∉ escapeAll s := by
    induction s with
    | nil => exact List.not_mem_nil
    | cons c s ih =>
      rw [escapeAll_cons hs, List.mem_append, not_or]
      exact ⟨nul_not_mem_escape fun h => hs (h ▸ List.mem_cons_self),
        ih fun h => hs (List.mem_cons_of_mem c h)⟩
  simpa [printString] using hall

theorem nul_not_mem_printNumber (i : Int32) : '\x00' ∉ printNumber D i (D.ofInt i.toInt) := by
  have hdecimal (n : Nat) : '\x00' ∉ decimal n := by
    intro h
    obtain ⟨d, -, hd⟩ := List.mem_map.1 h
    exact Nat.digitChar_ne '\x00' rfl hd
  rw [printNumber, D.isInt_ofInt]
  split
  · decide
  rw [if_pos rfl]
  split
  · simpa using hdecimal _
  · exact hdecimal _

theorem nul_not_mem_printItems {items : List Value} (h : ∀ v ∈ items, '\x00' ∉ printValue D v) :
    '\x00' ∉ printItems D items := by
  match items with
  | [] => exact List.not_mem_nil
  | [v] => exact h v List.mem_cons_self
  | v :: w :: vs =>
    have hrest := nul_not_mem_printItems fun x hx => h x (List.mem_cons_of_mem v hx)
    simpa [printItems] using ⟨h v List.mem_cons_self, hrest⟩

theorem nul_not_mem_printFields {fields : List (Text × Value)} (hname : ∀ f ∈ fields, '\x00' ∉ f.1)
    (h : ∀ f ∈ fields, '\x00' ∉ printValue D f.2) : '\x00' ∉ printFields D fields := by
  match fields with
  | [] => exact List.not_mem_nil
  | [(name, v)] =>
    have hone := nul_not_mem_printString (hname _ List.mem_cons_self)
    simpa [printFields] using ⟨hone, h _ List.mem_cons_self⟩
  | (name, v) :: g :: fs =>
    have hone := nul_not_mem_printString (hname _ List.mem_cons_self)
    have hrest := nul_not_mem_printFields (fun x hx => hname x (List.mem_cons_of_mem _ hx))
      fun x hx => h x (List.mem_cons_of_mem _ hx)
    simpa [printFields] using ⟨hone, h _ List.mem_cons_self, hrest⟩

theorem Printable.nul_not_mem (h : Printable D v) : '\x00' ∉ printValue D v := by
  induction h with
  | null => rw [printValue]; decide
  | bool b => cases b <;> rw [printValue] <;> decide
  | number i => exact nul_not_mem_printNumber i
  | string hs => exact nul_not_mem_printString hs
  | array _ ih => simpa [printValue] using nul_not_mem_printItems ih
  | object hname _ ih => simpa [printValue] using nul_not_mem_printFields hname ih

theorem Ends.takeWhile (h : Ends rest) (p : Char → Bool) : Ends (rest.takeWhile p) := by
  cases rest with
  | nil => exact ends_nil
  | cons c t =>
    rw [List.takeWhile_cons]
    split
    · exact ends_cons (h c rfl)
    · exact ends_nil

theorem Printable.parse (h : Printable D v) (hrest : Ends rest) :
    Json.parse D (printValue D v ++ rest) = .ok v := by
  have htext : (printValue D v ++ rest).takeWhile (· ≠ '\x00') =
      printValue D v ++ rest.takeWhile (· ≠ '\x00') := by
    refine List.takeWhile_append_of_pos fun c hc => ?_
    simpa using fun hnul : c = '\x00' => h.nul_not_mem (hnul ▸ hc)
  have hread := h.readsBack (rest.takeWhile (· ≠ '\x00'))
    (3 * (printValue D v ++ rest.takeWhile (· ≠ '\x00')).length + 1) (hrest.takeWhile _)
    (by rw [List.length_append]; omega)
  rw [Json.parse, htext, h.skip, hread]
  rfl

/-- **What is printed is read back**, whatever stands behind it that does not go on
with a number. -/
theorem parse_print (h : Printable D v) (hrest : Ends rest) :
    parse D (print D v ++ rest) = .ok v :=
  h.parse hrest

/-- Words in place of doubles. -/
def Doubles.words : Doubles where
  ofInt n := (Int64.ofInt n).toUInt64
  add := (· + ·)
  mul := (· * ·)
  pow10 x := 10 ^ x.toNat
  toInt x := x.toInt64.toInt32
  isZero x := x.toInt64.toInt32 == 0
  isInt i x := x.toInt64.toInt32 == i
  format x := decimal x.toNat
  add_ofInt a b _ _ _ := by rw [Int64.ofInt_add]; rfl
  mul_ofInt a b _ _ := by rw [Int64.ofInt_mul]; rfl
  pow10_zero := rfl
  toInt_ofInt i := Int64.toInt32_ofInt.trans (Int32.ofInt_toInt i)
  isZero_ofInt i := congrArg (· == 0) (Int64.toInt32_ofInt.trans (Int32.ofInt_toInt i))
  isInt_ofInt i := beq_iff_eq.2 (Int64.toInt32_ofInt.trans (Int32.ofInt_toInt i))

theorem parse_print_reply :
    parse .words (print .words (.object [("code".toList, .number 200 (Doubles.words.ofInt 200)),
      ("data".toList, .array [.null, .string "a\"b".toList])]) ++ ['\n']) =
    .ok (.object [("code".toList, .number 200 (Doubles.words.ofInt 200)),
      ("data".toList, .array [.null, .string "a\"b".toList])]) := by
  refine parse_print (.object (by decide) (List.forall_mem_cons.2 ⟨.number 200, ?_⟩))
    (ends_cons (by decide))
  refine List.forall_mem_singleton.2 (.array (List.forall_mem_cons.2 ⟨.null, ?_⟩))
  exact List.forall_mem_singleton.2 (.string (by decide))

end ChargingPile.Json
