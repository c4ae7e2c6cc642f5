import ChargingPile.Json.Basic
import Mathlib.Data.Nat.Digits.Defs

/-!
# The text of a document

`Json::parse` is `cJSON_Parse` and `to_string` is `cJSON_PrintUnformatted`
(`packages/cJSON-v1.0.2`). A text is read from left to right; what is left of it stands for
the pointer into it, and its end for the terminating NUL. A step of the pointer past that NUL
is undefined, and so is a write behind the buffer that `parse_string` allocates from a first
pass over the string.

cJSON keeps numbers as `double`, of which nothing is assumed but that integers up to `2 ^ 53` are
exact (`Doubles`).
-/

namespace ChargingPile.Json

/-! ## Numbers -/

/-- The arithmetic of `double`, on the 64 bits of a number: `double` of an integer, `+`, `*`,
`pow(10.0, ·)`, the conversion to `int`, the two tests of `print_number`, and what its `sprintf`
calls with `%.0f`, `%e` and `%f` write. Integers are exact, also as factors unless a product is
the negative zero. -/
structure Doubles where
  ofInt : Int → UInt64
  add : UInt64 → UInt64 → UInt64
  mul : UInt64 → UInt64 → UInt64
  pow10 : UInt64 → UInt64
  toInt : UInt64 → Int32
  isZero : UInt64 → Bool
  isInt : Int32 → UInt64 → Bool
  format : UInt64 → Text
  add_ofInt : ∀ a b : Int, a.natAbs ≤ 2 ^ 53 → b.natAbs ≤ 2 ^ 53 → (a + b).natAbs ≤ 2 ^ 53 →
    add (ofInt a) (ofInt b) = ofInt (a + b)
  mul_ofInt : ∀ a b : Int, (a * b).natAbs ≤ 2 ^ 53 → (a * b = 0 → 0 ≤ a ∧ 0 ≤ b) →
    mul (ofInt a) (ofInt b) = ofInt (a * b)
  pow10_zero : pow10 (ofInt 0) = ofInt 1
  toInt_ofInt : ∀ n : Int32, toInt (ofInt n.toInt) = n
  isZero_ofInt : ∀ n : Int32, isZero (ofInt n.toInt) = (n == 0)
  isInt_ofInt : ∀ n : Int32, isInt n (ofInt n.toInt) = true

/-- `*num - '0'`. -/
def digitVal (c : Char) : Nat := c.toNat - 48

section
variable (D : Doubles)

/-- `n=(n*10.0)+(*num++ -'0')`. -/
def Doubles.push (n : UInt64) (c : Char) : UInt64 :=
  D.add (D.mul n (D.ofInt 10)) (D.ofInt (digitVal c))

/-- The digits before the point. -/
def integerLoop (n : UInt64) : Text → UInt64 × Text
  | [] => (n, [])
  | c :: t => if c.isDigit then integerLoop (D.push n c) t else (n, c :: t)

/-- The digits after the point, with the `scale` they count. -/
def fractionLoop (n scale : UInt64) : Text → (UInt64 × UInt64) × Text
  | [] => ((n, scale), [])
  | c :: t =>
    if c.isDigit then fractionLoop (D.push n c) (D.add scale (D.ofInt (-1))) t
      else ((n, scale), c :: t)

/-- The digits of the exponent. The `int` that holds it wraps around. -/
def exponentLoop (subscale : Int32) : Text → Int32 × Text
  | [] => (subscale, [])
  | c :: t =>
    if c.isDigit then exponentLoop (subscale * 10 + Int32.ofNat (digitVal c)) t
      else (subscale, c :: t)

/-- The sign of a number: whether there is one. -/
def parseSign : Text → Bool × Text
  | [] => (false, [])
  | c :: t => if c = '-' then (true, t) else (false, c :: t)

/-- `if (*num=='0') num++`. -/
def skipZero : Text → Text
  | [] => []
  | c :: t => if c = '0' then t else c :: t

/-- The part before the point. -/
def parseInteger : Text → UInt64 × Text
  | [] => (D.ofInt 0, [])
  | c :: t =>
    if c.isDigit ∧ c ≠ '0' then integerLoop D (D.ofInt 0) (c :: t) else (D.ofInt 0, c :: t)

/-- The part after the point, if a digit follows it. -/
def parseFraction (n : UInt64) : Text → (UInt64 × UInt64) × Text
  | c :: c' :: t =>
    if c = '.' ∧ c'.isDigit then fractionLoop D n (D.ofInt 0) (c' :: t)
      else ((n, D.ofInt 0), c :: c' :: t)
  | t => ((n, D.ofInt 0), t)

/-- `subscale*signsubscale`. -/
def parseExponent : Text → Int32 × Text
  | [] => (0, [])
  | c :: t =>
    if c = 'e' ∨ c = 'E' then
      match t with
      | [] => (0, [])
      | s :: t =>
        if s = '+' then exponentLoop 0 t
        else if s = '-' then (-(exponentLoop 0 t).1, (exponentLoop 0 t).2)
        else exponentLoop 0 (s :: t)
    else (0, c :: t)

/-- `parse_number`. -/
def parseNumber (t : Text) : Value × Text :=
  let sign := parseSign t
  let integer := parseInteger D (skipZero sign.2)
  let fraction := parseFraction D integer.1 integer.2
  let exponent := parseExponent fraction.2
  let n := D.mul (D.mul (D.ofInt (if sign.1 then -1 else 1)) fraction.1.1)
    (D.pow10 (D.add fraction.1.2 (D.ofInt exponent.1.toInt)))
  (.number (D.toInt n) n, exponent.2)

/-- The digits of a number, as `%d` writes them. -/
def decimal (n : Nat) : Text := (Nat.digits 10 n).reverse.map Nat.digitChar

/-- `print_number`. -/
def printNumber (valueint : Int32) (valuedouble : UInt64) : Text :=
  if D.isZero valuedouble then ['0']
  else if D.isInt valueint valuedouble then
    if valueint < 0 then '-' :: decimal valueint.toInt.natAbs else decimal valueint.toInt.natAbs
  else D.format valuedouble

end

/-! ## Strings -/

/-- How cJSON can end without a value: it returns a null pointer, it does something undefined, or
the model ran out of fuel. -/
inductive Fault
  | null | undefined | fuel
deriving DecidableEq, Repr

/-- The value of a hexadecimal digit. -/
def hexVal (c : Char) : Option Nat :=
  if c.isDigit then some (c.toNat - 48)
  else if 'A' ≤ c ∧ c ≤ 'F' then some (c.toNat - 55)
  else if 'a' ≤ c ∧ c ≤ 'f' then some (c.toNat - 87)
  else none

/-- `parse_hex4`, which is 0 if one of the characters is no digit. -/
def parseHex4 (a b c d : Char) : Nat :=
  match hexVal a, hexVal b, hexVal c, hexVal d with
  | some a, some b, some c, some d => ((a * 16 + b) * 16 + c) * 16 + d
  | _, _, _, _ => 0

/-- A byte of a code point behind the first one. -/
def continuation (uc : Nat) : Char := Char.ofNat ((uc ||| 0x80) &&& 0xBF)

/-- The bytes of a code point. -/
def utf8 (uc : Nat) : Text :=
  if uc < 0x80 then [Char.ofNat uc]
  else if uc < 0x800 then [Char.ofNat (uc >>> 6 ||| 0xC0), continuation uc]
  else if uc < 0x10000 then
    [Char.ofNat (uc >>> 12 ||| 0xE0), continuation (uc >>> 6), continuation uc]
  else
    [Char.ofNat (uc >>> 18 ||| 0xF0), continuation (uc >>> 12), continuation (uc >>> 6),
      continuation uc]

/-- What stands for an escaped character. -/
def escaped (c : Char) : Char :=
  if c = 'b' then '\x08'
  else if c = 'f' then '\x0c'
  else if c = 'n' then '\n'
  else if c = 'r' then '\r'
  else if c = 't' then '\t'
  else c

/-- The first pass of `parse_string`: how many bytes it allocates, less one for the NUL. An escape
at the end takes the pointer past the NUL. -/
def scan : Text → Except Fault Nat
  | [] => .ok 0
  | c :: t =>
    if c = '"' then .ok 0
    else if c = '\\' then
      match t with
      | [] => .error .undefined
      | _ :: t => (scan t).map (· + 1)
    else (scan t).map (· + 1)

theorem scan_quote (t : Text) : scan ('"' :: t) = .ok 0 := by
  rw [scan.eq_def]
  exact if_pos rfl

theorem scan_plain {c : Char} (h : c ≠ '"') (h' : c ≠ '\\') (t : Text) :
    scan (c :: t) = (scan t).map (· + 1) := by
  rw [scan.eq_def]
  exact (if_neg h).trans (if_neg h')

theorem scan_backslash (e : Char) (t : Text) : scan ('\\' :: e :: t) = (scan t).map (· + 1) := by
  rw [scan.eq_def]
  exact (if_neg (by decide)).trans (if_pos rfl)

/-- Characters in front of what the rest of a string gives. -/
def emit (l : Text) (r : Except Fault (Text × Text)) : Except Fault (Text × Text) :=
  r.map fun p => (l ++ p.1, p.2)

/-- The second pass of `parse_string`: the bytes it writes, and the text at which it stops. -/
def unescape : Text → Except Fault (Text × Text)
  | [] => .ok ([], [])
  | c :: t =>
    if c = '"' then .ok ([], c :: t)
    else if c ≠ '\\' then emit [c] (unescape t)
    else
      match t with
      | [] => .error .undefined
      | e :: t =>
        if e ≠ 'u' then emit [escaped e] (unescape t)
        else
          match t with
          | h₁ :: h₂ :: h₃ :: h₄ :: t =>
            let uc := parseHex4 h₁ h₂ h₃ h₄
            if 0xDC00 ≤ uc ∧ uc ≤ 0xDFFF ∨ uc = 0 then unescape t
            else if 0xD800 ≤ uc ∧ uc ≤ 0xDBFF then
              -- the first half of a surrogate pair
              match t with
              | b :: u :: r =>
                if b = '\\' ∧ u = 'u' then
                  match r with
                  | k₁ :: k₂ :: k₃ :: k₄ :: r =>
                    let uc2 := parseHex4 k₁ k₂ k₃ k₄
                    if uc2 < 0xDC00 ∨ 0xDFFF < uc2 then unescape r
                    else emit (utf8 (0x10000 + ((uc &&& 0x3FF) <<< 10 ||| (uc2 &&& 0x3FF))))
                      (unescape r)
                  | _ => .error .undefined
                else unescape (b :: u :: r)
              | [b] => unescape [b]
              | [] => unescape []
            else emit (utf8 uc) (unescape t)
          | _ => .error .undefined

theorem unescape_quote (t : Text) : unescape ('"' :: t) = .ok ([], '"' :: t) := by
  rw [unescape.eq_def]
  exact if_pos rfl

theorem unescape_plain {c : Char} (h : c ≠ '"') (h' : c ≠ '\\') (t : Text) :
    unescape (c :: t) = emit [c] (unescape t) := by
  rw [unescape.eq_def]
  exact (if_neg h).trans (if_pos h')

theorem unescape_backslash {e : Char} (h : e ≠ 'u') (t : Text) :
    unescape ('\\' :: e :: t) = emit [escaped e] (unescape t) := by
  rw [unescape.eq_def]
  exact (if_neg (by decide)).trans ((if_neg (by simp)).trans (if_pos h))

/-- An escape that stands for no code point. -/
theorem unescape_zero {h₁ h₂ h₃ h₄ : Char} (t : Text) (h0 : parseHex4 h₁ h₂ h₃ h₄ = 0) :
    unescape ('\\' :: 'u' :: h₁ :: h₂ :: h₃ :: h₄ :: t) = unescape t := by
  rw [unescape.eq_def]
  refine (if_neg (by decide)).trans ((if_neg (by simp)).trans ((if_neg (by simp)).trans ?_))
  exact if_pos (.inr h0)

/-- An escaped code point of its own. -/
theorem unescape_unicode {h₁ h₂ h₃ h₄ : Char} (t : Text) (h0 : parseHex4 h₁ h₂ h₃ h₄ ≠ 0)
    (hs : ¬ (0xD800 ≤ parseHex4 h₁ h₂ h₃ h₄ ∧ parseHex4 h₁ h₂ h₃ h₄ ≤ 0xDFFF)) :
    unescape ('\\' :: 'u' :: h₁ :: h₂ :: h₃ :: h₄ :: t) =
      emit (utf8 (parseHex4 h₁ h₂ h₃ h₄)) (unescape t) := by
  rw [unescape.eq_def]
  refine (if_neg (by decide)).trans ((if_neg (by simp)).trans ((if_neg (by simp)).trans ?_))
  exact (if_neg (by omega)).trans (if_neg (by omega))

/-- `parse_string` behind the opening quote. A missing closing quote is accepted. -/
def parseString (t : Text) : Except Fault (Text × Text) :=
  match scan t, unescape t with
  | .ok len, .ok (out, rest) =>
    if len < out.length then .error .undefined
    else
      match rest with
      | [] => .ok (out, [])
      | c :: rest => if c = '"' then .ok (out, rest) else .ok (out, c :: rest)
  | _, _ => .error .undefined

/-- The digit of `%x`. -/
def hexDigit (n : Nat) : Char := Nat.digitChar n

/-- `print_string_ptr`: one character. -/
def escape (c : Char) : Text :=
  if 31 < c.toNat ∧ c ≠ '"' ∧ c ≠ '\\' then [c]
  else if c = '\\' then ['\\', '\\']
  else if c = '"' then ['\\', '"']
  else if c = '\x08' then ['\\', 'b']
  else if c = '\x0c' then ['\\', 'f']
  else if c = '\n' then ['\\', 'n']
  else if c = '\r' then ['\\', 'r']
  else if c = '\t' then ['\\', 't']
  else ['\\', 'u', '0', '0', hexDigit (c.toNat / 16), hexDigit (c.toNat % 16)]

/-- `print_string_ptr`: the characters up to a NUL. -/
def escapeAll : Text → Text
  | [] => []
  | c :: s => if c = '\x00' then [] else escape c ++ escapeAll s

/-- `print_string_ptr`. -/
def printString (s : Text) : Text := '"' :: (escapeAll s ++ ['"'])

/-! ## Values -/

/-- `skip`. -/
def skip : Text → Text
  | [] => []
  | c :: t => if c.toNat ≤ 32 then skip t else c :: t

/-- What a parse of one kind of value comes to, taken for another kind. -/
def asValue {α : Type} (f : α → Value) (r : Except Fault (α × Text)) :
    Except Fault (Value × Text) :=
  r.map fun p => (f p.1, p.2)

mutual

/-- `parse_value`. -/
def parseValue (D : Doubles) : Nat → Text → Except Fault (Value × Text)
  | 0, _ => .error .fuel
  | fuel + 1, t =>
    if "null".toList <+: t then .ok (.null, t.drop 4)
    else if "false".toList <+: t then .ok (.bool false, t.drop 5)
    else if "true".toList <+: t then .ok (.bool true, t.drop 4)
    else
      match t with
      | [] => .error .null
      | c :: t =>
        if c = '"' then asValue .string (parseString t)
        else if c = '-' ∨ c.isDigit then .ok (parseNumber D (c :: t))
        else if c = '[' then asValue .array (parseArray D fuel (skip t))
        else if c = '{' then asValue .object (parseObject D fuel (skip t))
        else .error .null

/-- `parse_array` behind the bracket. -/
def parseArray (D : Doubles) : Nat → Text → Except Fault (List Value × Text)
  | 0, _ => .error .fuel
  | fuel + 1, t =>
    match t with
    | [] => parseItem D fuel []
    | c :: t => if c = ']' then .ok ([], t) else parseItem D fuel (c :: t)

/-- One element of an array and those after it. -/
def parseItem (D : Doubles) : Nat → Text → Except Fault (List Value × Text)
  | 0, _ => .error .fuel
  | fuel + 1, t =>
    match parseValue D fuel (skip t) with
    | .error e => .error e
    | .ok (v, t) =>
      match parseItems D fuel (skip t) with
      | .error e => .error e
      | .ok (vs, t) => .ok (v :: vs, t)

/-- The loop of `parse_array` over the commas, and the bracket after it. -/
def parseItems (D : Doubles) : Nat → Text → Except Fault (List Value × Text)
  | 0, _ => .error .fuel
  | fuel + 1, t =>
    match t with
    | [] => .error .null
    | c :: t =>
      if c = ',' then parseItem D fuel t
      else if c = ']' then .ok ([], t)
      else .error .null

/-- `parse_object` behind the brace. -/
def parseObject (D : Doubles) : Nat → Text → Except Fault (List (Text × Value) × Text)
  | 0, _ => .error .fuel
  | fuel + 1, t =>
    match t with
    | [] => parseField D fuel []
    | c :: t => if c = '}' then .ok ([], t) else parseField D fuel (c :: t)

/-- One field of an object and those after it. -/
def parseField (D : Doubles) : Nat → Text → Except Fault (List (Text × Value) × Text)
  | 0, _ => .error .fuel
  | fuel + 1, t =>
    match skip t with
    | [] => .error .null
    | q :: t =>
      if q ≠ '"' then .error .null
      else
        match parseString t with
        | .error e => .error e
        | .ok (name, t) =>
          match skip t with
          | [] => .error .null
          | s :: t =>
            if s ≠ ':' then .error .null
            else
              match parseValue D fuel (skip t) with
              | .error e => .error e
              | .ok (v, t) =>
                match parseFields D fuel (skip t) with
                | .error e => .error e
                | .ok (fs, t) => .ok ((name, v) :: fs, t)

/-- The loop of `parse_object` over the commas, and the brace after it. -/
def parseFields (D : Doubles) : Nat → Text → Except Fault (List (Text × Value) × Text)
  | 0, _ => .error .fuel
  | fuel + 1, t =>
    match t with
    | [] => .error .null
    | c :: t =>
      if c = ',' then parseField D fuel t
      else if c = '}' then .ok ([], t)
      else .error .null

end

/-- `Json::parse`: `cJSON_Parse`. The text ends at its first NUL, and what follows the value is
ignored. The fuel is enough for every text (`parse_ne_fuel`). -/
def parse (D : Doubles) (value : Text) : Except Fault Value :=
  let t := value.takeWhile (· ≠ '\x00')
  (parseValue D (3 * t.length + 1) (skip t)).map Prod.fst

mutual

/-- `print_value` without formatting. -/
def printValue (D : Doubles) : Value → Text
  | .null => "null".toList
  | .bool false => "false".toList
  | .bool true => "true".toList
  | .number i d => printNumber D i d
  | .string s => printString s
  | .array items => '[' :: (printItems D items ++ [']'])
  | .object fields => '{' :: (printFields D fields ++ ['}'])

/-- The elements of an array, with commas between them. -/
def printItems (D : Doubles) : List Value → Text
  | [] => []
  | [v] => printValue D v
  | v :: w :: vs => printValue D v ++ ',' :: printItems D (w :: vs)

/-- The fields of an object, with commas between them. -/
def printFields (D : Doubles) : List (Text × Value) → Text
  | [] => []
  | [(name, v)] => printString name ++ ':' :: printValue D v
  | (name, v) :: f :: fs =>
    printString name ++ ':' :: (printValue D v ++ ',' :: printFields D (f :: fs))

end

/-- `to_string` of a document: `cJSON_PrintUnformatted`. -/
def print (D : Doubles) (value : Value) : Text := printValue D value

end ChargingPile.Json
