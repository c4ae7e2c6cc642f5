import ChargingPile.Json.RoundTrip

/-!
# What the parser does with any text

`cJSON_Parse` gets its texts from the broker. It comes to an end on every text (`parse_ne_fuel`),
and as long as every escape is complete it stays within the text and within the buffers it
allocates (`WellEscaped`, `parse_ne_undefined`). What it reads holds no NUL, so a document whose
numbers are integers can be printed and read again (`Clean`, `parse_clean`).

Each function gets one specification, `Reads`: what it needs of the text, how much of it is left,
and what can be said of the value. The specifications of the seven functions that call each other
are shown together, by induction on the fuel (`ReadsAll`).
-/

namespace ChargingPile.Json

variable {D : Doubles} {t rest : Text}

/-! ## Escapes -/

/-- Every backslash is followed by a character, and by four hexadecimal digits if that is a `u`. -/
inductive WellEscaped : Text → Prop
  | nil : WellEscaped []
  | plain {c : Char} {t : Text} (h : c ≠ '\\') (ht : WellEscaped t) : WellEscaped (c :: t)
  | short {e : Char} {t : Text} (h : e ≠ 'u') (ht : WellEscaped t) : WellEscaped ('\\' :: e :: t)
  | unicode {h₁ h₂ h₃ h₄ : Char} {t : Text} (hex : ∀ h ∈ [h₁, h₂, h₃, h₄], hexVal h ≠ none)
      (ht : WellEscaped t) : WellEscaped ('\\' :: 'u' :: h₁ :: h₂ :: h₃ :: h₄ :: t)

theorem WellEscaped.tail {c : Char} (h : WellEscaped (c :: t)) (hc : c ≠ '\\') :
    WellEscaped t := by
  cases h with
  | plain _ ht => exact ht
  | short => exact absurd rfl hc
  | unicode => exact absurd rfl hc

/-- A hexadecimal digit ends no string. -/
theorem plain_of_hexVal {c : Char} (h : hexVal c ≠ none) : c ≠ '"' ∧ c ≠ '\\' := by
  refine ⟨?_, ?_⟩
  · rintro rfl
    exact h rfl
  · rintro rfl
    exact h rfl

theorem not_wellEscaped_unicode (h : ∀ h₁ h₂ h₃ h₄ t', t = h₁ :: h₂ :: h₃ :: h₄ :: t' → False) :
    ¬ WellEscaped ('\\' :: 'u' :: t) := by
  intro ht
  cases ht with
  | plain h => exact h rfl
  | short h => exact h rfl
  | unicode => exact h _ _ _ _ _ rfl

theorem scan_unicode {h₁ h₂ h₃ h₄ : Char} (hex : ∀ h ∈ [h₁, h₂, h₃, h₄], hexVal h ≠ none)
    (t : Text) :
    scan ('\\' :: 'u' :: h₁ :: h₂ :: h₃ :: h₄ :: t) = (scan t).map (· + 5) := by
  have hscan (h : Char) (hmem : h ∈ [h₁, h₂, h₃, h₄]) (t : Text) :
      scan (h :: t) = (scan t).map (· + 1) :=
    scan_plain (plain_of_hexVal (hex h hmem)).1 (plain_of_hexVal (hex h hmem)).2 t
  rw [scan_backslash, hscan h₁ (by simp), hscan h₂ (by simp), hscan h₃ (by simp),
    hscan h₄ (by simp)]
  cases scan t with
  | error e => rfl
  | ok n => rfl

/-! ## Code points -/

theorem toNat_ofNat_of_lt {n : Nat} (h : n < 256) : (Char.ofNat n).toNat = n := by
  rw [Char.ofNat, dif_pos (.inl (by omega))]
  rfl

theorem continuation_ne_nul (uc : Nat) : continuation uc ≠ '\x00' := by
  have hlt : (uc ||| 0x80) &&& 0xBF < 0xC0 := Nat.lt_succ_of_le Nat.and_le_right
  have hbit : ((uc ||| 0x80) &&& 0xBF).testBit 7 = true := by
    rw [Nat.testBit_and, Nat.testBit_or]
    simp [show Nat.testBit 128 7 = true by decide, show Nat.testBit 191 7 = true by decide]
  intro h
  have hval := congrArg Char.toNat h
  rw [continuation, toNat_ofNat_of_lt (by omega)] at hval
  rw [show (uc ||| 0x80) &&& 0xBF = 0 from hval] at hbit
  exact absurd hbit (by decide)

theorem firstByte_ne_nul {uc mark : Nat} (hmark : 0 < mark) (h : uc < 256) (h' : mark < 256) :
    Char.ofNat (uc ||| mark) ≠ '\x00' := by
  have hlt : uc ||| mark < 256 := Nat.or_lt_two_pow (n := 8) h h'
  have hpos : mark ≤ uc ||| mark := Nat.right_le_or
  intro hc
  have hval := congrArg Char.toNat hc
  rw [toNat_ofNat_of_lt (by omega)] at hval
  have hzero : uc ||| mark = 0 := hval
  omega

/-- The bytes of a code point that is not zero. -/
theorem nul_not_mem_utf8 {uc : Nat} (h0 : uc ≠ 0) (h : uc < 0x110000) : '\x00' ∉ utf8 uc := by
  have hshift (k : Nat) : uc >>> k = uc / 2 ^ k := Nat.shiftRight_eq_div_pow uc k
  have hcont (uc : Nat) := (continuation_ne_nul uc).symm
  unfold utf8
  split
  next hlt =>
    intro hmem
    have hval := congrArg Char.toNat (List.mem_singleton.1 hmem)
    rw [toNat_ofNat_of_lt (n := uc) (by omega)] at hval
    exact h0 hval.symm
  split
  next hlt =>
    have hfirst : Char.ofNat (uc >>> 6 ||| 0xC0) ≠ _ :=
      firstByte_ne_nul (by decide) (by rw [hshift]; omega) (by decide)
    simp [hcont, hfirst.symm]
  split
  next hlt =>
    have hfirst : Char.ofNat (uc >>> 12 ||| 0xE0) ≠ _ :=
      firstByte_ne_nul (by decide) (by rw [hshift]; omega) (by decide)
    simp [hcont, hfirst.symm]
  next =>
    have hfirst : Char.ofNat (uc >>> 18 ||| 0xF0) ≠ _ :=
      firstByte_ne_nul (by decide) (by rw [hshift]; omega) (by decide)
    simp [hcont, hfirst.symm]

theorem length_utf8_le (uc : Nat) : (utf8 uc).length ≤ 4 := by
  unfold utf8
  split
  · simp
  split
  · simp
  split
  · simp
  · simp

theorem hexVal_lt {c : Char} {n : Nat} (h : hexVal c = some n) : n < 16 := by
  have hdigit (a b : Char) (hab : a ≤ c ∧ c ≤ b) : a.toNat ≤ c.toNat ∧ c.toNat ≤ b.toNat := hab
  unfold hexVal at h
  split at h
  next hd =>
    have hle := (isDigit_bounds hd).2
    obtain rfl := Option.some.inj h
    omega
  split at h
  next hu =>
    have hle : c.toNat ≤ 70 := (hdigit 'A' 'F' hu).2
    obtain rfl := Option.some.inj h
    omega
  split at h
  next hl =>
    have hle : c.toNat ≤ 102 := (hdigit 'a' 'f' hl).2
    obtain rfl := Option.some.inj h
    omega
  next => cases h

theorem parseHex4_lt (a b c d : Char) : parseHex4 a b c d < 0x10000 := by
  unfold parseHex4
  split
  next ha hb hc hd =>
    have := hexVal_lt ha
    have := hexVal_lt hb
    have := hexVal_lt hc
    have := hexVal_lt hd
    omega
  next => decide

/-! ## Strings -/

/-- What one round of the second pass takes from the text, and what it writes for it. -/
structure Piece (p out : Text) : Prop where
  nul : '\x00' ∉ p → '\x00' ∉ out
  escaped : ∀ t, WellEscaped (p ++ t) →
    WellEscaped t ∧ ∃ k, out.length ≤ k ∧ scan (p ++ t) = (scan t).map (· + k)

theorem Piece.plain {c : Char} (h : c ≠ '"') (h' : c ≠ '\\') : Piece [c] [c] where
  nul := id
  escaped _ ht := ⟨ht.tail h', 1, le_rfl, scan_plain h h' _⟩

theorem escaped_ne_nul {e : Char} (h : '\x00' ≠ e) : '\x00' ≠ escaped e := by
  unfold escaped
  split
  · decide
  split
  · decide
  split
  · decide
  split
  · decide
  split
  · decide
  · exact h

theorem Piece.short {e : Char} (he : e ≠ 'u') : Piece ['\\', e] [Json.escaped e] where
  nul hp := by
    have hne : '\x00' ≠ e := fun h => hp (h ▸ List.mem_cons_of_mem _ List.mem_cons_self)
    simpa using escaped_ne_nul hne
  escaped t ht := by
    refine ⟨?_, 1, le_rfl, scan_backslash e t⟩
    cases ht with
    | plain h => exact absurd rfl h
    | short _ ht => exact ht
    | unicode => exact absurd rfl he

theorem Piece.unicode (h₁ h₂ h₃ h₄ : Char) {out : Text} (hout : '\x00' ∉ out)
    (hlen : out.length ≤ 5) :
    Piece ['\\', 'u', h₁, h₂, h₃, h₄] out where
  nul _ := hout
  escaped t ht := by
    cases ht with
    | plain h => exact absurd rfl h
    | short h => exact absurd rfl h
    | unicode hex ht => exact ⟨ht, 5, hlen, scan_unicode hex t⟩

/-- What the second pass makes of a text. -/
structure Unescapes (t : Text) (r : Except Fault (Text × Text)) : Prop where
  ok : ∀ out rest, r = .ok (out, rest) → rest <:+ t ∧ ('\x00' ∉ t → '\x00' ∉ out)
  escaped : WellEscaped t →
    ∃ out rest len, r = .ok (out, rest) ∧ scan t = .ok len ∧ out.length ≤ len ∧ WellEscaped rest

theorem Unescapes.stop (h : scan t = .ok 0) : Unescapes t (.ok ([], t)) where
  ok := by
    rintro _ _ ⟨⟩
    exact ⟨List.suffix_rfl, fun _ => List.not_mem_nil⟩
  escaped ht := ⟨[], t, 0, rfl, h, le_rfl, ht⟩

theorem Unescapes.fault (h : ¬ WellEscaped t) : Unescapes t (.error .undefined) where
  ok := nofun
  escaped ht := absurd ht h

theorem Unescapes.piece {p out : Text} {r : Except Fault (Text × Text)} (hp : Piece p out)
    (h : Unescapes t r) : Unescapes (p ++ t) (emit out r) where
  ok := by
    intro out' rest hr
    match r, hr with
    | .ok (out'', _), rfl =>
      obtain ⟨hsuffix, hnul⟩ := h.ok _ _ rfl
      refine ⟨hsuffix.trans (List.suffix_append p t), fun hmem => ?_⟩
      rw [List.mem_append, not_or] at hmem ⊢
      exact ⟨hp.nul hmem.1, hnul hmem.2⟩
  escaped ht := by
    obtain ⟨ht', k, hk, hscan⟩ := hp.escaped t ht
    obtain ⟨out', rest, len, rfl, hlen, hle, hrest⟩ := h.escaped ht'
    refine ⟨out ++ out', rest, len + k, rfl, ?_, ?_, hrest⟩
    · rw [hscan, hlen]
      rfl
    · rw [List.length_append]
      omega

/-- An escape that writes nothing. -/
theorem Unescapes.skips (h₁ h₂ h₃ h₄ : Char) {r : Except Fault (Text × Text)} (h : Unescapes t r) :
    Unescapes ('\\' :: 'u' :: h₁ :: h₂ :: h₃ :: h₄ :: t) r := by
  have hemit : emit [] r = r := by
    cases r with
    | error e => rfl
    | ok p => rfl
  have hpiece := Piece.unicode h₁ h₂ h₃ h₄ (List.not_mem_nil (a := '\x00')) (Nat.zero_le 5)
  exact hemit ▸ Unescapes.piece hpiece h

/-- An escape that writes a code point. -/
theorem Unescapes.writes (h₁ h₂ h₃ h₄ : Char) {uc : Nat} (h0 : uc ≠ 0) (hlt : uc < 0x110000)
    {r : Except Fault (Text × Text)} (h : Unescapes t r) :
    Unescapes ('\\' :: 'u' :: h₁ :: h₂ :: h₃ :: h₄ :: t) (emit (utf8 uc) r) :=
  Unescapes.piece
    (Piece.unicode h₁ h₂ h₃ h₄ (nul_not_mem_utf8 h0 hlt) ((length_utf8_le uc).trans (by omega))) h

theorem surrogates_bounds (uc uc2 : Nat) :
    0x10000 + ((uc &&& 0x3FF) <<< 10 ||| (uc2 &&& 0x3FF)) < 0x110000 := by
  have hhigh : (uc &&& 0x3FF) <<< 10 < 2 ^ 20 := by
    rw [Nat.shiftLeft_eq]
    have hle : uc &&& 0x3FF ≤ 0x3FF := Nat.and_le_right
    omega
  have hlow : uc2 &&& 0x3FF < 2 ^ 20 := lt_of_le_of_lt Nat.and_le_right (by decide)
  have hor := Nat.or_lt_two_pow hhigh hlow
  omega

/-- The two passes over a string, by induction along the second one. -/
theorem unescapes (t : Text) : Unescapes t (unescape t) := by
  fun_induction unescape t with
  | case1 => exact .stop rfl
  | case2 t => exact .stop (scan_quote t)
  | case3 c t h h' ih => exact .piece (.plain h h') ih
  | case4 c h h' =>
    obtain rfl : c = '\\' := not_not.1 h'
    refine .fault fun ht => ?_
    cases ht with
    | plain h => exact h rfl
  | case5 c h h' e t he ih =>
    obtain rfl : c = '\\' := not_not.1 h'
    exact .piece (.short he) ih
  | case6 c h h' e he h₁ h₂ h₃ h₄ t uc hskip ih =>
    obtain rfl : c = '\\' := not_not.1 h'
    obtain rfl : e = 'u' := not_not.1 he
    exact .skips h₁ h₂ h₃ h₄ ih
  | case7 c h h' e he h₁ h₂ h₃ h₄ uc hlow hhigh b u hbu k₁ k₂ k₃ k₄ r uc2 hskip ih =>
    obtain rfl : c = '\\' := not_not.1 h'
    obtain rfl : e = 'u' := not_not.1 he
    obtain ⟨rfl, rfl⟩ := hbu
    exact .skips h₁ h₂ h₃ h₄ (.skips k₁ k₂ k₃ k₄ ih)
  | case8 c h h' e he h₁ h₂ h₃ h₄ uc hlow hhigh b u hbu k₁ k₂ k₃ k₄ r uc2 hpair ih =>
    obtain rfl : c = '\\' := not_not.1 h'
    obtain rfl : e = 'u' := not_not.1 he
    obtain ⟨rfl, rfl⟩ := hbu
    exact .skips h₁ h₂ h₃ h₄ (.writes k₁ k₂ k₃ k₄ (by omega) (surrogates_bounds uc uc2) ih)
  | case9 c h h' e he h₁ h₂ h₃ h₄ uc hlow hhigh b u r hbu hshort =>
    obtain rfl : c = '\\' := not_not.1 h'
    obtain rfl : e = 'u' := not_not.1 he
    obtain ⟨rfl, rfl⟩ := hbu
    exact .skips h₁ h₂ h₃ h₄ (.fault (not_wellEscaped_unicode hshort))
  | case10 c h h' e he h₁ h₂ h₃ h₄ uc hlow hhigh b u r hbu ih =>
    obtain rfl : c = '\\' := not_not.1 h'
    obtain rfl : e = 'u' := not_not.1 he
    exact .skips h₁ h₂ h₃ h₄ ih
  | case11 c h h' e he h₁ h₂ h₃ h₄ uc hlow hhigh b ih =>
    obtain rfl : c = '\\' := not_not.1 h'
    obtain rfl : e = 'u' := not_not.1 he
    exact .skips h₁ h₂ h₃ h₄ ih
  | case12 c h h' e he h₁ h₂ h₃ h₄ uc hlow hhigh ih =>
    obtain rfl : c = '\\' := not_not.1 h'
    obtain rfl : e = 'u' := not_not.1 he
    exact .skips h₁ h₂ h₃ h₄ ih
  | case13 c h h' e he h₁ h₂ h₃ h₄ t uc hlow hhigh ih =>
    obtain rfl : c = '\\' := not_not.1 h'
    obtain rfl : e = 'u' := not_not.1 he
    have hlt := parseHex4_lt h₁ h₂ h₃ h₄
    exact .writes h₁ h₂ h₃ h₄ (fun h0 => hlow (.inr h0)) (by omega) ih
  | case14 c h h' e t he hshort =>
    obtain rfl : c = '\\' := not_not.1 h'
    obtain rfl : e = 'u' := not_not.1 he
    exact .fault (not_wellEscaped_unicode hshort)

/-! ## Readers -/

/-- What is left of a text: an end of it, well escaped if the text was. -/
structure Leaves (t t' : Text) : Prop where
  suffix : t' <:+ t
  escaped : WellEscaped t → WellEscaped t'

theorem Leaves.refl (t : Text) : Leaves t t := ⟨List.suffix_rfl, id⟩

theorem Leaves.trans {t' t'' : Text} (h : Leaves t t') (h' : Leaves t' t'') : Leaves t t'' :=
  ⟨h'.suffix.trans h.suffix, fun ht => h'.escaped (h.escaped ht)⟩

theorem Leaves.cons {c : Char} {t' : Text} (hc : c ≠ '\\') (h : Leaves t t') :
    Leaves (c :: t) t' :=
  ⟨h.suffix.trans (List.suffix_cons c t), fun ht => h.escaped (ht.tail hc)⟩

theorem Leaves.length_le {t' : Text} (h : Leaves t t') : t'.length ≤ t.length := h.suffix.length_le

theorem leaves_skip (t : Text) : Leaves t (skip t) := by
  induction t with
  | nil => exact .refl []
  | cons c t ih =>
    rw [skip]
    split
    next h =>
      refine ih.cons ?_
      rintro rfl
      exact absurd h (by decide)
    next => exact .refl _

/-- What a function makes of a text: it does not run out of fuel, does nothing undefined if
the text is well escaped, takes at least `k` characters, and its result satisfies `Q` if the
text holds no NUL. -/
structure Reads {α : Type} (Q : α → Prop) (k : Nat) (t : Text) (r : Except Fault (α × Text)) :
    Prop where
  ne_fuel : r ≠ .error .fuel
  ne_undefined : WellEscaped t → r ≠ .error .undefined
  ok : ∀ x t', r = .ok (x, t') → Leaves t t' ∧ t'.length + k ≤ t.length ∧ ('\x00' ∉ t → Q x)

section
variable {α β : Type} {Q : α → Prop} {Q' : β → Prop} {k k' : Nat} {r : Except Fault (α × Text)}

theorem Reads.null : Reads Q k t (.error .null) := ⟨nofun, nofun, nofun⟩

theorem Reads.pure {x : α} {t' : Text} (h : Leaves t t') (hk : t'.length + k ≤ t.length)
    (hx : '\x00' ∉ t → Q x) : Reads Q k t (.ok (x, t')) := by
  refine ⟨nofun, nofun, ?_⟩
  rintro _ _ ⟨⟩
  exact ⟨h, hk, hx⟩

/-- A reader that starts further on. -/
theorem Reads.after {t₁ : Text} (hleft : Leaves t t₁) (h : Reads Q k t₁ r)
    (hk : k' + t₁.length ≤ k + t.length) : Reads Q k' t r := by
  refine ⟨h.ne_fuel, fun ht => h.ne_undefined (hleft.escaped ht), fun x t' hr => ?_⟩
  obtain ⟨hleft', hlen, hx⟩ := h.ok x t' hr
  exact ⟨hleft.trans hleft', by omega, fun hnul => hx fun hmem => hnul (hleft.suffix.mem hmem)⟩

/-- A reader that fails where another one failed. -/
theorem Reads.error {e : Fault} (h : Reads Q k t r) (he : r = .error e) :
    Reads Q' k' t (.error e : Except Fault (β × Text)) := by
  subst he
  refine ⟨?_, fun ht => ?_, nofun⟩
  · rintro ⟨⟩
    exact h.ne_fuel rfl
  · rintro ⟨⟩
    exact h.ne_undefined ht rfl

theorem Reads.map (h : Reads Q k t r) (f : α → β) (hf : ∀ x, Q x → Q' (f x)) :
    Reads Q' k t (r.map fun p => (f p.1, p.2)) := by
  match r with
  | .error e => exact h.error rfl
  | .ok (x, t') =>
    obtain ⟨hleft, hlen, hx⟩ := h.ok x t' rfl
    exact .pure hleft hlen fun hnul => hf x (hx hnul)

end

/-! ## The parts of a number -/

theorem ne_backslash_of_isDigit {c : Char} (h : c.isDigit = true) : c ≠ '\\' := by
  rintro rfl
  exact absurd h (by decide)

theorem leaves_integerLoop (n : UInt64) (t : Text) : Leaves t (integerLoop D n t).2 := by
  induction t generalizing n with
  | nil => exact .refl []
  | cons c t ih =>
    rw [integerLoop]
    split
    next h => exact (ih _).cons (ne_backslash_of_isDigit h)
    next => exact .refl _

theorem leaves_fractionLoop (n scale : UInt64) (t : Text) :
    Leaves t (fractionLoop D n scale t).2 := by
  induction t generalizing n scale with
  | nil => exact .refl []
  | cons c t ih =>
    rw [fractionLoop]
    split
    next h => exact (ih _ _).cons (ne_backslash_of_isDigit h)
    next => exact .refl _

theorem leaves_exponentLoop (n : Int32) (t : Text) : Leaves t (exponentLoop n t).2 := by
  induction t generalizing n with
  | nil => exact .refl []
  | cons c t ih =>
    rw [exponentLoop]
    split
    next h => exact (ih _).cons (ne_backslash_of_isDigit h)
    next => exact .refl _

theorem leaves_skipZero (t : Text) : Leaves t (skipZero t) := by
  cases t with
  | nil => exact .refl []
  | cons c t =>
    rw [skipZero]
    split
    next h => exact h ▸ (Leaves.refl t).cons (by decide)
    next => exact .refl _

theorem leaves_parseInteger (t : Text) : Leaves t (parseInteger D t).2 := by
  cases t with
  | nil => exact .refl []
  | cons c t =>
    rw [parseInteger]
    split
    next => exact leaves_integerLoop _ _
    next => exact .refl _

theorem leaves_parseFraction (n : UInt64) (t : Text) : Leaves t (parseFraction D n t).2 := by
  match t with
  | [] | [_] => exact .refl _
  | c :: c' :: t =>
    rw [parseFraction]
    split
    next h => exact (leaves_fractionLoop _ _ _).cons (h.1 ▸ by decide)
    next => exact .refl _

theorem leaves_parseExponent (t : Text) : Leaves t (parseExponent t).2 := by
  unfold parseExponent
  split
  · exact .refl []
  next c t =>
    split
    next h =>
      have hc : c ≠ '\\' := by rcases h with rfl | rfl <;> decide
      split
      · exact (Leaves.refl []).cons hc
      next s t =>
        split
        next hs => exact ((leaves_exponentLoop 0 t).cons (hs ▸ by decide)).cons hc
        split
        next hs => exact ((leaves_exponentLoop 0 t).cons (hs ▸ by decide)).cons hc
        next => exact (leaves_exponentLoop 0 _).cons hc
    next => exact .refl _

/-- A number takes its first character. -/
theorem leaves_parseNumber {c : Char} (hc : c = '-' ∨ c.isDigit = true) (t : Text) :
    Leaves t (parseNumber D (c :: t)).2 := by
  have hinteger : Leaves t (parseInteger D (skipZero (parseSign (c :: t)).2)).2 := by
    rcases hc with rfl | hc
    · exact (leaves_skipZero t).trans (leaves_parseInteger _)
    have hminus : c ≠ '-' := by
      rintro rfl
      exact absurd hc (by decide)
    rw [parseSign, if_neg hminus, skipZero]
    split
    next => exact leaves_parseInteger t
    next h0 =>
      rw [parseInteger, if_pos ⟨hc, h0⟩, integerLoop, if_pos hc]
      exact leaves_integerLoop _ t
  exact (hinteger.trans (leaves_parseFraction _ _)).trans (leaves_parseExponent _)

/-! ## Values -/

/-- The documents whose strings hold no NUL. -/
inductive Clean : Value → Prop
  | null : Clean .null
  | bool (b : Bool) : Clean (.bool b)
  | number (i : Int32) (d : UInt64) : Clean (.number i d)
  | string {s : Text} (h : '\x00' ∉ s) : Clean (.string s)
  | array {items : List Value} (h : ∀ v ∈ items, Clean v) : Clean (.array items)
  | object {fields : List (Text × Value)} (hname : ∀ f ∈ fields, '\x00' ∉ f.1)
      (h : ∀ f ∈ fields, Clean f.2) : Clean (.object fields)

theorem reads_parseString (t : Text) : Reads ('\x00' ∉ ·) 0 t (parseString t) := by
  have hspec := unescapes t
  unfold parseString
  split
  next len out rest hlen hout =>
    obtain ⟨hsuffix, hnul⟩ := hspec.ok out rest hout
    have hle := hsuffix.length_le
    have hleaves : Leaves t rest := ⟨hsuffix, fun ht => by
      obtain ⟨_, _, _, hok, -, -, hrest⟩ := hspec.escaped ht
      rw [hout] at hok
      cases hok
      exact hrest⟩
    split
    next hlt =>
      refine ⟨nofun, fun ht => ?_, nofun⟩
      obtain ⟨_, _, _, hok, hscan, hle, -⟩ := hspec.escaped ht
      rw [hout] at hok
      cases hok
      rw [hlen] at hscan
      cases hscan
      omega
    split
    next => exact .pure hleaves hle hnul
    next c rest =>
      rw [List.length_cons] at hle
      split
      next hc =>
        have hquote := hleaves.trans ((Leaves.refl rest).cons (hc ▸ by decide : c ≠ '\\'))
        exact .pure hquote (by omega) hnul
      next => exact .pure hleaves hle hnul
  next hfault =>
    refine ⟨nofun, fun ht => ?_, nofun⟩
    obtain ⟨out, rest, len, hout, hlen, -⟩ := hspec.escaped ht
    exact (hfault len out rest hlen hout).elim

/-- The specifications of the functions that call each other, with the fuel each one needs. -/
structure ReadsAll (D : Doubles) (fuel : Nat) : Prop where
  value : ∀ t, 3 * t.length + 1 ≤ fuel → Reads Clean 1 t (parseValue D fuel t)
  array : ∀ t, 3 * t.length + 3 ≤ fuel → Reads (∀ v ∈ ·, Clean v) 0 t (parseArray D fuel t)
  item : ∀ t, 3 * t.length + 2 ≤ fuel → Reads (∀ v ∈ ·, Clean v) 0 t (parseItem D fuel t)
  items : ∀ t, 3 * t.length + 1 ≤ fuel → Reads (∀ v ∈ ·, Clean v) 0 t (parseItems D fuel t)
  object : ∀ t, 3 * t.length + 3 ≤ fuel →
    Reads (∀ f ∈ ·, '\x00' ∉ f.1 ∧ Clean f.2) 0 t (parseObject D fuel t)
  field : ∀ t, 3 * t.length + 2 ≤ fuel →
    Reads (∀ f ∈ ·, '\x00' ∉ f.1 ∧ Clean f.2) 0 t (parseField D fuel t)
  fields : ∀ t, 3 * t.length + 1 ≤ fuel →
    Reads (∀ f ∈ ·, '\x00' ∉ f.1 ∧ Clean f.2) 0 t (parseFields D fuel t)

theorem leaves_keyword {w : Text} (hw : '\\' ∉ w) (h : w <+: t) : Leaves t (t.drop w.length) := by
  obtain ⟨t, rfl⟩ := h
  rw [List.drop_left]
  induction w with
  | nil => exact .refl t
  | cons c w ih =>
    exact (ih fun h => hw (List.mem_cons_of_mem c h)).cons fun h => hw (h ▸ List.mem_cons_self)

theorem reads_keyword {w : Text} {v : Value} (hw : '\\' ∉ w) (hlen : w.length ≠ 0) (hv : Clean v)
    (h : w <+: t) : Reads Clean 1 t (.ok (v, t.drop w.length)) := by
  have hle := h.length_le
  refine .pure (leaves_keyword hw h) ?_ fun _ => hv
  rw [List.length_drop]
  omega

section
variable {fuel : Nat} (h : ReadsAll D fuel)
include h

theorem ReadsAll.value_succ (t : Text) (hfuel : 3 * t.length + 1 ≤ fuel + 1) :
    Reads Clean 1 t (parseValue D (fuel + 1) t) := by
  rw [parseValue.eq_def]
  dsimp only
  split
  next hw => exact reads_keyword (w := "null".toList) (by decide) (by decide) .null hw
  split
  next hw => exact reads_keyword (w := "false".toList) (by decide) (by decide) (.bool false) hw
  split
  next hw => exact reads_keyword (w := "true".toList) (by decide) (by decide) (.bool true) hw
  split
  · exact .null
  next c t _ _ _ =>
    rw [List.length_cons] at hfuel
    -- a value in brackets or quotes, behind its first character
    have hinner {α : Type} {Q : α → Prop} {r : Except Fault (α × Text)} {f : α → Value} {t₁ : Text}
        (hc : c ≠ '\\') (hleft : Leaves t t₁) (hr : Reads Q 0 t₁ r) (hf : ∀ x, Q x → Clean (f x)) :
        Reads Clean 1 (c :: t) (asValue f r) := by
      have hle := hleft.length_le
      exact .after (hleft.cons hc) (hr.map f hf) (by rw [List.length_cons]; omega)
    have hskip := leaves_skip t
    have hle := hskip.length_le
    split
    next hc => exact hinner (hc ▸ by decide) (.refl t) (reads_parseString t) fun _ => .string
    split
    next hc =>
      have hleft := leaves_parseNumber (D := D) hc t
      have hclean : Clean (parseNumber D (c :: t)).1 := .number ..
      generalize parseNumber D (c :: t) = p at hleft hclean
      have hlen := hleft.length_le
      refine .pure (hleft.cons ?_) (by rw [List.length_cons]; omega) fun _ => hclean
      rintro rfl
      exact absurd hc (by decide)
    split
    next hc => exact hinner (hc ▸ by decide) hskip (h.array _ (by omega)) fun _ => .array
    split
    next hc =>
      exact hinner (hc ▸ by decide) hskip (h.object _ (by omega)) fun _ hx =>
        .object (fun f hf => (hx f hf).1) fun f hf => (hx f hf).2
    next => exact .null

theorem ReadsAll.array_succ (t : Text) (hfuel : 3 * t.length + 3 ≤ fuel + 1) :
    Reads (∀ v ∈ ·, Clean v) 0 t (parseArray D (fuel + 1) t) := by
  rw [parseArray.eq_def]
  dsimp only
  split
  · exact h.item [] (by omega)
  next c t =>
    split
    next hc =>
      exact .pure ((Leaves.refl t).cons (hc ▸ by decide)) (by simp) fun _ => nofun
    next => exact h.item (c :: t) (by omega)

theorem ReadsAll.object_succ (t : Text) (hfuel : 3 * t.length + 3 ≤ fuel + 1) :
    Reads (∀ f ∈ ·, '\x00' ∉ f.1 ∧ Clean f.2) 0 t (parseObject D (fuel + 1) t) := by
  rw [parseObject.eq_def]
  dsimp only
  split
  · exact h.field [] (by omega)
  next c t =>
    split
    next hc =>
      exact .pure ((Leaves.refl t).cons (hc ▸ by decide)) (by simp) fun _ => nofun
    next => exact h.field (c :: t) (by omega)

theorem ReadsAll.items_succ (t : Text) (hfuel : 3 * t.length + 1 ≤ fuel + 1) :
    Reads (∀ v ∈ ·, Clean v) 0 t (parseItems D (fuel + 1) t) := by
  rw [parseItems.eq_def]
  dsimp only
  split
  · exact .null
  next c t =>
    rw [List.length_cons] at hfuel
    split
    next hc =>
      exact .after ((Leaves.refl t).cons (hc ▸ by decide)) (h.item t (by omega)) (by simp)
    split
    next hc =>
      exact .pure ((Leaves.refl t).cons (hc ▸ by decide)) (by simp) fun _ => nofun
    next => exact .null

theorem ReadsAll.fields_succ (t : Text) (hfuel : 3 * t.length + 1 ≤ fuel + 1) :
    Reads (∀ f ∈ ·, '\x00' ∉ f.1 ∧ Clean f.2) 0 t (parseFields D (fuel + 1) t) := by
  rw [parseFields.eq_def]
  dsimp only
  split
  · exact .null
  next c t =>
    rw [List.length_cons] at hfuel
    split
    next hc =>
      exact .after ((Leaves.refl t).cons (hc ▸ by decide)) (h.field t (by omega)) (by simp)
    split
    next hc =>
      exact .pure ((Leaves.refl t).cons (hc ▸ by decide)) (by simp) fun _ => nofun
    next => exact .null

/-- A value, and the values behind it. -/
theorem ReadsAll.item_succ (t : Text) (hfuel : 3 * t.length + 2 ≤ fuel + 1) :
    Reads (∀ v ∈ ·, Clean v) 0 t (parseItem D (fuel + 1) t) := by
  have hskip := leaves_skip t
  have hle := hskip.length_le
  have hvalue : Reads Clean 1 t (parseValue D fuel (skip t)) :=
    .after hskip (h.value _ (by omega)) (by omega)
  rw [parseItem.eq_def]
  dsimp only
  split
  next e he => exact hvalue.error he
  next v t₁ hok =>
    obtain ⟨hleft, hlen, hv⟩ := hvalue.ok v t₁ hok
    have hskip₁ := leaves_skip t₁
    have hle₁ := hskip₁.length_le
    have hrest : Reads _ 0 t _ := .after (hleft.trans hskip₁) (h.items _ (by omega)) (by omega)
    split
    next e he => exact hrest.error he
    next vs t₂ hok₂ =>
      obtain ⟨hleft₂, hlen₂, hvs⟩ := hrest.ok vs t₂ hok₂
      exact .pure hleft₂ hlen₂ fun hnul => List.forall_mem_cons.2 ⟨hv hnul, hvs hnul⟩

/-- A name, a value, and the fields behind them. -/
theorem ReadsAll.field_succ (t : Text) (hfuel : 3 * t.length + 2 ≤ fuel + 1) :
    Reads (∀ f ∈ ·, '\x00' ∉ f.1 ∧ Clean f.2) 0 t (parseField D (fuel + 1) t) := by
  have hskip := leaves_skip t
  have hle := hskip.length_le
  rw [parseField.eq_def]
  dsimp only
  split
  · exact .null
  next q t₁ ht₁ =>
    split
    · exact .null
    next hq =>
      obtain rfl : q = '"' := not_not.1 hq
      rw [ht₁] at hskip
      rw [ht₁, List.length_cons] at hle
      have hquote := hskip.trans ((Leaves.refl t₁).cons (by decide : '"' ≠ '\\'))
      have hname : Reads _ 1 t _ := .after hquote (reads_parseString t₁) (by omega)
      split
      next e he => exact hname.error he
      next name t₂ hok₂ =>
        obtain ⟨hleft₂, hlen₂, hnul₂⟩ := hname.ok name t₂ hok₂
        have hskip₂ := leaves_skip t₂
        have hle₂ := hskip₂.length_le
        split
        · exact .null
        next s t₃ ht₃ =>
          split
          · exact .null
          next hs =>
            obtain rfl : s = ':' := not_not.1 hs
            rw [ht₃] at hskip₂
            rw [ht₃, List.length_cons] at hle₂
            have hcolon := hskip₂.trans ((Leaves.refl t₃).cons (by decide : ':' ≠ '\\'))
            have hskip₃ := leaves_skip t₃
            have hle₃ := hskip₃.length_le
            have hvalue : Reads _ 1 t _ :=
              .after (hleft₂.trans (hcolon.trans hskip₃)) (h.value _ (by omega)) (by omega)
            split
            next e he => exact hvalue.error he
            next v t₄ hok₄ =>
              obtain ⟨hleft₄, hlen₄, hv⟩ := hvalue.ok v t₄ hok₄
              have hskip₄ := leaves_skip t₄
              have hle₄ := hskip₄.length_le
              have hrest : Reads _ 0 t _ :=
                .after (hleft₄.trans hskip₄) (h.fields _ (by omega)) (by omega)
              split
              next e he => exact hrest.error he
              next fs t₅ hok₅ =>
                obtain ⟨hleft₅, hlen₅, hfs⟩ := hrest.ok fs t₅ hok₅
                exact .pure hleft₅ hlen₅ fun hnul =>
                  List.forall_mem_cons.2 ⟨⟨hnul₂ hnul, hv hnul⟩, hfs hnul⟩

end

theorem readsAll (D : Doubles) (fuel : Nat) : ReadsAll D fuel := by
  induction fuel with
  | zero => exact ⟨nofun, nofun, nofun, nofun, nofun, nofun, nofun⟩
  | succ fuel ih =>
    exact ⟨ih.value_succ, ih.array_succ, ih.item_succ, ih.items_succ, ih.object_succ,
      ih.field_succ, ih.fields_succ⟩

/-! ## Texts -/

theorem nul_not_mem_takeWhile (t : Text) : '\x00' ∉ t.takeWhile (· ≠ '\x00') := by
  intro h
  simpa using List.mem_takeWhile_imp h

/-- What `parse` makes of a text, up to its first NUL. -/
theorem reads_parse (D : Doubles) (t : Text) :
    Reads Clean 1 (t.takeWhile (· ≠ '\x00'))
      (parseValue D (3 * (t.takeWhile (· ≠ '\x00')).length + 1)
        (skip (t.takeWhile (· ≠ '\x00')))) := by
  have hskip := leaves_skip (t.takeWhile (· ≠ '\x00'))
  have hle := hskip.length_le
  exact .after hskip ((readsAll D _).value _ (by omega)) (by omega)

theorem parseValue_of_parse_error {e : Fault} (h : parse D t = .error e) :
    parseValue D (3 * (t.takeWhile (· ≠ '\x00')).length + 1) (skip (t.takeWhile (· ≠ '\x00'))) =
      .error e := by
  unfold parse at h
  dsimp only at h
  generalize parseValue D _ _ = r at h ⊢
  match r, h with
  | .error _, rfl => rfl

theorem parseValue_of_parse_ok {v : Value} (h : parse D t = .ok v) :
    ∃ t',
      parseValue D (3 * (t.takeWhile (· ≠ '\x00')).length + 1) (skip (t.takeWhile (· ≠ '\x00'))) =
      .ok (v, t') := by
  unfold parse at h
  dsimp only at h
  generalize parseValue D _ _ = r at h ⊢
  match r, h with
  | .ok (_, t'), rfl => exact ⟨t', rfl⟩

/-- **The parser comes to an end**, on every text. -/
theorem parse_ne_fuel (t : Text) : parse D t ≠ .error .fuel :=
  fun h => (reads_parse D t).ne_fuel (parseValue_of_parse_error h)

theorem parse_clean {v : Value} (h : parse D t = .ok v) : Clean v := by
  obtain ⟨t', ht'⟩ := parseValue_of_parse_ok h
  exact ((reads_parse D t).ok v t' ht').2.2 (nul_not_mem_takeWhile t)

/-- **A text whose escapes are complete is parsed to a value or to a null pointer.** -/
theorem parse_returns (h : WellEscaped (t.takeWhile (· ≠ '\x00'))) :
    (∃ v, parse D t = .ok v ∧ Clean v) ∨ parse D t = .error .null := by
  match hr : parse D t with
  | .ok v => exact .inl ⟨v, rfl, parse_clean hr⟩
  | .error .null => exact .inr rfl
  | .error .undefined =>
    exact ((reads_parse D t).ne_undefined h (parseValue_of_parse_error hr)).elim
  | .error .fuel => exact (parse_ne_fuel t hr).elim

theorem parse_returns_escape :
    (∃ v, parse .words ['"', '\\', 'u', '0', '0', '4', '1', '"'] = .ok v ∧ Clean v) ∨
      parse .words ['"', '\\', 'u', '0', '0', '4', '1', '"'] = .error .null :=
  parse_returns (.plain (by decide) (.unicode (by simp [hexVal]) (.plain (by decide) .nil)))

theorem unescape_append {s : Text} (hs : ∀ c ∈ s, c ≠ '"' ∧ c ≠ '\\' ∧ c ≠ '\x00') (t : Text) :
    unescape (s ++ '"' :: t) = .ok (s, '"' :: t) := by
  induction s with
  | nil => exact unescape_quote t
  | cons c s ih =>
    obtain ⟨hc, hs⟩ := List.forall_mem_cons.1 hs
    rw [List.cons_append, unescape_plain hc.1 hc.2.1, ih hs]
    rfl

theorem parseString_overflow {a b c : Char} {s : Text}
    (hs : ∀ c ∈ s, c ≠ '"' ∧ c ≠ '\\' ∧ c ≠ '\x00') (hlen : 1 < s.length) (t : Text) :
    parseString ('\\' :: 'u' :: '"' :: a :: b :: c :: (s ++ '"' :: t)) = .error .undefined := by
  have hscan : scan ('\\' :: 'u' :: '"' :: a :: b :: c :: (s ++ '"' :: t)) = .ok 1 := by
    rw [scan_backslash, scan_quote]
    rfl
  have hout : unescape ('\\' :: 'u' :: '"' :: a :: b :: c :: (s ++ '"' :: t)) =
      .ok (s, '"' :: t) := by
    rw [unescape_zero _ rfl, unescape_append hs]
  simp only [parseString, hscan, hout, if_pos hlen]

/-- **Whatever follows the quote is written past the end of the buffer.** -/
theorem parse_overflow {s : Text} (hs : ∀ c ∈ s, c ≠ '"' ∧ c ≠ '\\' ∧ c ≠ '\x00')
    (hlen : 4 < s.length) (t : Text) :
    parse D ('"' :: '\\' :: 'u' :: '"' :: (s ++ '"' :: t)) = .error .undefined := by
  have htext : ('"' :: '\\' :: 'u' :: '"' :: (s ++ '"' :: t)).takeWhile (· ≠ '\x00') =
      '"' :: '\\' :: 'u' :: '"' :: (s ++ '"' :: t.takeWhile (· ≠ '\x00')) := by
    have hs' : ∀ c ∈ s, decide (c ≠ '\x00') = true := fun c hc => decide_eq_true (hs c hc).2.2
    simp only [List.takeWhile_cons, List.takeWhile_append_of_pos hs']
    rfl
  obtain ⟨a, b, c, s, rfl⟩ : ∃ a b c s', s = a :: b :: c :: s' := by
    match s, hlen with
    | a :: b :: c :: s, _ => exact ⟨a, b, c, s, rfl⟩
  have hs' : ∀ x ∈ s, x ≠ '"' ∧ x ≠ '\\' ∧ x ≠ '\x00' := fun x hx => hs x (by simp [hx])
  have hover :=
    parseString_overflow (a := a) (b := b) (c := c) hs' (Nat.lt_of_add_lt_add_right (n := 3) hlen)
    (t.takeWhile (· ≠ '\x00'))
  rw [parse, htext, skip_cons (by decide), parseValue_cons (by decide) (by decide) (by decide),
    if_pos rfl]
  simp only [List.cons_append, hover]
  rfl

theorem parse_overflow_two :
    parse .words ['"', '\\', 'u', '"', ',', ' ', 'a', 'b', 'c', '"'] = .error .undefined :=
  parse_overflow (s := [',', ' ', 'a', 'b', 'c']) (by simp) (by decide) []

end ChargingPile.Json
