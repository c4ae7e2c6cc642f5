import Mathlib.Data.Nat.Digits.Defs
import Mathlib.Data.List.Infix
import Mathlib.Tactic.Ring

/-!
# Wire formats

Three things a link layer is made of, over no particular protocol: words as little-endian bytes,
symbol stuffing with an escape symbol, and readers. A `Reader` is a program that consumes a stream
piece by piece and may let what it has read decide what it reads next. `Reader.run` is its meaning
on a complete list of symbols; an implementation interprets the same reader on its own stream.
-/

namespace ChargingPile

/-! ## Words -/

/-- The `n` lowest bytes of `x`, lowest first. -/
def leBytes (n x : Nat) : List UInt8 :=
  (List.range n).map fun i => UInt8.ofNat (x / 256 ^ i)

/-- The number with the given bytes, lowest first. -/
def ofLeBytes (l : List UInt8) : Nat := Nat.ofDigits 256 (l.map UInt8.toNat)

@[simp] theorem length_leBytes (n x : Nat) : (leBytes n x).length = n := by
  simp [leBytes]

theorem leBytes_succ (n x : Nat) : leBytes (n + 1) x = UInt8.ofNat x :: leBytes n (x / 256) := by
  simp only [leBytes, List.range_succ_eq_map, List.map_cons, List.map_map, pow_zero, Nat.div_one]
  refine congrArg _ (List.map_congr_left ?_)
  intro i _
  simp only [Function.comp_apply, Nat.succ_eq_add_one, pow_succ']
  rw [Nat.div_div_eq_div_mul]

/-- Reading back the bytes of a number gives the number, as far as it fits. -/
theorem ofLeBytes_leBytes (n x : Nat) : ofLeBytes (leBytes n x) = x % 256 ^ n := by
  induction n generalizing x with
  | zero => simp [leBytes, ofLeBytes, Nat.mod_one]
  | succ n ih =>
    have hcons :
        ofLeBytes (leBytes (n + 1) x) = x % 256 + 256 * ofLeBytes (leBytes n (x / 256)) := by
      rw [leBytes_succ, ofLeBytes, List.map_cons, Nat.ofDigits_cons]
      simp [ofLeBytes]
    rw [hcons, ih, pow_succ', Nat.mod_mul]

theorem leBytes_one (b : UInt8) : leBytes 1 b.toNat = [b] := by
  simp [leBytes]

/-- The lowest byte of a number is the first one. -/
theorem ofNat_ofLeBytes (l : List UInt8) : UInt8.ofNat (ofLeBytes l) = l.headD 0 := by
  cases l with
  | nil => rfl
  | cons b l =>
    rw [ofLeBytes, List.map_cons, Nat.ofDigits_cons, List.headD_cons, ← UInt8.toNat_inj]
    simp

/-- Bytes of the same length that stand for the same number are the same. -/
theorem ofLeBytes_inj {l m : List UInt8} (hlen : l.length = m.length)
    (h : ofLeBytes l = ofLeBytes m) : l = m := by
  have hlt : ∀ (k : List UInt8), ∀ x ∈ k.map UInt8.toNat, x < 256 := by
    intro k x hx
    obtain ⟨b, -, rfl⟩ := List.mem_map.1 hx
    exact b.toNat_lt
  have hmap : l.map UInt8.toNat = m.map UInt8.toNat :=
    Nat.ofDigits_inj_of_len_eq (by decide) (by simpa using hlen) (hlt l) (hlt m) h
  exact List.map_injective_iff.2 (fun a b hab => UInt8.toNat_inj.1 hab) hmap

theorem ofLeBytes_lt (l : List UInt8) : ofLeBytes l < 256 ^ l.length := by
  have hlt := Nat.ofDigits_lt_base_pow_length (b := 256) (l := l.map UInt8.toNat) (by decide) (by
    intro x hx
    obtain ⟨b, -, rfl⟩ := List.mem_map.1 hx
    exact b.toNat_lt)
  rwa [List.length_map] at hlt

/-! ## Stuffing -/

section
variable {α : Type} [DecidableEq α] {head escape : α}

/-- One symbol on the wire: `head` and `escape` are preceded by `escape`. -/
def stuffOne (head escape a : α) : List α := if a = head ∨ a = escape then [escape, a] else [a]

/-- A list of symbols on the wire. -/
def stuff (head escape : α) (l : List α) : List α := l.flatMap (stuffOne head escape)

@[simp] theorem stuff_nil : stuff head escape [] = [] := rfl

@[simp] theorem stuff_cons (a : α) (l : List α) :
    stuff head escape (a :: l) = stuffOne head escape a ++ stuff head escape l := rfl

@[simp] theorem stuff_append (l m : List α) :
    stuff head escape (l ++ m) = stuff head escape l ++ stuff head escape m :=
  List.flatMap_append

/-- Stuffing does not shorten. -/
theorem length_le_stuff (l : List α) : l.length ≤ (stuff head escape l).length := by
  induction l with
  | nil => exact le_rfl
  | cons a l ih =>
    have : 1 ≤ (stuffOne head escape a).length := by
      unfold stuffOne
      split <;> simp
    simp only [stuff_cons, List.length_cons, List.length_append]
    omega

/-- The list ends between an `escape` and the symbol that belongs to it. -/
def endsInEscape (escape : α) : List α → Bool
  | [] => false
  | [a] => a = escape
  | a :: b :: l => if a = escape then endsInEscape escape l else endsInEscape escape (b :: l)

theorem endsInEscape_stuffOne (a : α) (l : List α) :
    endsInEscape escape (stuffOne head escape a ++ l) = endsInEscape escape l := by
  unfold stuffOne
  split
  · simp [endsInEscape]
  · rename_i h
    rw [not_or] at h
    cases l <;> simp [endsInEscape, h.2]

/-- A beginning of a stuffed symbol and what follows it. -/
theorem prefix_stuffOne {a : α} {p l : List α} (hp : p <+: stuffOne head escape a ++ l)
    (he : endsInEscape escape p = false) :
    p = [] ∨ ∃ p', p = stuffOne head escape a ++ p' ∧ p' <+: l := by
  unfold stuffOne at hp ⊢
  split at hp
  · rename_i h
    rw [if_pos h]
    rcases List.prefix_cons_iff.1 hp with rfl | ⟨q, rfl, hq⟩
    · exact .inl rfl
    · rcases List.prefix_cons_iff.1 hq with rfl | ⟨q', rfl, hq'⟩
      · simp [endsInEscape] at he
      · exact .inr ⟨q', rfl, hq'⟩
  · rename_i h
    rw [if_neg h]
    rcases List.prefix_cons_iff.1 hp with rfl | ⟨q, rfl, hq⟩
    · exact .inl rfl
    · exact .inr ⟨q, rfl, hq⟩

/-- A beginning of a stuffed list that does not cut an escape pair is a stuffed beginning. -/
theorem prefix_stuff {p l : List α} (hp : p <+: stuff head escape l)
    (he : endsInEscape escape p = false) :
    ∃ k, k ≤ l.length ∧ p = stuff head escape (l.take k) := by
  induction l generalizing p with
  | nil => exact ⟨0, le_rfl, List.prefix_nil.1 hp⟩
  | cons a l ih =>
    rcases prefix_stuffOne hp he with rfl | ⟨p', rfl, hp'⟩
    · exact ⟨0, Nat.zero_le _, rfl⟩
    · rw [endsInEscape_stuffOne] at he
      obtain ⟨k, hk, rfl⟩ := ih hp' he
      exact ⟨k + 1, Nat.succ_le_succ hk, rfl⟩

omit [DecidableEq α] in
/-- Where a symbol of two lists in a row is. -/
theorem append_eq_append_cons {d k l₁ l₂ : List α} {a : α} (h : d ++ k = l₁ ++ a :: l₂) :
    (∃ k₁, l₁ = d ++ k₁ ∧ k = k₁ ++ a :: l₂) ∨ ∃ d₂, d = l₁ ++ a :: d₂ ∧ l₂ = d₂ ++ k := by
  rcases List.append_eq_append_iff.1 h with ⟨k₁, h₁, h₂⟩ | ⟨d₂, h₁, h₂⟩
  · exact .inl ⟨k₁, h₁, h₂⟩
  · cases d₂ with
    | nil => exact .inl ⟨[], by simpa using h₁.symm, h₂.symm⟩
    | cons x d₂ =>
      obtain ⟨hx, hrest⟩ := List.cons.inj h₂
      exact .inr ⟨d₂, hx ▸ h₁, hrest⟩

/-- A symbol on the wire that is neither `head` nor `escape` is a symbol of the list. -/
theorem stuff_eq_append_cons {a : α} (ha : ¬ (a = head ∨ a = escape)) {l p q : List α}
    (h : stuff head escape l = p ++ a :: q) :
    ∃ l₁ l₂, l = l₁ ++ a :: l₂ ∧ p = stuff head escape l₁ ∧ q = stuff head escape l₂ := by
  induction l generalizing p with
  | nil => simp at h
  | cons x l ih =>
    have hstep : ∀ p', p = stuffOne head escape x ++ p' → stuff head escape l = p' ++ a :: q →
        ∃ l₁ l₂, x :: l = l₁ ++ a :: l₂ ∧ p = stuff head escape l₁ ∧ q = stuff head escape l₂ := by
      rintro p' rfl hp'
      obtain ⟨l₁, l₂, rfl, rfl, rfl⟩ := ih hp'
      exact ⟨x :: l₁, l₂, rfl, rfl, rfl⟩
    rw [stuff_cons] at h
    by_cases hx : x = head ∨ x = escape
    -- the symbol is behind the pair of `x`
    · rw [stuffOne, if_pos hx] at h hstep
      match p with
      | [] => exact absurd (.inr (List.cons.inj h).1.symm) ha
      | [y] =>
        rw [(List.cons.inj (List.cons.inj h).2).1] at hx
        exact absurd hx ha
      | y :: z :: p' =>
        obtain ⟨hy, htail⟩ := List.cons.inj h
        obtain ⟨hz, hrest⟩ := List.cons.inj htail
        exact hstep p' (by rw [← hy, ← hz]; rfl) hrest
    · rw [stuffOne, if_neg hx] at h hstep
      cases p with
      | nil =>
        obtain ⟨rfl, rfl⟩ := List.cons.inj h
        exact ⟨[], l, rfl, rfl, rfl⟩
      | cons y p' =>
        obtain ⟨hy, hrest⟩ := List.cons.inj h
        exact hstep p' (by rw [← hy]; rfl) hrest

end

/-! ## Readers -/

/-- A program that reads a stream of `β` and returns an `α`. `ask` inquires whether the stream has
become invalid. -/
inductive Reader (β α : Type)
  | done (a : α)
  | read (n : Nat) (k : List β → Reader β α)
  | ask (k : Bool → Reader β α)

namespace Reader

variable {α β γ δ ε σ : Type}

/-- One reader after another, which may depend on the result of the first. -/
def bind : Reader β α → (α → Reader β γ) → Reader β γ
  | done a, f => f a
  | read n k, f => read n fun l => (k l).bind f
  | ask k, f => ask fun b => (k b).bind f

@[simp] theorem bind_done (a : α) (f : α → Reader β γ) : (done a).bind f = f a := rfl

theorem bind_assoc (r : Reader β α) (f : α → Reader β γ) (g : γ → Reader β δ) :
    (r.bind f).bind g = r.bind fun a => (f a).bind g := by
  induction r with
  | done a => rfl
  | read n k ih => exact congrArg (read n) (funext ih)
  | ask k ih => exact congrArg ask (funext ih)

/-- A loop of `n` rounds over a reader that updates a state. -/
def iterate : Nat → (σ → Reader β σ) → σ → Reader β σ
  | 0, _, s => done s
  | n + 1, step, s => (step s).bind (iterate n step)

/-- The result of a reader on a valid stream with the given symbols, and the symbols it leaves. -/
def run : Reader β α → List β → Option (α × List β)
  | done a, l => some (a, l)
  | read n k, l => if n ≤ l.length then (k (l.take n)).run (l.drop n) else none
  | ask k, l => (k false).run l

theorem run_bind (r : Reader β α) (f : α → Reader β γ) (l : List β) :
    (r.bind f).run l = (r.run l).bind fun p => (f p.1).run p.2 := by
  induction r generalizing l with
  | done a => rfl
  | read n k ih =>
    simp only [bind, run]
    split
    · exact ih _ _
    · rfl
  | ask k ih => exact ih false l

/-- A reader that finds its result at the front of the stream hands on the rest. -/
theorem run_bind_of_run {r : Reader β α} {l l' : List β} {a : α} (hr : r.run l = some (a, l'))
    (f : α → Reader β γ) : (r.bind f).run l = (f a).run l' := by
  rw [run_bind, hr]
  rfl

/-- A reader that takes more than the beginning of a list does not get by with it. -/
theorem run_eq_none_of_append {r : Reader β α} {l m l' : List β} {a : α}
    (hr : r.run (l ++ m) = some (a, l')) (hm : l'.length < m.length) : r.run l = none := by
  induction r generalizing l with
  | done b =>
    obtain ⟨-, rfl⟩ : b = a ∧ l ++ m = l' := by simpa [run] using hr
    rw [List.length_append] at hm
    omega
  | read n k ih =>
    rw [run]
    split
    · rename_i hn
      have hle : n ≤ (l ++ m).length := by
        rw [List.length_append]
        exact Nat.le_add_right_of_le hn
      rw [run, if_pos hle, List.take_append_of_le_length hn,
        List.drop_append_of_le_length hn] at hr
      exact ih _ hr
    · rfl
  | ask k ih => exact ih false hr

/-- Reading a written word. -/
theorem run_read {n : Nat} {l : List β} (hl : l.length = n) (k : List β → Reader β α)
    (rest : List β) : (read n k).run (l ++ rest) = (k l).run rest := by
  have hle : n ≤ (l ++ rest).length := by
    rw [List.length_append, hl]
    exact Nat.le_add_right n rest.length
  rw [run, if_pos hle, ← hl, List.take_left, List.drop_left]

/-- A loop reads a list written element by element if each round reads its element. -/
theorem run_iterate {write : δ → List β} {step : σ → Reader β σ} {act : σ → δ → σ} {ds : List δ}
    (hstep : ∀ d ∈ ds, ∀ s rest, (step s).run (write d ++ rest) = some (act s d, rest))
    (s : σ) (rest : List β) :
    (iterate ds.length step s).run (ds.flatMap write ++ rest) = some (ds.foldl act s, rest) := by
  induction ds generalizing s with
  | nil => rfl
  | cons d ds ih =>
    rw [List.flatMap_cons, List.append_assoc, List.length_cons, iterate,
      run_bind_of_run (hstep d List.mem_cons_self s _), List.foldl_cons]
    exact ih (fun d' hd' => hstep d' (List.mem_cons_of_mem _ hd')) (act s d)

/-! ### What a reader takes -/

/-- The reader succeeds exactly on the lists that begin with one of the lists `L`, and takes that
beginning. -/
def Takes (r : Reader β α) (L : List β → Prop) : Prop :=
  ∀ l rest, (∃ a, r.run l = some (a, rest)) ↔ ∃ p, L p ∧ l = p ++ rest

theorem Takes.congr {r : Reader β α} {L M : List β → Prop} (h : Takes r L) (hLM : ∀ l, L l ↔ M l) :
    Takes r M := by
  intro l rest
  simp only [h l rest, hLM]

theorem Takes.run_ne_none_iff {r : Reader β α} {L : List β → Prop} (h : Takes r L) (l : List β) :
    r.run l ≠ none ↔ ∃ p, L p ∧ p <+: l := by
  rw [Option.ne_none_iff_exists']
  constructor
  · rintro ⟨⟨a, rest⟩, hrun⟩
    obtain ⟨p, hp, rfl⟩ := (h l rest).1 ⟨a, hrun⟩
    exact ⟨p, hp, List.prefix_append ..⟩
  · rintro ⟨p, hp, rest, rfl⟩
    obtain ⟨a, hrun⟩ := (h _ rest).2 ⟨p, hp, rfl⟩
    exact ⟨_, hrun⟩

theorem takes_done (a : α) : Takes (done a : Reader β α) (· = []) := by
  intro l rest
  simp [run]

theorem takes_ask {k : Bool → Reader β α} {L : List β → Prop} (h : Takes (k false) L) :
    Takes (ask k) L := h

/-- A word and what follows it, which may depend on the word. -/
theorem takes_read {n : Nat} {k : List β → Reader β α} {M : List β → List β → Prop}
    (h : ∀ p, p.length = n → Takes (k p) (M p)) :
    Takes (read n k) fun l => ∃ p q, p.length = n ∧ M p q ∧ l = p ++ q := by
  intro l rest
  constructor
  · rintro ⟨a, hrun⟩
    rw [run] at hrun
    split at hrun
    · rename_i hn
      have hlen : (l.take n).length = n := List.length_take_of_le hn
      obtain ⟨q, hq, hdrop⟩ := (h _ hlen (l.drop n) rest).1 ⟨a, hrun⟩
      refine ⟨l.take n ++ q, ⟨_, q, hlen, hq, rfl⟩, ?_⟩
      rw [List.append_assoc, ← hdrop, List.take_append_drop]
    · cases hrun
  · rintro ⟨_, ⟨p, q, hp, hq, rfl⟩, rfl⟩
    rw [List.append_assoc, run_read hp]
    exact (h p hp _ rest).2 ⟨q, hq, rfl⟩

theorem Takes.bind {r : Reader β α} {f : α → Reader β γ} {L M : List β → Prop} (hr : Takes r L)
    (hf : ∀ a, Takes (f a) M) :
    Takes (r.bind f) fun l => ∃ p q, L p ∧ M q ∧ l = p ++ q := by
  intro l rest
  constructor
  · rintro ⟨c, hrun⟩
    rw [run_bind] at hrun
    obtain ⟨⟨a, l'⟩, ha, hc⟩ := Option.bind_eq_some_iff.1 hrun
    obtain ⟨p, hp, rfl⟩ := (hr l l').1 ⟨a, ha⟩
    obtain ⟨q, hq, rfl⟩ := (hf a l' rest).1 ⟨c, hc⟩
    exact ⟨p ++ q, ⟨p, q, hp, hq, rfl⟩, (List.append_assoc ..).symm⟩
  · rintro ⟨_, ⟨p, q, hp, hq, rfl⟩, rfl⟩
    rw [List.append_assoc]
    obtain ⟨a, ha⟩ := (hr _ (q ++ rest)).2 ⟨p, hp, rfl⟩
    rw [run_bind_of_run ha]
    exact (hf a _ rest).2 ⟨q, hq, rfl⟩

/-- A reader whose result is changed takes what it took. -/
theorem Takes.map {r : Reader β α} {L : List β → Prop} (hr : Takes r L) (f : α → γ) :
    Takes (r.bind fun a => done (f a)) L := by
  refine (hr.bind fun a => takes_done (f a)).congr fun l => ?_
  simp

/-- A loop takes as many pieces as it has rounds. -/
theorem takes_iterate {step : σ → Reader β σ} {L : List β → Prop} (h : ∀ s, Takes (step s) L)
    (n : Nat) (s : σ) :
    Takes (iterate n step s) fun l =>
      ∃ ps : List (List β), ps.length = n ∧ (∀ p ∈ ps, L p) ∧ l = ps.flatten := by
  induction n generalizing s with
  | zero => exact (takes_done s).congr fun l => by simp
  | succ n ih =>
    refine ((h s).bind ih).congr fun l => ?_
    constructor
    · rintro ⟨p, _, hp, ⟨ps, hn, hps, rfl⟩, rfl⟩
      exact ⟨p :: ps, congrArg (· + 1) hn, List.forall_mem_cons.2 ⟨hp, hps⟩, rfl⟩
    · rintro ⟨ps, hn, hps, rfl⟩
      obtain ⟨p, ps, rfl⟩ := List.exists_cons_of_length_eq_add_one hn
      obtain ⟨hp, hps⟩ := List.forall_mem_cons.1 hps
      exact ⟨p, _, hp, ⟨ps, Nat.succ.inj hn, hps, rfl⟩, rfl⟩

/-- A reader on an actual stream, a state that may fail. -/
def interp (readData : Nat → EStateM ε σ (List β)) (isInvalid : EStateM ε σ Bool) :
    Reader β α → EStateM ε σ α
  | done a => pure a
  | read n k => do (k (← readData n)).interp readData isInvalid
  | ask k => do (k (← isInvalid)).interp readData isInvalid

section
variable {readData : Nat → EStateM ε σ (List β)} {isInvalid : EStateM ε σ Bool}
  {Serves : List β → σ → Prop}

/-- A stream that serves the symbols of a list gives a reader the result it has on the list. -/
theorem interp_of_run
    (hread : ∀ n l s, Serves l s → n ≤ l.length →
      ∃ s', (readData n).run s = .ok (l.take n) s' ∧ Serves (l.drop n) s')
    (hask : ∀ l s, Serves l s → isInvalid.run s = .ok false s)
    {r : Reader β α} {l l' : List β} {a : α} {s : σ} (hr : r.run l = some (a, l'))
    (hs : Serves l s) :
    ∃ s', (r.interp readData isInvalid).run s = .ok a s' ∧ Serves l' s' := by
  induction r generalizing l s with
  | done b =>
    obtain ⟨rfl, rfl⟩ : b = a ∧ l = l' := by simpa [run] using hr
    exact ⟨s, rfl, hs⟩
  | read n k ih =>
    rw [run] at hr
    split at hr
    · rename_i hn
      obtain ⟨s₁, h₁, hs₁⟩ := hread n l s hs hn
      obtain ⟨s₂, h₂, hs₂⟩ := ih _ hr hs₁
      refine ⟨s₂, ?_, hs₂⟩
      rw [← h₂]
      simp only [interp, EStateM.run_bind, h₁]
    · cases hr
  | ask k ih =>
    obtain ⟨s', h', hs'⟩ := ih _ hr hs
    refine ⟨s', ?_, hs'⟩
    rw [← h']
    simp only [interp, EStateM.run_bind, hask l s hs]

/-- A reader that needs more symbols than the stream serves fails as the stream does. -/
theorem interp_of_none {e : ε} {Failed : σ → Prop}
    (hread : ∀ n l s, Serves l s → n ≤ l.length →
      ∃ s', (readData n).run s = .ok (l.take n) s' ∧ Serves (l.drop n) s')
    (hshort : ∀ n l s, Serves l s → l.length < n →
      ∃ s', (readData n).run s = .error e s' ∧ Failed s')
    (hask : ∀ l s, Serves l s → isInvalid.run s = .ok false s)
    {r : Reader β α} {l : List β} {s : σ} (hr : r.run l = none) (hs : Serves l s) :
    ∃ s', (r.interp readData isInvalid).run s = .error e s' ∧ Failed s' := by
  induction r generalizing l s with
  | done b => cases hr
  | read n k ih =>
    rw [run] at hr
    split at hr
    · rename_i hn
      obtain ⟨s₁, h₁, hs₁⟩ := hread n l s hs hn
      obtain ⟨s₂, h₂, hs₂⟩ := ih _ hr hs₁
      refine ⟨s₂, ?_, hs₂⟩
      rw [← h₂]
      simp only [interp, EStateM.run_bind, h₁]
    · rename_i hn
      obtain ⟨s', h', hs'⟩ := hshort n l s hs (Nat.lt_of_not_le hn)
      exact ⟨s', by simp only [interp, EStateM.run_bind, h'], hs'⟩
  | ask k ih =>
    obtain ⟨s', h', hs'⟩ := ih _ hr hs
    refine ⟨s', ?_, hs'⟩
    rw [← h']
    simp only [interp, EStateM.run_bind, hask l s hs]

end

end Reader

end ChargingPile
