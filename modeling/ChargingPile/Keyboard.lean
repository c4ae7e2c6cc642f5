import Mathlib.Data.List.FinRange
import Mathlib.Data.List.Perm.Basic
import Mathlib.Logic.Function.Basic
import ChargingPile.Lib.Machine
import ChargingPile.UserInput

/-!
# Debouncing the keyboard

The touch driver (`devices/ttp229.cxx`) delivers key codes from 0 to 15, where 0 is no key. At
every tick `Keyboard` (`components/keyboard.cxx`) writes the last one into a ring of eight samples,
counts the codes of the ring in a histogram and reports the most frequent one if it is a key and
occurs at least six times. The histogram is cleared at the end of a tick but not before the first
one, so the results are about the ticks after the first.
-/

namespace ChargingPile

/-! ## The driver -/

namespace Ttp229

/-- The loop that makes a key code of the 16 bits read: the first bit that is alone. -/
def keyCode (val : UInt16) : Nat :=
  match (List.range 16).find? fun i => val.toNat = 1 <<< i with
  | some i => i + 1
  | none => 0

/-- The bit 15 alone is left out, so the codes are below 16. -/
theorem keyCode_lt {val : UInt16} (h : val ≠ 0x8000) : keyCode val < 16 := by
  unfold keyCode
  split
  next i hi =>
    have hval : val.toNat = 1 <<< i := by simpa using List.find?_some hi
    have hlt : i < 16 := List.mem_range.mp (List.mem_of_find?_eq_some hi)
    have hne : i ≠ 15 := by
      rintro rfl
      exact h (UInt16.toNat_inj.mp hval)
    omega
  · decide

/-- What the driver delivers after it has read 16 bits. -/
def onData (val : UInt16) : Option (Fin 16) :=
  if h : val ≠ 0x8000 then some ⟨keyCode val, keyCode_lt h⟩ else none

/-- Every code is delivered. -/
theorem exists_onData : ∀ code : Fin 16, ∃ val, onData val = some code := by
  have hcodes : ∀ code : Fin 16,
      onData (if code = 0 then 0 else .ofNat (1 <<< (code.val - 1))) = some code := by decide
  exact fun code => ⟨_, hcodes code⟩

end Ttp229

/-! ## The keyboard -/

/-- The values of `Keyboard::Keys`. -/
def Keys.code : Keys → Fin 16
  | .k1 => 15 | .k2 => 14 | .k3 => 13
  | .k4 => 10 | .k5 => 11 | .k6 => 12
  | .k7 => 9 | .k8 => 4 | .k9 => 5
  | .ret => 6 | .k0 => 7 | .ok => 8

/-- `Keyboard`, without the key map that `Keyboard.keyToNumber` reads. -/
structure Keyboard where
  value : Option Keys
  currData : Fin 16
  data : Fin 8 → Fin 16
  i : Fin 8
  hist : Fin 16 → UInt8

namespace Keyboard

/-- A new keyboard, with what the histogram happens to hold. -/
def boot (hist : Fin 16 → UInt8) : Keyboard :=
  { value := none, currData := 0, data := fun _ => 0, i := 0, hist }

/-- `Keyboard::values`. -/
def values : List Keys := [.k1, .k2, .k3, .k4, .k5, .k6, .k7, .k8, .k9, .ret, .k0, .ok]

/-- `Keyboard::validThr`. -/
def validThr : UInt8 := 6

/-- `++hist[d]`. -/
def count (hist : Fin 16 → UInt8) (d : Fin 16) : Fin 16 → UInt8 :=
  Function.update hist d (hist d + 1)

/-- `std::max_element`: the index of the first of the largest elements. -/
def maxElement (hist : Fin 16 → UInt8) : Fin 16 :=
  (List.finRange 16).foldl (fun largest i => if hist largest < hist i then i else largest) 0

/-- The assignment of an `Observable`, with the value that `onChanged` is called with. -/
def assign (k : Keyboard) (newVal : Option Keys) : Keyboard × List (Option Keys) :=
  if k.value = newVal then (k, []) else ({ k with value := newVal }, [newVal])

/-- The end of `timer.onRun`, which reports the most frequent code if it is a key or 0. -/
def report (k : Keyboard) (mode : Fin 16) : Keyboard × List (Option Keys) :=
  if mode = 0 then k.assign none
  else
    match values.find? fun key => key.code = mode with
    | some key => k.assign (some key)
    | none => (k, [])

/-- `timer.onRun`, where `now` is what `rt_tick_get` returns. -/
def onRun (k : Keyboard) (now : UInt32) : Keyboard × List (Option Keys) :=
  let i := k.i + 1
  let data := Function.update k.data i k.currData
  let hist := (List.finRange 8).foldl (fun hist j => count hist (data j)) k.hist
  let mode := maxElement hist
  let cnt := hist mode
  let k := { k with i, data, hist := fun _ => 0 }
  if cnt < validThr ∨ now < 2000 then (k, []) else k.report mode

/-- What happens to a keyboard. -/
inductive Event
  | onData (d : Fin 16)
  | tick (now : UInt32)
deriving DecidableEq, Repr

/-- A keyboard and the changes it reports. -/
def machine : Machine Keyboard Event (Option Keys) where
  step k
    | .onData d => ({ k with currData := d }, [])
    | .tick now => k.onRun now

/-! ## The histogram -/

section Histogram

variable {hist : Fin 16 → UInt8}

/-- The loop over the ring counts every code. -/
theorem foldl_count (l : List (Fin 16)) (hist : Fin 16 → UInt8) (c : Fin 16) :
    l.foldl count hist c = hist c + .ofNat (l.count c) := by
  induction l generalizing hist with
  | nil => simp
  | cons d l ih =>
    rw [List.foldl_cons, ih, List.count_cons, count]
    by_cases hd : d = c
    · rw [hd, Function.update_self, beq_self_eq_true, if_pos rfl, Nat.add_comm, UInt8.ofNat_add,
        UInt8.add_assoc]
      rfl
    · rw [Function.update_of_ne (Ne.symm hd), if_neg (by simpa using hd), Nat.add_zero]

/-- No element is larger than the one that is found. -/
theorem le_maxElement (hist : Fin 16 → UInt8) (c : Fin 16) : hist c ≤ hist (maxElement hist) := by
  -- the induction is on the elements looked at so far
  have hloop (l : List (Fin 16)) (largest : Fin 16) :
      hist largest ≤ hist (l.foldl (fun m i => if hist m < hist i then i else m) largest) ∧
      ∀ c ∈ l, hist c ≤ hist (l.foldl (fun m i => if hist m < hist i then i else m) largest) := by
    induction l generalizing largest with
    | nil => exact ⟨UInt8.le_refl _, fun c hc => absurd hc List.not_mem_nil⟩
    | cons i l ih =>
      obtain ⟨hle, hall⟩ := ih (if hist largest < hist i then i else largest)
      have hlargest : hist largest ≤ hist (if hist largest < hist i then i else largest) := by
        split
        next hlt => exact UInt8.le_of_lt hlt
        next => exact UInt8.le_refl _
      have hi : hist i ≤ hist (if hist largest < hist i then i else largest) := by
        split
        next => exact UInt8.le_refl _
        next hlt => exact UInt8.not_lt.mp hlt
      refine ⟨UInt8.le_trans hlargest hle, fun c hc => ?_⟩
      obtain rfl | hc := List.mem_cons.mp hc
      · exact UInt8.le_trans hi hle
      · exact hall c hc
  exact (hloop (List.finRange 16) 0).2 c (List.mem_finRange c)

end Histogram

/-! ## The last eight samples -/

/-- The code delivered last and the samples taken so far, the newest first. -/
def sampled (es : List Event) : Fin 16 × List (Fin 16) :=
  es.foldl (fun (d, samples) e =>
    match e with
    | .onData d => (d, samples)
    | .tick _ => (d, d :: samples)) (0, [])

/-- The last eight samples, the newest first; those before the first tick are 0. -/
def lastEight (es : List Event) : List (Fin 16) :=
  (List.finRange 8).map fun j : Fin 8 => (sampled es).2.getD j.val 0

/-- The keyboard after the events `es`: the ring holds the last eight samples, from the index `i`
backwards, and the histogram is clear after a tick. -/
structure Holds (es : List Event) (k : Keyboard) : Prop where
  currData : k.currData = (sampled es).1
  data : ∀ j : Fin 8, k.data (k.i - j) = (sampled es).2.getD j.val 0
  hist : ∀ now, .tick now ∈ es → k.hist = fun _ => 0

section Ring

variable {es : List Event} {k : Keyboard}

theorem ring_zero : ∀ i : Fin 8, i - 0 = i := by decide

/-- The ring one step further. -/
theorem ring_succ : ∀ i j : Fin 8, j ≠ 0 →
    i + 1 - j = i - (j - 1) ∧ i + 1 - j ≠ i + 1 ∧ j.val = (j - 1).val + 1 := by decide

/-- Going backwards from any index passes through the whole ring. -/
theorem ring_perm : ∀ i : Fin 8, ((List.finRange 8).map (i - ·)).Perm (List.finRange 8) := by
  decide

/-- The newest sample is written over the oldest one. -/
theorem Holds.data_succ (h : Holds es k) (now : UInt32) (j : Fin 8) :
    Function.update k.data (k.i + 1) k.currData (k.i + 1 - j) =
      (sampled (es ++ [Event.tick now])).2.getD j.val 0 := by
  have hsampled : (sampled (es ++ [Event.tick now])).2 = (sampled es).1 :: (sampled es).2 := by
    rw [sampled, List.foldl_append]
    rfl
  rw [hsampled]
  obtain rfl | hj := eq_or_ne j 0
  · rw [ring_zero, Function.update_self, h.currData]
    rfl
  · obtain ⟨hsub, hne, hval⟩ := ring_succ k.i j hj
    rw [Function.update_of_ne hne, hsub, h.data, hval, List.getD_cons_succ]

/-- So the ring holds the last eight samples, in some order. -/
theorem Holds.perm (h : Holds es k) (now : UInt32) :
    ((List.finRange 8).map (Function.update k.data (k.i + 1) k.currData)).Perm
      (lastEight (es ++ [Event.tick now])) := by
  have hring := (ring_perm (k.i + 1)).map (Function.update k.data (k.i + 1) k.currData)
  rw [List.map_map] at hring
  refine hring.symm.trans (.of_eq ?_)
  exact List.map_congr_left fun j _ => h.data_succ now j

/-- After a tick the histogram counts the last eight samples. -/
theorem Holds.hist_eq (h : Holds es k) {t : UInt32} (ht : .tick t ∈ es) (now : UInt32)
    (c : Fin 16) :
    ((List.finRange 8).foldl
      (fun hist j => count hist (Function.update k.data (k.i + 1) k.currData j)) k.hist c).toNat =
      (lastEight (es ++ [Event.tick now])).count c := by
  have hle : (lastEight (es ++ [Event.tick now])).count c ≤ 8 :=
    List.count_le_length.trans (by rw [lastEight, List.length_map, List.length_finRange])
  rw [← List.foldl_map (f := Function.update k.data (k.i + 1) k.currData) (g := count),
    foldl_count, (h.perm now).count_eq, h.hist t ht, UInt8.zero_add,
    UInt8.toNat_ofNat_of_lt' (Nat.lt_of_le_of_lt hle (by decide))]

end Ring

/-! ## What a tick reports -/

section Report

variable {k : Keyboard}

/-- The code of what is reported: 0 if there is no key. -/
def reportCode : Option Keys → Fin 16
  | none => 0
  | some key => key.code

theorem code_ne_zero (key : Keys) : key.code ≠ 0 := by
  cases key <;> decide

/-- The key of a code. -/
theorem find_values (key : Keys) : values.find? (fun key' => key'.code = key.code) = some key := by
  cases key <;> decide

@[simp] theorem assign_value (k : Keyboard) (v : Option Keys) : (k.assign v).1.value = v := by
  unfold assign
  split
  next h => exact h
  next => rfl

/-- A code is reported if it is the code of a report. -/
theorem report_cases (k : Keyboard) (mode : Fin 16) :
    (∃ v, reportCode v = mode ∧ k.report mode = k.assign v) ∨
    (∀ v, reportCode v ≠ mode) ∧ k.report mode = (k, []) := by
  unfold report
  split
  next h => exact .inl ⟨none, h.symm, rfl⟩
  next h =>
    split
    next key hkey =>
      have hcode : key.code = mode := by simpa using List.find?_some hkey
      exact .inl ⟨some key, hcode, rfl⟩
    next hnone =>
      refine .inr ⟨fun v hv => ?_, rfl⟩
      cases v with
      | none => exact h hv.symm
      | some key =>
        rw [← hv] at hnone
        exact Option.some_ne_none key ((find_values key).symm.trans hnone)

theorem reportCode_inj {v v' : Option Keys} (h : reportCode v = reportCode v') : v = v' := by
  cases v with
  | none =>
    cases v' with
    | none => rfl
    | some key => exact absurd h.symm (code_ne_zero key)
  | some key =>
    cases v' with
    | none => exact absurd h (code_ne_zero key)
    | some key' =>
      have h' : key.code = key'.code := h
      rw [← find_values key, h', find_values key']

end Report

section Tick

variable {es : List Event} {k : Keyboard}

/-- The keyboard in which a tick has written its sample. -/
def written (k : Keyboard) : Keyboard :=
  { k with i := k.i + 1, data := Function.update k.data (k.i + 1) k.currData, hist := fun _ => 0 }

/-- A tick writes its sample and changes nothing else but the value. -/
theorem onRun_written (k : Keyboard) (now : UInt32) :
    ∃ v, (k.onRun now).1 = { k.written with value := v } := by
  have hassign (k : Keyboard) (v : Option Keys) : (k.assign v).1 = { k with value := v } := by
    unfold assign
    split
    next h => rw [← h]
    next => rfl
  unfold onRun
  dsimp only
  split
  · exact ⟨k.value, rfl⟩
  · obtain ⟨v, -, h⟩ | ⟨-, h⟩ := k.written.report_cases (maxElement ((List.finRange 8).foldl
      (fun hist j => count hist (Function.update k.data (k.i + 1) k.currData j)) k.hist))
    · exact ⟨v, (congrArg Prod.fst h).trans (hassign _ v)⟩
    · exact ⟨k.value, congrArg Prod.fst h⟩

/-- What one event keeps. -/
theorem Holds.step (h : Holds es k) (e : Event) : Holds (es ++ [e]) (machine.step k e).1 := by
  have hsampled : sampled (es ++ [e]) = match e with
      | .onData d => (d, (sampled es).2)
      | .tick _ => ((sampled es).1, (sampled es).1 :: (sampled es).2) := by
    rw [sampled, List.foldl_append]
    cases e <;> rfl
  cases e with
  | onData d =>
    refine ⟨by rw [hsampled]; rfl, by rw [hsampled]; exact h.data, fun now hnow => ?_⟩
    exact h.hist now (by simpa using hnow)
  | tick now =>
    obtain ⟨v, hv⟩ := k.onRun_written now
    change Holds (es ++ [Event.tick now]) (k.onRun now).1
    rw [hv]
    exact ⟨by rw [hsampled]; exact h.currData, h.data_succ now, fun _ _ => rfl⟩

/-- What a run keeps. -/
theorem holds_run (hist : Fin 16 → UInt8) (es : List Event) :
    Holds es (machine.run (boot hist) es) :=
  Machine.history_inv ⟨rfl, fun _ => rfl, fun _ hnow => absurd hnow List.not_mem_nil⟩
    (fun _ e h => h.step e) es

/-- What a tick after the first reports: `mode` is the most frequent of the last eight samples. -/
theorem Holds.onRun_eq (h : Holds es k) {t : UInt32} (ht : .tick t ∈ es) (now : UInt32) :
    ∃ mode, (∀ c, (lastEight (es ++ [Event.tick now])).count c ≤
        (lastEight (es ++ [Event.tick now])).count mode) ∧
      k.onRun now = if (lastEight (es ++ [Event.tick now])).count mode < 6 ∨
        now < 2000 then (k.written, []) else k.written.report mode := by
  refine ⟨maxElement ((List.finRange 8).foldl (fun hist j =>
    count hist (Function.update k.data (k.i + 1) k.currData j)) k.hist), fun c => ?_, ?_⟩
  · rw [← h.hist_eq ht now, ← h.hist_eq ht now]
    exact le_maxElement _ c
  · rw [← h.hist_eq ht now]
    rfl

end Tick

/-- At every tick after the first, whatever the histogram held: the report changes only to what at
least six of the last eight samples show, and from the system tick 2000 on, if all eight show the
same key or none, that is what is reported. -/
theorem debounced (hist : Fin 16 → UInt8) (es : List Event) (t now : UInt32) (ht : .tick t ∈ es) :
    ((machine.run (boot hist) (es ++ [Event.tick now])).value ≠
      (machine.run (boot hist) es).value →
      6 ≤ (lastEight (es ++ [Event.tick now])).count
        (reportCode (machine.run (boot hist) (es ++ [Event.tick now])).value)) ∧
    (2000 ≤ now → ∀ v, (∀ d ∈ lastEight (es ++ [Event.tick now]), d = reportCode v) →
      (machine.run (boot hist) (es ++ [Event.tick now])).value = v) := by
  obtain ⟨mode, hmode, hrun⟩ := (holds_run hist es).onRun_eq ht now
  have hvalue : (machine.run (boot hist) (es ++ [Event.tick now])).value =
      ((machine.run (boot hist) es).onRun now).1.value :=
    congrArg Keyboard.value (Machine.run_concat es (.tick now))
  rw [hvalue, hrun]
  constructor
  · split
    next => exact fun hne => absurd rfl hne
    next hgo =>
      obtain ⟨v, hv, hreport⟩ | ⟨-, hreport⟩ :=
        report_cases (machine.run (boot hist) es).written mode
      · rw [hreport, assign_value, hv]
        omega
      · rw [hreport]
        exact fun hne => absurd rfl hne
  · intro hnow v hall
    have hcount : (lastEight (es ++ [Event.tick now])).count (reportCode v) = 8 := by
      rw [List.count_eq_length.mpr fun d hd => (hall d hd).symm, lastEight, List.length_map,
        List.length_finRange]
    have hmodeCount := hmode (reportCode v)
    -- the most frequent sample is one of the eight
    have hcode : mode = reportCode v := hall mode (List.count_pos_iff.mp (by omega))
    have hgo : ¬ ((lastEight (es ++ [Event.tick now])).count mode < 6 ∨ now < 2000) := by
      rintro (hlt | hlt)
      · omega
      · exact UInt32.not_lt.mpr hnow hlt
    rw [if_neg hgo]
    obtain ⟨v', hv', hreport⟩ | ⟨hnone, -⟩ :=
      report_cases (machine.run (boot hist) es).written mode
    · rw [hreport, assign_value]
      exact reportCode_inj (hv'.trans hcode)
    · exact absurd hcode.symm (hnone v)

/-- A key that is held for eight ticks from the system tick 2000 on is reported, although the
histogram held something at the first of them. -/
theorem debounced_held :
    (machine.run (boot fun _ => 200)
      ([Event.onData 15, .tick 2000, .tick 2050, .tick 2100, .tick 2150, .tick 2200, .tick 2250,
        .tick 2300] ++ [Event.tick 2350])).value = some .k1 :=
  (debounced (fun _ => 200) _ 2000 2350 (by decide)).2 (by decide) (some .k1) (by decide)

end Keyboard

end ChargingPile
