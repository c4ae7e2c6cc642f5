import ChargingPile.Ota.Integrity
import ChargingPile.Ota.Resume
import Mathlib.Algebra.GroupWithZero.Nat

/-!
# Progress and checkpoints

A download counts the bytes it has passed, and `updateProgress` makes a checkpoint of the count.
`Ledger` is the bookkeeping that both ends do: a chunk is stored, it is
owed to the module until the module advances, and `count` is what has been stored in all. Each step
of either end is a move of its ledger (`Upper.step_move`, `Lower.step_moment`), where the upper end
stores a chunk with a write and the lower end with an acknowledgement. What follows for the
checkpoints (`checkpoints_fresh`) is shown for the moves.
-/

namespace ChargingPile.Ota

variable {V : Type}

/-! ## The ledger of a download -/

/-- The output is a report of progress. -/
def Output.isProgress : Output V → Bool
  | .progress _ _ => true
  | _ => false

theorem Output.progress_not_mem {out : List (Output V)} (h : ∀ o ∈ out, o.isProgress = false)
    (pos : Nat) (value : Option Int) : .progress pos value ∉ out := by
  intro hmem
  cases h _ hmem

/-- The storage, the module if its download is under way, the length of the chunk that is stored
but not passed yet, and the number of bytes stored. -/
structure Ledger (V : Type) where
  spec : Option (ModuleSpec V)
  mod : Option (OtaModule V)
  owed : Nat
  count : Nat

/-- What a step does to the ledger, with what it emits. -/
inductive Move (l : Ledger V) : Ledger V → List (Output V) → Prop
  | keep (out : List (Output V)) (hout : ∀ o ∈ out, o.isProgress = false) : Move l l out
  | close (l' : Ledger V) (hmod : l'.mod = none) (out : List (Output V))
      (hout : ∀ o ∈ out, o.isProgress = false) : Move l l' out
  | seek (m : OtaModule V) (hm : l.mod = some m) (streamPos : Nat) :
      Move l { l with mod := some { m with streamPos := streamPos } } []
  | store (n : Nat) (hn : l.owed = 0) (out : List (Output V))
      (hout : ∀ o ∈ out, o.isProgress = false) :
      Move l { l with owed := n, count := l.count + n } out
  | advance (m : OtaModule V) (hm : l.mod = some m) :
      Move l ⟨(m.advance l.spec l.owed).spec, some (m.advance l.spec l.owed).mod, 0, l.count⟩
        (m.advance l.spec l.owed).outputs

/-- A module on its way from `offset` on: the checkpoint made last, or else the one the download
began at, is what the storage holds. -/
structure Checkpointed [DecidableEq V] (v : V) (offset : Nat) (spec : Option (ModuleSpec V))
    (m : OtaModule V) : Prop where
  version : m.version = v
  dvd : kCheckSize ∣ m.lastProgress
  le : m.lastProgress ≤ m.currPos
  base : offset ≤ m.currPos
  stored : getLastOffset spec v = max offset m.lastProgress

/-- The checkpoint made last, when `n` bytes are stored: a multiple of `kCheckSize` that is not
above them and trails them by less than `kCheckSize`, and the one in the storage. -/
structure Fresh [DecidableEq V] (v : V) (spec : Option (ModuleSpec V)) (m : OtaModule V)
    (n : Nat) : Prop where
  dvd : kCheckSize ∣ m.lastProgress
  le : m.lastProgress ≤ n
  trails : n < m.lastProgress + kCheckSize
  stored : getLastOffset spec v = m.lastProgress

/-- Multiples of `kCheckSize` that are less than `kCheckSize` apart. -/
theorem le_of_kCheckSize_dvd {a b : Nat} (ha : kCheckSize ∣ a) (hb : kCheckSize ∣ b)
    (h : a < b + kCheckSize) : a ≤ b := by
  obtain ⟨i, rfl⟩ := ha
  obtain ⟨j, rfl⟩ := hb
  unfold kCheckSize at *
  omega

section
variable [DecidableEq V] {v : V} {offset : Nat} {spec : Option (ModuleSpec V)} {m : OtaModule V}

/-- An update of the progress. -/
theorem Checkpointed.advance (h : Checkpointed v offset spec m) (hdvd : kCheckSize ∣ offset)
    (n : Nat) :
    Checkpointed v offset (m.advance spec n).spec (m.advance spec n).mod ∧
      Fresh v (m.advance spec n).spec (m.advance spec n).mod (m.currPos + n) ∧
      m.lastProgress ≤ (m.advance spec n).mod.lastProgress := by
  obtain ⟨hversion, hd, hle, hbase, hstored⟩ := h
  have hbase' : offset ≤ m.currPos + n := Nat.le_add_right_of_le hbase
  have hle' : m.lastProgress ≤ m.currPos + n := Nat.le_add_right_of_le hle
  unfold OtaModule.advance updateProgress
  dsimp only
  split
  next hfar =>
    have hsaved : m.currPos + n < m.currPos + n - (m.currPos + n) % kCheckSize + kCheckSize := by
      have := Nat.mod_lt (m.currPos + n) (show 0 < kCheckSize by decide)
      omega
    have hoffset := le_of_kCheckSize_dvd hdvd (Nat.dvd_sub_mod (m.currPos + n))
      (Nat.lt_of_le_of_lt hbase' hsaved)
    have hmono : m.lastProgress ≤ m.currPos + n - (m.currPos + n) % kCheckSize := by omega
    have hspec : getLastOffset (some ⟨m.version, m.currPos + n - (m.currPos + n) % kCheckSize⟩) v =
        m.currPos + n - (m.currPos + n) % kCheckSize := by
      rw [hversion, getLastOffset_self]
    refine ⟨⟨hversion, Nat.dvd_sub_mod _, Nat.sub_le _ _, hbase', ?_⟩,
      ⟨Nat.dvd_sub_mod _, Nat.sub_le _ _, hsaved, hspec⟩, hmono⟩
    rw [hspec, Nat.max_eq_right hoffset]
  next hnear =>
    have htrails : m.currPos + n < m.lastProgress + kCheckSize := by omega
    have hoffset := le_of_kCheckSize_dvd hdvd hd (Nat.lt_of_le_of_lt hbase' htrails)
    refine ⟨⟨hversion, hd, hle', hbase', hstored⟩, ⟨hd, hle', htrails, ?_⟩, Nat.le_refl _⟩
    rw [hstored, Nat.max_eq_right hoffset]

/-- The module is on its way, and its position is what is stored, less what is owed to it. -/
def Ledger.Sound (v : V) (offset : Nat) (l : Ledger V) : Prop :=
  ∀ m, l.mod = some m → Checkpointed v offset l.spec m ∧ m.currPos + l.owed = offset + l.count

variable {l l' : Ledger V} {out : List (Output V)}

/-- A move keeps the ledger in order, a report of progress comes with a fresh checkpoint, and no
move takes the checkpoint back. -/
theorem Move.sound (h : Move l l' out) (hl : l.Sound v offset) (hdvd : kCheckSize ∣ offset) :
    l'.Sound v offset ∧
      (∀ pos value, .progress pos value ∈ out →
        ∃ m, l'.mod = some m ∧ Fresh v l'.spec m (offset + l.count)) ∧
      ∀ m m', l.mod = some m → l'.mod = some m' → m.lastProgress ≤ m'.lastProgress := by
  have hquiet : (∀ o ∈ out, o.isProgress = false) → ∀ pos value, .progress pos value ∈ out →
      ∃ m, l'.mod = some m ∧ Fresh v l'.spec m (offset + l.count) := by
    intro hout pos value hmem
    exact absurd hmem (Output.progress_not_mem hout pos value)
  cases h with
  | keep _ hout =>
    refine ⟨hl, hquiet hout, ?_⟩
    intro m m' hm hm'
    exact Nat.le_of_eq (congrArg (·.lastProgress) (Option.some.inj (hm.symm.trans hm')))
  | close _ hmod _ hout =>
    refine ⟨?_, hquiet hout, ?_⟩
    · intro m hm
      cases hmod.symm.trans hm
    · intro m m' _ hm'
      cases hmod.symm.trans hm'
  | seek m hm streamPos =>
    obtain ⟨hc, hpos⟩ := hl m hm
    refine ⟨?_, hquiet (List.forall_mem_nil _), ?_⟩
    · rintro _ ⟨rfl⟩
      exact ⟨⟨hc.version, hc.dvd, hc.le, hc.base, hc.stored⟩, hpos⟩
    · rintro m₁ _ hm₁ ⟨rfl⟩
      exact Nat.le_of_eq (congrArg (·.lastProgress) (Option.some.inj (hm₁.symm.trans hm)))
  | store n hn _ hout =>
    refine ⟨?_, hquiet hout, ?_⟩
    · intro m hm
      obtain ⟨hc, hpos⟩ := hl m hm
      refine ⟨hc, ?_⟩
      dsimp only
      omega
    · intro m m' hm hm'
      exact Nat.le_of_eq (congrArg (·.lastProgress) (Option.some.inj (hm.symm.trans hm')))
  | advance m hm =>
    obtain ⟨hc, hpos⟩ := hl m hm
    obtain ⟨hc', hfresh, hmono⟩ := hc.advance hdvd l.owed
    obtain ⟨p, hmod⟩ := advance_mod l.spec m l.owed
    rw [hpos] at hfresh
    refine ⟨?_, fun _ _ _ => ⟨_, rfl, hfresh⟩, ?_⟩
    · rintro _ ⟨rfl⟩
      refine ⟨hc', ?_⟩
      rw [hmod]
      exact hpos
    · rintro m₁ _ hm₁ ⟨rfl⟩
      rw [Option.some.inj (hm₁.symm.trans hm)]
      exact hmono

/-- The ledger of a module that has just been started. -/
theorem Ledger.sound_start {version : V} {size : Int} {currVer : Option V} {m : OtaModule V}
    (h : Ota.start spec version size currVer = some m) :
    Ledger.Sound version (getLastOffset spec version) ⟨spec, some m, 0, 0⟩ := by
  rintro _ ⟨rfl⟩
  obtain rfl := start_eq_some h
  exact ⟨⟨rfl, Nat.dvd_zero _, Nat.zero_le _, Nat.le_refl _, (Nat.max_zero _).symm⟩, rfl⟩

end

/-! ## The upper end -/

namespace Upper

/-- The event is not a start of a download. -/
def Event.GoesOn : Event V → Prop
  | .start _ _ _ => False
  | _ => True

/-- The chunk that was written and not passed yet. -/
def Pc.owed : Pc V → Nat
  | .written _ recvedLen _ => recvedLen
  | _ => 0

end Upper

/-- The bytes of a call of `fal_partition_write`. -/
def Output.written : Output V → Nat
  | .wrote _ len _ => len
  | _ => 0

/-- The bytes that a run has written. -/
def written (tr : List (Output V)) : Nat := (tr.map Output.written).sum

@[simp] theorem written_append (tr out : List (Output V)) :
    written (tr ++ out) = written tr + written out := by
  simp [written]

/-- An update of the progress writes nothing. -/
theorem written_advance (spec : Option (ModuleSpec V)) (m : OtaModule V) (n : Nat) :
    written (m.advance spec n).outputs = 0 := by
  obtain ⟨saved, hsaved, hout⟩ := advance_outputs spec m n
  rw [hout]
  rcases hsaved with rfl | ⟨o, rfl⟩ <;> rfl

namespace Upper

/-- The ledger of the upper end, after the outputs `tr` of the run. -/
def ledger (tr : List (Output V)) (t : Upper V) : Ledger V :=
  ⟨t.spec, t.pc.mod, t.pc.owed, Ota.written tr⟩

section
variable [DecidableEq V] {t : Upper V} {e : Event V}

/-- Each step of the upper end is a move of its ledger. -/
theorem step_move (image : V → Image) (tr : List (Output V)) (he : e.GoesOn) :
    Move (t.ledger tr) ((step image t e).1.ledger (tr ++ (step image t e).2))
      (step image t e).2 := by
  obtain ⟨bytes, spec, last, pc⟩ := t
  have hsame : Move (ledger tr ⟨bytes, spec, last, pc⟩)
      (ledger (tr ++ []) ⟨bytes, spec, last, pc⟩) [] := by
    rw [List.append_nil]
    exact .keep [] (List.forall_mem_nil _)
  cases e with
  | start => exact he.elim
  | noPartition =>
    cases pc with
    | erasing m => exact .close _ rfl _ (by simp [step, Output.isProgress])
    | _ => exact hsame
  | erase fault =>
    cases pc with
    | erasing m =>
      cases fault with
      | none =>
        simp only [step, ledger, written_append]
        exact .keep _ (by simp [Output.isProgress])
      | some junk => exact .close _ rfl _ (by simp [step, Output.isProgress])
    | _ => exact hsame
  | fetch n =>
    cases pc with
    | fetching m =>
      simp only [step]
      split
      · refine .close _ rfl _ ?_
        simp only [List.forall_mem_singleton, OtaModule.finish]
        split <;> rfl
      · rw [List.append_nil]
        exact .seek m rfl _
    | _ => exact hsame
  | raise =>
    cases pc with
    | fetching m =>
      simp only [step, List.append_nil]
      exact .seek m rfl m.currPos
    | _ => exact hsame
  | seekFails =>
    cases pc with
    | fetching m => exact .close _ rfl _ (by simp [step, Output.isProgress])
    | _ => exact hsame
  | write fault =>
    cases pc with
    | writing m buf =>
      have hstore : ∀ ok, Move (ledger tr ⟨bytes, spec, last, .writing m buf⟩)
          ⟨spec, some m, buf.length, Ota.written (tr ++ [Output.wrote m.currPos buf.length ok])⟩
          [.wrote m.currPos buf.length ok] := by
        intro ok
        rw [written_append]
        exact .store buf.length rfl _ (by simp [Output.isProgress])
      cases fault <;> exact hstore _
    | _ => exact hsame
  | advance =>
    cases pc with
    | written m n ok =>
      simp only [step, ledger, written_append, written_advance]
      exact .advance m rfl
    | _ => exact hsame
  | powerFails junk => exact .close _ rfl _ (List.forall_mem_nil _)

/-- The first step of a run of the upper end: nothing is started, or a fresh module. -/
theorem step_start (image : V → Image) (hpc : t.pc = .idle) (version : V) (size : Int)
    (currVer : Option V) :
    (step image t (.start version size currVer)).2 = [] ∧
      (((step image t (.start version size currVer)).1.ledger []).mod = none ∨
        ∃ m, Ota.start t.spec version size currVer = some m ∧
          (step image t (.start version size currVer)).1.ledger [] = ⟨t.spec, some m, 0, 0⟩) := by
  cases hs : Ota.start t.spec version size currVer with
  | none =>
    simp only [step, hs, hpc]
    exact ⟨trivial, .inl (by simp [ledger, hpc, Pc.mod])⟩
  | some m =>
    simp only [step, hs, hpc]
    exact ⟨trivial, .inr ⟨m, rfl, rfl⟩⟩

end

end Upper

/-! ## The lower end -/

/-- The `Write` calls so far, as number and length of the chunk, and the bytes that were
acknowledged. -/
structure Acks where
  calls : List (Nat × Nat) := []
  bytes : Nat := 0

/-- How an output changes what was acknowledged. -/
def Output.ack (a : Acks) : Output V → Acks
  | .invoked id _ len => { a with calls := (id, len) :: a.calls }
  | .acknowledged id => { a with bytes := a.bytes + (a.calls.lookup id).getD 0 }
  | _ => a

/-- What was acknowledged in a run. -/
def acks (tr : List (Output V)) : Acks := tr.foldl Output.ack {}

@[simp] theorem acks_append (tr out : List (Output V)) :
    acks (tr ++ out) = out.foldl Output.ack (acks tr) :=
  List.foldl_append

/-- An update of the progress acknowledges nothing. -/
@[simp] theorem foldl_ack_advance (spec : Option (ModuleSpec V)) (m : OtaModule V) (n : Nat)
    (a : Acks) : (m.advance spec n).outputs.foldl Output.ack a = a := by
  obtain ⟨saved, hsaved, hout⟩ := advance_outputs spec m n
  rw [hout]
  rcases hsaved with rfl | ⟨o, rfl⟩ <;> rfl

/-- Neither does the end of the stream, which reports no progress either. -/
theorem finish_quiet (m : OtaModule V) (a : Acks) :
    m.finish.ack a = a ∧ m.finish.isProgress = false := by
  unfold OtaModule.finish
  split <;> exact ⟨rfl, rfl⟩

namespace Lower

/-- The event is not a start of a download. -/
def Event.GoesOn : Event V → Prop
  | .start _ _ _ => False
  | _ => True

/-- The chunk that was acknowledged and not passed yet. Before the first chunk nothing is owed with
the answer to the erase. -/
def owed (t : Lower V) : Nat :=
  match t.mod, t.tasks with
  | some m, [(_, true)] => m.recvedLen
  | _, _ => 0

/-- The ledger of the upper end for the lower module, after the outputs `tr` of the run. -/
def ledger (tr : List (Output V)) (t : Lower V) : Ledger V :=
  ⟨t.spec, t.mod.map (·.toOtaModule), t.owed, (acks tr).bytes⟩

/-- The moments of a run, after its outputs `tr`. -/
inductive Moment (tr : List (Output V)) (t : Lower V) : Prop
  | closed (hm : t.mod = none) (hp : t.pendings = [])
  | starting (m : OtaLowerModule V) (hc : At t (some m) .starting [] []) (hlen : m.recvedLen = 0)
  | erasing (m : OtaLowerModule V) (id : UInt8) (n : Nat)
      (hc : At t (some m) .idle [⟨id, n, .erase⟩] []) (hlen : m.recvedLen = 0)
  | erased (m : OtaLowerModule V) (ok : Bool) (hc : At t (some m) .idle [] [(.erase, ok)])
      (hlen : m.recvedLen = 0)
  | fetching (m : OtaLowerModule V) (hc : At t (some m) .fetching [] [])
  | sending (m : OtaLowerModule V) (hc : At t (some m) .sending [] [])
      (hlen : m.buf.length = m.recvedLen)
  | writing (m : OtaLowerModule V) (id : UInt8) (n : Nat)
      (hc : At t (some m) .idle [⟨id, n, .write⟩] []) (hlen : m.buf.length = m.recvedLen)
      (hcall : (acks tr).calls.lookup n = some m.recvedLen)
  | written (m : OtaLowerModule V) (ok : Bool) (hc : At t (some m) .idle [] [(.write, ok)])
      (hlen : m.buf.length = m.recvedLen)

section
variable {tr : List (Output V)} {t : Lower V} {m : OtaLowerModule V}

theorem Moment.close (tr : List (Output V)) (t : Lower V) : Moment tr t.close := .closed rfl rfl

/-- What the lower end and the link do, and what they emit, is nothing to the moment. -/
theorem Moment.frame (h : Moment tr t) {tr' : List (Output V)} (htr : acks tr' = acks tr)
    {bytes : Nat → UInt8} {curId : UInt8} {l : Link (UInt8 × Request) (UInt8 × Answer)} :
    Moment tr' { t with bytes := bytes, curId := curId, link := l } := by
  cases h with
  | closed hm hp => exact .closed hm hp
  | starting m hc hlen => exact .starting m hc.frame hlen
  | erasing m id n hc hlen => exact .erasing m id n hc.frame hlen
  | erased m ok hc hlen => exact .erased m ok hc.frame hlen
  | fetching m hc => exact .fetching m hc.frame
  | sending m hc hlen => exact .sending m hc.frame hlen
  | writing m id n hc hlen hcall => exact .writing m id n hc.frame hlen (htr ▸ hcall)
  | written m ok hc hlen => exact .written m ok hc.frame hlen

theorem At.ledger_nil {pc : Pc} {pendings : List Pending} (hc : At t (some m) pc pendings [])
    (tr : List (Output V)) :
    t.ledger tr = ⟨t.spec, some m.toOtaModule, 0, (acks tr).bytes⟩ := by
  simp [ledger, owed, hc.mod, hc.tasks]

theorem At.ledger_task {pc : Pc} {pendings : List Pending} {cb : Callback} {ok : Bool}
    (hc : At t (some m) pc pendings [(cb, ok)]) (tr : List (Output V)) :
    t.ledger tr = ⟨t.spec, some m.toOtaModule, if ok then m.recvedLen else 0,
      (acks tr).bytes⟩ := by
  cases ok <;> simp [ledger, owed, hc.mod, hc.tasks]

/-- A step leads to a moment of the run, by a move of the ledger. -/
structure Goes (tr : List (Output V)) (t : Lower V) (r : Lower V × List (Output V)) : Prop where
  moment : Moment (tr ++ r.2) r.1
  move : Move (t.ledger tr) (r.1.ledger (tr ++ r.2)) r.2

/-- What the lower end and the link do. -/
theorem Moment.goes_frame (h : Moment tr t) {out : List (Output V)}
    (hout : ∀ o ∈ out, o.isProgress = false) (hack : out.foldl Output.ack (acks tr) = acks tr)
    {bytes : Nat → UInt8} {curId : UInt8} {l : Link (UInt8 × Request) (UInt8 × Answer)} :
    Goes tr t ({ t with bytes := bytes, curId := curId, link := l }, out) := by
  have htr : acks (tr ++ out) = acks tr := by rw [acks_append, hack]
  have hledger : Lower.ledger (tr ++ out) { t with bytes := bytes, curId := curId, link := l } =
      t.ledger tr := by
    rw [ledger, htr]
    rfl
  exact ⟨h.frame htr, hledger ▸ .keep out hout⟩

theorem Moment.goes_same (h : Moment tr t) : Goes tr t (t, []) :=
  h.goes_frame (List.forall_mem_nil _) rfl

theorem goes_close (tr : List (Output V)) (t : Lower V) {out : List (Output V)}
    (hout : ∀ o ∈ out, o.isProgress = false) : Goes tr t (t.close, out) :=
  ⟨.close _ t, .close _ rfl out hout⟩

/-- The part of `cb` for a call that succeeded. -/
theorem goes_proceed {cb : Callback} (hc : At t (some m) .idle [] [(cb, true)]) :
    Goes tr t ({ t with tasks := [] }.proceed m) := by
  have hat : At ({ t with tasks := [] }.proceed m).1
      (some { m with toOtaModule := (m.advance t.spec m.recvedLen).mod }) .fetching [] [] :=
    ⟨rfl, rfl, hc.pendings, rfl⟩
  refine ⟨.fetching _ hat, ?_⟩
  rw [hat.ledger_nil, hc.ledger_task, acks_append]
  simp only [proceed, foldl_ack_advance, if_true]
  exact .advance m.toOtaModule rfl

/-- The callback of the only call is posted, and what the call has stored is owed to the module. -/
theorem goes_post {p : Pending} {ok : Bool} {out : List (Output V)}
    (hc : At t (some m) .idle [p] []) (l : Link (UInt8 × Request) (UInt8 × Answer))
    (hmoment : Moment (tr ++ out) (post { t with link := l } p ok))
    (hbytes : (acks (tr ++ out)).bytes = (acks tr).bytes + if ok then m.recvedLen else 0)
    (hout : ∀ o ∈ out, o.isProgress = false) :
    Goes tr t (post { t with link := l } p ok, out) := by
  have hat : At (post { t with link := l } p ok) (some m) .idle [] [(p.cb, ok)] :=
    At.post (t := { t with link := l }) hc.frame ok
  refine ⟨hmoment, ?_⟩
  rw [hc.ledger_nil, hat.ledger_task, hbytes]
  exact .store _ rfl out hout

/-- An answer is handed to the call with its id: only one to a chunk that reports success stores
something. -/
theorem Moment.goes_deliver (h : Moment tr t) (l : Link (UInt8 × Request) (UInt8 × Answer))
    (id : UInt8) (ok : Bool) : Goes tr t (deliver { t with link := l } id ok) := by
  simp only [deliver]
  split
  · exact h.goes_frame (List.forall_mem_nil _) rfl
  next p hp =>
  cases h with
  | closed hm hpend =>
    rw [hpend] at hp
    cases hp
  | erasing m id' n hc hlen =>
    obtain rfl := hc.onePending hp
    refine goes_post hc l (.erased m ok (At.post (t := { t with link := l }) hc.frame ok) hlen) ?_
      (by simp)
    simp [hlen]
  | writing m id' n hc hlen hcall =>
    obtain rfl := hc.onePending hp
    refine goes_post hc l (.written m ok (At.post (t := { t with link := l }) hc.frame ok) hlen) ?_
      ?_
    · cases ok <;> simp [Output.ack, hcall]
    · cases ok <;> simp [Output.isProgress]
  | _ => exact At.noPending (by assumption) hp

theorem Moment.of_fetching (h : Moment tr t) (hm : t.mod = some m) (hpc : t.pc = .fetching) :
    At t (some m) .fetching [] [] := by
  cases h with
  | fetching m' hc =>
    obtain rfl : m' = m := Option.some.inj (hc.mod.symm.trans hm)
    exact hc
  | closed hm' hp => cases hm.symm.trans hm'
  | _ => exact At.clash (by assumption) hpc (by decide)

theorem report_quiet (r : Request) (ok : Bool) (a : Acks) :
    (r.report ok : Output V).isProgress = false ∧ (r.report ok : Output V).ack a = a := by
  cases r <;> exact ⟨rfl, rfl⟩

/-- The stream moves. -/
theorem goes_seek {t' : Lower V} {m' : OtaLowerModule V} {pc pc' : Pc} {streamPos : Nat}
    (hc : At t (some m) pc [] []) (hc' : At t' (some m') pc' [] []) (hspec : t'.spec = t.spec)
    (hm : m'.toOtaModule = { m.toOtaModule with streamPos := streamPos }) (h : Moment tr t') :
    Goes tr t (t', []) := by
  refine ⟨by rwa [List.append_nil], ?_⟩
  rw [List.append_nil, hc.ledger_nil, hc'.ledger_nil, hspec, hm]
  exact .seek m.toOtaModule rfl streamPos

section
variable [DecidableEq V] {image : V → Image}

/-- The Low thread makes a remote call. -/
theorem goes_invoke (h : Moment tr t) (busy : Bool) : Goes tr t (step image t (.invoke busy)) := by
  simp only [step]
  split
  next m hm hpc =>
    cases h with
    | starting m' hc hlen =>
      obtain rfl : m' = m := Option.some.inj (hc.mod.symm.trans hm)
      have hat : At (t.call (.erase m'.size m'.offset) .erase) (some m') .idle
          [⟨t.curId, t.link.nextId, .erase⟩] [] :=
            ⟨hc.mod, rfl, by simp [call, hc.pendings], hc.tasks⟩
      cases busy with
      | true => exact goes_close tr t (by simp [Output.isProgress])
      | false =>
        refine ⟨.erasing m' _ _ hat hlen, ?_⟩
        simp only [Bool.false_eq_true, if_false, List.append_nil]
        rw [hc.ledger_nil, hat.ledger_nil]
        exact .keep [] (List.forall_mem_nil _)
    | closed hm' hp => cases hm.symm.trans hm'
    | _ => exact At.clash (by assumption) hpc (by decide)
  next m hm hpc =>
    cases h with
    | sending m' hc hlen =>
      obtain rfl : m' = m := Option.some.inj (hc.mod.symm.trans hm)
      have hat : At (t.call (.write m'.currPos m'.buf) .write) (some m') .idle
          [⟨t.curId, t.link.nextId, .write⟩] [] :=
            ⟨hc.mod, rfl, by simp [call, hc.pendings], hc.tasks⟩
      cases busy with
      | true => exact (Moment.sending m' hc hlen).goes_same
      | false =>
        refine ⟨.writing m' _ _ hat hlen (by simp [Output.ack, hlen]), ?_⟩
        simp only [Bool.false_eq_true, if_false]
        rw [hc.ledger_nil, hat.ledger_nil, acks_append]
        exact .keep _ (by simp [Output.isProgress])
    | closed hm' hp => cases hm.symm.trans hm'
    | _ => exact At.clash (by assumption) hpc (by decide)
  · exact h.goes_same

/-- The Low thread takes the next task. -/
theorem goes_runTask (h : Moment tr t) : Goes tr t (step image t .runTask) := by
  simp only [step]
  split
  next m cb ok tasks hm hpc ht =>
    cases h with
    | erased m' ok' hc hlen =>
      obtain rfl : m' = m := Option.some.inj (hc.mod.symm.trans hm)
      obtain ⟨⟨rfl, rfl⟩, rfl⟩ : (Callback.erase = cb ∧ ok' = ok) ∧ [] = tasks := by
        simpa using hc.tasks.symm.trans ht
      cases ok' with
      | false => exact goes_close tr t (by simp [Output.isProgress])
      | true => exact goes_proceed hc
    | written m' ok' hc hlen =>
      obtain rfl : m' = m := Option.some.inj (hc.mod.symm.trans hm)
      obtain ⟨⟨rfl, rfl⟩, rfl⟩ : (Callback.write = cb ∧ ok' = ok) ∧ [] = tasks := by
        simpa using hc.tasks.symm.trans ht
      cases ok' with
      | false =>
        have hat : At { t with tasks := [], pc := .sending } (some m') .sending [] [] :=
          ⟨hc.mod, rfl, hc.pendings, rfl⟩
        refine ⟨.sending m' hat hlen, ?_⟩
        simp only [task, List.append_nil]
        rw [hc.ledger_task, hat.ledger_nil]
        exact .keep [] (List.forall_mem_nil _)
      | true => exact goes_proceed hc
    | closed hm' hp => cases hm.symm.trans hm'
    | _ => exact At.noTask (by assumption) ht
  · exact h.goes_same

/-- Each step of the two ends leads from one moment of the run to the next. -/
theorem step_moment (image : V → Image) {e : Event V} (h : Moment tr t) (he : e.GoesOn) :
    Goes tr t (step image t e) := by
  cases e with
  | start => exact he.elim
  | invoke busy => exact goes_invoke h busy
  | runTask => exact goes_runTask h
  | fetch n =>
    simp only [step]
    split
    next m hm hpc =>
      have hc := h.of_fetching hm hpc
      split
      · exact goes_close tr t (List.forall_mem_singleton.2 (finish_quiet m.toOtaModule {}).2)
      · exact goes_seek hc ⟨rfl, rfl, hc.pendings, hc.tasks⟩ rfl rfl
          (.sending _ ⟨rfl, rfl, hc.pendings, hc.tasks⟩ rfl)
    · exact h.goes_same
  | raise =>
    simp only [step]
    split
    next m hm hpc =>
      have hc := h.of_fetching hm hpc
      exact goes_seek hc ⟨rfl, hc.pc, hc.pendings, hc.tasks⟩ rfl rfl
        (.fetching _ ⟨rfl, hc.pc, hc.pendings, hc.tasks⟩)
    · exact h.goes_same
  | seekFails =>
    simp only [step]
    split
    · exact goes_close tr t (by simp [Output.isProgress])
    · exact h.goes_same
  | respond =>
    simp only [step]
    split
    · exact h.goes_same
    · exact h.goes_deliver _ _ _
  | otherCall => exact h.goes_frame (List.forall_mem_nil _) rfl
  | otherAnswer id ok => exact h.goes_deliver t.link id ok
  | timeout id => exact h.goes_deliver t.link id false
  | serve o =>
    simp only [step]
    split
    next r _ _ =>
      obtain ⟨hout, hack⟩ := report_quiet (V := V) r true (acks tr)
      exact h.goes_frame (List.forall_mem_singleton.2 hout) hack
    next r _ _ _ =>
      obtain ⟨hout, hack⟩ := report_quiet (V := V) r false (acks tr)
      exact h.goes_frame (List.forall_mem_singleton.2 hout) hack
    · exact h.goes_frame (List.forall_mem_nil _) rfl
    · exact h.goes_same
  | loseRequest n => exact h.goes_frame (List.forall_mem_nil _) rfl
  | loseAnswer n => exact h.goes_frame (List.forall_mem_nil _) rfl
  | powerFails => exact ⟨.closed rfl rfl, .close _ rfl _ (List.forall_mem_nil _)⟩

/-- The first step of a run for the lower module: nothing is started, or a fresh module. -/
theorem step_start (image : V → Image) (hc : At t none .idle [] []) (version : V) (size : Int)
    (currVer : Option V) :
    (step image t (.start version size currVer)).2 = [] ∧
      Moment [] (step image t (.start version size currVer)).1 ∧
      (((step image t (.start version size currVer)).1.ledger []).mod = none ∨
        ∃ m, Ota.start t.spec version size currVer = some m ∧
          (step image t (.start version size currVer)).1.ledger [] = ⟨t.spec, some m, 0, 0⟩) := by
  cases hs : Ota.start t.spec version size currVer with
  | none =>
    simp only [step, hs, hc.mod]
    exact ⟨trivial, .closed hc.mod hc.pendings, .inl (by simp [ledger, hc.mod])⟩
  | some m =>
    simp only [step, hs, hc.mod]
    exact ⟨trivial, .starting _ ⟨rfl, rfl, hc.pendings, hc.tasks⟩ rfl,
      .inr ⟨m, rfl, by simp [ledger, owed, hc.tasks, acks]⟩⟩

end

end

end Lower

/-! ## Runs -/

section
variable [DecidableEq V] (image : V → Image) {version : V} {size : Int} {currVer : Option V}
  {I : Ledger V → Prop}

/-- What the moves of a ledger keep holds of it in every run of the upper end. -/
theorem Upper.run_ledger {t : Upper V} (hpc : t.pc = .idle)
    (hstep : ∀ l l' out, Move l l' out → I l → I l') (hnone : ∀ l, l.mod = none → I l)
    (hstart : ∀ m, Ota.start t.spec version size currVer = some m → I ⟨t.spec, some m, 0, 0⟩)
    {es : List (Upper.Event V)} (hes : ∀ e ∈ es, e.GoesOn) :
    I (((Upper.machine image).run t (.start version size currVer :: es)).ledger
      ((Upper.machine image).trace t (.start version size currVer :: es))) := by
  obtain ⟨hout, hledger⟩ := Upper.step_start image hpc version size currVer
  rw [Machine.trace_cons, Machine.run_cons, Upper.machine_step, hout, List.nil_append]
  refine Machine.trace_inv (C := fun _ e => e.GoesOn)
    (I := fun tr (t : Upper V) => I (t.ledger tr))
    (Machine.along_of_mem fun e he _ => hes e he) ?_ ?_
  · rcases hledger with hmod | ⟨m, hm, hledger⟩
    · exact hnone _ hmod
    · rw [hledger]
      exact hstart m hm
  · intro tr t e hI he
    exact hstep _ _ _ (Upper.step_move image tr he) hI

/-- What the moves of a ledger keep holds of it in every run for the lower module. -/
theorem Lower.run_ledger {t : Lower V} (hc : At t none .idle [] [])
    (hstep : ∀ l l' out, Move l l' out → I l → I l') (hnone : ∀ l, l.mod = none → I l)
    (hstart : ∀ m, Ota.start t.spec version size currVer = some m → I ⟨t.spec, some m, 0, 0⟩)
    {es : List (Lower.Event V)} (hes : ∀ e ∈ es, e.GoesOn) :
    Moment ((Lower.machine image).trace t (.start version size currVer :: es))
        ((Lower.machine image).run t (.start version size currVer :: es)) ∧
      I (((Lower.machine image).run t (.start version size currVer :: es)).ledger
        ((Lower.machine image).trace t (.start version size currVer :: es))) := by
  obtain ⟨hout, hmoment, hledger⟩ := Lower.step_start image hc version size currVer
  rw [Machine.trace_cons, Machine.run_cons, Lower.machine_step, hout, List.nil_append]
  refine Machine.trace_inv (C := fun _ e => e.GoesOn)
    (I := fun tr (t : Lower V) => Moment tr t ∧ I (t.ledger tr))
    (Machine.along_of_mem fun e he _ => hes e he) ⟨hmoment, ?_⟩ ?_
  · rcases hledger with hmod | ⟨m, hm, hledger⟩
    · exact hnone _ hmod
    · rw [hledger]
      exact hstart m hm
  · rintro tr t e ⟨hm, hI⟩ he
    have hgoes := Lower.step_moment image hm he
    exact ⟨hgoes.moment, hstep _ _ _ hgoes.move hI⟩

end

/-- **Checkpoints are safe and fresh.** In every run of either end from a checkpoint that is a
multiple of `kCheckSize`, no step takes the checkpoint made last back, and with each update of the
progress it is a multiple of `kCheckSize`, is not above the number of bytes written by the upper
end, or acknowledged by the lower one, and trails it by less than `kCheckSize`. It is the one in
the storage then. -/
theorem checkpoints_fresh [DecidableEq V] (image : V → Image) (version : V) (size : Int)
    (currVer : Option V) :
    (∀ (t : Upper V) (es : List (Upper.Event V)) (e : Upper.Event V), t.pc = .idle →
      kCheckSize ∣ getLastOffset t.spec version → (∀ f ∈ es, f.GoesOn) → e.GoesOn →
      let s := (Upper.machine image).run t (.start version size currVer :: es)
      let tr := (Upper.machine image).trace t (.start version size currVer :: es)
      (∀ pos value, .progress pos value ∈ (Upper.step image s e).2 →
        ∃ m, (Upper.step image s e).1.pc.mod = some m ∧
          Fresh version (Upper.step image s e).1.spec m
            (getLastOffset t.spec version + written tr)) ∧
      ∀ m m', s.pc.mod = some m → (Upper.step image s e).1.pc.mod = some m' →
        m.lastProgress ≤ m'.lastProgress) ∧
    ∀ (t : Lower V) (es : List (Lower.Event V)) (e : Lower.Event V), t.At none .idle [] [] →
      kCheckSize ∣ getLastOffset t.spec version → (∀ f ∈ es, f.GoesOn) → e.GoesOn →
      let s := (Lower.machine image).run t (.start version size currVer :: es)
      let tr := (Lower.machine image).trace t (.start version size currVer :: es)
      (∀ pos value, .progress pos value ∈ (Lower.step image s e).2 →
        ∃ m, (Lower.step image s e).1.mod = some m ∧
          Fresh version (Lower.step image s e).1.spec m.toOtaModule
            (getLastOffset t.spec version + (acks tr).bytes)) ∧
      ∀ m m', s.mod = some m → (Lower.step image s e).1.mod = some m' →
        m.lastProgress ≤ m'.lastProgress := by
  have hnone : ∀ offset (l : Ledger V), l.mod = none → l.Sound version offset := by
    intro offset l hl m hm
    cases hl.symm.trans hm
  constructor
  · intro t es e hpc hdvd hes he s tr
    have hsound : (s.ledger tr).Sound version (getLastOffset t.spec version) :=
      Upper.run_ledger image hpc (fun _ _ _ h hl => (h.sound hl hdvd).1) (hnone _)
        (fun _ => Ledger.sound_start) hes
    exact ((Upper.step_move image tr he).sound hsound hdvd).2
  · intro t es e hc hdvd hes he s tr
    obtain ⟨hmoment, hsound⟩ : Lower.Moment tr s ∧
        (s.ledger tr).Sound version (getLastOffset t.spec version) :=
      Lower.run_ledger image hc (fun _ _ _ h hl => (h.sound hl hdvd).1) (hnone _)
        (fun _ => Ledger.sound_start) hes
    obtain ⟨-, hfresh, hmono⟩ :=
      (Lower.step_moment image hmoment he).move.sound hsound hdvd
    constructor
    · intro pos value hmem
      obtain ⟨m, hm, hf⟩ := hfresh pos value hmem
      obtain ⟨m', hm', rfl⟩ := Option.map_eq_some_iff.1 hm
      exact ⟨m', hm', hf⟩
    · intro m m' hm hm'
      exact hmono _ _ (Option.map_eq_some_iff.2 ⟨m, hm, rfl⟩)
        (Option.map_eq_some_iff.2 ⟨m', hm', rfl⟩)

/-- A download of the upper end that is resumed at 10240. -/
theorem checkpoints_fresh_resumed :
    ∃ m, (Upper.step Upper.long ((Upper.machine Upper.long).run
        ⟨fun _ => 0, some ⟨true, 10240⟩, none, .idle⟩
        [.start true 30000 (some false), .erase none, .fetch 100, .write none])
          .advance).1.pc.mod = some m ∧
      Fresh true (Upper.step Upper.long ((Upper.machine Upper.long).run
        ⟨fun _ => 0, some ⟨true, 10240⟩, none, .idle⟩
        [.start true 30000 (some false), .erase none, .fetch 100, .write none]) .advance).1.spec m
        10340 :=
  ((checkpoints_fresh Upper.long true 30000 (some false)).1 ⟨fun _ => 0, some ⟨true, 10240⟩, none,
    .idle⟩
    [.erase none, .fetch 100, .write none] .advance rfl (by decide) (by simp [Upper.Event.GoesOn])
    trivial).1 10340 (some 34) (by decide +kernel)

end ChargingPile.Ota
