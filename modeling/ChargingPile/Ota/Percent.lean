import ChargingPile.Ota.Progress

/-!
# Progress as a percentage

`updateProgress` reports `100 * pos / size` with the size from the announcement and the position
that the loop has come to. The stream bounds the position (`Within`): no report is past the end of
the stream, or past the checkpoint that the download began at if that is further. Either bound is
met: undisturbed rounds of the loop lead to it (`Upper.round`, `Lower.round`). So the announced
size, the checkpoint and the length of the stream decide whether every value that is ever reported
is a percentage (`progress_percent_iff`). The lower end also reports before its first chunk, the
upper end does not.
-/

namespace ChargingPile.Ota

variable {V : Type}

/-- The value is one between 0 and 100, and computing it is defined. -/
def Percentage (value : Option Int) : Prop := ∃ p, value = some p ∧ 0 ≤ p ∧ p ≤ 100

/-- The position is small enough to be a percentage of the size. -/
def Representable (pos : Nat) (size : Int) : Prop :=
  0 < size ∧ 100 * pos < 2 ^ 31 ∧ (100 * pos : Int) < 101 * size

theorem percent_iff {pos : Nat} {size : Int} (hsize : 0 ≤ size) :
    Percentage (percent pos size) ↔ Representable pos size := by
  unfold percent
  have hnonneg : (0 : Int) ≤ 100 * pos := by omega
  constructor
  · rintro ⟨p, hp, -, hle⟩
    split at hp
    next hdef =>
      obtain rfl := Option.some.inj hp
      have hpos : 0 < size := by omega
      refine ⟨hpos, hdef.1, ?_⟩
      rw [Int.tdiv_eq_ediv_of_nonneg hnonneg] at hle
      exact (Int.ediv_lt_iff_lt_mul hpos).1 (by omega)
    · cases hp
  · rintro ⟨hpos, hfits, hlt⟩
    rw [if_pos ⟨hfits, by omega⟩]
    refine ⟨_, rfl, ?_, ?_⟩
    · exact Int.tdiv_nonneg hnonneg hsize
    · have := (Int.ediv_lt_iff_lt_mul hpos).2 hlt
      rw [Int.tdiv_eq_ediv_of_nonneg hnonneg]
      omega

theorem Representable.mono {pos pos' : Nat} {size : Int} (h : Representable pos' size)
    (hle : pos ≤ pos') : Representable pos size := by
  obtain ⟨h₁, h₂, h₃⟩ := h
  exact ⟨h₁, by omega, by omega⟩

/-! ## The bounds of the position -/

/-- A module of a download that was announced with `size` and began at `offset`, with a chunk of
`n` bytes in hand: the stream is past the chunk, and not past the end of the image, unless the
download began there. -/
structure Within (image : V → Image) (v : V) (size : Int) (offset n : Nat) (m : OtaModule V) :
    Prop where
  version : m.version = v
  size : m.size = size
  base : offset ≤ m.currPos
  stream : m.streamPos = m.currPos + n
  bound : m.streamPos ≤ max offset (image v).size

namespace Within

variable {image : V → Image} {v : V} {size : Int} {offset n : Nat} {m : OtaModule V}

theorem start [DecidableEq V] {spec : Option (ModuleSpec V)} {currVer : Option V}
    (h : Ota.start spec v size currVer = some m) :
    Within image v size (getLastOffset spec v) 0 m := by
  obtain rfl := start_eq_some h
  exact ⟨rfl, rfl, Nat.le_refl _, rfl, Nat.le_max_left _ _⟩

/-- A chunk is read from the stream. -/
theorem fetch (h : Within image v size offset 0 m) (len k : Nat) :
    Within image v size offset ((image m.version).readData m.streamPos len k).length
      { m with
        streamPos := m.streamPos + ((image m.version).readData m.streamPos len k).length } := by
  obtain ⟨rfl, hsize, hbase, hstream, hbound⟩ := h
  refine ⟨rfl, hsize, hbase, by simp [hstream], ?_⟩
  simp only [Image.readData, length_slice]
  omega

/-- A read that fails puts the stream back. -/
theorem rollback (h : Within image v size offset n m) :
    Within image v size offset 0 m.rollback := by
  have hstream := h.stream
  have hbound := h.bound
  exact ⟨h.version, h.size, h.base, rfl, by dsimp only [OtaModule.rollback]; omega⟩

/-- The module passes the chunk in hand. -/
theorem advance (h : Within image v size offset n m) (spec : Option (ModuleSpec V)) :
    Within image v size offset 0 (m.advance spec n).mod := by
  obtain ⟨p, hmod⟩ := advance_mod spec m n
  rw [hmod]
  exact ⟨h.version, h.size, Nat.le_add_right_of_le h.base, h.stream, h.bound⟩

/-- What is reported then is the percentage of the position of the stream. -/
theorem mem_advance_iff (h : Within image v size offset n m) (spec : Option (ModuleSpec V))
    {pos : Nat} {value : Option Int} :
    .progress pos value ∈ (m.advance spec n).outputs ↔
      pos = m.currPos + n ∧ value = percent pos size := by
  obtain ⟨saved, hsaved, hout⟩ := advance_outputs spec m n
  rw [hout, List.mem_append, List.mem_singleton, h.size]
  constructor
  · rintro (hmem | hmem)
    · rcases hsaved with rfl | ⟨o, rfl⟩ <;> simp at hmem
    · cases hmem
      exact ⟨rfl, rfl⟩
  · rintro ⟨rfl, rfl⟩
    exact .inr rfl

end Within

/-- What is reported is the percentage of a position from `lo` to `hi`. -/
def Reports (size : Int) (lo hi : Nat) (out : List (Output V)) : Prop :=
  ∀ pos value, .progress pos value ∈ out → value = percent pos size ∧ lo ≤ pos ∧ pos ≤ hi

section
variable {size : Int} {lo hi : Nat} {out out' : List (Output V)}

theorem reports_quiet (hout : ∀ o ∈ out, o.isProgress = false) : Reports size lo hi out := by
  intro pos value hmem
  exact absurd hmem (Output.progress_not_mem hout pos value)

theorem reports_nil : Reports size lo hi ([] : List (Output V)) :=
  reports_quiet (List.forall_mem_nil _)

theorem Reports.append (h : Reports size lo hi out) (h' : Reports size lo hi out') :
    Reports size lo hi (out ++ out') := by
  intro pos value hmem
  exact (List.mem_append.1 hmem).elim (h pos value) (h' pos value)

end

section
variable [DecidableEq V] {image : V → Image} {v : V} {size : Int} {offset : Nat}

/-! ## The upper end -/

namespace Upper

variable {t : Upper V} {m : OtaModule V}

/-- The module of the upper end is within its bounds, and its chunks are not empty. -/
def Bounded (image : V → Image) (v : V) (size : Int) (offset : Nat) (t : Upper V) : Prop :=
  match t.pc with
  | .idle => True
  | .erasing m | .fetching m => Within image v size offset 0 m
  | .writing m buf => 0 < buf.length ∧ Within image v size offset buf.length m
  | .written m n _ => 0 < n ∧ Within image v size offset n m

/-- Each step keeps the bounds and reports within them. -/
theorem step_bounded (h : Bounded image v size offset t) {e : Event V} (he : e.GoesOn) :
    Bounded image v size offset (step image t e).1 ∧
      Reports size (offset + 1) (image v).size (step image t e).2 := by
  obtain ⟨bytes, spec, last, pc⟩ := t
  cases e with
  | start => exact he.elim
  | noPartition =>
    cases pc with
    | erasing m => exact ⟨trivial, reports_quiet (by simp [step, Output.isProgress])⟩
    | _ => exact ⟨h, reports_nil⟩
  | erase fault =>
    cases pc with
    | erasing m =>
      cases fault with
      | none => exact ⟨h, reports_quiet (by simp [step, Output.isProgress])⟩
      | some junk => exact ⟨trivial, reports_quiet (by simp [step, Output.isProgress])⟩
    | _ => exact ⟨h, reports_nil⟩
  | fetch n =>
    cases pc with
    | fetching m =>
      simp only [step]
      split
      · exact ⟨trivial, reports_quiet (List.forall_mem_singleton.2 (finish_quiet m {}).2)⟩
      next hne => exact ⟨⟨Nat.pos_of_ne_zero hne, Within.fetch h _ _⟩, reports_nil⟩
    | _ => exact ⟨h, reports_nil⟩
  | raise =>
    cases pc with
    | fetching m => exact ⟨Within.rollback h, reports_nil⟩
    | _ => exact ⟨h, reports_nil⟩
  | seekFails =>
    cases pc with
    | fetching m => exact ⟨trivial, reports_quiet (by simp [step, Output.isProgress])⟩
    | _ => exact ⟨h, reports_nil⟩
  | write fault =>
    cases pc with
    | writing m buf => cases fault <;> exact ⟨h, reports_quiet (by simp [step, Output.isProgress])⟩
    | _ => exact ⟨h, reports_nil⟩
  | advance =>
    cases pc with
    | written m n ok =>
      obtain ⟨hpos, hw⟩ := h
      refine ⟨hw.advance spec, ?_⟩
      intro pos value hmem
      obtain ⟨rfl, rfl⟩ := (hw.mem_advance_iff spec).1 hmem
      have hbase := hw.base
      have hstream := hw.stream
      have hbound := hw.bound
      exact ⟨rfl, by omega, by omega⟩
    | _ => exact ⟨h, reports_nil⟩
  | powerFails junk => exact ⟨trivial, reports_nil⟩

/-- The loop before the next chunk, at a position. -/
def Ready (image : V → Image) (v : V) (size : Int) (offset pos : Nat) (t : Upper V) : Prop :=
  ∃ m, t.pc = .fetching m ∧ Within image v size offset 0 m ∧ m.currPos = pos

/-- A round of the loop: a chunk is fetched, written and passed. -/
theorem round {pos : Nat} (h : Ready image v size offset pos t) (hlt : pos < (image v).size) :
    ∃ es q, (∀ e ∈ es, e.GoesOn) ∧ pos < q ∧ q ≤ (image v).size ∧
      Ready image v size offset q ((machine image).run t es) ∧
      .progress q (percent q size) ∈ (machine image).trace t es := by
  obtain ⟨bytes, spec, last, pc⟩ := t
  obtain ⟨m, rfl, hw, rfl⟩ := h
  have hfetch := hw.fetch kBufSize kBufSize
  have hlen : ((image m.version).readData m.streamPos kBufSize kBufSize).length =
      min kBufSize ((image v).size - m.currPos) := by
    simp [Image.readData, hw.version, hw.stream]
  have hpos : 0 < kBufSize := by decide
  have hne : ((image m.version).readData m.streamPos kBufSize kBufSize).length ≠ 0 := by omega
  refine ⟨[.fetch kBufSize, .write none, .advance],
    m.currPos + ((image m.version).readData m.streamPos kBufSize kBufSize).length,
    by simp [Event.GoesOn], by omega, by omega, ⟨_, ?_, hfetch.advance spec, ?_⟩, ?_⟩
  · simp [step, hne]
  · obtain ⟨p, hmod⟩ := advance_mod spec { m with
      streamPos :=
        m.streamPos + ((image m.version).readData m.streamPos kBufSize kBufSize).length }
      ((image m.version).readData m.streamPos kBufSize kBufSize).length
    rw [hmod]
  · simp [step, hne, hfetch.mem_advance_iff]

end Upper

/-! ## The lower end -/

namespace Lower

variable {t t' : Lower V} {m : OtaLowerModule V}

/-- The lower module is within its bounds. Its buffer holds the chunk in hand, except while it
waits for the next one. -/
def Bounded (image : V → Image) (v : V) (size : Int) (offset : Nat) (t : Lower V) : Prop :=
  ∀ m, t.mod = some m →
    Within image v size offset (if t.pc = .fetching then 0 else m.recvedLen) m.toOtaModule

omit [DecidableEq V] in
theorem bounded_of_none (h : t.mod = none) : Bounded image v size offset t := by
  intro m hm
  cases h.symm.trans hm

omit [DecidableEq V] in
/-- What leaves the module as it is and the buffer in use keeps the bounds. -/
theorem Bounded.congr (h : Bounded image v size offset t) (hmod : t'.mod = t.mod)
    (hpc : t'.pc = .fetching ↔ t.pc = .fetching) : Bounded image v size offset t' := by
  intro m hm
  simpa only [hpc] using h m (hmod ▸ hm)

omit [DecidableEq V] in
/-- An answer that is handed over. -/
theorem deliver_bounded (h : Bounded image v size offset t)
    (l : Link (UInt8 × Request) (UInt8 × Answer)) (id : UInt8) (ok : Bool) :
    Bounded image v size offset (deliver { t with link := l } id ok).1 ∧
      Reports size offset (max offset (image v).size) (deliver { t with link := l } id ok).2 := by
  refine ⟨h.congr (deliver_mod _ id ok) (by rw [deliver_pc]), reports_quiet ?_⟩
  rcases deliver_outputs { t with link := l } id ok with hout | ⟨n, hout⟩ <;>
    simp [hout, Output.isProgress]

omit [DecidableEq V] in
/-- The part of `cb` for a call that succeeded. -/
theorem proceed_bounded (h : Within image v size offset m.recvedLen m.toOtaModule) (t : Lower V) :
    Bounded image v size offset (t.proceed m).1 ∧
      Reports size offset (max offset (image v).size) (t.proceed m).2 := by
  refine ⟨?_, ?_⟩
  · rintro _ ⟨rfl⟩
    exact h.advance t.spec
  · intro pos value hmem
    obtain ⟨rfl, rfl⟩ := (h.mem_advance_iff t.spec).1 hmem
    have hbase := h.base
    have hstream := h.stream
    have hbound := h.bound
    exact ⟨rfl, by omega, by omega⟩

/-- Each step keeps the bounds and reports within them. -/
theorem step_bounded (h : Bounded image v size offset t) {e : Event V} (he : e.GoesOn) :
    Bounded image v size offset (step image t e).1 ∧
      Reports size offset (max offset (image v).size) (step image t e).2 := by
  have hsame : Bounded image v size offset t ∧
      Reports size offset (max offset (image v).size) ([] : List (Output V)) := ⟨h, reports_nil⟩
  cases e with
  | start => exact he.elim
  | invoke busy =>
    simp only [step]
    split
    next m hm hpc =>
      cases busy with
      | true => exact ⟨bounded_of_none rfl, reports_quiet (by simp [Output.isProgress])⟩
      | false => exact ⟨h.congr rfl (by simp [call, hpc]), reports_nil⟩
    next m hm hpc =>
      cases busy with
      | true => exact hsame
      | false =>
        exact ⟨h.congr rfl (by simp [call, hpc]), reports_quiet (by simp [Output.isProgress])⟩
    · exact hsame
  | runTask =>
    simp only [step]
    split
    next m cb ok tasks hm hpc ht =>
      have hw : Within image v size offset m.recvedLen m.toOtaModule := by
        simpa [hpc] using h m hm
      unfold task
      split
      · exact ⟨bounded_of_none rfl, reports_quiet (by simp [Output.isProgress])⟩
      · exact ⟨h.congr rfl (by simp [hpc]), reports_nil⟩
      · exact proceed_bounded hw _
    · exact hsame
  | fetch n =>
    simp only [step]
    split
    next m hm hpc =>
      have hw : Within image v size offset 0 m.toOtaModule := by simpa [hpc] using h m hm
      split
      · exact ⟨bounded_of_none rfl,
          reports_quiet (List.forall_mem_singleton.2 (finish_quiet m.toOtaModule {}).2)⟩
      · refine ⟨?_, reports_nil⟩
        rintro _ ⟨rfl⟩
        exact hw.fetch _ _
    · exact hsame
  | raise =>
    simp only [step]
    split
    next m hm hpc =>
      refine ⟨?_, reports_nil⟩
      rintro _ ⟨rfl⟩
      simpa [hpc] using (h m hm).rollback
    · exact hsame
  | seekFails =>
    simp only [step]
    split
    · exact ⟨bounded_of_none rfl, reports_quiet (by simp [Output.isProgress])⟩
    · exact hsame
  | respond =>
    simp only [step]
    split
    · exact hsame
    · exact deliver_bounded h _ _ _
  | otherAnswer id ok => exact deliver_bounded h t.link id ok
  | timeout id => exact deliver_bounded h t.link id false
  | serve o =>
    simp only [step]
    split
    next r _ _ =>
      exact ⟨h, reports_quiet (List.forall_mem_singleton.2 (report_quiet r true {}).1)⟩
    next r _ _ _ =>
      exact ⟨h, reports_quiet (List.forall_mem_singleton.2 (report_quiet r false {}).1)⟩
    · exact hsame
    · exact hsame
  | otherCall | loseRequest | loseAnswer => exact hsame
  | powerFails => exact ⟨bounded_of_none rfl, reports_nil⟩

/-- The module before the next chunk, at a position, with nothing under way. -/
structure Ready (image : V → Image) (v : V) (size : Int) (offset pos : Nat) (t : Lower V) :
    Prop where
  intro ::
  fetching : ∃ m, At t (some m) .fetching [] [] ∧ Within image v size offset 0 m.toOtaModule ∧
    m.currPos = pos
  requests : t.link.requests = []
  answers : t.link.answers = []

/-- A call on an empty link that is served and answered: its callback is posted. -/
theorem answered (image : V → Image) {mod : Option (OtaLowerModule V)} {pc : Pc}
    (hc : At t mod pc [] []) (hr : t.link.requests = []) (ha : t.link.answers = []) (r : Request)
    (cb : Callback) :
    let s := (machine image).run (t.call r cb) [.serve .success, .respond]
    At s mod .idle [] [(cb, true)] ∧ s.link.requests = [] ∧ s.link.answers = [] := by
  obtain ⟨bytes, spec, last, mod, pc, curId, pendings, tasks, nextId, requests, answers⟩ := t
  obtain ⟨rfl, rfl, rfl, rfl⟩ := hc
  obtain rfl : requests = [] := hr
  obtain rfl : answers = [] := ha
  have hok : (r.answer true).ok = true := by cases r <;> rfl
  have hrun :
      (machine image).run (call ⟨bytes, spec, last, mod, pc, curId, [], [], nextId, [], []⟩ r cb)
      [.serve .success, .respond] =
      ⟨r.apply bytes, spec, last, mod, .idle, curId + 1, [], [(cb, true)], nextId + 1, [],
        []⟩ := by
    simp [step, call, Link.send, Link.serve, Link.loseAnswer, deliver, post, hok]
  exact hrun ▸ ⟨⟨rfl, rfl, rfl, rfl⟩, rfl, rfl⟩

/-- The task of a callback that reports success: the module passes the chunk in hand
and reports. -/
theorem runTask_ready {cb : Callback} (hc : At t (some m) .idle [] [(cb, true)])
    (hw : Within image v size offset m.recvedLen m.toOtaModule) (hr : t.link.requests = [])
    (ha : t.link.answers = []) :
    Ready image v size offset (m.currPos + m.recvedLen) (step image t .runTask).1 ∧
      .progress (m.currPos + m.recvedLen) (percent (m.currPos + m.recvedLen) size) ∈
        (step image t .runTask).2 := by
  have hstep : step image t .runTask = { t with tasks := [] }.proceed m := by
    cases cb <;> simp [step, hc.mod, hc.pc, hc.tasks, task]
  obtain ⟨p, hmod⟩ := advance_mod t.spec m.toOtaModule m.recvedLen
  rw [hstep]
  refine ⟨⟨⟨_, ⟨rfl, rfl, hc.pendings, rfl⟩, hw.advance t.spec, by rw [hmod]⟩, hr, ha⟩, ?_⟩
  exact (hw.mem_advance_iff t.spec).2 ⟨rfl, rfl⟩

/-- The call that the module is about to make, its answer and its task. -/
theorem call_ready {pc : Pc} (r : Request) (cb : Callback) (hc : At t (some m) pc [] [])
    (hw : Within image v size offset m.recvedLen m.toOtaModule) (hr : t.link.requests = [])
    (ha : t.link.answers = []) (hcall : (step image t (.invoke false)).1 = t.call r cb) :
    let es := [.invoke false, .serve .success, .respond, .runTask]
    Ready image v size offset (m.currPos + m.recvedLen) ((machine image).run t es) ∧
      .progress (m.currPos + m.recvedLen) (percent (m.currPos + m.recvedLen) size) ∈
        (machine image).trace t es := by
  obtain ⟨hc', hr', ha'⟩ := answered image hc hr ha r cb
  rw [← hcall] at hc' hr' ha'
  obtain ⟨hready, hmem⟩ := runTask_ready hc' hw hr' ha'
  exact ⟨hready,
    Machine.mem_trace.2 ⟨[.invoke false, .serve .success, .respond], .runTask, [], rfl, hmem⟩⟩

/-- A round: a chunk is fetched, sent, written, acknowledged and passed. -/
theorem round {pos : Nat} (h : Ready image v size offset pos t) (hlt : pos < (image v).size) :
    ∃ es q, (∀ e ∈ es, e.GoesOn) ∧ pos < q ∧ q ≤ (image v).size ∧
      Ready image v size offset q ((machine image).run t es) ∧
      .progress q (percent q size) ∈ (machine image).trace t es := by
  obtain ⟨⟨m, hc, hw, rfl⟩, hr, ha⟩ := h
  have hfetch := hw.fetch kBufSize kBufSize
  have hlen : ((image m.version).readData m.streamPos kBufSize kBufSize).length =
      min kBufSize ((image v).size - m.currPos) := by
    simp [Image.readData, hw.version, hw.stream]
  have hpos : 0 < kBufSize := by decide
  generalize hbuf : (image m.version).readData m.streamPos kBufSize kBufSize = buf at hfetch hlen
  have hne : buf.length ≠ 0 := by omega
  have hstep : (step image t (.fetch kBufSize)).1 = { t with
      mod :=
        some { m with streamPos := m.streamPos + buf.length, buf := buf, recvedLen := buf.length }
      pc := .sending } := by
    simp [step, hc.mod, hc.pc, hbuf, hne]
  have hat : At (step image t (.fetch kBufSize)).1
      (some { m with streamPos := m.streamPos + buf.length, buf := buf, recvedLen := buf.length })
      .sending [] [] := by
    rw [hstep]
    exact ⟨rfl, rfl, hc.pendings, hc.tasks⟩
  obtain ⟨hready, hmem⟩ := call_ready (.write m.currPos buf) .write hat hfetch
    (by rw [hstep]; exact hr) (by rw [hstep]; exact ha) (by rw [hstep]; rfl)
  refine ⟨[.fetch kBufSize, .invoke false, .serve .success, .respond, .runTask],
    m.currPos + buf.length, by simp [Event.GoesOn], by omega, by omega, hready, ?_⟩
  exact List.mem_append_right _ hmem

/-- Every message under way may be lost. -/
theorem exists_cleared (image : V → Image) (t : Lower V) :
    ∃ es, (∀ e ∈ es, e.GoesOn) ∧
      (machine image).run t es = { t with link := ⟨t.link.nextId, [], []⟩ } := by
  obtain ⟨bytes, spec, last, mod, pc, curId, pendings, tasks, nextId, requests, answers⟩ := t
  have hanswers : (machine image).run
      ⟨bytes, spec, last, mod, pc, curId, pendings, tasks, nextId, [], answers⟩
      (List.replicate answers.length (.loseAnswer 0)) =
      ⟨bytes, spec, last, mod, pc, curId, pendings, tasks, nextId, [], []⟩ := by
    induction answers with
    | nil => rfl
    | cons a as ih => exact ih
  have hrequests : (machine image).run
      ⟨bytes, spec, last, mod, pc, curId, pendings, tasks, nextId, requests, answers⟩
      (List.replicate requests.length (.loseRequest 0)) =
      ⟨bytes, spec, last, mod, pc, curId, pendings, tasks, nextId, [], answers⟩ := by
    clear hanswers
    induction requests with
    | nil => rfl
    | cons r rs ih => exact ih
  refine ⟨List.replicate requests.length (.loseRequest 0) ++
    List.replicate answers.length (.loseAnswer 0), ?_, ?_⟩
  · simp [List.mem_append, List.mem_replicate, or_imp, forall_and, Event.GoesOn]
  · rw [Machine.run_append, hrequests, hanswers]

/-- A module that was started gets its partition erased and is before its first chunk. -/
theorem exists_ready (image : V → Image) {currVer : Option V} {m : OtaModule V}
    (hs : Ota.start t.spec v size currVer = some m)
    (hc : At t none .idle [] []) :
    ∃ es, (∀ e ∈ es, e.GoesOn) ∧
      Ready image v size (getLastOffset t.spec v) (getLastOffset t.spec v)
        ((machine image).run t (.start v size currVer :: es)) ∧
      .progress (getLastOffset t.spec v) (percent (getLastOffset t.spec v) size) ∈
        (machine image).trace t (.start v size currVer :: es) := by
  have hw : Within image v size (getLastOffset t.spec v) 0 m := .start hs
  have hpos : m.currPos = getLastOffset t.spec v := by rw [start_eq_some hs]
  obtain ⟨es, hes, hclear⟩ := exists_cleared image (step image t (.start v size currVer)).1
  have hstep : (step image t (.start v size currVer)).1 =
      { t with last := some v, mod := some ⟨m, List.replicate kBufSize 0, 0⟩
               pc := .starting } := by
    simp [step, hs, hc.mod]
  have hat : At ((machine image).run t (.start v size currVer :: es))
      (some ⟨m, List.replicate kBufSize 0, 0⟩) .starting [] [] := by
    rw [Machine.run_cons, machine_step, hclear, hstep]
    exact ⟨rfl, rfl, hc.pendings, hc.tasks⟩
  obtain ⟨hready, hmem⟩ := call_ready (.erase m.size m.offset) .erase hat hw
    (by rw [Machine.run_cons, machine_step, hclear])
      (by rw [Machine.run_cons, machine_step, hclear])
    (by rw [Machine.run_cons, machine_step, hclear, hstep]; rfl)
  refine ⟨es ++ [.invoke false, .serve .success, .respond, .runTask],
    List.forall_mem_append.2 ⟨hes, by simp [Event.GoesOn]⟩, ?_, ?_⟩
  · rw [← List.cons_append, Machine.run_append]
    exact hpos ▸ hready
  · rw [← List.cons_append, Machine.trace_append]
    exact List.mem_append_right _ (hpos ▸ hmem)

end Lower

/-! ## Runs -/

/-- What the upper end reports in a run, if it reports at all. -/
theorem Upper.run_reports {t : Upper V} (h : Upper.Bounded image v size offset t)
    {es : List (Upper.Event V)} (hes : ∀ e ∈ es, e.GoesOn) :
    Reports size (offset + 1) (image v).size ((Upper.machine image).trace t es) := by
  have hrun := Machine.trace_inv (M := Upper.machine image) (C := fun _ e => e.GoesOn)
    (I := fun tr t => Upper.Bounded image v size offset t ∧
      Reports size (offset + 1) (image v).size tr)
    (Machine.along_of_mem fun e he _ => hes e he) ⟨h, reports_nil⟩ ?_
  · exact hrun.2
  · rintro tr t e ⟨hb, hr⟩ he
    obtain ⟨hb', hout⟩ := Upper.step_bounded hb he
    exact ⟨hb', hr.append hout⟩

/-- What the lower module reports in a run, if it reports at all. -/
theorem Lower.run_reports {t : Lower V} (h : Lower.Bounded image v size offset t)
    {es : List (Lower.Event V)} (hes : ∀ e ∈ es, e.GoesOn) :
    Reports size offset (max offset (image v).size) ((Lower.machine image).trace t es) := by
  have hrun := Machine.trace_inv (M := Lower.machine image) (C := fun _ e => e.GoesOn)
    (I := fun tr t => Lower.Bounded image v size offset t ∧
      Reports size offset (max offset (image v).size) tr)
    (Machine.along_of_mem fun e he _ => hes e he) ⟨h, reports_nil⟩ ?_
  · exact hrun.2
  · rintro tr t e ⟨hb, hr⟩ he
    obtain ⟨hb', hout⟩ := Lower.step_bounded hb he
    exact ⟨hb', hr.append hout⟩

/-- Every value that the upper end reports is a percentage exactly if nothing is started, or
nothing is left of the stream, or its length is small enough. -/
theorem Upper.percent_iff (hsize : 0 ≤ size) {t : Upper V} (hpc : t.pc = .idle)
    (currVer : Option V) :
    (∀ es : List (Upper.Event V), (∀ f ∈ es, f.GoesOn) → ∀ pos value,
      .progress pos value ∈ (Upper.machine image).trace t (.start v size currVer :: es) →
        Percentage value) ↔
    Ota.start t.spec v size currVer = none ∨ (image v).size ≤ getLastOffset t.spec v ∨
      Representable (image v).size size := by
  cases hs : Ota.start t.spec v size currVer with
  | none =>
    refine iff_of_true ?_ (.inl rfl)
    intro es hes pos value hmem
    have hidle : Upper.Bounded image v size (image v).size t := by simp [Upper.Bounded, hpc]
    have hstep : Upper.step image t (.start v size currVer) = (t, []) := by
      simp [Upper.step, hs, hpc]
    rw [Machine.trace_cons, Upper.machine_step, hstep] at hmem
    obtain ⟨-, hlo, hhi⟩ := Upper.run_reports hidle hes pos value hmem
    exact absurd hlo (Nat.not_lt.2 hhi)
  | some m =>
    have hw : Within image v size (getLastOffset t.spec v) 0 m := .start hs
    have hstep : Upper.step image t (.start v size currVer) =
        ({ t with last := some v, pc := .erasing m }, []) := by
      simp [Upper.step, hs, hpc]
    simp only [Machine.trace_cons, Upper.machine_step, hstep, List.nil_append]
    constructor
    · intro h
      refine .inr (Nat.lt_or_ge (getLastOffset t.spec v) (image v).size |>.symm.imp_right
        fun hlt => ?_)
      have hready : Upper.Ready image v size (getLastOffset t.spec v) (getLastOffset t.spec v)
          (Upper.step image { t with last := some v, pc := .erasing m } (.erase none)).1 :=
        ⟨m, rfl, hw, by rw [start_eq_some hs]⟩
      obtain ⟨es, hes, hmem⟩ := Machine.exists_report (M := Upper.machine image)
        (G := Upper.Event.GoesOn) (fun _ _ => Upper.round) hready hlt
      refine (Ota.percent_iff hsize).1
        (h (.erase none :: es) ?_ _ _ (List.mem_append_right _ hmem))
      exact List.forall_mem_cons.2 ⟨trivial, hes⟩
    · rintro (hnone | hcond) es hes pos value hmem
      · cases hnone
      have hb : Upper.Bounded image v size (getLastOffset t.spec v)
          { t with last := some v, pc := .erasing m } := hw
      obtain ⟨rfl, hlo, hhi⟩ := Upper.run_reports hb hes pos value hmem
      rcases hcond with hle | hrep
      · omega
      · exact (Ota.percent_iff hsize).2 (hrep.mono hhi)

/-- Every value that the lower module reports is a percentage exactly if nothing is started, or the
place at which it begins and the length of the stream are small enough. -/
theorem Lower.percent_iff (hsize : 0 ≤ size) {t : Lower V} (hc : t.At none .idle [] [])
    (currVer : Option V) :
    (∀ es : List (Lower.Event V), (∀ f ∈ es, f.GoesOn) → ∀ pos value,
      .progress pos value ∈ (Lower.machine image).trace t (.start v size currVer :: es) →
        Percentage value) ↔
    Ota.start t.spec v size currVer = none ∨
      Representable (max (getLastOffset t.spec v) (image v).size) size := by
  cases hs : Ota.start t.spec v size currVer with
  | none =>
    refine iff_of_true ?_ (.inl rfl)
    intro es hes pos value hmem
    have hstep : Lower.step image t (.start v size currVer) = (t, []) := by
      simp [Lower.step, hs, hc.mod]
    rw [Machine.trace_cons, Lower.machine_step, hstep] at hmem
    -- without a module every bound holds, so nothing is reported
    have hreports : ∀ offset, value = percent pos size ∧ offset ≤ pos ∧
        pos ≤ max offset (image v).size := fun offset =>
      Lower.run_reports (Lower.bounded_of_none hc.mod) hes pos value hmem
    have hhi := (hreports 0).2.2
    have hlo := (hreports ((image v).size + 1)).2.1
    omega
  | some m =>
    have hw : Within image v size (getLastOffset t.spec v) 0 m := .start hs
    constructor
    · intro h
      refine .inr ?_
      obtain ⟨es, hes, hready, hmem⟩ := Lower.exists_ready image hs hc
      rcases Nat.lt_or_ge (getLastOffset t.spec v) (image v).size with hlt | hle
      · obtain ⟨fs, hfs, hmem'⟩ := Machine.exists_report (M := Lower.machine image)
          (G := Lower.Event.GoesOn) (fun _ _ => Lower.round) hready hlt
        have hall : .progress (image v).size (percent (image v).size size) ∈
            (Lower.machine image).trace t (.start v size currVer :: (es ++ fs)) := by
          rw [← List.cons_append, Machine.trace_append]
          exact List.mem_append_right _ hmem'
        rw [Nat.max_eq_right (Nat.le_of_lt hlt)]
        exact (Ota.percent_iff hsize).1 (h _ (List.forall_mem_append.2 ⟨hes, hfs⟩) _ _ hall)
      · rw [Nat.max_eq_left hle]
        exact (Ota.percent_iff hsize).1 (h es hes _ _ hmem)
    · rintro (hnone | hrep) es hes pos value hmem
      · cases hnone
      have hstep : Lower.step image t (.start v size currVer) =
          ({ t with last := some v, mod := some ⟨m, List.replicate kBufSize 0, 0⟩
                    pc := .starting }, []) := by
        simp [Lower.step, hs, hc.mod]
      rw [Machine.trace_cons, Lower.machine_step, hstep] at hmem
      have hb : Lower.Bounded image v size (getLastOffset t.spec v)
          { t with last := some v, mod := some ⟨m, List.replicate kBufSize 0, 0⟩
                   pc := .starting } := by
        rintro _ ⟨rfl⟩
        exact hw
      obtain ⟨rfl, -, hhi⟩ := Lower.run_reports hb hes pos value hmem
      exact (Ota.percent_iff hsize).2 (hrep.mono hhi)

end

/-- A download is not started exactly if the version of the module cannot be read or is the one
that was announced. -/
theorem start_eq_none_iff [DecidableEq V] {spec : Option (ModuleSpec V)} {version : V} {size : Int}
    {currVer : Option V} :
    Ota.start spec version size currVer = none ↔ currVer = none ∨ currVer = some version := by
  cases currVer <;> simp [Ota.start]

/-- **Progress as a percentage.** A download is announced with a size of zero or more. Every value
that it reports, in every run, is defined and between 0 and 100 exactly if it is not started at
all, or the size is positive, the furthest position fits into 32 bits a hundred times, and is above
the size by less than a hundredth of it. For the upper end that position is the end of the stream,
and there is none if the download begins there or further. For the lower end it is the end of the
stream or the checkpoint that the download begins at. -/
theorem progress_percent_iff [DecidableEq V] (image : V → Image) (version : V) (size : Int)
    (currVer : Option V) (hsize : 0 ≤ size) :
    (∀ t : Upper V, t.pc = .idle →
      ((∀ es : List (Upper.Event V), (∀ f ∈ es, f.GoesOn) → ∀ pos value,
        .progress pos value ∈ (Upper.machine image).trace t (.start version size currVer :: es) →
          Percentage value) ↔
      (currVer = none ∨ currVer = some version) ∨
        (image version).size ≤ getLastOffset t.spec version ∨
        Representable (image version).size size)) ∧
    ∀ t : Lower V, t.At none .idle [] [] →
      ((∀ es : List (Lower.Event V), (∀ f ∈ es, f.GoesOn) → ∀ pos value,
        .progress pos value ∈ (Lower.machine image).trace t (.start version size currVer :: es) →
          Percentage value) ↔
      (currVer = none ∨ currVer = some version) ∨
        Representable (max (getLastOffset t.spec version) (image version).size) size) := by
  refine ⟨?_, ?_⟩
  · intro t hpc
    rw [Upper.percent_iff hsize hpc currVer, start_eq_none_iff]
  · intro t hc
    rw [Lower.percent_iff hsize hc currVer, start_eq_none_iff]

/-- Three bytes that were announced as three, at either end. -/
theorem progress_percent_iff_sample :
    (∀ es : List (Upper.Event Bool), (∀ f ∈ es, f.GoesOn) → ∀ pos value,
      .progress pos value ∈
        (Upper.machine sample).trace (.boot fun _ => 0) (.start true 3 (some false) :: es) →
        Percentage value) ∧
    ∀ es : List (Lower.Event Bool), (∀ f ∈ es, f.GoesOn) → ∀ pos value,
      .progress pos value ∈
        (Lower.machine sample).trace (.boot fun _ => 0) (.start true 3 (some false) :: es) →
        Percentage value := by
  have h := progress_percent_iff sample true 3 (some false) (by decide)
  exact ⟨(h.1 (.boot fun _ => 0) rfl).2 (.inr (.inr ⟨by decide, by decide, by decide⟩)),
    (h.2 (.boot fun _ => 0) ⟨rfl, rfl, rfl, rfl⟩).2 (.inr ⟨by decide, by decide, by decide⟩)⟩

/-- A download announced with size zero divides by zero before its first byte is fetched, and three
bytes that were announced as one are three hundred percent of them. -/
theorem progress_not_percentage :
    .progress 0 none ∈ (Lower.machine sample).trace (Lower.boot fun _ => 0)
      [.start true 0 (some false), .invoke false, .serve .success, .respond, .runTask] ∧
    .progress 3 (some 300) ∈ (Upper.machine sample).trace (Upper.boot fun _ => 0)
      [.start true 1 (some false), .erase none, .fetch 5, .write none, .advance] := by
  decide +kernel

end ChargingPile.Ota
