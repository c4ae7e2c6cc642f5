import ChargingPile.Ota.Lower

/-!
# The moments of a download of the lower end

At every moment of a download exactly one thing is outstanding: the Low thread is at work, or one
remote call is pending, or the task of one callback is posted. `Stage` lists these moments with
what holds in each. The argument about late messages is in the order of the link: a callback that
reports success means that nothing sent before is left to be served, so every request that the
lower end may still serve is a copy of the chunk in hand.
-/

namespace ChargingPile.Ota.Lower

variable {V : Type}

/-- An answer that is handed to a call is the answer to this call. The id alone does not say so: it
may have been used before, by this module or by another caller. -/
def OwnAnswers (t : Lower V) : Event V → Prop
  | .respond => ∀ q ∈ t.link.answers.take 1, ∀ p ∈ t.pendings, p.id = q.2.1 → p.number = q.1
  | .otherAnswer id _ => ∀ p ∈ t.pendings, p.id ≠ id
  | _ => True

instance (t : Lower V) : DecidablePred t.OwnAnswers
  | .respond => inferInstanceAs (Decidable
      (∀ q ∈ t.link.answers.take 1, ∀ p ∈ t.pendings, p.id = q.2.1 → p.number = q.1))
  | .otherAnswer id _ => inferInstanceAs (Decidable (∀ p ∈ t.pendings, p.id ≠ id))
  | .start .. | .otherCall | .invoke .. | .runTask | .fetch .. | .raise | .seekFails | .timeout ..
  | .serve .. | .loseRequest .. | .loseAnswer .. | .powerFails => .isTrue trivial

/-- An answer that is handed to a call and reports success is one of a request that was done. The
source does not look. -/
def AnswersHold (t : Lower V) : Event V → Prop
  | .respond => ∀ q ∈ t.link.answers.take 1, ∀ p ∈ t.pendings, p.id = q.2.1 →
      q.2.2.ok = true → q.2.2.stored = true
  | _ => True

/-- The module, what the Low thread is doing, the calls pending and the tasks posted. -/
structure At (t : Lower V) (mod : Option (OtaLowerModule V)) (pc : Pc)
    (pendings : List Pending) (tasks : List (Callback × Bool)) : Prop where
  mod : t.mod = mod
  pc : t.pc = pc
  pendings : t.pendings = pendings
  tasks : t.tasks = tasks

/-- A module before its first chunk. -/
structure Fresh (m : OtaLowerModule V) : Prop where
  pos : m.currPos = m.offset
  stream : m.streamPos = m.offset
  len : m.recvedLen = 0

/-- The module between two chunks: what it has passed is on the partition, and no request is left
to be served. -/
structure Between (image : V → Image) (tr : List (Output V)) (t : Lower V)
    (m : OtaLowerModule V) : Prop where
  stream : m.streamPos = m.currPos
  base : m.offset ≤ m.currPos
  kept : Agree t.bytes (image m.version).byte m.offset m.currPos
  requests : t.link.requests = []
  failed : failedChunks tr = []

/-- The module with a chunk in hand: every request left to be served is a copy of it, and no other
chunk has failed. -/
structure Loaded (image : V → Image) (tr : List (Output V)) (t : Lower V)
    (m : OtaLowerModule V) : Prop where
  stream : m.streamPos = m.currPos + m.recvedLen
  buf : m.buf = slice (image m.version).byte m.currPos m.recvedLen
  base : m.offset ≤ m.currPos
  kept : Agree t.bytes (image m.version).byte m.offset m.currPos
  requests : ∀ q ∈ t.link.requests, q.2.2 = .write m.currPos m.buf
  failed : ∀ c ∈ failedChunks tr, c = (m.currPos, m.recvedLen)

/-- The chunk in hand is on the partition. -/
structure Stored (image : V → Image) (tr : List (Output V)) (t : Lower V)
    (m : OtaLowerModule V) : Prop where
  chunk : Agree t.bytes (image m.version).byte m.currPos (m.currPos + m.recvedLen)
  failed : failedChunks tr = []

/-- The chunk at `addr` was sent and then acknowledged. -/
def Acknowledged (tr : List (Output V)) (addr len : Nat) : Prop :=
  ∃ n, [.invoked n addr len, .acknowledged n].Sublist tr

/-- The moments of a download, after the outputs `tr`. -/
inductive Stage (image : V → Image) (tr : List (Output V)) (t : Lower V) : Prop
  | idle (hc : At t none .idle [] [])
  | starting (m : OtaLowerModule V) (hc : At t (some m) .starting [] []) (hf : Fresh m)
  | erasing (m : OtaLowerModule V) (id : UInt8) (n : Nat)
      (hc : At t (some m) .idle [⟨id, n, .erase⟩] [])
      (hf : Fresh m) (hnew : ∀ q ∈ t.link.requests, q.1 ≤ n)
      (hreq : ∀ r, (n, r) ∈ t.link.requests → r.2 = .erase m.size m.offset)
      (hans : ∀ a, (n, a) ∈ t.link.answers → a.2.ok = true → failedChunks tr = [])
  | erased (m : OtaLowerModule V) (ok : Bool) (hc : At t (some m) .idle [] [(.erase, ok)])
      (hf : Fresh m) (hok : ok = true → t.link.requests = [] ∧ failedChunks tr = [])
  | fetching (m : OtaLowerModule V) (hc : At t (some m) .fetching [] [])
      (hb : Between image tr t m)
  | sending (m : OtaLowerModule V) (hc : At t (some m) .sending [] []) (hl : Loaded image tr t m)
  | writing (m : OtaLowerModule V) (id : UInt8) (n : Nat)
      (hc : At t (some m) .idle [⟨id, n, .write⟩] [])
      (hl : Loaded image tr t m) (hnew : ∀ q ∈ t.link.requests, q.1 ≤ n)
      (hinv : .invoked n m.currPos m.recvedLen ∈ tr)
      (hans : ∀ a, (n, a) ∈ t.link.answers → a.2.stored = true → Stored image tr t m)
  | written (m : OtaLowerModule V) (ok : Bool) (hc : At t (some m) .idle [] [(.write, ok)])
      (hl : Loaded image tr t m)
      (hok : ok = true → t.link.requests = [] ∧ Stored image tr t m ∧
        Acknowledged tr m.currPos m.recvedLen)

/-- The link keeps its order, and the download is at one of its moments. -/
structure Inv (image : V → Image) (tr : List (Output V)) (t : Lower V) : Prop where
  ordered : t.link.Ordered
  stage : Stage image tr t

section
variable {image : V → Image} {tr tr' : List (Output V)} {t t' : Lower V} {m : OtaLowerModule V}

/-! ## Reading the moment off the control state -/

theorem At.clash {P : Prop} {mod : Option (OtaLowerModule V)} {pc pc' : Pc}
    {pendings : List Pending} {tasks : List (Callback × Bool)}
    (hc : At t mod pc pendings tasks) (hpc : t.pc = pc') (hne : pc ≠ pc') : P :=
  absurd (hc.pc.symm.trans hpc) hne

theorem Stage.of_starting (h : Stage image tr t) (hm : t.mod = some m) (hpc : t.pc = .starting) :
    At t (some m) .starting [] [] ∧ Fresh m := by
  cases h
  case starting m' hc hf =>
    obtain rfl : m' = m := Option.some.inj (hc.mod.symm.trans hm)
    exact ⟨hc, hf⟩
  all_goals exact At.clash (by assumption) hpc (by decide)

theorem Stage.of_fetching (h : Stage image tr t) (hm : t.mod = some m) (hpc : t.pc = .fetching) :
    At t (some m) .fetching [] [] ∧ Between image tr t m := by
  cases h
  case fetching m' hc hb =>
    obtain rfl : m' = m := Option.some.inj (hc.mod.symm.trans hm)
    exact ⟨hc, hb⟩
  all_goals exact At.clash (by assumption) hpc (by decide)

theorem Stage.of_sending (h : Stage image tr t) (hm : t.mod = some m) (hpc : t.pc = .sending) :
    At t (some m) .sending [] [] ∧ Loaded image tr t m := by
  cases h
  case sending m' hc hl =>
    obtain rfl : m' = m := Option.some.inj (hc.mod.symm.trans hm)
    exact ⟨hc, hl⟩
  all_goals exact At.clash (by assumption) hpc (by decide)

/-- What the lower end and the link do does not touch the control state. -/
theorem At.frame {mod : Option (OtaLowerModule V)} {pc : Pc} {pendings : List Pending}
    {tasks : List (Callback × Bool)} (hc : At t mod pc pendings tasks) {bytes : Nat → UInt8}
    {curId : UInt8} {l : Link (UInt8 × Request) (UInt8 × Answer)} :
    At { t with bytes := bytes, curId := curId, link := l } mod pc pendings tasks :=
  ⟨hc.mod, hc.pc, hc.pendings, hc.tasks⟩

/-- The callback of the only call is posted. -/
theorem At.post {mod : Option (OtaLowerModule V)} {pc : Pc} {p : Pending}
    (hc : At t mod pc [p] []) (ok : Bool) : At (t.post p ok) mod pc [] [(p.cb, ok)] :=
  ⟨hc.mod, hc.pc, by simp [Lower.post, hc.pendings], by simp [Lower.post, hc.tasks]⟩

theorem At.noMod {P : Prop} {pc : Pc} {pendings : List Pending}
    {tasks : List (Callback × Bool)} (hc : At t (some m) pc pendings tasks)
    (hm : t.mod = none) : P :=
  nomatch hc.mod.symm.trans hm

theorem At.noPending {P : Prop} {mod : Option (OtaLowerModule V)} {pc : Pc}
    {tasks : List (Callback × Bool)} (hc : At t mod pc [] tasks) {id : UInt8} {p : Pending}
    (h : t.pendings.find? (·.id = id) = some p) : P := by
  rw [hc.pendings] at h
  cases h

theorem At.onePending {mod : Option (OtaLowerModule V)} {pc : Pc} {tasks : List (Callback × Bool)}
    {id : UInt8} {p p' : Pending} (hc : At t mod pc [p'] tasks)
    (h : t.pendings.find? (·.id = id) = some p) : p' = p := by
  have hmem := List.mem_of_find?_eq_some h
  rw [hc.pendings] at hmem
  exact (List.mem_singleton.1 hmem).symm

theorem At.noTask {P : Prop} {mod : Option (OtaLowerModule V)} {pc : Pc}
    {pendings : List Pending} (hc : At t mod pc pendings [])
    {task : Callback × Bool} {tasks : List (Callback × Bool)} (h : t.tasks = task :: tasks) : P :=
  nomatch hc.tasks.symm.trans h

/-- A task that is posted is the only one, and it is the callback of the erase or of a chunk. -/
theorem Stage.of_task (h : Stage image tr t) (hm : t.mod = some m) {cb : Callback} {ok : Bool}
    {tasks : List (Callback × Bool)} (ht : t.tasks = (cb, ok) :: tasks) :
    tasks = [] ∧ t.pendings = [] ∧
      (cb = .erase ∧ Fresh m ∧ (ok = true → t.link.requests = [] ∧ failedChunks tr = []) ∨
        cb = .write ∧ Loaded image tr t m ∧ (ok = true → t.link.requests = [] ∧
          Stored image tr t m ∧ Acknowledged tr m.currPos m.recvedLen)) := by
  cases h
  case erased m' ok' hc hf hok =>
    obtain rfl : m' = m := Option.some.inj (hc.mod.symm.trans hm)
    obtain ⟨⟨rfl, rfl⟩, rfl⟩ : (Callback.erase = cb ∧ ok' = ok) ∧ [] = tasks := by
      simpa using hc.tasks.symm.trans ht
    exact ⟨rfl, hc.pendings, .inl ⟨rfl, hf, hok⟩⟩
  case written m' ok' hc hl hok =>
    obtain rfl : m' = m := Option.some.inj (hc.mod.symm.trans hm)
    obtain ⟨⟨rfl, rfl⟩, rfl⟩ : (Callback.write = cb ∧ ok' = ok) ∧ [] = tasks := by
      simpa using hc.tasks.symm.trans ht
    exact ⟨rfl, hc.pendings, .inr ⟨rfl, hl, hok⟩⟩
  all_goals exact At.noTask (by assumption) ht

/-- At most one callback of a `Write` is outstanding. -/
theorem Stage.oneWrite (h : Stage image tr t) :
    (t.pendings.filter (·.cb = .write)).length + (t.tasks.filter (·.1 = .write)).length ≤ 1 := by
  have hle : ∀ {mod pc pendings tasks}, At t mod pc pendings tasks →
      pendings.length + tasks.length ≤ 1 →
      (t.pendings.filter (·.cb = .write)).length + (t.tasks.filter (·.1 = .write)).length ≤ 1 := by
    intro mod pc pendings tasks hc hle
    have h₁ := List.length_filter_le (fun p : Pending => decide (p.cb = .write)) t.pendings
    have h₂ := List.length_filter_le (fun c : Callback × Bool => decide (c.1 = .write)) t.tasks
    have h₃ := congrArg List.length hc.pendings
    have h₄ := congrArg List.length hc.tasks
    omega
  cases h <;> exact hle (by assumption) (by simp)

/-! ## What lost messages and the server do -/

/-- Losing requests leaves a chunk in hand as it is. -/
theorem Loaded.shrink (h : Loaded image tr t m) (hb : t'.bytes = t.bytes)
    (hr : t'.link.requests ⊆ t.link.requests) (hf : failedChunks tr' = failedChunks tr) :
    Loaded image tr' t' m :=
  ⟨h.stream, h.buf, h.base, hb ▸ h.kept, fun q hq => h.requests q (hr hq), hf ▸ h.failed⟩

theorem Stored.congr (h : Stored image tr t m) (hb : t'.bytes = t.bytes)
    (hf : failedChunks tr' = failedChunks tr) : Stored image tr' t' m :=
  ⟨hb ▸ h.chunk, hf ▸ h.failed⟩

/-- Losing messages keeps the moment. -/
theorem Stage.shrink (h : Stage image tr t) {l : Link (UInt8 × Request) (UInt8 × Answer)}
    (hr : l.requests ⊆ t.link.requests) (ha : l.answers ⊆ t.link.answers) :
    Stage image tr { t with link := l } := by
  have hnil : t.link.requests = [] → l.requests = [] := fun h0 => List.subset_nil.1 (h0 ▸ hr)
  cases h with
  | idle hc => exact .idle hc.frame
  | starting m hc hf => exact .starting m hc.frame hf
  | erasing m id n hc hf hnew hreq hans =>
    exact .erasing m id n hc.frame hf (fun q hq => hnew q (hr hq))
      (fun r hq => hreq r (hr hq)) fun a hq => hans a (ha hq)
  | erased m ok hc hf hok =>
    exact .erased m ok hc.frame hf fun h => ⟨hnil (hok h).1, (hok h).2⟩
  | fetching m hc hb =>
    exact .fetching m hc.frame ⟨hb.stream, hb.base, hb.kept, hnil hb.requests, hb.failed⟩
  | sending m hc hl =>
    exact .sending m hc.frame (hl.shrink rfl hr rfl)
  | writing m id n hc hl hnew hinv hans =>
    exact .writing m id n hc.frame (hl.shrink rfl hr rfl)
      (fun q hq => hnew q (hr hq)) hinv fun a hq hs => (hans a (ha hq) hs).congr rfl rfl
  | written m ok hc hl hok =>
    exact .written m ok hc.frame (hl.shrink rfl hr rfl)
      fun h => ⟨hnil (hok h).1, (hok h).2.1.congr rfl rfl, (hok h).2.2⟩

/-- Ids that other callers take have no part in it. -/
theorem Stage.withCurId (h : Stage image tr t) (curId : UInt8) :
    Stage image tr { t with curId := curId } := by
  cases h with
  | idle hc => exact .idle hc.frame
  | starting m hc hf => exact .starting m hc.frame hf
  | erasing m id n hc hf hnew hreq hans =>
    exact .erasing m id n hc.frame hf hnew hreq hans
  | erased m ok hc hf hok => exact .erased m ok hc.frame hf hok
  | fetching m hc hb =>
    exact .fetching m hc.frame
      ⟨hb.stream, hb.base, hb.kept, hb.requests, hb.failed⟩
  | sending m hc hl =>
    exact .sending m hc.frame (hl.shrink rfl (List.Subset.refl _) rfl)
  | writing m id n hc hl hnew hinv hans =>
    exact .writing m id n hc.frame
      (hl.shrink rfl (List.Subset.refl _) rfl) hnew hinv
        fun a ha hs => (hans a ha hs).congr rfl rfl
  | written m ok hc hl hok =>
    exact .written m ok hc.frame
      (hl.shrink rfl (List.Subset.refl _) rfl)
      fun h => ⟨(hok h).1, (hok h).2.1.congr rfl rfl, (hok h).2.2⟩

/-- The lower end takes a request that is a copy of the chunk in hand, with whatever result. -/
theorem Loaded.serve (h : Loaded image tr t m) {l : Link (UInt8 × Request) (UInt8 × Answer)}
    (hr : l.requests ⊆ t.link.requests) (g : Nat → UInt8) {out : List (Output V)}
    (hout : out = [] ∨ ∃ ok, out = [.wrote m.currPos m.recvedLen ok]) :
    Loaded image (tr ++ out)
      { t with bytes := overwrite t.bytes m.currPos (m.currPos + m.recvedLen) g
               link := l } m := by
  refine ⟨h.stream, h.buf, h.base, h.kept.overwrite_above (Nat.le_refl _),
    fun q hq => h.requests q (hr hq), ?_⟩
  rcases hout with rfl | ⟨ok, rfl⟩
  · simpa using h.failed
  · intro c hcm
    cases ok with
    | false =>
      simp only [failedChunks_append, List.foldl_cons, List.foldl_nil, Output.mark,
        List.mem_cons] at hcm
      exact hcm.elim id (h.failed c)
    | true =>
      simp only [failedChunks_append, List.foldl_cons, List.foldl_nil, Output.mark,
        List.mem_filter] at hcm
      exact h.failed c hcm.1

/-- A copy of the chunk in hand that is written is on the partition, and no chunk is left that
failed. -/
theorem Loaded.stored (h : Loaded image tr t m) {l : Link (UInt8 × Request) (UInt8 × Answer)} :
    Stored image (tr ++ [Output.wrote m.currPos m.recvedLen true])
      { t with bytes := overwrite t.bytes m.currPos (m.currPos + m.recvedLen)
                          (image m.version).byte, link := l } m := by
  refine ⟨.overwrite_self _ _ _ _, ?_⟩
  simp only [failedChunks_append, List.foldl_cons, List.foldl_nil, Output.mark,
    List.filter_eq_nil_iff]
  intro c hcm
  simp [h.failed c hcm]

/-- While the call of the newest request waits, a request left to be served means that it has not
been answered. -/
theorem Inv.unanswered (h : Inv image tr t) {n : Nat} {q : Nat × UInt8 × Request}
    {rs : List (Nat × UInt8 × Request)} (hnew : ∀ q ∈ t.link.requests, q.1 ≤ n)
    (hq : t.link.requests = q :: rs) (a : UInt8 × Answer) : (n, a) ∉ t.link.answers := by
  intro ha
  exact nomatch hq.symm.trans (h.ordered.requests_nil ha hnew)

/-- An answer is handed to the call with its id: one that reports failure, or the answer to
this very call. -/
theorem deliver_stage (h : Inv image tr t) {id : UInt8} {ok : Bool}
    (hown : ok = true → ∀ p ∈ t.pendings, p.id = id →
      ∃ a, (p.number, a) ∈ t.link.answers ∧ a.2.ok = true ∧ a.2.stored = true) :
    Stage image (tr ++ (t.deliver id ok).2) (t.deliver id ok).1 := by
  simp only [deliver]
  split
  · simpa using h.stage
  next p hp =>
  have hid : p.id = id := by simpa using List.find?_some hp
  have hmem := List.mem_of_find?_eq_some hp
  cases h.stage
  case erasing m id' n hat hf hnew hreq hans =>
    obtain rfl := hat.onePending hp
    refine .erased m ok (hat.post ok) hf fun hok => ?_
    obtain ⟨a, ha, haok, -⟩ := hown hok _ hmem hid
    exact ⟨h.ordered.requests_nil ha hnew, by simpa using hans a ha haok⟩
  case writing m id' n hat hl hnew hinv hans =>
    obtain rfl := hat.onePending hp
    have hmark : ∀ out : List (Output V), out = [] ∨ out = [.acknowledged n] →
        failedChunks (tr ++ out) = failedChunks tr := by
      rintro out (rfl | rfl) <;> simp [Output.mark]
    refine .written m ok (hat.post ok) (hl.shrink rfl (List.Subset.refl _) (hmark _ ?_)) ?_
    · split <;> simp
    · intro hok
      obtain ⟨a, ha, -, hst⟩ := hown hok _ hmem hid
      refine ⟨h.ordered.requests_nil ha hnew, (hans a ha hst).congr rfl (hmark _ ?_), n, ?_⟩
      · split <;> simp
      · have hsub := (List.singleton_sublist.2 hinv).append (List.Sublist.refl [.acknowledged n])
        simpa [hok] using hsub
  all_goals exact At.noPending (by assumption) hp

/-- After a callback that reports success, the module is between two chunks. -/
theorem proceed_stage {m : OtaLowerModule V} (hp : t.pendings = []) (ht : t.tasks = [])
    (hstream : m.streamPos = m.currPos + m.recvedLen) (hbase : m.offset ≤ m.currPos)
    (hkept : Agree t.bytes (image m.version).byte m.offset (m.currPos + m.recvedLen))
    (hr : t.link.requests = []) (hf : failedChunks tr = []) :
    Stage image (tr ++ (t.proceed m).2) (t.proceed m).1 := by
  obtain ⟨l, hu⟩ := advance_mod t.spec m.toOtaModule m.recvedLen
  refine .fetching _ ⟨rfl, rfl, hp, ht⟩ ⟨?_, ?_, ?_, hr, by simpa [proceed] using hf⟩ <;>
    simp only [proceed, hu]
  · exact hstream
  · omega
  · exact hkept

end

section
variable [DecidableEq V] {image : V → Image} {tr : List (Output V)} {t : Lower V}

/-- The lower end serves a copy of the chunk in hand: whatever becomes of it, only the bytes of the
chunk change, and an answer that says that it was stored is right. -/
theorem serve_loaded {m : OtaLowerModule V} (hl : Loaded image tr t m) {i : Nat}
    {id : UInt8} {r : Request} {rs : List (Nat × UInt8 × Request)}
    (hq : t.link.requests = (i, id, r) :: rs) (o : Outcome) :
    ∃ g l out, step image t (.serve o) =
        ({ t with bytes := overwrite t.bytes m.currPos (m.currPos + m.recvedLen) g
                  link := l }, out) ∧
      l.requests = rs ∧ (out = [] ∨ ∃ ok, out = [.wrote m.currPos m.recvedLen ok]) ∧
      ∀ n a, (n, a) ∈ l.answers → (n, a) ∈ t.link.answers ∨
        (a.2.stored = true → g = (image m.version).byte ∧
          out = [.wrote m.currPos m.recvedLen true]) := by
  obtain rfl : r = .write m.currPos m.buf := hl.requests (i, id, r) (hq ▸ List.mem_cons_self)
  have hlen : m.buf.length = m.recvedLen := by rw [hl.buf, length_slice]
  cases o with
  | success =>
    refine ⟨(image m.version).byte, t.link.serve (id, ⟨true, true⟩), _, ?_, ?_, .inr ⟨true, rfl⟩,
      ?_⟩
    · have hp : program t.bytes m.currPos m.buf = overwrite t.bytes m.currPos
          (m.currPos + m.recvedLen) (image m.version).byte := by rw [hl.buf, program_slice]
      simp [step, hq, Request.apply, Request.answer, Request.report, hlen, hp]
    · rw [Link.serve_cons hq]
    · intro _ _ _
      exact .inr fun _ => ⟨rfl, rfl⟩
  | fault junk =>
    refine ⟨junk, t.link.serve (id, ⟨true, false⟩), _, ?_, ?_, .inr ⟨false, rfl⟩, ?_⟩
    · simp [step, hq, Request.range, Request.answer, Request.report, hlen]
    · rw [Link.serve_cons hq]
    · intro n a ha
      rw [Link.serve_cons hq] at ha
      rcases List.mem_append.1 ha with ha | ha
      · exact .inl ha
      · obtain ⟨-, rfl⟩ := Prod.mk.inj (List.mem_singleton.1 ha)
        exact .inr nofun
  | torn junk =>
    refine ⟨junk, t.link.loseRequest 0, [], ?_, ?_, .inl rfl, fun _ _ ha => .inl ha⟩
    · simp [step, hq, Request.range, hlen]
    · simp [Link.loseRequest, hq]

/-- The lower end serves a request. -/
theorem serve_stage (h : Inv image tr t) (o : Outcome) :
    Stage image (tr ++ (step image t (.serve o)).2) (step image t (.serve o)).1 := by
  cases hq : t.link.requests with
  | nil => simpa [step, hq] using h.stage
  | cons q rs =>
  obtain ⟨i, id₀, r⟩ := q
  have hrs : rs ⊆ t.link.requests := hq ▸ List.subset_cons_self _ _
  have hmem : (i, id₀, r) ∈ t.link.requests := hq ▸ List.mem_cons_self
  cases h.stage with
  | idle hc =>
    cases o <;> simp only [step, hq] <;> exact .idle hc.frame
  | starting m hc hf =>
    cases o <;> simp only [step, hq] <;>
      exact .starting m hc.frame hf
  | erasing m id n hc hf hnew hreq hans =>
    have hno := h.unanswered hnew hq
    cases o with
    | success =>
      simp only [step, hq, Link.serve_cons hq]
      refine .erasing m id n hc.frame hf (fun q hq => hnew q (hrs hq))
        (fun r hr => hreq r (hrs hr)) ?_
      intro a ha _
      rcases List.mem_append.1 ha with ha | ha
      · exact absurd ha (hno a)
      · obtain ⟨rfl, rfl⟩ := Prod.mk.inj (List.mem_singleton.1 ha)
        obtain rfl : r = .erase m.size m.offset := hreq _ hmem
        simp [Request.report, Output.mark]
    | fault junk =>
      simp only [step, hq, Link.serve_cons hq]
      refine .erasing m id n hc.frame hf (fun q hq => hnew q (hrs hq))
        (fun r hr => hreq r (hrs hr)) ?_
      intro a ha hok
      rcases List.mem_append.1 ha with ha | ha
      · exact absurd ha (hno a)
      · obtain ⟨rfl, rfl⟩ := Prod.mk.inj (List.mem_singleton.1 ha)
        obtain rfl : r = .erase m.size m.offset := hreq _ hmem
        cases hok
    | torn junk =>
      simp only [step, hq, Link.loseRequest, List.eraseIdx_zero, List.tail_cons]
      exact .erasing m id n hc.frame hf (fun q hq => hnew q (hrs hq))
        (fun r hr => hreq r (hrs hr)) fun a ha => absurd ha (hno a)
  | erased m ok hc hf hok =>
    have hfalse : ok = true → False := fun h0 => nomatch hq.symm.trans (hok h0).1
    cases o <;> simp only [step, hq] <;>
      exact .erased m ok hc.frame hf fun h0 => (hfalse h0).elim
  | fetching m hc hb => exact nomatch hq.symm.trans hb.requests
  | sending m hc hl =>
    obtain ⟨g, l, out, hstep, rfl, hout, -⟩ := serve_loaded hl hq o
    rw [hstep]
    exact .sending m hc.frame (hl.serve hrs g hout)
  | writing m id n hc hl hnew hinv hans =>
    obtain ⟨g, l, out, hstep, rfl, hout, hnewans⟩ := serve_loaded hl hq o
    rw [hstep]
    refine .writing m id n hc.frame (hl.serve hrs g hout)
      (fun q hq => hnew q (hrs hq)) (List.mem_append_left _ hinv) ?_
    intro a ha hst
    rcases hnewans n a ha with ha | ha
    · exact absurd ha (h.unanswered hnew hq a)
    · obtain ⟨rfl, rfl⟩ := ha hst
      exact hl.stored
  | written m ok hc hl hok =>
    have hfalse : ok = true → False := fun h0 => nomatch hq.symm.trans (hok h0).1
    obtain ⟨g, l, out, hstep, rfl, hout, -⟩ := serve_loaded hl hq o
    rw [hstep]
    exact .written m ok hc.frame (hl.serve hrs g hout)
      fun h0 => (hfalse h0).elim

/-! ## What the upper end does -/

/-- An answer leaves the link and is handed to the call with its id. -/
theorem respond_stage (h : Inv image tr t) (hown : OwnAnswers t .respond)
    (hc : AnswersHold t .respond) :
    Stage image (tr ++ (step image t .respond).2) (step image t .respond).1 := by
  simp only [step]
  split
  · simpa using h.stage
  next n id a as has =>
  have hhead : (n, id, a) ∈ t.link.answers.take 1 := by simp [has]
  rw [deliver_withLink]
  refine (deliver_stage h ?_).shrink ?_ ?_
  · intro hok p hp hid
    refine ⟨(id, a), ?_, hok, hc _ hhead p hp hid hok⟩
    rw [hown _ hhead p hp hid]
    exact List.mem_of_mem_take hhead
  · rw [deliver_link]
    exact List.Subset.refl _
  · rw [deliver_link]
    exact (List.eraseIdx_sublist _ _).subset

/-- The Low thread makes a remote call. -/
theorem invoke_stage (h : Inv image tr t) (busy : Bool) :
    Stage image (tr ++ (step image t (.invoke busy)).2) (step image t (.invoke busy)).1 := by
  have hids : ∀ q ∈ t.link.requests, q.1 < t.link.nextId := fun q hq =>
    h.ordered.fresh q.1 (List.mem_append_right _ (List.mem_map_of_mem hq))
  have hno : ∀ a, (t.link.nextId, a) ∉ t.link.answers := fun a ha =>
    absurd (h.ordered.fresh _ (List.mem_append_left _ (List.mem_map_of_mem ha))) (Nat.lt_irrefl _)
  have hnew : ∀ r, ∀ q ∈ (t.link.send r).requests, q.1 ≤ t.link.nextId := by
    intro r q hq
    rcases List.mem_append.1 hq with hq | hq
    · exact Nat.le_of_lt (hids q hq)
    · exact Nat.le_of_eq (by rw [List.mem_singleton.1 hq])
  simp only [step]
  split
  next m hm hpc =>
    obtain ⟨hc, hf⟩ := h.stage.of_starting hm hpc
    split
    · exact .idle ⟨rfl, rfl, rfl, rfl⟩
    · refine .erasing m t.curId t.link.nextId ⟨hc.mod, rfl, by simp [call, hc.pendings],
        hc.tasks⟩ hf (hnew _) ?_ fun a ha => absurd ha (hno a)
      intro r hr
      rcases List.mem_append.1 hr with hr | hr
      · exact absurd (hids _ hr) (Nat.lt_irrefl _)
      · rw [(Prod.mk.inj (List.mem_singleton.1 hr)).2]
  next m hm hpc =>
    obtain ⟨hc, hl⟩ := h.stage.of_sending hm hpc
    split
    · simpa using h.stage
    · have hlen : m.buf.length = m.recvedLen := by rw [hl.buf, length_slice]
      refine .writing m t.curId t.link.nextId ⟨hc.mod, rfl, by simp [call, hc.pendings], hc.tasks⟩
        ⟨hl.stream, hl.buf, hl.base, hl.kept, ?_, by simpa [Output.mark] using hl.failed⟩ (hnew _)
        (by simp [hlen]) fun a ha => absurd ha (hno a)
      intro q hq
      rcases List.mem_append.1 hq with hq | hq
      · exact hl.requests q hq
      · rw [List.mem_singleton.1 hq]
  · simpa using h.stage

/-- The Low thread takes the next task. -/
theorem runTask_stage (h : Inv image tr t) :
    Stage image (tr ++ (step image t .runTask).2) (step image t .runTask).1 := by
  simp only [step]
  split
  next m cb ok tasks hm hpc ht =>
    obtain ⟨rfl, hp, ⟨rfl, hf, hok⟩ | ⟨rfl, hl, hok⟩⟩ := h.stage.of_task hm ht
    · cases ok with
      | false => exact .idle ⟨rfl, rfl, rfl, rfl⟩
      | true =>
        obtain ⟨hr, hfail⟩ := hok rfl
        refine proceed_stage hp rfl ?_ (Nat.le_of_eq hf.pos.symm) ?_ hr hfail
        · rw [hf.stream, hf.pos, hf.len, Nat.add_zero]
        · rw [hf.pos, hf.len]
          exact .empty _ _ _
    · cases ok with
      | false =>
        exact .sending m ⟨hm, rfl, hp, rfl⟩
          (hl.shrink rfl (List.Subset.refl _) (by simp [task]))
      | true =>
        obtain ⟨hr, hst, -⟩ := hok rfl
        exact proceed_stage hp rfl hl.stream hl.base (hl.kept.append hst.chunk) hr hst.failed
  · simpa using h.stage

/-- What a step does to the link: nothing, a new request, one that is served and answered with the
result of the flash, or the loss of a message. -/
theorem step_link (image : V → Image) (t : Lower V) (e : Event V) :
    (step image t e).1.link = t.link ∨ (∃ r, (step image t e).1.link = t.link.send r) ∨
    (∃ i id r rs ok, t.link.requests = (i, id, r) :: rs ∧
      (step image t e).1.link = t.link.serve (id, r.answer ok) ∧
      (ok = false → ∃ junk, e = .serve (.fault junk))) ∨
    (∃ n, (step image t e).1.link = t.link.loseRequest n) ∨
    ∃ n, (step image t e).1.link = t.link.loseAnswer n := by
  cases e with
  | start | raise | seekFails => simp only [step]; split <;> exact .inl rfl
  | otherCall => exact .inl rfl
  | otherAnswer id ok => exact .inl (deliver_link t id ok)
  | timeout id => exact .inl (deliver_link t id false)
  | invoke busy =>
    simp only [step]
    split
    · cases busy
      · exact .inr (.inl ⟨_, rfl⟩)
      · exact .inl rfl
    · cases busy
      · exact .inr (.inl ⟨_, rfl⟩)
      · exact .inl rfl
    · exact .inl rfl
  | runTask =>
    simp only [step]
    split
    · unfold task
      split <;> exact .inl rfl
    · exact .inl rfl
  | fetch =>
    simp only [step]
    split
    · split <;> exact .inl rfl
    · exact .inl rfl
  | respond =>
    simp only [step]
    split
    · exact .inl rfl
    · exact .inr (.inr (.inr (.inr ⟨0, deliver_link _ _ _⟩)))
  | serve o =>
    simp only [step]
    split
    next hq => exact .inr (.inr (.inl ⟨_, _, _, _, true, hq, rfl, nofun⟩))
    next junk hq => exact .inr (.inr (.inl ⟨_, _, _, _, false, hq, rfl, fun _ => ⟨junk, rfl⟩⟩))
    · exact .inr (.inr (.inr (.inl ⟨0, rfl⟩)))
    · exact .inl rfl
  | loseRequest n => exact .inr (.inr (.inr (.inl ⟨n, rfl⟩)))
  | loseAnswer n => exact .inr (.inr (.inr (.inr ⟨n, rfl⟩)))
  | powerFails => exact .inl rfl

/-- Each step of the two ends keeps the order of the link. -/
theorem step_ordered (h : t.link.Ordered) (e : Event V) : (step image t e).1.link.Ordered := by
  rcases step_link image t e with hl | ⟨r, hl⟩ | ⟨_, _, _, _, _, _, hl, _⟩ | ⟨n, hl⟩ | ⟨n, hl⟩ <;>
    rw [hl]
  · exact h
  · exact h.send r
  · exact h.serve _
  · exact h.loseRequest n
  · exact h.loseAnswer n

/-- Each step of the two ends keeps the invariant. -/
theorem step_inv {e : Event V} (h : Inv image tr t) (hown : OwnAnswers t e)
    (hc : AnswersHold t e) :
    Inv image (tr ++ (step image t e).2) (step image t e).1 := by
  refine ⟨step_ordered h.ordered e, ?_⟩
  cases e with
  | start version size currVer =>
    simp only [step]
    split
    next m hm hs =>
      obtain rfl := start_eq_some hs
      cases h.stage
      case idle hat => exact .starting _ ⟨rfl, rfl, hat.pendings, hat.tasks⟩ ⟨rfl, rfl, rfl⟩
      all_goals exact At.noMod (by assumption) hm
    · simpa using h.stage
  | otherCall =>
    simp only [step, List.append_nil]
    exact h.stage.withCurId _
  | otherAnswer id ok =>
    simp only [step, deliver_none hown]
    simpa using h.stage
  | invoke busy => exact invoke_stage h busy
  | runTask => exact runTask_stage h
  | fetch n =>
    simp only [step]
    split
    next m hm hpc =>
      obtain ⟨hat, hb⟩ := h.stage.of_fetching hm hpc
      split
      · exact .idle ⟨rfl, rfl, rfl, rfl⟩
      · refine .sending _ ⟨rfl, rfl, hat.pendings, hat.tasks⟩ ⟨?_, ?_, hb.base, hb.kept, ?_, ?_⟩
        · rw [hb.stream]
        · rw [hb.stream]
          exact Image.readData_eq ..
        · simp [hb.requests]
        · simp [hb.failed]
    · simpa using h.stage
  | raise =>
    simp only [step]
    split
    next m hm hpc =>
      obtain ⟨hat, hb⟩ := h.stage.of_fetching hm hpc
      exact .fetching _ ⟨rfl, hat.pc, hat.pendings, hat.tasks⟩
        ⟨rfl, hb.base, hb.kept, hb.requests, by simpa using hb.failed⟩
    · simpa using h.stage
  | seekFails =>
    simp only [step]
    split
    · exact .idle ⟨rfl, rfl, rfl, rfl⟩
    · simpa using h.stage
  | respond => exact respond_stage h hown hc
  | timeout id => exact deliver_stage h nofun
  | serve o => exact serve_stage h o
  | loseRequest n =>
    simp only [step, List.append_nil]
    exact h.stage.shrink (List.eraseIdx_sublist _ _).subset (List.Subset.refl _)
  | loseAnswer n =>
    simp only [step, List.append_nil]
    exact h.stage.shrink (List.Subset.refl _) (List.eraseIdx_sublist _ _).subset
  | powerFails => exact .idle ⟨rfl, rfl, rfl, rfl⟩

/-- The invariant holds at the end of every run in which the answers hold and reach their own
calls. -/
theorem run_inv {bytes : Nat → UInt8} {es : List (Event V)}
    (hown : (machine image).Along OwnAnswers (boot bytes) es)
    (hc : (machine image).Along AnswersHold (boot bytes) es) :
    Inv image ((machine image).trace (boot bytes) es) ((machine image).run (boot bytes) es) :=
  Machine.trace_inv (hown.and hc) ⟨.empty, .idle ⟨rfl, rfl, rfl, rfl⟩⟩
    fun _ _ _ h hc => step_inv h hc.1 hc.2

end

end ChargingPile.Ota.Lower
