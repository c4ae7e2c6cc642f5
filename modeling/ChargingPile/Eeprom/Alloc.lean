import ChargingPile.Eeprom.Heap

/-!
# Calls of `alloc`

The loop of `alloc` goes once around the ring of idle blocks and finds the smallest one that is
large enough (`Best`). If the sizes fit the 32 bits in which they are computed, and the device the
16 bits of an address, then every call leaves a heap, whatever was allocated before. Both
conditions are needed (`alloc_wellFormed_iff`): on a larger device a block would begin at `null`
or the size of the first one does not fit, and the size of a request together with that of a
header could wrap, so that a request of almost 4 GiB is granted from any block that is large
enough for the rest.
-/

namespace ChargingPile.Eeprom.Direct

open Machine

variable {cfg : Config} {v w : Nat → UInt8} {allocSize fuel size b y : Nat}
  {l idle alloc : List Nat}

/-! ## The search -/

/-- The best of some idle blocks is the smallest one that is large enough, `null` if
there is none. -/
inductive Best (v : Nat → UInt8) (allocSize : Nat) (l : List Nat) : Nat → Prop
  | none (h : ∀ y ∈ l, peek v y 2 < allocSize) : Best v allocSize l null
  | some {b : Nat} (hb : b ∈ l) (hsize : allocSize ≤ peek v b 2)
      (hmin : ∀ y ∈ l, allocSize ≤ peek v y 2 → peek v b 2 ≤ peek v y 2) : Best v allocSize l b

/-- One turn of the loop. -/
theorem Best.concat (h : Best v allocSize l b) (hnull : null ∉ l) :
    Best v allocSize (l ++ [y]) (better v allocSize b y) := by
  cases h with
  | none h =>
    rw [better, if_pos rfl]
    split
    next hy =>
      refine .some (by simp) hy (List.forall_mem_append.2 ⟨fun c hc hle => ?_, ?_⟩)
      · exact absurd (h c hc) (Nat.not_lt.2 hle)
      · exact List.forall_mem_singleton.2 fun _ => Nat.le_refl _
    next hy =>
      exact .none (List.forall_mem_append.2 ⟨h, List.forall_mem_singleton.2 (Nat.not_le.1 hy)⟩)
  | some hb hsize hmin =>
    rw [better, if_neg (ne_of_mem_of_not_mem hb hnull)]
    split
    next hy =>
      refine .some (by simp) hy.1 (List.forall_mem_append.2 ⟨fun c hc hle => ?_, ?_⟩)
      · exact Nat.le_trans (Nat.le_of_lt hy.2) (hmin c hc hle)
      · exact List.forall_mem_singleton.2 fun _ => Nat.le_refl _
    next hy =>
      refine .some (List.mem_append_left _ hb) hsize (List.forall_mem_append.2 ⟨hmin, ?_⟩)
      exact List.forall_mem_singleton.2 fun hle => Nat.not_lt.1 fun hlt => hy ⟨hle, hlt⟩

theorem best_foldl (hnull : null ∉ l) :
    Best v allocSize l (l.foldl (better v allocSize) null) := by
  induction l using List.reverseRecOn with
  | nil => exact .none fun y hy => absurd hy List.not_mem_nil
  | append_singleton l y ih =>
    have hnull' : null ∉ l := fun hmem => hnull (List.mem_append_left _ hmem)
    rw [List.foldl_concat]
    exact (ih hnull').concat hnull'

/-- The loop goes on until it is back at the front. -/
theorem bestFit_eq {c front minDiffNode : Nat} (hfront : peek v 4 2 = front)
    (hchain : (c :: l).IsChain (Links (next v) (prev v)))
    (hlast : ∀ z ∈ (c :: l).getLast?, next v z = front) (hnot : front ∉ l)
    (hfuel : l.length < fuel) :
    bestFit v allocSize fuel c minDiffNode =
      some ((c :: l).foldl (better v allocSize) minDiffNode) := by
  induction fuel generalizing c l minDiffNode with
  | zero => exact absurd hfuel (Nat.not_lt_zero _)
  | succ fuel ih =>
    cases l with
    | nil =>
      have hnext : peek v (c + heapNode.next) 2 = front := hlast c rfl
      rw [bestFit, hnext, hfront]
      exact if_neg (not_not.2 rfl)
    | cons d l =>
      obtain ⟨hd, hchain⟩ := List.isChain_cons_cons.1 hchain
      have hne : d ≠ front := fun heq => hnot (heq ▸ List.mem_cons_self)
      have hnext : peek v (c + heapNode.next) 2 = d := hd.1
      rw [List.getLast?_cons_cons] at hlast
      rw [bestFit, hnext, hfront]
      refine (if_pos hne).trans (ih hchain hlast ?_ (Nat.lt_of_succ_lt_succ hfuel))
      exact List.not_mem_of_not_mem_cons hnot

/-- A memory has one list of idle blocks. -/
theorem Heap.idle_unique {idle' alloc' : List Nat} (h : Heap cfg v idle alloc)
    (h' : Heap cfg v idle' alloc') : idle = idle' :=
  h.idleListed.unique h'.idleListed (List.nodup_append.1 h.nodup).1
    (List.nodup_append.1 h'.nodup).1

/-- The search ends on a heap with an idle block, -/
theorem Heap.exists_best (h : Heap cfg v idle alloc) (hne : idle ≠ []) (hfuel : idle.length ≤ fuel)
    (allocSize : Nat) :
    ∃ b, Best v allocSize idle b ∧ bestFit v allocSize fuel (peek v 4 2) null = some b := by
  refine ⟨_, best_foldl h.idleListed.null, ?_⟩
  cases idle with
  | nil => exact absurd rfl hne
  | cons c l =>
    have hfront : peek v 4 2 = c := h.idleListed.front
    obtain ⟨hchain, hlast⟩ := ring_cons.1 h.idleListed.ring
    have hnot := (List.nodup_cons.1 (List.nodup_append.1 h.nodup).1).1
    rw [hfront]
    exact bestFit_eq hfront hchain (fun z hz => (hlast z hz).1) hnot hfuel

/-- and this is what a call does there. -/
theorem Heap.alloc_eq (h : Heap cfg v idle alloc)
    (hfit : bestFit v ((size + 6) % 4294967296) fuel (peek v 4 2) null = some b) :
    Direct.alloc cfg fuel size v =
      some (if b = null then (.error (.runtimeError "alloc failed"), v)
      else (.ok ((b + 6) % 65536), Direct.takeBlock v size b)) := by
  rw [Direct.alloc, if_neg (not_not.2 h.magic)]
  exact congrArg (Option.map _) hfit

/-! ## Formatting -/

theorem spaced_first : Spaced [12] := ⟨by simp, by simp⟩

/-- New metadata have empty lists, -/
theorem blankMeta_lists (cfg : Config) (v : Nat → UInt8) : Lists (blankMeta cfg v) [] [] := by
  refine ⟨⟨?_, ring_nil, List.not_mem_nil⟩, ⟨?_, ring_nil, List.not_mem_nil⟩, ⟨by simp, by simp⟩,
    List.nodup_nil⟩
  · simp (disch := omega) only [blankMeta, peek_poke_of_apart, peek_poke_self]
    rfl
  · simp (disch := omega) only [blankMeta, peek_poke_of_apart, peek_poke_self]
    rfl

/-- formatting adds a block to them, -/
theorem format_lists (cfg : Config) (v : Nat → UInt8) :
    Lists (format cfg v) [12] [] ∧ peek (format cfg v) 0 4 = cfg.magic.toNat ∧
      peek (format cfg v) 12 2 = (cfg.deviceSize + 4294967296 - 18) % 65536 := by
  obtain ⟨hlists, hz, hkept⟩ :=
    (blankMeta_lists cfg v).create spaced_first List.not_mem_nil (by decide)
    (Nat.mod_lt (cfg.deviceSize + 4294967296 - 18) (by decide : 0 < 65536))
  refine ⟨hlists, hkept.1.trans ?_, hz⟩
  simp (disch := omega) only [blankMeta, peek_poke_of_apart, peek_poke_self]
  exact Nat.mod_eq_of_lt cfg.magic.toNat_lt

/-- and this is a heap if its size fits. -/
theorem format_heap (v : Nat → UInt8) (h : 18 ≤ cfg.deviceSize) (h' : cfg.deviceSize ≤ 65553) :
    Heap cfg (format cfg v) [12] [] := by
  obtain ⟨hlists, hmagic, hz⟩ := format_lists cfg v
  refine ⟨hmagic, hlists.idleListed, hlists.allocListed, [12], .refl _, rfl, ?_, ?_⟩
  · change 12 < 12 + 6 + peek (format cfg v) 12 2
    omega
  · change 12 + 6 + peek (format cfg v) 12 2 = cfg.deviceSize
    omega

/-- The block is taken for every request that seems to fit. -/
theorem format_alloc (v : Nat → UInt8) (h : 18 ≤ cfg.deviceSize) (h' : cfg.deviceSize ≤ 65553)
    (hfuel : 0 < fuel) (hsize : (size + 6) % 4294967296 ≤ cfg.deviceSize - 18) :
    Direct.alloc cfg fuel size (format cfg v) =
      some (.ok 18, takeBlock (format cfg v) size 12) := by
  have hz := (format_lists cfg v).2.2
  have hheap := format_heap v h h'
  obtain ⟨c, hbest, hfit⟩ :=
    hheap.exists_best (List.cons_ne_nil _ _) hfuel ((size + 6) % 4294967296)
  cases hbest with
  | none hnone =>
    have := hnone 12 List.mem_cons_self
    omega
  | some hmem =>
    obtain rfl := List.mem_singleton.1 hmem
    rw [hheap.alloc_eq hfit, if_neg (by decide)]

/-! ## Runs -/

/-- What is expected of the device after some calls of `alloc`: the memory is a heap in which every
region that was returned is an allocated block that is at least as large as requested, no two of
the regions overlap, and every call has come to an end. -/
structure WellFormed (cfg : Config) (tr : List Call) (v : Nat → UInt8) : Prop where
  heap : ∃ idle alloc, Heap cfg v idle alloc ∧
    ∀ r ∈ granted tr, ∃ b ∈ alloc, r.1 = b + 6 ∧ r.2 ≤ peek v b 2
  apart : (granted tr).Pairwise Apart
  ends : ∀ c ∈ tr, c.2 ≠ none

/-- The regions are the allocated blocks, in the order of the calls, and there is one
idle block. -/
structure Served (cfg : Config) (tr : List Call) (v : Nat → UInt8) (b : Nat) (alloc : List Nat) :
    Prop where
  heap : Heap cfg v [b] alloc
  regions : granted tr = alloc.map fun y => (y + 6, peek v y 2)
  ends : ∀ c ∈ tr, c.2 ≠ none

theorem Served.wellFormed {tr : List Call} (h : Served cfg tr v b alloc) :
    WellFormed cfg tr v := by
  refine ⟨⟨[b], alloc, h.heap, fun r hr => ?_⟩, ?_, h.ends⟩
  · rw [h.regions] at hr
    obtain ⟨y, hy, rfl⟩ := List.mem_map.1 hr
    exact ⟨y, hy, rfl, Nat.le_refl _⟩
  · rw [h.regions, List.pairwise_map]
    refine (List.nodup_append.1 h.heap.nodup).2.1.pairwise_of_forall_ne fun x hx y hy hne => ?_
    have := h.heap.block_apart (List.mem_append_right _ hx) (List.mem_append_right _ hy)
    dsimp only [Apart]
    omega

/-- A request does not wrap, or none of the idle blocks is large enough for what is left of it. -/
def Fits (cfg : Config) (v : Nat → UInt8) (size : UInt32) : Prop :=
  size.toNat + 6 < 4294967296 ∨
    ∀ idle alloc, Heap cfg v idle alloc → ∀ b ∈ idle, peek v b 2 < (size.toNat + 6) % 4294967296

section
variable {tr : List Call} {request : UInt32}

theorem machine_step {r : Except Exception Nat}
    (h : Direct.alloc cfg fuel request.toNat v = some (r, w)) :
    (machine cfg fuel).step v request = (w, [(request, some r)]) := by
  dsimp only [machine]
  rw [h]

theorem granted_concat (tr : List Call) (c : Call) :
    granted (tr ++ [c]) = granted tr ++ c.region.toList := by
  rw [granted, List.filterMap_append]
  cases hc : c.region with
  | none => simp [granted, hc]
  | some r => simp [granted, hc]

/-- The next call has come to an end. -/
theorem ends_concat (h : ∀ c ∈ tr, c.2 ≠ none) (r : Except Exception Nat) :
    ∀ c ∈ tr ++ [(request, some r)], c.2 ≠ none :=
  List.forall_mem_append.2 ⟨h, List.forall_mem_singleton.2 (Option.some_ne_none r)⟩

/-- A call keeps that. -/
theorem Served.step (h : Served cfg tr v b alloc) (hfuel : 0 < fuel)
    (hdevice : cfg.deviceSize ≤ 65540) (hfits : Fits cfg v request) :
    ∃ b' alloc', Served cfg (tr ++ ((machine cfg fuel).step v request).2)
      ((machine cfg fuel).step v request).1 b' alloc' := by
  obtain ⟨c, hbest, hfit⟩ := h.heap.exists_best (List.cons_ne_nil _ _) hfuel
    ((request.toNat + 6) % 4294967296)
  have halloc := h.heap.alloc_eq hfit
  cases hbest with
  | none =>
    rw [if_pos rfl] at halloc
    rw [machine_step halloc]
    refine ⟨b, alloc, h.heap, ?_, ends_concat h.ends _⟩
    rw [granted_concat, h.regions]
    exact List.append_nil _
  | some hmem hsize hmin =>
    obtain rfl := List.mem_singleton.1 hmem
    rw [if_neg (ne_of_mem_of_not_mem hmem h.heap.idleListed.null)] at halloc
    have hexact : request.toNat + 6 < 4294967296 := hfits.resolve_right fun hall =>
      Nat.not_lt.2 hsize (hall _ _ h.heap c hmem)
    rw [Nat.mod_eq_of_lt hexact] at hsize
    -- the block ends on the device, so the new one has an address
    have hle := (h.heap.block_le (List.mem_append_left _ hmem)).2
    have hheap : Heap cfg v ([] ++ c :: []) alloc := h.heap
    obtain ⟨hheap, hc, hold⟩ := hheap.takeBlock hsize (by rw [null]; omega)
    rw [machine_step halloc, Nat.mod_eq_of_lt (by omega)]
    refine ⟨c + 6 + request.toNat, alloc ++ [c], hheap, ?_, ends_concat h.ends _⟩
    rw [granted_concat, h.regions, List.map_append, List.map_singleton, hc]
    refine congrArg (· ++ _) (List.map_congr_left fun y hy => ?_)
    rw [hold y hy]

/-- Every run in which the requests fit. -/
theorem served_run (v : Nat → UInt8) (hsize : 18 ≤ cfg.deviceSize)
    (hdevice : cfg.deviceSize ≤ 65540) (hfuel : 0 < fuel) {requests : List UInt32}
    (h : (machine cfg fuel).Along (Fits cfg) (format cfg v) requests) :
    ∃ b alloc, Served cfg ((machine cfg fuel).trace (format cfg v) requests)
      ((machine cfg fuel).run (format cfg v) requests) b alloc :=
  trace_inv (I := fun tr v => ∃ b alloc, Served cfg tr v b alloc) h
    ⟨12, [], format_heap v hsize (by omega), rfl, fun c hc => absurd hc List.not_mem_nil⟩
    fun _ _ _ ⟨_, _, hserved⟩ hfits => hserved.step hfuel hdevice hfits

/-- A request that is granted is not larger than a block can be. -/
theorem WellFormed.lt {addr : Nat} (h : WellFormed cfg (tr ++ [(request, some (.ok addr))]) w) :
    request.toNat < 65536 := by
  obtain ⟨⟨idle, alloc, -, hregions⟩, -, -⟩ := h
  rw [granted_concat] at hregions
  obtain ⟨b, -, -, hle⟩ :=
    hregions (addr, request.toNat) (List.mem_append_right _ List.mem_cons_self)
  exact Nat.lt_of_le_of_lt hle (peek_lt w b 2)

/-- A request that wraps is not granted where the heap stays well-formed. -/
theorem Served.fits (h : Served cfg tr v b alloc) (hfuel : 0 < fuel)
    (hwell : WellFormed cfg (tr ++ ((machine cfg fuel).step v request).2)
      ((machine cfg fuel).step v request).1) : Fits cfg v request := by
  by_contra hnot
  simp only [Fits, not_or, not_forall, Nat.not_lt] at hnot
  obtain ⟨hwraps, idle, alloc', hheap, y, hy, hle⟩ := hnot
  obtain rfl := h.heap.idle_unique hheap
  obtain ⟨c, hbest, hfit⟩ := h.heap.exists_best (List.cons_ne_nil _ _) hfuel
    ((request.toNat + 6) % 4294967296)
  cases hbest with
  | none hnone => exact absurd (hnone y hy) (Nat.not_lt.2 hle)
  | some hmem =>
    have halloc := h.heap.alloc_eq hfit
    rw [if_neg (ne_of_mem_of_not_mem hmem h.heap.idleListed.null)] at halloc
    rw [machine_step halloc] at hwell
    have := hwell.lt
    omega

/-! ## Large devices -/

/-- The first block of a device whose size does not fit ends before the device does. -/
theorem not_wellFormed_format (v : Nat → UInt8) (h : 65553 < cfg.deviceSize) :
    ¬ WellFormed cfg [] (format cfg v) := by
  rintro ⟨⟨idle, alloc, hheap, -⟩, -, -⟩
  obtain ⟨hlists, -, hz⟩ := format_lists cfg v
  obtain ⟨hnidle, hnalloc, -⟩ := List.nodup_append.1 hheap.nodup
  obtain rfl := hlists.idleListed.unique hheap.idleListed (List.nodup_singleton _) hnidle
  obtain rfl := hlists.allocListed.unique hheap.allocListed List.nodup_nil hnalloc
  obtain ⟨x, hx, -, hlt⟩ := hheap.exists_block (a := cfg.deviceSize - 1) (by omega) (by omega)
  obtain rfl := List.mem_singleton.1 hx
  rw [hz] at hlt
  omega

/-- The only idle block is divided where no block can begin. -/
theorem Heap.takeBlock_null (h : Heap cfg v [b] alloc) (hnull : b + 6 + size = null) :
    peek (Direct.takeBlock v size b) b 2 = size := by
  have hnull' : null = 65535 := rfl
  have hb : b ∈ [b] ++ alloc := List.mem_cons_self
  have hb12 := h.spaced.bound b hb
  have hlists : Lists (poke v b 2 size) ([] ++ b :: []) alloc := h.lists.resize hb size
  obtain ⟨hmove, hkept⟩ := hlists.move
  have hnode : (b + heapNode.size + size) % 65536 = null := by
    simp only [heapNode]
    omega
  have hidle' {z : Nat} : Listed (header _ null z) 4 [] :=
    ⟨(peek_header (by omega)).trans hmove.idleListed.front, ring_nil, List.not_mem_nil⟩
  have haway : Away [null] b 2 := fun x hx => by
    rw [List.mem_singleton.1 hx]
    omega
  simp only [Direct.takeBlock, hnode]
  rw [hidle'.relinks_add b 2 (.inr (by omega)) haway, peek_header (by omega), hkept.2 b hb,
    peek_poke_self]
  exact Nat.mod_eq_of_lt (by omega)

/-- On a device that is a little smaller, the block behind 65517 bytes begins at `null`. -/
theorem not_wellFormed_null (v : Nat → UInt8) (hfuel : 0 < fuel) (h : 65540 < cfg.deviceSize)
    (h' : cfg.deviceSize ≤ 65553) (hrequest : request.toNat = 65517) :
    ¬ WellFormed cfg ((machine cfg fuel).trace (format cfg v) [request])
      ((machine cfg fuel).run (format cfg v) [request]) := by
  have hnull : null = 65535 := rfl
  have htake := (format_heap v (by omega) h').takeBlock_null
    (hrequest ▸ hnull.symm : 12 + 6 + request.toNat = null)
  rw [run_cons, run_nil, trace_cons, machine_step (format_alloc v (by omega) h' hfuel (by omega))]
  rintro ⟨⟨idle, alloc, hheap, hregions⟩, -, -⟩
  obtain ⟨b, hb, haddr, -⟩ := hregions (18, request.toNat) List.mem_cons_self
  obtain rfl : b = 12 := by
    dsimp only at haddr
    omega
  -- no block begins where the first one ends
  obtain ⟨x, hx, -, hlt⟩ := hheap.exists_block (a := 65535) (by decide) (by omega)
  have hxlt := hheap.lt_null hx
  have hapart := hheap.block_apart hx (List.mem_append_right _ hb)
  dsimp only at hlt hapart
  rcases hapart with rfl | hapart
  · omega
  · omega

end

section
variable (cfg : Config) (fuel : Nat) (content : Nat → UInt8)

/-- **Where the heap stays well-formed.** A call of `alloc` that fails changes nothing. From a
device that has been formatted, whatever it contained, all sequences of calls in which no size
wraps leave a well-formed heap exactly if the device has at most 65540 bytes. On such a device a
run with any requests keeps the heap well-formed exactly if no request that wraps finds an idle
block that is large enough for what is left. -/
theorem alloc_wellFormed_iff (hsize : 18 ≤ cfg.deviceSize) :
    (∀ v w size e, Direct.alloc cfg (fuel + 1) size v = some (.error e, w) → w = v) ∧
    ((∀ requests : List UInt32, (∀ request ∈ requests, request.toNat + 6 < 4294967296) →
        WellFormed cfg ((machine cfg (fuel + 1)).trace (format cfg content) requests)
          ((machine cfg (fuel + 1)).run (format cfg content) requests)) ↔
      cfg.deviceSize ≤ 65540) ∧
    (cfg.deviceSize ≤ 65540 → ∀ requests : List UInt32,
      (∀ pre, pre <+: requests →
        WellFormed cfg ((machine cfg (fuel + 1)).trace (format cfg content) pre)
          ((machine cfg (fuel + 1)).run (format cfg content) pre)) ↔
      (machine cfg (fuel + 1)).Along (Fits cfg) (format cfg content) requests) := by
  have hfuel : 0 < fuel + 1 := Nat.succ_pos fuel
  have hwell : cfg.deviceSize ≤ 65540 → ∀ requests : List UInt32,
      (machine cfg (fuel + 1)).Along (Fits cfg) (format cfg content) requests →
      WellFormed cfg ((machine cfg (fuel + 1)).trace (format cfg content) requests)
        ((machine cfg (fuel + 1)).run (format cfg content) requests) := by
    intro hdevice requests h
    obtain ⟨b, alloc, hserved⟩ := served_run content hsize hdevice hfuel h
    exact hserved.wellFormed
  refine ⟨fun v w size e h => alloc_error h, ⟨fun h => ?_, fun hdevice requests hrequests => ?_⟩,
    fun hdevice requests => ⟨fun h => ?_, ?_⟩⟩
  · by_contra hlarge
    rcases Nat.lt_or_ge 65553 cfg.deviceSize with hlt | hle
    · have hwell := h [] fun _ hrequest => absurd hrequest List.not_mem_nil
      rw [trace_nil, run_nil] at hwell
      exact not_wellFormed_format content hlt hwell
    · have hrequest : (65517 : UInt32).toNat = 65517 := rfl
      refine not_wellFormed_null content hfuel (by omega) hle hrequest (h _ ?_)
      intro request hmem
      rw [List.mem_singleton.1 hmem, hrequest]
      decide
  · exact hwell hdevice requests
      (along_of_mem fun request hrequest _ => .inl (hrequests request hrequest))
  · induction requests using List.reverseRecOn with
    | nil => trivial
    | append_singleton pre request ih =>
      have hpre := ih fun pre' hpre' => h pre' (hpre'.trans (List.prefix_append pre [request]))
      obtain ⟨b, alloc, hserved⟩ := served_run content hsize hdevice hfuel hpre
      have hlast := h (pre ++ [request]) (List.prefix_refl _)
      rw [trace_concat, run_concat] at hlast
      exact (along_append pre [request]).2 ⟨hpre, hserved.fits hfuel hlast, trivial⟩
  · rintro hfits pre ⟨post, rfl⟩
    exact hwell hdevice pre hfits.left

end

/-- On a blank device of 2048 bytes, all requests that do not wrap. -/
theorem alloc_wellFormed_blank :
    18 ≤ 2048 ∧ ∀ requests : List UInt32, (∀ request ∈ requests, request.toNat + 6 < 4294967296) →
      WellFormed ⟨0x4D657461, 2048⟩
        ((machine ⟨0x4D657461, 2048⟩ 1).trace (format ⟨0x4D657461, 2048⟩ fun _ => 0xff) requests)
        ((machine ⟨0x4D657461, 2048⟩ 1).run (format ⟨0x4D657461, 2048⟩ fun _ => 0xff) requests) :=
  ⟨by decide, (alloc_wellFormed_iff ⟨0x4D657461, 2048⟩ 0 (fun _ => 0xff) (by decide)).2.1.2
    (by decide)⟩

/-- On a device of 128 KiB the first block does not reach to the end. On one of 65541 bytes a
request of 65517 bytes is granted, and the rest of the block is lost, as it would begin at `null`.
A request of 4294967295 bytes is granted on a device of 2048: the block has 65535 bytes then, and
the idle block behind it begins in its header. -/
theorem alloc_large_device :
    ¬ WellFormed ⟨0x4D657461, 131072⟩ [] (format ⟨0x4D657461, 131072⟩ fun _ => 0xff) ∧
    ¬ WellFormed ⟨0x4D657461, 65541⟩
      ((machine ⟨0x4D657461, 65541⟩ 1).trace (format ⟨0x4D657461, 65541⟩ fun _ => 0xff) [65517])
      ((machine ⟨0x4D657461, 65541⟩ 1).run (format ⟨0x4D657461, 65541⟩ fun _ => 0xff) [65517]) ∧
    (machine ⟨0x4D657461, 2048⟩ 1).trace (format ⟨0x4D657461, 2048⟩ fun _ => 0xff) [0xffffffff] =
      [(0xffffffff, some (.ok 18))] ∧
    ¬ WellFormed ⟨0x4D657461, 2048⟩
      ((machine ⟨0x4D657461, 2048⟩ 1).trace (format ⟨0x4D657461, 2048⟩ fun _ => 0xff) [0xffffffff])
      ((machine ⟨0x4D657461, 2048⟩ 1).run (format ⟨0x4D657461, 2048⟩ fun _ => 0xff)
        [0xffffffff]) := by
  have halloc : Direct.alloc ⟨0x4D657461, 2048⟩ 1 (0xffffffff : UInt32).toNat
      (format ⟨0x4D657461, 2048⟩ fun _ => 0xff) = some (.ok 18, takeBlock (format _ _) _ 12) :=
    format_alloc _ (by decide) (by decide) Nat.one_pos (by decide)
  have htrace : (machine ⟨0x4D657461, 2048⟩ 1).trace (format ⟨0x4D657461, 2048⟩ fun _ => 0xff)
      [0xffffffff] = [] ++ [(0xffffffff, some (.ok 18))] := by
    rw [trace_cons, machine_step halloc]
    rfl
  refine ⟨not_wellFormed_format _ (by decide),
    not_wellFormed_null _ Nat.one_pos (by decide) (by decide) rfl, htrace, ?_⟩
  rw [htrace]
  intro h
  exact absurd h.lt (by decide)

end ChargingPile.Eeprom.Direct
